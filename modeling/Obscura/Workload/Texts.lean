import Obscura.Workload.Tree

/-
  Texts that grow with a size, with their trees: many numbers, many truth values,
  many state variables, many local variables, many names.
-/

namespace Obscura.Workload

open Text Number

def repeated (n : Nat) (line : Nat → Chars) : Chars :=
  ((List.range n).map line).flatten

def nodeWith (kind : String) (range : Place) (members : Members) : Json :=
  .obj (members ++ [("nodeType", .str kind), ("src", .str range.text)])

/-! ## Numbers -/

def numbersHeader : Chars :=
  "// SPDX-License-Identifier: MIT\npragma solidity ^0.8.0;\n".toList

/-- A line of numbers, two of its words being none. -/
def numbersLine : Chars :=
  "7 123 0 99 42 55 8 1 1000 77 \"s\" 1.5\n".toList

def numbersText (n : Nat) : Chars :=
  numbersHeader ++ repeated n fun _ => numbersLine

/-! ## Truth values -/

def truthsHeader : Chars :=
  "pragma solidity ^0.8.0;\ncontract B \x7b\n".toList

def truthsLine (i : Nat) : Chars :=
  "    bool on".toList ++ digits i ++ " = true; bool off".toList ++ digits i
    ++ " = false; // true and false in comments stay as they are\n".toList

def truthsText (n : Nat) : Chars :=
  truthsHeader ++ repeated n truthsLine ++ "\x7d\n".toList

def truthNode (value : String) (p : Place) : Json :=
  nodeWith "Literal" p [("kind", .str "bool"), ("value", .str value)]

def truthPlaces (text : Chars) (value : String) (n : Nat) : Except Fault (List Place) :=
  (List.range n).mapM fun i => do
    let p ← placeOf text (" = " ++ value).toList (i + 1)
    return ⟨p.start + 3, value.length⟩

/-- The tree of such a text: first what holds, then what does not. -/
def truthsTree (n : Nat) : Except Fault Json := do
  let text := truthsText n
  let hold ← truthPlaces text "true" n
  let fail ← truthPlaces text "false" n
  match hold with
  | [] => .error .outOfRange
  | _ => return .obj [("nodeType", .str "SourceUnit"),
      ("nodes", .arr (hold.map (truthNode "true") ++ fail.map (truthNode "false")))]

/-! ## State variables -/

def stateName (i : Nat) : Chars := 'v' :: digits i

def stateText (n : Nat) : Chars :=
  "contract S \x7b\n".toList
    ++ repeated n (fun i => "    uint256 ".toList ++ stateName i ++ ";\n".toList)
    ++ repeated n (fun i =>
      "        ".toList ++ stateName i ++ " = ".toList ++ digits i ++ " + 1;\n".toList)
    ++ "\x7d\n".toList

/-- The nodes of the state variable with number `i`: where it is declared and where
it is used. -/
def stateNodes (text : Chars) (i : Nat) : Except Fault (List Json) := do
  let declared ← placeOf text ("uint256 ".toList ++ stateName i ++ [';']) 1
  let used ← placeOf text (stateName i ++ " = ".toList) 1
  return [
    nodeWith "VariableDeclaration" ⟨declared.start, declared.length - 1⟩
      [ ("constant", .bool false), ("id", .int (1000 + i : Nat))
      , ("name", .str (String.ofList (stateName i))), ("stateVariable", .bool true)
      , described "uint256", ("value", .null), ("visibility", .str "private") ],
    nodeWith "Identifier" ⟨used.start, (stateName i).length⟩
      [ ("name", .str (String.ofList (stateName i)))
      , ("referencedDeclaration", .int (1000 + i : Nat)) ] ]

def stateTree (n : Nat) : Except Fault Json := do
  let text := stateText n
  let nodes ← (List.range n).mapM (stateNodes text)
  return .obj [("nodeType", .str "SourceUnit"), ("nodes", .arr
    [nodeWith "ContractDefinition" ⟨0, (encode text).length⟩
      [("id", .int 1), ("name", .str "S"), ("nodes", .arr nodes.flatten)]])]

/-! ## Local variables -/

def localName (i : Nat) : Chars := "ex".toList ++ digits i

def localStatement (i : Nat) : Chars × Chars :=
  let value := digits i ++ " + 1".toList
  ("uint256 ".toList ++ localName i ++ " = ".toList ++ value, value)

def localsText (n : Nat) : Chars :=
  sample ++ "function extra() public \x7b\n".toList
    ++ repeated n (fun i => "        ".toList ++ (localStatement i).1 ++ ";\n".toList)
    ++ "\x7d\n".toList

def localNode (text : Chars) (i : Nat) : Except Fault Json := do
  let (statement, value) := localStatement i
  let p ← placeOf text (statement ++ [';']) 1
  let length := statement.length
  return nodeWith "VariableDeclarationStatement" ⟨p.start, length⟩
    [ ("declarations", .arr
        [ nodeWith "VariableDeclaration" ⟨p.start, length - value.length - 3⟩
            [ ("id", .int (1000 + i : Nat)), ("name", .str (String.ofList (localName i)))
            , ("stateVariable", .bool false), described "uint256" ] ])
    , ("initialValue", nodeWith "BinaryOperation"
        ⟨p.start + (length - value.length : Nat), value.length⟩ []) ]

/-- The tree of such a text: that of the sample with one more function. -/
def localsTree (n : Nat) : Except Fault Json := do
  let text := localsText n
  let nodes ← (List.range n).mapM (localNode text)
  let function := Json.obj
    [ ("body", .obj [("nodeType", .str "Block"), ("statements", .arr nodes)])
    , ("id", .int 80), ("name", .str "extra"), ("nodeType", .str "FunctionDefinition")
    , ("stateMutability", .str "nonpayable") ]
  return sampleTreeWith [function]

/-! ## Names -/

def groupSize : Nat := 100

def groupName (k : Nat) : String := "Group_" ++ Nat.repr k

def namesText : Chars :=
  "Registry Group_0 currentTotal previousTotal Group_1".toList

def named (kind name : String) : Json :=
  .obj [("name", .str name), ("nodeType", .str kind)]

def settledNames : List Json :=
  [ named "ContractDefinition" "Registry", named "FunctionDefinition" "enlist"
  , named "ModifierDefinition" "guarded", named "EventDefinition" "Enlisted"
  , named "StructDefinition" "Entry", named "EnumDefinition" "Rank"
  , named "ErrorDefinition" "Unlisted" ]

def groupMember (i : Nat) : Json :=
  match i % 3 with
  | 0 => named "VariableDeclaration" "currentTotal"
  | 1 => named "Identifier" "previousTotal"
  | _ => named "FunctionDefinition" "settle"

def groupNode (n k : Nat) : Json :=
  .obj [ ("name", .str (groupName k)), ("nodeType", .str "ContractDefinition")
       , ("nodes", .arr ((List.range (min groupSize (n - k * groupSize))).map groupMember)) ]

def namesTree (n : Nat) : Json :=
  .obj [ ("nodeType", .str "SourceUnit")
       , ("nodes", .arr (settledNames
          ++ (List.range ((n + groupSize - 1) / groupSize)).map (groupNode n))) ]

end Obscura.Workload
