import Obscura.Ast.Range

/-
  The tree of the sample contract, as a compiler would give it: each node says
  where it stands. Where a word of the text occurs more than once, the node says
  which time is meant.
-/

namespace Obscura.Workload

/-! ## Samples -/

open Text Number

def sampleLines : List String :=
  [ "// SPDX-License-Identifier: MIT"
  , "pragma solidity ^0.8.0;"
  , "/// natspec line"
  , "/* block comment */"
  , "contract Demo \x7b"
  , "    address public owner;"
  , "    uint256 private storedValue;"
  , "    bool private flag;"
  , "    string private note;"
  , "    modifier onlyOwner() \x7b"
  , "        require(msg.sender == owner, \"Not owner\");"
  , "        _;"
  , "    \x7d"
  , "    function _calc(uint256 val) internal pure returns (uint256) \x7b"
  , "        return val * 2 + 3;"
  , "    \x7d"
  , "    function compute(uint256 a) public onlyOwner \x7b"
  , "        uint256 tmp = _calc(a); // trailing comment"
  , "        bool ok = true;"
  , "        address who;"
  , "        string memory s;"
  , "        bytes memory bb;"
  , "        uint256 zz;"
  , "        if (ok) \x7b"
  , "            storedValue = tmp;"
  , "        \x7d else \x7b"
  , "            storedValue = 0;"
  , "        \x7d"
  , "        while (tmp > 0) \x7b"
  , "            tmp = tmp - 1;"
  , "        \x7d"
  , "        storedValue = tmp + zz;"
  , "        revert(\"no\");"
  , "    \x7d"
  , "    function getVal() public view returns (uint256) \x7b"
  , "        return storedValue;"
  , "    \x7d"
  , "    event Stored(uint256 v);"
  , "    struct Pair \x7b uint256 x; \x7d"
  , "    enum Mode \x7b A, B \x7d"
  , "    error Bad();"
  , "\x7d" ]

def sample : Chars :=
  (sampleLines.map fun l => l.toList ++ ['\n']).flatten

def sampleName : Chars := "Demo".toList

def numberedSample (n : Nat) : Chars :=
  replaceAll sampleName (sampleName ++ digits n) (by decide) sample

def manySamples (n : Nat) : Chars :=
  joinWith ['\n'] ((List.range n).map numberedSample)

/-! ## Places -/

structure Place where
  start : Int
  length : Nat
deriving Repr, DecidableEq

/-- The offset of the `n`-th time that bytes occur, which may overlap; before the
first time there is the offset minus one. -/
def offsetOf (text word : Bytes) : Nat → Except Fault Int
  | 0 => .ok (-1)
  | n + 1 => do
    let p ← offsetOf text word n
    match findFrom? word text (p + 1).toNat with
    | some q => .ok q
    | none => .error .badNumber

def placeOf (text word : Chars) (n : Nat) : Except Fault Place := do
  let p ← offsetOf (encode text) (encode word) n
  return ⟨p, (encode word).length⟩

def rangeText (start length : Int) : String :=
  String.ofList (render start ++ ':' :: render length ++ ":0".toList)

def Place.text (p : Place) : String :=
  rangeText p.start p.length

/-! ## Trees -/

def rangeIn (word : String) (n : Nat) : Json :=
  match placeOf sample word.toList n with
  | .ok p => .str p.text
  | .error _ => .str "0:0:0"

def nodeAt (kind : String) (n : Nat) (word : String) (members : Members) : Json :=
  .obj (members ++ [("nodeType", .str kind), ("src", rangeIn word n)])

def node (kind word : String) (members : Members) : Json :=
  nodeAt kind 1 word members

/-- Lines of the sample from the one with number `i`, `n` of them; the first starts
with the given text. -/
def block (opening : String) (i n : Nat) : String :=
  opening ++ "\n" ++ "\n".intercalate ((sampleLines.drop i).take n)

def use (name : String) (n : Nat) (declaration : Option Nat) : Json :=
  .obj ([("name", .str name), ("nodeType", .str "Identifier")]
    ++ (match declaration with
      | some d => [("referencedDeclaration", .int d)]
      | none => [])
    ++ [("src", rangeIn name n)])

def literal (kind value word : String) (n : Nat) : Json :=
  .obj [("kind", .str kind), ("nodeType", .str "Literal"), ("src", rangeIn word n),
    ("value", .str value)]

def described (type : String) : String × Json :=
  ("typeDescriptions", .obj [("typeString", .str type)])

def stateVariable (id : Nat) (type visibility name : String) : Json :=
  .obj [("constant", .bool false), ("id", .int id), ("name", .str name),
    ("nodeType", .str "VariableDeclaration"),
    ("src", rangeIn (type ++ " " ++ visibility ++ " " ++ name) 1), ("stateVariable", .bool true),
    described type, ("value", .null), ("visibility", .str visibility)]

def localVariable (id : Nat) (word : String) (n : Nat) (type name text : String) : Json :=
  .obj [("id", .int id), ("name", .str name), ("nodeType", .str "VariableDeclaration"),
    ("src", rangeIn text 1), ("stateVariable", .bool false), described type,
    ("typeName", nodeAt "ElementaryTypeName" n word [])]

def declaring (declared : Json) (text : String) (value : Json) : Json :=
  .obj [("declarations", .arr [declared]), ("initialValue", value),
    ("nodeType", .str "VariableDeclarationStatement"), ("src", rangeIn text 1)]

def expressing (kind text : String) (members : Members) : Json :=
  node "ExpressionStatement" text [("expression", node kind text members)]

/-- A statement that assigns to the stored value; `n` says which time it is named. -/
def storing (text : String) (n : Nat) (value : Json) : Json :=
  expressing "Assignment" text [("left", use "storedValue" n (some 11)), ("right", value)]

def parameters (ps : List Json) : String × Json :=
  ("parameters", .obj [("parameters", .arr ps)])

def modifierNode : Json :=
  node "ModifierDefinition" "modifier onlyOwner()"
    [ ("body", node "Block" (block "\x7b" 10 3)
        [("statements", .arr
          [ expressing "FunctionCall" "require(msg.sender == owner, \"Not owner\")"
              [ ("arguments", .arr
                  [ node "BinaryOperation" "msg.sender == owner" []
                  , literal "string" "Not owner" "\"Not owner\"" 1 ])
              , ("expression", use "require" 1 none) ]
          , node "PlaceholderStatement" "_;" [] ])])
    , ("id", .int 20), ("name", .str "onlyOwner") ]

def innerFunctionNode : Json :=
  node "FunctionDefinition" "function _calc(uint256 val) internal pure returns (uint256)"
    [ ("body", node "Block" (block "\x7b" 14 2)
        [("statements", .arr
          [ node "Return" "return val * 2 + 3"
              [("expression", node "BinaryOperation" "val * 2 + 3"
                [("left", use "val" 2 (some 31))])] ])])
    , ("id", .int 30), ("implemented", .bool true), ("modifiers", .arr [])
    , ("name", .str "_calc")
    , parameters [localVariable 31 "uint256" 2 "uint256" "val" "uint256 val"]
    , ("stateMutability", .str "pure"), ("visibility", .str "internal") ]

def branchNode : Json :=
  node "IfStatement" "if (ok)"
    [ ("condition", use "ok" 2 (some 51))
    , ("falseBody", node "Block" (block "\x7b" 26 2)
        [("statements", .arr [storing "storedValue = 0" 3 (literal "number" "0" "0" 3)])])
    , ("trueBody", node "Block" "\x7b\n            storedValue = tmp;\n        \x7d"
        [("statements", .arr [storing "storedValue = tmp" 2 (use "tmp" 2 (some 50))])]) ]

def loopNode : Json :=
  node "WhileStatement" "while (tmp > 0)"
    [ ("body", node "Block" (block "\x7b" 29 2) [("statements", .arr [])])
    , ("condition", node "BinaryOperation" "tmp > 0"
        [("left", use "tmp" 3 (some 50)), ("right", literal "number" "0" "0" 4)]) ]

def localNodes : List Json :=
  [ declaring (localVariable 50 "uint256" 5 "uint256" "tmp" "uint256 tmp") "uint256 tmp = _calc(a)"
      (node "FunctionCall" "_calc(a)"
        [ ("arguments", .arr [use "a" 17 (some 41)]), ("expression", use "_calc" 2 (some 30)) ])
  , declaring (localVariable 51 "bool" 2 "bool" "ok" "bool ok") "bool ok = true"
      (literal "bool" "true" "true" 1)
  , declaring (localVariable 52 "address" 2 "address" "who" "address who") "address who" .null
  , declaring (localVariable 53 "string" 2 "string memory" "s" "string memory s") "string memory s"
      .null
  , declaring (localVariable 54 "bytes" 1 "bytes memory" "bb" "bytes memory bb") "bytes memory bb"
      .null
  , declaring (localVariable 55 "uint256" 6 "uint256" "zz" "uint256 zz") "uint256 zz" .null ]

def outerFunctionNode : Json :=
  node "FunctionDefinition" "function compute(uint256 a) public onlyOwner"
    [ ("body", node "Block" (block "\x7b" 17 17)
        [("statements", .arr (localNodes ++
          [ branchNode, loopNode
          , storing "storedValue = tmp + zz" 4 (node "BinaryOperation" "tmp + zz"
              [("left", use "tmp" 6 (some 50)), ("right", use "zz" 2 (some 55))])
          , expressing "FunctionCall" "revert(\"no\")"
              [("arguments", .arr []), ("expression", use "revert" 1 none)] ]))])
    , ("id", .int 40), ("implemented", .bool true)
    , ("modifiers", .arr
        [nodeAt "ModifierInvocation" 2 "onlyOwner" [("modifierName", use "onlyOwner" 2 (some 20))]])
    , ("name", .str "compute")
    , parameters [localVariable 41 "uint256" 4 "uint256" "a" "uint256 a"]
    , ("stateMutability", .str "nonpayable"), ("visibility", .str "public") ]

def getterNode : Json :=
  node "FunctionDefinition" "function getVal()"
    [ ("body", node "Block" (block "\x7b" 35 2)
        [("statements", .arr
          [node "Return" "return storedValue" [("expression", use "storedValue" 5 (some 11))]])])
    , ("id", .int 60), ("implemented", .bool true), ("modifiers", .arr [])
    , ("name", .str "getVal"), parameters []
    , ("stateMutability", .str "view"), ("visibility", .str "public") ]

def nameNode (kind : String) (id : Nat) (name text : String) : Json :=
  node kind text [("id", .int id), ("name", .str name)]

def memberNodes : List Json :=
  [ stateVariable 10 "address" "public" "owner"
  , stateVariable 11 "uint256" "private" "storedValue"
  , stateVariable 12 "bool" "private" "flag"
  , stateVariable 13 "string" "private" "note"
  , modifierNode, innerFunctionNode, outerFunctionNode, getterNode
  , nameNode "EventDefinition" 70 "Stored" "event Stored(uint256 v)"
  , nameNode "StructDefinition" 71 "Pair" "struct Pair"
  , nameNode "EnumDefinition" 72 "Mode" "enum Mode"
  , nameNode "ErrorDefinition" 73 "Bad" "error Bad()" ]

def rangeFrom (start : Nat) : Json :=
  .str (rangeText start ((encode sample).length - start : Nat))

def contractStart : Nat :=
  match placeOf sample "contract Demo".toList 1 with
  | .ok p => p.start.toNat
  | .error _ => 0

/-- The tree of the sample, with further members of its contract. Beside its nodes
it holds a literal in the way of older trees. -/
def sampleTreeWith (further : List Json) : Json :=
  .obj
    [ ("attributes", .obj [("kind", .str "number"), ("nodeType", .str "Literal"),
        ("src", .str (rangeText 0 1)), ("value", .int 42)])
    , ("id", .int 1), ("nodeType", .str "SourceUnit")
    , ("nodes", .arr
        [ node "PragmaDirective" "pragma solidity ^0.8.0;" []
        , .obj [("id", .int 100), ("name", .str "Demo"), ("nodeType", .str "ContractDefinition"),
            ("nodes", .arr (memberNodes ++ further)), ("src", rangeFrom contractStart)] ])
    , ("src", rangeFrom 0) ]

def sampleTree : Json := sampleTreeWith []

end Obscura.Workload
