import Obscura.Flow.Block

/-
  Flattening: the bodies of functions are replaced by dispatchers.
-/

namespace Obscura.Flow

/-! ## Dispatchers -/

open Text

def armText (first : Bool) (b : Block) : Chars :=
  let code := indent "                ".toList (trim (dedent b.content))
  let jump := match b.next with
    | some n => "                state = ".toList ++ Number.digits n ++ ";\n".toList
    | none => []
  "            ".toList ++ (if first then "if".toList else "else if".toList)
    ++ " (state == ".toList ++ Number.digits b.id ++ ") \x7b\n".toList
    ++ code ++ '\n' :: (jump ++ "            \x7d\n".toList)

def armsText : List Block → Chars
  | [] => []
  | b :: bs => armText true b ++ bs.flatMap (armText false)

def hoistedText (hoisted : List Chars) : Chars :=
  if hoisted.isEmpty then []
  else "        // --- Hoisted Local Variables ---\n".toList
    ++ hoisted.flatMap (· ++ ['\n'])
    ++ "        // -------------------------------\n\n".toList

def dispatcherText (blocks : List Block) (hoisted : List Chars) : Chars :=
  "\x7b\n".toList ++ hoistedText hoisted
    ++ "        uint256 state = 1;\n        while (state != 0) \x7b\n".toList
    ++ armsText blocks ++ "        \x7d\n    \x7d".toList

def dispatcher (c : Chart) : Sampled Chars := do
  return dispatcherText (← Sampled.shuffle c.blocks) c.hoisted

/-! ## Functions -/

open Ast Json

structure Body where
  node : Members
  range : Range

def bodyHere (ms : Members) : Except Fault (List Body) := do
  if !isKind "FunctionDefinition" ms || !(fieldOf "implemented" ms).isSet then return []
  match fieldOf "body" ms with
  | .obj body =>
    let src := fieldOf "src" body
    if src.isSet then return [⟨body, ← rangeIn src⟩] else return []
  | v => if v.isSet then throw .notObject else return []

def bodies (tree : Json) : Except Fault (List Body) := do
  match tree with
  | .obj _ => return (← (directNodes tree).mapM bodyHere).flatten
  | _ => throw .notObject

def branchKinds : List String :=
  ["IfStatement", "WhileStatement", "ForStatement", "DoWhileStatement"]

def hasBranching (node : Json) : Bool :=
  (directNodes node).any fun ms => branchKinds.any (isKind · ms)

/-- The statements of a body that is flattened: there are at least two, or one of
them branches. -/
def flattened? (b : Body) : Except Fault (Option (List Json)) := do
  let statements := (lookup "statements" b.node).getD (.arr [])
  if !statements.isSet then return none
  let items ← statements.loopItems
  if items.length < 2 && !hasBranching (.obj b.node) then return none
  return some items

/-- Flatten the bodies one after the other; `s` is the text that the ranges cut,
`out` what was made of it so far, with the number of bodies. -/
def flattenBodies (s : Bytes) : List Body → Bytes × Nat → Run (Bytes × Nat)
  | [], out => return out
  | b :: bs, out => do
    match ← Run.ofExcept (flattened? b) with
    | none => flattenBodies s bs out
    | some statements =>
      let chart ← Run.ofExcept (chartOf s statements)
      let text ← Run.sample (dispatcher chart)
      flattenBodies s bs (splice out.1 b.range.start b.range.stop (encode text), out.2 + 1)

def flattenWith (source : Chars) (tree : Json) : Run Chars := do
  let s := encode source
  let found ← Run.ofExcept (bodies tree)
  let ordered := found.mergeSort fun a b => decide (b.range.start ≤ a.range.start)
  let (out, n) ← flattenBodies s ordered (s, 0)
  Run.say ("[INFO] Flattened control flow for " ++ String.ofList (Number.digits n) ++ " functions.")
  Run.ofExcept (decoded out)

/-- Flatten the functions of a source; without a tree it stays as it is. -/
def flatten (source : Chars) : Run (Chars × Nat) := do
  match ← treeOfText with
  | none => return (source, 0)
  | some tree =>
    let out ← flattenWith source tree
    return (out, changed source out)

end Obscura.Flow
