import Obscura.Ast.Node
import Obscura.Json.Printer
import Obscura.Literal.Truth
import Obscura.Session

/-
  The truth-value pass on a file. If the compiler gives syntax trees for the
  file, the literals are found in the trees and swapped by byte; else the text of
  the file is searched. Ranges that overlap are thinned out first.
-/

namespace Obscura.Literal

open Text Ast

structure TruthNode where
  src : String
  value : Option Bool
deriving Repr, DecidableEq

def namedTruth : Json → Option Bool
  | .str s => truthWord? s.toList
  | _ => none

/-- The attributes of a node in the older layout of trees: those of an object,
or `none` if the attributes are something else. -/
def attributesOf (ms : Members) : Option Members :=
  match Json.lookup "attributes" ms with
  | none => some []
  | some (.obj attrs) => some attrs
  | some _ => none

def valueOf (ms : Members) : Json :=
  (Json.fieldOf "value" ms).orElse (Json.fieldOf "literal" ms)

def isLiteralKind (ms : Members) : Bool :=
  let kind := (((Json.fieldOf "name" ms).orElse (Json.fieldOf "nodeType" ms)).orElse
    (Json.fieldOf "type" ms)).orElse (.str "")
  match kind with
  | .str s => occurs "Literal".toList s.toList || occurs "Boolean".toList s.toList
  | _ => false

def truthNode? (ms : Members) : Option TruthNode :=
  let attrs := attributesOf ms
  let src := match attrs with
    | some a => (Json.fieldOf "src" a).orElse (Json.fieldOf "src" ms)
    | none => Json.fieldOf "src" ms
  let inner := attrs.bind fun a => namedTruth (valueOf a)
  let value := (namedTruth (valueOf ms)).or inner
  match src with
  | .str s => if value.isSome || isLiteralKind ms then some ⟨s, value⟩ else none
  | _ => none

mutual

def truthNodes : Json → List TruthNode
  | .obj ms => (truthNode? ms).toList ++ truthNodesOfMembers ms
  | .arr items => truthNodesOfItems items
  | _ => []

def truthNodesOfMembers : Members → List TruthNode
  | [] => []
  | (k, v) :: ms => (if k = "attributes" then [] else truthNodes v) ++ truthNodesOfMembers ms

def truthNodesOfItems : List Json → List TruthNode
  | [] => []
  | v :: vs => truthNodes v ++ truthNodesOfItems vs

end

def truthNodesOfAll (container : Json) : Except Fault (List TruthNode) := do
  match container with
  | .obj ms =>
    let items ← ((Json.lookup "asts" ms).getD (.arr [])).loopItems
    return truthNodesOfItems items
  | _ => throw .notObject

structure ByteSwap where
  start : Nat
  stop : Nat
  literal : Chars
  replacement : Chars
deriving Repr, DecidableEq

def candidateValue (slice : Chars) (node : TruthNode) : Option Bool :=
  (truthWord? (trim slice)).or node.value

def candidateRange (n : Nat) (node : TruthNode) : Option (Nat × Nat) :=
  match Location.read? node.src.toList with
  | some l =>
    if l.start < 0 ∨ (n : Int) < l.start + l.length ∨ l.start + l.length ≤ l.start then none
    else some (l.start.toNat, (l.start + l.length).toNat)
  | none => none

def drawSwaps (bytes : Bytes) : List TruthNode → Sampled (List ByteSwap)
  | [] => return []
  | node :: rest =>
    match candidateRange bytes.length node with
    | none => drawSwaps bytes rest
    | some (a, b) =>
      let literal := decodeLossy ((bytes.take b).drop a)
      match candidateValue literal node with
      | none => drawSwaps bytes rest
      | some v => do
        let f := (← truthFormula v).text
        return ⟨a, b, literal, f⟩ :: (← drawSwaps bytes rest)

def ByteSwap.precedes (x y : ByteSwap) : Bool :=
  x.start < y.start || (x.start == y.start && y.stop - y.start ≤ x.stop - x.start)

/-- Keep each range that starts at or behind the end of the last one kept. -/
def keepApart (last : Nat) : List ByteSwap → List ByteSwap
  | [] => []
  | x :: xs => if last ≤ x.start then x :: keepApart x.stop xs else keepApart last xs

def thinOut (xs : List ByteSwap) : List ByteSwap :=
  keepApart 0 (xs.mergeSort ByteSwap.precedes)

def applySwaps (bytes : Bytes) (xs : List ByteSwap) : Bytes :=
  xs.reverse.foldl (fun s x => splice s x.start x.stop (encode x.replacement)) bytes

/-- Swap the literals that the candidates name; the swaps are listed from the
last to the first. -/
def swapInBytes (bytes : Bytes) (nodes : List TruthNode) : Sampled (Bytes × List Swap) := do
  let xs := thinOut (← drawSwaps bytes nodes)
  return (applySwaps bytes xs,
    xs.reverse.map fun x => ⟨x.start, x.stop, x.literal, x.replacement, .tree⟩)

def treesOf (path : String) : Run (Option Json) := do
  if (← getThe Session).compiler.present then
    match ← Run.attempt (Run.compile path) with
    | .ok units =>
      let trees := units.filterMap fun u => u.2.filter Json.isSet
      return if trees.isEmpty then none else some (.obj [("asts", .arr trees)])
    | .error _ => return none
  else return none

def swapTruthsInFile (path version : String) (announce : Bool) :
    Run (Chars × List Swap) := do
  unless (← Run.files).exist path do throw (.inputMissing path)
  let bytes ← Run.readBytes path
  let _ ← Run.ensureVersion version
  let (text, ops) ← match ← treesOf path with
    | none => Run.sample (swapTruths (decodeLossy bytes))
    | some container => do
      let nodes ← Run.ofExcept (truthNodesOfAll container)
      let (out, ops) ← Run.sample (swapInBytes bytes nodes)
      pure (decodeLossy out, ops)
  if announce then Run.say "[INFO] (in-memory mode) Boolean obfuscation completed."
  return (unifyNewlines text, ops)

/-- Swap the truth values of a text. If a path is given and exists, the file
there is taken instead, unless that fails. -/
def swapTruthsOf (text : Chars) (path : Option String) (version : String) :
    Run (Chars × List Swap) := do
  match path with
  | none => Run.sample (swapTruths text)
  | some p =>
    if (← Run.files).exist p then
      match ← Run.attempt (swapTruthsInFile p version true) with
      | .ok r => return r
      | .error _ => Run.sample (swapTruths text)
    else Run.sample (swapTruths text)

/-- Compile a file and write the trees of its units as JSON, by name of unit; an
empty or missing path stands for a file beside the compiled one. Gives the path
written, if all goes well. -/
def dumpTrees (path : String) (out : Option String) (version : String) :
    Run (Option String) := do
  if !(← getThe Session).compiler.present then
    Run.say "[WARN] py-solc-x not installed, cannot dump AST."
    return none
  let _ ← Run.ensureVersion version
  match ← Run.attempt (Run.compile path) with
  | .error _ =>
    Run.say "[ERROR] solc compile failed: <detail>"
    return none
  | .ok units =>
    let beside := (← Run.files).besides path "ast_boolean.json"
    let target := match out with
      | some o => if o.isEmpty then beside else o
      | none => beside
    let trees := Json.obj (units.map fun u => (u.1, u.2.getD (.obj [])))
    match ← Run.attempt (Run.writeText target (Json.print .tree trees)) with
    | .ok _ =>
      Run.say ("[INFO] AST dumped to: " ++ target)
      return some target
    | .error _ =>
      Run.say "[ERROR] failed to write AST JSON: <detail>"
      return none

end Obscura.Literal
