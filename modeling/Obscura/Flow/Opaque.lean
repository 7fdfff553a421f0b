import Obscura.Flow.Block
import Obscura.Flow.Predicate
import Obscura.Text.Word

/-
  Opaque predicates in a source. Every condition of an `if` or a `while` gets one
  more part that always holds, and the first contract gets the helper that this
  part calls.
-/

namespace Obscura.Flow

open Text Ast Json

inductive Branching where
  | ifStatement
  | whileStatement
deriving Repr, DecidableEq

structure Condition where
  kind : Branching
  src : Json

def branching? (ms : Members) : Option Branching :=
  let name := (fieldOf "nodeType" ms).orElse (fieldOf "name" ms)
  if name.isText "IfStatement" then some .ifStatement
  else if name.isText "WhileStatement" then some .whileStatement
  else none

def conditionHere (ms : Members) : Except Fault (List Condition) := do
  match branching? ms with
  | none => return []
  | some k =>
    let c := fieldOf "condition" ms
    if c.isSet then return [⟨k, ← c.field "src"⟩] else return []

def conditions (tree : Json) : Except Fault (List Condition) := do
  return (← (directNodes tree).mapM conditionHere).flatten

def conditionRanges (cs : List Condition) : List Range :=
  let ranges := cs.filterMap fun c => match c.src with
    | .str s => Range.read? s.toList
    | _ => none
  ranges.mergeSort fun a b => decide (b.start ≤ a.start)

/-- Strengthen one condition of `s` in the text `out` made so far. A range that
does not lie in the text is passed over, and so is a condition that has the part
already. -/
def strengthen (c : Chaotic) (s : Bytes) (out : Bytes × Nat) (r : Range) :
    Except Fault (Bytes × Nat) := do
  if r.start < 0 ∨ (s.length : Int) < r.stop then return out
  let condition ← decoded (slice s r.start r.stop)
  if occurs c.helperName condition then return out
  let text := '(' :: (condition ++ ") && ".toList ++ c.condition)
  return (splice out.1 r.start r.stop (encode text), out.2 + 1)

/-- Behind the last opening brace of a line; `i` counts the characters before
it. -/
def lastBrace? (i : Nat) : Chars → Option Nat
  | [] => none
  | c :: s =>
    if c = '\n' then none
    else match lastBrace? (i + 1) s with
      | some j => some j
      | none => if c = '\x7b' then some (i + 1) else none

/-- The text starts with the header of a contract: the word, blanks, a name, and
an opening brace on the line of the name. Gives how many characters stand up to
the last such brace. -/
def header? (s : Chars) : Option Nat :=
  match stripFront? "contract".toList s with
  | none => none
  | some r =>
    let gap := r.takeWhile isBlank
    match gap, r.dropWhile isBlank with
    | _ :: _, c :: t =>
      if isWord c then (lastBrace? 0 t).map (· + 8 + gap.length + 1) else none
    | _, _ => none

def bodyStart? : Chars → Option Nat
  | [] => none
  | c :: s =>
    match header? (c :: s) with
    | some n => some n
    | none => (bodyStart? s).map (· + 1)

def components (c : Chaotic) : Chars :=
  '\n' :: (c.declaration ++ '\n' :: (c.function ++ ['\n']))

def strengthenAll (c : Chaotic) (source : Chars) (cs : List Condition) :
    Except Fault (Chars × Nat) := do
  let s := encode source
  let (out, n) ← (conditionRanges cs).foldlM (strengthen c s) (s, 0)
  return (← decoded out, n)

/-- Functions that promise to look at nothing promise only to change nothing. -/
def weakenPure (source : Chars) : Chars :=
  replaceWord "pure".toList "view".toList none source

def addHelper (c : Chaotic) (source : Chars) : Option Chars :=
  (bodyStart? source).map fun n => source.take n ++ components c ++ source.drop n

/-- The tree for the pass: that of the text, or for an empty text that of a
file. -/
def opaqueTree (version : String) (source : Chars) (path : Option String) :
    Run (Option Json) := do
  if !(← getThe Session).compiler.present then return none
  let _ ← Run.ensureVersion version
  if !source.isEmpty then treeOfText
  else match path with
    | none => return none
    | some p =>
      if !(← Run.files).exist p then return none
      match ← Run.attempt (Run.compile p) with
      | .ok [] => return none
      | .ok (u :: _) => return u.2.filter Json.isSet
      | .error _ =>
        Run.say "[WARN] AST generation failed: <detail>"
        return none

def insertOpaque (c : Chaotic) (version : String) (source : Chars) (path : Option String) :
    Run Chars := do
  match ← opaqueTree version source path with
  | none =>
    Run.say "[WARN] Could not generate AST for Opaque Predicates. Skipping injection."
    return source
  | some tree =>
    let cs ← Run.ofExcept (conditions tree)
    if cs.isEmpty then
      Run.say "[INFO] No suitable branching points found for Opaque Predicates."
      return source
    let (out, n) ← Run.ofExcept (strengthenAll c source cs)
    if n = 0 then return source
    let out := weakenPure out
    match addHelper c out with
    | some t =>
      Run.say ("[INFO] Injected Opaque Predicates into " ++ String.ofList (Number.digits n)
        ++ " branches and added CPM components (converted pure->view).")
      return t
    | none =>
      Run.say "[WARN] Could not find contract definition to insert CPM helper. Code might be broken."
      return out

def obscureConditions (c : Chaotic) (version : String) (source : Chars) :
    Run (Chars × Nat) := do
  let out ← insertOpaque c version source none
  return (out, changed source out)

end Obscura.Flow
