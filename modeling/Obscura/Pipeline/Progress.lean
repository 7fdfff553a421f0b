import Obscura.Json.Printer
import Obscura.Layout.Pragma
import Obscura.Session

/-
  Progress of a pipeline: the text so far and the file that holds its tree. After
  each pass the text is written down and compiled again; if that fails, the tree
  before stays in use.
-/

namespace Obscura.Pipeline

structure Progress where
  source : Chars
  treePath : String
  steps : Nat
  version : String

def stepPath (n : Nat) : String :=
  "test/test_step" ++ Nat.repr n ++ ".sol"

def stepTreePath (n : Nat) : String :=
  "test/test_ast_step" ++ Nat.repr n ++ ".json"

/-- Where a pipeline starts. -/
def Progress.initial (source : Chars) (version : String) : Progress :=
  ⟨source, stepTreePath 0, 0, version⟩

def writeDown (source : Chars) (path version : String) : Run Unit := do
  match ← Run.attempt Run.install with
  | .ok _ => pure ()
  | .error _ =>
    Run.say ("[WARN] Failed to install/set solc version " ++ version ++ ": install failed")
  Run.makeDirectory "test"
  Run.writeText path source

def compiled (source : Chars) (path version : String) : Run Json := do
  writeDown source path version
  let units ← Run.compile path
  Run.ofExcept ((units.ofSource path).treeAt path)

/-- Write a text down, compile that file, and keep the tree; gives the tree. -/
def makeTree (source : Chars) (path treePath version : String) : Run Json := do
  let tree ← compiled source path version
  Run.writeText treePath (Json.print .tree tree)
  return tree

def regenerate (source : Chars) (path treePath version : String) : Run Bool := do
  match ← Run.attempt (makeTree source path treePath version) with
  | .ok _ => return true
  | .error _ =>
    Run.say "[WARN] Could not regenerate AST: <detail>"
    return false

def advance (p : Progress) (source : Chars) (title : String) : Run Progress := do
  let n := p.steps + 1
  if ← regenerate source (stepPath n) (stepTreePath n) p.version then
    Run.say ("[AST] Regenerated AST after " ++ title ++ " -> " ++ stepTreePath n)
    return { p with source := source, treePath := stepTreePath n, steps := n }
  else
    Run.say ("[WARN] AST regeneration failed for " ++ title ++ ", using previous AST")
    return { p with source := source, steps := n }

/-! ## Versions -/

open Text

def versionText? (s : Chars) : Option Chars := do
  let r ← stripFront? "pragma".toList s
  let r ← Layout.blanks? r
  let r ← stripFront? "solidity".toList r
  match r with
  | [] => none
  | c :: t =>
    if isBlank c then
      match t.takeWhile (· != ';'), t.dropWhile (· != ';') with
      | v :: vs, _ :: _ => some (v :: vs)
      | _, _ => none
    else none

def firstVersionText? : Chars → Option Chars
  | [] => none
  | c :: s =>
    match versionText? (c :: s) with
    | some t => some t
    | none => firstVersionText? s

def firstWord (s : Chars) : Chars :=
  (s.dropWhile isBlank).takeWhile (!isBlank ·)

def isRelation (c : Char) : Bool :=
  c == '^' || c == '>' || c == '=' || c == '<'

def isDigits (s : Chars) : Bool :=
  !s.isEmpty && s.all isDecimal

def isVersion (s : Chars) : Bool :=
  match splitAt '.' s with
  | [a, b, c] => isDigits a && isDigits b && isDigits c
  | _ => false

/-- The version that a source asks for; `none` if it asks for none that is a plain
version. A directive without any word is a fault. -/
def askedVersion (source : Chars) : Except Fault (Option Chars) :=
  match firstVersionText? source with
  | none => .ok none
  | some t =>
    match firstWord (t.filter (!isRelation ·)) with
    | [] => .error .outOfRange
    | w => .ok (if isVersion w then some w else none)

def detectVersion (source : Chars) : Run String := do
  match ← Run.ofExcept (askedVersion source) with
  | some v =>
    Run.say ("[INFO] Detected Solidity version: " ++ String.ofList v)
    return String.ofList v
  | none =>
    Run.say "[WARN] Could not auto-detect version from pragma. Defaulting to 0.8.30"
    return defaultVersion

end Obscura.Pipeline
