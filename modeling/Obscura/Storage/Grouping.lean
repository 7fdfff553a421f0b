import Obscura.Assoc
import Obscura.Ast.Walk
import Obscura.Digest
import Obscura.Json.Printer
import Obscura.Session
import Obscura.Text.Edit

/-
  Grouping of scalars. The plain state variables of a contract move into one
  structure, and every reference to one of them becomes a reference to a field
  of the structure, whose name is a digest of the name of the variable.
-/

namespace Obscura.Storage

/-! ## Where a contract takes declarations -/

open Text Ast

def byteAt? (s : Bytes) (i : Int) : Option UInt8 :=
  (slice s i (i + 1)).head?

def isGap (b : Option UInt8) : Bool :=
  b == some 32 || b == some 9

def skipGaps (s : Bytes) (i : Int) : Int :=
  if h : i < s.length ∧ isGap (byteAt? s i) then skipGaps s (i + 1) else i
termination_by (s.length - i).toNat
decreasing_by omega

def findBytes? (p s : Bytes) (i : Int) : Option Nat :=
  findFrom? p s (place s.length i)

/-- Where the line goes on that position `i` stands on: behind the next line
feed, or at `i` itself if there is none. -/
def nextLine (s : Bytes) (i : Int) : Int :=
  if slice s i (i + 2) = [13, 10] then i + 2
  else if slice s i (i + 1) = [10] then i + 1
  else match findBytes? [10] s i with
    | some j => j + 1
    | none => i

def rangeOf? (ms : Members) : Option Range :=
  match Json.fieldOf "src" ms with
  | .str s => (Range.readOpen s.toList).toOption
  | _ => none

def insertionPoint? (s : Bytes) (contract : Members) : Option Int :=
  match rangeOf? contract with
  | none => none
  | some r =>
    match findIdx? [123] (slice s r.start r.stop) with
    | none => none
    | some k => some (nextLine s (r.start + k + 1))

/-- Where the structure of a contract goes. A range that cannot be read counts as empty. -/
def structurePoint? (s : Bytes) (contract : Members) : Option Int :=
  let r := (rangeOf? contract).getD ⟨0, 0⟩
  match findIdx? [123] (slice s r.start r.stop) with
  | none => none
  | some k =>
    let p := r.start + k + 1
    if slice s p (p + 2) = [13, 10] then some (p + 2)
    else if slice s p (p + 1) = [10] then some (p + 1)
    else match findBytes? [10] s p with
      | some j => some (j + 1)
      | none => some p

theorem structurePoint?_eq (s : Bytes) (contract : Members) :
    structurePoint? s contract = insertionPoint? s contract := by
  unfold structurePoint? insertionPoint? nextLine
  cases rangeOf? contract with
  | none => rfl
  | some r => grind

/-! ## Scalars -/

open Json

/-! ## Variables -/

structure Site where
  id : Json
  position : Int

structure Scalar where
  id : Json
  name : String
  type : String
  contract : Json
  torn : Bool := false

def fieldName (name : Chars) : Chars :=
  'm' :: '_' :: (Digest.hexText (Digest.Sha1.digest (encode name))).take 16

def Scalar.field (v : Scalar) : Chars :=
  fieldName v.name.toList

def siteHere (s : Bytes) (ms : Members) : Except Fault (List (Key × Site)) :=
  match structurePoint? s ms with
  | none => .ok []
  | some p => do
    let id := fieldOf "id" ms
    return [(← id.key, ⟨id, p⟩)]

def sites (s : Bytes) (tree : Json) : Except Fault (Assoc Key Site) := do
  let found ← atContracts (siteHere s) tree
  return found.foldl (fun m e => Assoc.set e.1 e.2 m) []

/-- The types that fit into the structure start with one of these words. -/
def plainTypes : List Chars :=
  ["uint256", "uint", "bool", "address", "string", "bytes"].map String.toList

/-- The text of the type of a declaration, and whether it holds halves of
characters; empty if there is none. -/
def typeText (ms : Members) : Except Fault (String × Bool) := do
  match ← ((fieldOf "typeDescriptions" ms).orElse (.obj [])).field "typeString" with
  | .str s => return (s, false)
  | .torn s => return (s, true)
  | v => if v.isSet then throw .notObject else return ("", false)

def isOwnName (name : String) : Bool :=
  startsWith "__scalar_".toList name.toList || startsWith "m_".toList name.toList

/-- The variable that a declaration without a value declares, if it moves. Names
that the pass gives itself do not. -/
def named? (ms : Members) (type : String × Bool) (contract : Json) :
    Except Fault (List (Key × Scalar)) :=
  match fieldOf "name" ms with
  | .str name =>
    if name.isEmpty || isOwnName name then .ok []
    else match fieldOf "id" ms with
      | .null => .ok []
      | id => do return [(← id.key, ⟨id, name, type.1, contract, type.2⟩)]
  | .torn name =>
    if isOwnName name then .ok []
    else match fieldOf "id" ms with
      | .null => .ok []
      | _ => .error .tornText
  | v => if v.isSet then .error .notObject else .ok []

/-- The variable that a node declares, if it moves: it is a state variable of a
plain type, not constant and without a value, in a contract with a site. -/
def scalarHere (known : Assoc Key Site) (contract : Json) (ms : Members) :
    Except Fault (List (Key × Scalar)) := do
  if isKind "VariableDeclaration" ms then
    if !known.has (← contract.key) then return []
    else if !((fieldOf "stateVariable" ms).isSet && !(fieldOf "constant" ms).isSet) then return []
    else
      let type ← typeText ms
      if plainTypes.any (startsWith · type.1.toList) then
        match fieldOf "value" ms with
        | .null => named? ms type contract
        | _ => return []
      else return []
  else return []

def scalars (known : Assoc Key Site) (tree : Json) : Except Fault (Assoc Key Scalar) := do
  let found ← (placedNodes .null tree).mapM fun p => scalarHere known p.1 p.2
  return found.flatten.foldl (fun m e => Assoc.set e.1 e.2 m) []

/-! ## Edits -/

/-- The range of a declaration; one that names no place stands at the front. -/
def declarationRange? (ms : Members) : Option Range :=
  match lookup "src" ms with
  | none => some ⟨0, 0⟩
  | some (.str s) => (Range.readOpen s.toList).toOption
  | some _ => none

def declarationEnd (s : Bytes) (stop : Int) : Int :=
  let i := skipGaps s stop
  if i < s.length ∧ byteAt? s i = some 59 then i + 1 else i

def declarations (vars : Assoc Key Scalar) (tree : Json) : Except Fault (List Range) := do
  let found ← (nodesOf "VariableDeclaration" tree).mapM fun ms => do
    let k ← (fieldOf "id" ms).key
    return if vars.has k then (declarationRange? ms).toList else []
  return found.flatten

structure Usage where
  range : Range
  target : Json

def usages (vars : Assoc Key Scalar) (tree : Json) : Except Fault (List Usage) := do
  let found ← (nodesOf "Identifier" tree).mapM fun ms => do
    let target := fieldOf "referencedDeclaration" ms
    let k ← target.key
    return if vars.has k then (rangeOf? ms).toList.map fun r => ⟨r, target⟩ else []
  return found.flatten

def structName : Chars := "__BiAnScalars".toList

def instanceName : Chars := "__scalar_vectors".toList

def structBlock (struct inst : Chars) (vars : List Scalar) : Chars :=
  joinWith ['\n']
    (["    struct ".toList ++ struct ++ " \x7b".toList]
      ++ vars.map (fun v => "        ".toList ++ v.type.toList ++ [' '] ++ v.field ++ [';'])
      ++ ["    \x7d".toList, "    ".toList ++ struct ++ " private ".toList ++ inst ++ [';'], []])

def reference (inst : Chars) (v : Scalar) : Chars :=
  inst ++ '.' :: v.field

/-- The edit for a place that names a variable. The place has to refer to it by
a whole number. -/
def usageEdit (vars : Assoc Key Scalar) (u : Usage) : Except Fault Edit := do
  let n ← readNumber u.target.shown
  match vars.find (.whole n) with
  | some v => return ⟨u.range.start, u.range.stop, encode (reference instanceName v)⟩
  | none => throw (.memberMissing "")

def byContract (vars : List Scalar) : Except Fault (Assoc Key (List Scalar)) :=
  vars.foldlM (fun m v => return Assoc.push (← v.contract.key) v m) []

def structEdit (known : Assoc Key Site) (group : Key × List Scalar) :
    Except Fault (List Edit) :=
  match known.find group.1 with
  | none => .ok []
  | some site =>
    if group.2.any (·.torn) then .error .tornText
    else .ok [⟨site.position, site.position,
      encode (structBlock structName instanceName group.2)⟩]

def groupingEdits (s : Bytes) (known : Assoc Key Site) (vars : Assoc Key Scalar) (tree : Json) :
    Except Fault (List Edit) := do
  let gone := (← declarations vars tree).map fun r => ⟨r.start, declarationEnd s r.stop, []⟩
  let named ← (← usages vars tree).mapM (usageEdit vars)
  let structs ← (← byContract vars.values).mapM (structEdit known)
  return gone ++ named ++ structs.flatten

def groupScalars (source : Chars) (tree : Json) : Except Fault (Chars × Nat) := do
  let s := encode source
  let known ← sites s tree
  let vars ← scalars known tree
  if vars.isEmpty then return (source, 0)
  let edits ← groupingEdits s known vars tree
  match decode? (Edit.cutAll s edits) with
  | some out => return (out, vars.length)
  | none => throw .badBytes

def treeOfFile (path : Option String) (complaint : String) : Run (Option Json) := do
  match path with
  | none => return none
  | some p =>
    if !(← Run.files).exist p then return none
    match ← Run.attempt (do Run.ofExcept ((Json.read (← Run.readText p)).mapError Fault.ofJson)) with
    | .ok tree => return some tree
    | .error _ =>
      Run.say complaint
      return none

/-- Edit a text whose tree is in a file. Without a tree the text stays as it is. -/
def editByFile (edit : Chars → Json → Except Fault (Chars × Nat)) (complaint : String)
    (source : Chars) (path : Option String) : Run (Chars × Nat) := do
  match ← treeOfFile path complaint with
  | some tree => Run.ofExcept (edit source tree)
  | none => return (source, 0)

def groupScalarsOf : Chars → Option String → Run (Chars × Nat) :=
  editByFile groupScalars "[WARN] Failed to load AST: <detail>"

end Obscura.Storage
