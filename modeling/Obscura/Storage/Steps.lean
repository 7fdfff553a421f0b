import Obscura.Storage.Grouping
import Obscura.Text.Word

/-
  Grouping of scalars step by step on the text, for trees whose references cannot
  be trusted: the declarations go, then every word that is the name of a variable
  becomes a field, then the structures are declared.
-/

namespace Obscura.Storage

open Text Ast Json

/-! ## Declarations -/

/-- The end of a declaration: behind the semicolon among the characters in the
twenty bytes behind it. -/
def looseEnd (s : Bytes) (stop : Int) : Int :=
  let near := (readChars (slice s stop (stop + 20))).filterMap id
  match findIdx? [';'] near with
  | some k => stop + k + 1
  | none => stop

/-- Take the declarations of the given variables out, the last ones first; those
that reach beyond the end stay. -/
def dropDeclarations (s : Bytes) (vars : Assoc Key Scalar) (tree : Json) : Except Fault Bytes := do
  let edits := (← declarations vars tree).map fun r => Edit.mk r.start (looseEnd s r.stop) []
  return (Edit.ordered edits).foldl (fun (s : Bytes) (e : Edit) =>
    if e.start < s.length ∧ e.stop ≤ s.length then splice s e.start e.stop [] else s) s

/-! ## Names -/

/-- The first of the names that the text continues with. After an empty name was
found at a place, only others count there. -/
def nameAhead? (names : List Chars) (before : Option Char) (s : Chars) (again : Bool) :
    Option Chars :=
  names.find? fun n => wordAhead n before s && !(again && n.isEmpty)

def renameWords (f : Chars → Chars) (names : List Chars) (before : Option Char)
    (again : Bool) (s : Chars) : Chars :=
  match _h : nameAhead? names before s again with
  | some n =>
    if n.isEmpty then f n ++ renameWords f names before true s
    else f n ++ renameWords f names n.getLast? false (s.drop n.length)
  | none =>
    match s with
    | [] => []
    | c :: t => c :: renameWords f names (some c) false t
termination_by (s.length, if again then 0 else 1)
decreasing_by
  · have hf := List.find?_some _h
    have : again = false := by
      cases again <;> simp_all
    subst this
    exact Prod.Lex.right _ (by simp)
  · have hf := List.find?_some _h
    simp only [Bool.and_eq_true] at hf
    have hl := wordAhead_length hf.1
    have : 0 < n.length := List.length_pos_iff.2 (by simpa using ‹¬ n.isEmpty = true›)
    exact Prod.Lex.left _ _ (by simp only [List.length_drop]; omega)
  · exact Prod.Lex.left _ _ (by simp)

def renameScalars (names : List Chars) (inst : Chars) (source : Chars) : Chars :=
  renameWords (fun n => inst ++ '.' :: fieldName n) names none false source

/-! ## Structures -/

/-- Declare the structures at the given positions of the text, counted in
characters. -/
def declareStructs (known : Assoc Key Site) (groups : Assoc Key (List Scalar))
    (struct inst : Chars) (source : Chars) : Chars :=
  let inserts := groups.filterMap fun g => (known.find g.1).map fun site =>
    (site.position, structBlock struct inst g.2)
  (inserts.mergeSort fun a b => decide (b.1 ≤ a.1)).foldl (fun s i => bracket s i.1 i.1 i.2) source

end Obscura.Storage
