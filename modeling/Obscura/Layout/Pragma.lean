import Obscura.Text.Find
import Obscura.Text.Template

/-
  Version directives: the words `pragma` and `solidity` in any case with blanks
  between them, a blank, some version text and a semicolon.
-/

namespace Obscura.Layout

open Text

def blanks? : Chars → Option Chars
  | [] => none
  | c :: s => if isBlank c then some (s.dropWhile isBlank) else none

def directiveWords? (s : Chars) : Option Chars :=
  match stripCaseless? "pragma".toList s with
  | none => none
  | some r =>
    match blanks? r with
    | none => none
    | some r => stripCaseless? "solidity".toList r

/-- The version text of the directive at the front of a text, with the first
blank before it left out, and what is behind the directive. -/
def directive? (s : Chars) : Option (Chars × Chars) :=
  match directiveWords? s with
  | some (c :: r) =>
    if isBlank c then
      match r.takeWhile (· != ';'), r.dropWhile (· != ';') with
      | v :: vs, _ :: rest => some (v :: vs, rest)
      | _, _ => none
    else none
  | _ => none

theorem length_of_blanks? {s r : Chars} (h : blanks? s = some r) : r.length < s.length := by
  cases s with
  | nil => simp [blanks?] at h
  | cons c s =>
    simp only [blanks?] at h
    split at h
    · simp only [Option.some.injEq] at h
      have := (List.dropWhile_suffix (l := s) isBlank).length_le
      rw [← h]
      simp only [List.length_cons]
      omega
    · simp at h

theorem length_of_directiveWords? {s r : Chars} (h : directiveWords? s = some r) :
    r.length < s.length := by
  simp only [directiveWords?] at h
  split at h
  · simp at h
  · rename_i a ha
    split at h
    · simp at h
    · rename_i b hb
      have h1 := length_of_stripCaseless? ha
      have h2 := length_of_blanks? hb
      have h3 := length_of_stripCaseless? h
      omega

theorem length_of_directive? {s v r : Chars} (h : directive? s = some (v, r)) :
    r.length < s.length := by
  simp only [directive?] at h
  split at h
  · rename_i c t ht
    have h1 := length_of_directiveWords? ht
    split at h
    · split at h
      · rename_i v' vs x rest hv hr
        simp only [Option.some.injEq, Prod.mk.injEq] at h
        have h2 := (List.dropWhile_suffix (l := t) (· != ';')).length_le
        rw [hr] at h2
        rw [← h.2]
        simp only [List.length_cons] at h1 h2
        omega
      · simp at h
    · simp at h
  · simp at h

def mapDirectives (make : Chars → Chars) (s : Chars) : Chars :=
  match s with
  | [] => []
  | c :: t =>
    match _h : directive? (c :: t) with
    | some (_, r) => make ((c :: t).take ((c :: t).length - r.length)) ++ mapDirectives make r
    | none => c :: mapDirectives make t
termination_by s.length
decreasing_by
  · exact length_of_directive? _h
  · simp

def directiveTemplate (version : Chars) : Except TemplateError Template :=
  Template.parse ("pragma solidity ".toList ++ version ++ [';'])

def setVersion (version s : Chars) : Except TemplateError Chars :=
  (directiveTemplate version).map fun t => mapDirectives t.expand s

end Obscura.Layout
