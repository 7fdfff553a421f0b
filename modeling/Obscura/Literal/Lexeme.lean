import Obscura.Text.Word

/-
  Lexemes of a text with numbers in it: closed string literals, decimal
  fractions, whole numbers that stand alone as words, and single characters.
  A quote that is never closed is a character like any other.
-/

namespace Obscura.Literal

/-! ## Strings -/

/-- Cut a text behind the quote `q` that closes a literal, if there is one. -/
def closing? (escapes : Char → Bool) (q : Char) : Chars → Option (Chars × Chars)
  | [] => none
  | '\\' :: c :: s =>
    if escapes c then (closing? escapes q s).map fun p => ('\\' :: c :: p.1, p.2) else none
  | c :: s =>
    if c = q then some ([c], s)
    else if c = '\\' then none
    else (closing? escapes q s).map fun p => (c :: p.1, p.2)

/-- What stands behind an opening quote `q`, up to the one that closes the literal. -/
inductive Closing (escapes : Char → Bool) (q : Char) : Chars → Prop
  | quote : Closing escapes q [q]
  | escape {c s} (hc : escapes c) (h : Closing escapes q s) : Closing escapes q ('\\' :: c :: s)
  | plain {c s} (hq : c ≠ q) (hc : c ≠ '\\') (h : Closing escapes q s) : Closing escapes q (c :: s)

variable {escapes : Char → Bool} {c q : Char} {s a r : Chars}

theorem closing?_cons (hc : c ≠ '\\') : closing? escapes q (c :: s) =
    if c = q then some ([c], s) else (closing? escapes q s).map fun p => (c :: p.1, p.2) := by
  rw [closing?, if_neg hc]
  exact fun _ _ h => absurd h hc

theorem closing_of_closing? (h : closing? escapes q s = some (a, r)) : a ++ r = s ∧ Closing escapes q a := by
  fun_induction closing? escapes q s generalizing a r with
  | case2 c s hc ih =>
    obtain ⟨p, hp, he⟩ := Option.map_eq_some_iff.1 h
    cases he
    obtain ⟨rfl, hclosing⟩ := ih hp
    exact ⟨rfl, .escape hc hclosing⟩
  | case4 s =>
    cases h
    exact ⟨rfl, .quote⟩
  | case6 c s _ hq hc ih =>
    obtain ⟨p, hp, he⟩ := Option.map_eq_some_iff.1 h
    cases he
    obtain ⟨rfl, hclosing⟩ := ih hp
    exact ⟨rfl, .plain hq hc hclosing⟩
  | _ => cases h

theorem closing?_append (h : closing? escapes q s = some (a, r)) : a ++ r = s :=
  (closing_of_closing? h).1

theorem Closing.closing? (h : Closing escapes q a) (hq : q ≠ '\\') (r : Chars) :
    closing? escapes q (a ++ r) = some (a, r) := by
  induction h with
  | quote => exact (closing?_cons hq).trans (if_pos rfl)
  | escape hc _ ih => simp [Literal.closing?, hc, ih]
  | plain hne hc _ ih =>
    rw [List.cons_append, closing?_cons hc, if_neg hne, ih]
    rfl

theorem exists_of_closing? (h : closing? escapes q s = some (a, r)) : ∃ m, a = m ++ [q] := by
  have hclosing := (closing_of_closing? h).2
  clear h
  induction hclosing with
  | quote => exact ⟨[], rfl⟩
  | @escape c _ _ _ ih =>
    obtain ⟨m, rfl⟩ := ih
    exact ⟨'\\' :: c :: m, rfl⟩
  | @plain c _ _ _ _ ih =>
    obtain ⟨m, rfl⟩ := ih
    exact ⟨c :: m, rfl⟩

/-- What is behind the literal at the front of a text. A backslash does not
escape a line feed. -/
def afterQuoted? : Chars → Option Chars
  | [] => none
  | c :: s => if c = '"' ∨ c = '\'' then (closing? (· != '\n') c s).map (·.2) else none

/-! ## Lexemes -/

open Text

inductive Lexeme where
  | char (c : Char)
  | quoted (text : Chars)
  | fraction (text : Chars)
  | whole (text : Chars)
deriving Repr, DecidableEq

def Lexeme.text : Lexeme → Chars
  | .char c => [c]
  | .quoted t => t
  | .fraction t => t
  | .whole t => t

def lastOr (before : Option Char) (s : Chars) : Option Char :=
  match s.getLast? with
  | some c => some c
  | none => before

/-- The lexeme at the front of a text that starts with `c`, and what is behind
it; `before` is the character before `c`. -/
def lexeme (before : Option Char) (c : Char) (s : Chars) : Lexeme × Chars :=
  if c = '"' ∨ c = '\'' then
    match closing? (fun _ => true) c s with
    | some (t, r) => (.quoted (c :: t), r)
    | none => (.char c, s)
  else if isDecimal c then
    let ds := c :: s.takeWhile isDecimal
    match s.dropWhile isDecimal with
    | '.' :: r =>
      (.fraction (ds ++ '.' :: r.takeWhile isDecimal), r.dropWhile isDecimal)
    | r =>
      if isWordAt before || isWordAt r.head? then (.char c, s) else (.whole ds, r)
  else if c = '.' then
    match s with
    | d :: _ =>
      if isDecimal d then (.fraction (c :: s.takeWhile isDecimal), s.dropWhile isDecimal)
      else (.char c, s)
    | [] => (.char c, s)
  else (.char c, s)

theorem lexeme_append (before : Option Char) (c : Char) (s : Chars) :
    (lexeme before c s).1.text ++ (lexeme before c s).2 = c :: s := by
  unfold lexeme
  split
  · split
    · rename_i t r h
      simp [Lexeme.text, closing?_append h]
    · simp [Lexeme.text]
  split
  · dsimp only
    split
    · rename_i r h
      simp only [Lexeme.text, List.cons_append, List.append_assoc, List.takeWhile_append_dropWhile]
      rw [← h, List.takeWhile_append_dropWhile]
    · split
      · simp [Lexeme.text]
      · simp [Lexeme.text, List.takeWhile_append_dropWhile]
  split
  · split
    · split
      · simp [Lexeme.text, List.takeWhile_append_dropWhile]
      · simp [Lexeme.text]
    · simp [Lexeme.text]
  · simp [Lexeme.text]

theorem Lexeme.text_ne_nil (before : Option Char) (c : Char) (s : Chars) :
    (lexeme before c s).1.text ≠ [] := by
  unfold lexeme
  dsimp only
  repeat' split
  all_goals simp [Lexeme.text]

theorem lexeme_length (before : Option Char) (c : Char) (s : Chars) :
    (lexeme before c s).2.length ≤ s.length := by
  have h := congrArg List.length (lexeme_append before c s)
  have := List.length_pos_iff.2 (Lexeme.text_ne_nil before c s)
  simp only [List.length_append, List.length_cons] at h
  omega

def lexemes (before : Option Char) (s : Chars) : List Lexeme :=
  match s with
  | [] => []
  | c :: t =>
    let l := lexeme before c t
    l.1 :: lexemes (lastOr before l.1.text) l.2
termination_by s.length
decreasing_by
  have := lexeme_length before c t
  simp only [List.length_cons]
  omega

theorem flatMap_text_lexemes (before : Option Char) (s : Chars) :
    (lexemes before s).flatMap Lexeme.text = s := by
  fun_induction lexemes before s with
  | case1 => rfl
  | case2 before c t l ih => simp [ih, l, lexeme_append]

end Obscura.Literal
