import Obscura.Proofs.Modifier
import Obscura.Proofs.Reading

/-
  The symbols of a text: its words, its marks and the characters of its literals,
  without blanks and comments. Two texts with a line feed between them have the symbols
  of the first and those of the second, if the first leaves neither a block comment
  nor a literal open (`symbolsOf_append`); and blanks at the end of a text make no
  difference (`symbolsOf_trimRight`).
-/

namespace Obscura.Text

open List

open Layout (isQuote)

variable {a t : Chars}

/-- A symbol of code; `joined` tells that it stands right behind the symbol before it. -/
inductive Symbol where
  | word (w : Chars) (joined : Bool)
  | mark (c : Char) (joined : Bool)
  | quoted (c : Char) (joined : Bool)
deriving Repr, DecidableEq

variable {front : List Symbol}

/-- The symbols read, the word being read, and whether it stands right behind them. -/
structure Symbols where
  done : List Symbol := []
  word : Chars := []
  joined : Bool := false
deriving Repr, DecidableEq

variable {x x' : Symbols} {b : Chars}

namespace Symbols

/-- The end of a word. -/
def settle (x : Symbols) : Symbols :=
  if x.word = [] then x else ⟨x.done ++ [.word x.word x.joined], [], true⟩

/-- One more symbol behind a word. -/
def add (x : Symbols) (e : Bool → Symbol) : Symbols :=
  ⟨x.settle.done ++ [e x.settle.joined], [], true⟩

def blank (x : Symbols) : Symbols :=
  ⟨x.settle.done, [], false⟩

def reader : Reader Symbols where
  start := {}
  letter x c := { x with word := x.word ++ [c] }
  blank := blank
  mark x c := x.add (.mark c)
  quoted x c := x.add (.quoted c)

end Symbols

def readLine (t : Chars) : Mode × Symbols :=
  Symbols.reader.read (t ++ ['\n'])

/-- The symbols of a piece of code, comments and blanks left out. -/
def symbolsOf (t : Chars) : List Symbol :=
  (readLine t).2.done

/-- The text leaves no block comment and no literal open. -/
def IsWhole (t : Chars) : Prop :=
  (readLine t).1 = .code

instance (t : Chars) : Decidable (IsWhole t) :=
  inferInstanceAs (Decidable (_ = _))

namespace Symbols

theorem blank_blank (x : Symbols) : x.blank.blank = x.blank := rfl

/-! ## Symbols before others -/

def After (front : List Symbol) (x x' : Symbols) : Prop :=
  x' = { x with done := front ++ x.done }

theorem After.settle (h : After front x x') : After front x.settle x'.settle := by
  subst h
  unfold After Symbols.settle
  dsimp only
  split
  · rfl
  · rw [append_assoc]

theorem After.blank (h : After front x x') : After front x.blank x'.blank := by
  have hsettle : x'.settle = { x.settle with done := front ++ x.settle.done } := h.settle
  rw [After, Symbols.blank, Symbols.blank, hsettle]

theorem After.add (h : After front x x') (e : Bool → Symbol) : After front (x.add e) (x'.add e) := by
  have hsettle : x'.settle = { x.settle with done := front ++ x.settle.done } := h.settle
  rw [After, Symbols.add, Symbols.add, hsettle, append_assoc]

theorem keeps_after (front : List Symbol) : reader.Keeps (After front) where
  letter := by
    rintro x x' c rfl
    rfl
  blank := fun x x' h => h.blank
  mark := fun x x' c h => h.add (.mark c)
  quoted := fun x x' c h => h.add (.quoted c)

end Symbols

theorem readLine_eq : readLine t = Symbols.reader.step (Symbols.reader.read t) '\n' :=
  Symbols.reader.read_append t ['\n']

theorem readLine_of_isWhole (h : IsWhole t) : readLine t = (.code, { done := symbolsOf t }) := by
  have hblank : ∃ z, readLine t = (.code, Symbols.reader.blank z) := by
    rw [IsWhole, readLine_eq] at h
    rw [readLine_eq]
    exact Reader.step_feed.2 h
  obtain ⟨z, hz⟩ := hblank
  rw [symbolsOf, hz]
  rfl

/-- **Two texts with a line feed between them.** -/
theorem readLine_append (ha : IsWhole a) :
    readLine (a ++ '\n' :: b) = ((readLine b).1,
      { (readLine b).2 with done := symbolsOf a ++ symbolsOf b }) := by
  have hsplit : readLine (a ++ '\n' :: b) = Symbols.reader.run (readLine a) (b ++ ['\n']) := by
    have htext : a ++ '\n' :: b ++ ['\n'] = a ++ ['\n'] ++ (b ++ ['\n']) := by
      simp only [append_assoc, cons_append, nil_append]
    rw [readLine, htext, Reader.read_append]
    rfl
  have hafter : Symbols.After (symbolsOf a) {} { done := symbolsOf a } := by
    rw [Symbols.After, append_nil]
  obtain ⟨hmode, hsymbols⟩ := (Symbols.keeps_after (symbolsOf a)).run hafter .code (b ++ ['\n'])
  rw [hsplit, readLine_of_isWhole ha]
  exact Prod.ext hmode.symm hsymbols

theorem symbolsOf_append (ha : IsWhole a) :
    symbolsOf (a ++ '\n' :: b) = symbolsOf a ++ symbolsOf b := by
  rw [symbolsOf, readLine_append ha]

theorem isWhole_append (ha : IsWhole a) : IsWhole (a ++ '\n' :: b) ↔ IsWhole b := by
  rw [IsWhole, readLine_append ha]
  exact Iff.rfl

/-- Blanks at the end of a text that leaves nothing open make no difference. -/
theorem readLine_trimRight (h : IsWhole t) : readLine (trimRight t) = readLine t := by
  obtain ⟨gap, ht, hgap⟩ := Flow.trimRight_spec t
  have hsplit : readLine t = Symbols.reader.run (Symbols.reader.read (trimRight t)) (gap ++ ['\n']) := by
    rw [← Reader.read_append, ← append_assoc, ← ht]
    rfl
  rw [IsWhole, hsplit] at h
  rw [hsplit, Reader.run_blanks_feed Symbols.blank_blank hgap h, readLine_eq]
  rfl

theorem readLine_gap {gap : Chars} (hgap : ∀ c ∈ gap, isBlank c) (t : Chars) :
    readLine (gap ++ t) = readLine t := by
  have hblanks : Symbols.reader.read gap = (.code, {}) := Reader.run_blanks rfl hgap
  rw [readLine, append_assoc, Reader.read_append, hblanks]
  rfl

theorem readLine_trimLeft (t : Chars) : readLine (trimLeft t) = readLine t := by
  obtain ⟨gap, ht, hgap⟩ := Flow.trimLeft_spec t
  rw [← readLine_gap hgap (trimLeft t), ← ht]

theorem symbolsOf_mark {c : Char} (hc : Reader.isMark c) (t : Chars) :
    ∃ rest, symbolsOf (c :: t) = .mark c false :: rest := by
  have hafter : Symbols.After [.mark c false] { joined := true }
      { done := [.mark c false], joined := true } := rfl
  have hrest := ((Symbols.keeps_after [.mark c false]).run hafter .code (t ++ ['\n'])).2
  have hread : readLine (c :: t) =
      Symbols.reader.run (.code, { done := [.mark c false], joined := true }) (t ++ ['\n']) := by
    rw [readLine, cons_append, Reader.read, Reader.run_cons, Reader.step_mark hc]
    rfl
  rw [symbolsOf, hread, hrest]
  exact ⟨_, rfl⟩

end Obscura.Text
