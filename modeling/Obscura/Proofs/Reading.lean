import Obscura.Layout.Token
import Obscura.Number.Whole
import Obscura.Proofs.Characters

/-
  Reading a source one character at a time: what is code, what is a comment and what
  is a literal. Where the reading stands decides what a character is (`Mode.next`),
  and a reader says what it makes of letters, blanks, marks and the characters of
  literals; comments it does not see. A line feed behind a line end changes nothing
  (`step_lineEnd`), and a line comment is like a blank (`run_lineComment`).
-/

namespace Obscura.Text

open List

open Layout (isQuote)

variable {c : Char} {t : Chars}

/-! ## Modes -/

/-- Where in a source the reading stands. -/
inductive Mode where
  | code
  /-- Behind a slash that may open a comment. -/
  | slash
  | line
  | block
  /-- Behind a star in a block comment. -/
  | star
  | quote (double : Bool)
  /-- Behind a backslash in a literal. -/
  | escape (double : Bool)
deriving Repr, DecidableEq

variable {m : Mode}

/-- What a character of a source is. -/
inductive Role where
  | letter
  | blank
  | mark
  | quoted
  | silent
deriving Repr, DecidableEq

def quoteMark (double : Bool) : Char :=
  if double then '"' else '\''

def isNameChar (c : Char) : Bool :=
  isWord c || c == '$'

namespace Mode

/-- A character of code. A slash ends a word as a blank does, and is a mark if no
comment follows. -/
def inCode (c : Char) : Mode × Role :=
  if isNameChar c then (code, .letter)
  else if isBlank c then (code, .blank)
  else if c = '/' then (slash, .blank)
  else if isQuote c then (quote (c == '"'), .quoted)
  else (code, .mark)

def next : Mode → Char → Mode × Role
  | code, c => inCode c
  | slash, c => if c = '/' then (line, .silent) else if c = '*' then (block, .silent) else inCode c
  | line, c => if c = '\n' ∨ c = '\r' then (code, .blank) else (line, .silent)
  | block, c => if c = '*' then (star, .silent) else (block, .silent)
  | star, c =>
    if c = '/' then (code, .silent) else if c = '*' then (star, .silent) else (block, .silent)
  | quote d, c =>
    if c = '\\' then (escape d, .quoted)
    else if c = quoteMark d then (code, .quoted)
    else (quote d, .quoted)
  | escape d, _ => (quote d, .quoted)

def afterMark (m : Mode) (c : Char) : Bool :=
  m == slash && c != '/' && c != '*'

theorem inCode_ne_silent : (inCode c).2 ≠ .silent := by
  unfold inCode
  split
  · exact nofun
  split
  · exact nofun
  split
  · exact nofun
  split
  · exact nofun
  · exact nofun

theorem inCode_of_letter (h : (inCode c).2 = .letter) : (inCode c).1 = code ∧ isNameChar c := by
  unfold inCode at h ⊢
  split
  · exact ⟨rfl, ‹_›⟩
  · rename_i hc
    rw [if_neg hc] at h
    split at h
    · cases h
    split at h
    · cases h
    split at h
    · cases h
    · cases h

theorem next_of_letter (h : (m.next c).2 = .letter) : (m.next c).1 = code ∧ isNameChar c := by
  cases m with
  | code => exact inCode_of_letter h
  | slash =>
    unfold next at h ⊢
    dsimp only at h ⊢
    split at h
    · cases h
    split at h
    · cases h
    · rename_i hslash hstar
      rw [if_neg hslash, if_neg hstar]
      exact inCode_of_letter h
  | line =>
    unfold next at h
    dsimp only at h
    split at h <;> cases h
  | block =>
    unfold next at h
    dsimp only at h
    split at h <;> cases h
  | star =>
    unfold next at h
    dsimp only at h
    split at h
    · cases h
    split at h <;> cases h
  | quote d =>
    unfold next at h
    dsimp only at h
    split at h
    · cases h
    split at h <;> cases h
  | escape d => cases h

theorem afterMark_of_ne (hm : m ≠ slash) : m.afterMark c = false := by
  rw [afterMark, beq_eq_false_iff_ne.2 hm]
  rfl

theorem next_of_afterMark (h : m.afterMark c) : m.next c = inCode c := by
  simp only [afterMark, Bool.and_eq_true, beq_iff_eq, bne_iff_ne] at h
  rw [h.1.1, next, if_neg h.1.2, if_neg h.2]

end Mode

/-! ## Readers -/

/-- What is made of the characters of a source. -/
structure Reader (σ : Type) where
  start : σ
  letter : σ → Char → σ
  blank : σ → σ
  mark : σ → Char → σ
  quoted : σ → Char → σ

namespace Reader

variable {σ : Type} (R : Reader σ) {s : Chars}

def take (x : σ) : Role → Char → σ
  | .letter, c => R.letter x c
  | .blank, _ => R.blank x
  | .mark, c => R.mark x c
  | .quoted, c => R.quoted x c
  | .silent, _ => x

def step (y : Mode × σ) (c : Char) : Mode × σ :=
  ((y.1.next c).1, R.take (if y.1.afterMark c then R.mark y.2 '/' else y.2) (y.1.next c).2 c)

def run (y : Mode × σ) (s : Chars) : Mode × σ :=
  s.foldl R.step y

/-- The reading of a whole text. -/
def read (s : Chars) : Mode × σ :=
  R.run (.code, R.start) s

theorem run_nil (y : Mode × σ) : R.run y [] = y := rfl

theorem run_cons (y : Mode × σ) : R.run y (c :: s) = R.run (R.step y c) s := rfl

theorem run_append (y : Mode × σ) : R.run y (s ++ t) = R.run (R.run y s) t :=
  foldl_append

theorem read_append (s t : Chars) : R.read (s ++ t) = R.run (R.read s) t := R.run_append ..

/-- The relation is kept by all that is made of characters. -/
structure Keeps (R : Reader σ) (r : σ → σ → Prop) : Prop where
  letter : ∀ x x' c, r x x' → r (R.letter x c) (R.letter x' c)
  blank : ∀ x x', r x x' → r (R.blank x) (R.blank x')
  mark : ∀ x x' c, r x x' → r (R.mark x c) (R.mark x' c)
  quoted : ∀ x x' c, r x x' → r (R.quoted x c) (R.quoted x' c)

variable {R} {x : σ}

variable {r : σ → σ → Prop}

theorem Keeps.take (h : R.Keeps r) {x x' : σ} (hx : r x x') (e : Role) (c : Char) :
    r (R.take x e c) (R.take x' e c) := by
  cases e with
  | letter => exact h.letter x x' c hx
  | blank => exact h.blank x x' hx
  | mark => exact h.mark x x' c hx
  | quoted => exact h.quoted x x' c hx
  | silent => exact hx

theorem Keeps.step (h : R.Keeps r) {x x' : σ} (hx : r x x') (m : Mode) (c : Char) :
    r (R.step (m, x) c).2 (R.step (m, x') c).2 := by
  refine h.take ?_ _ c
  cases m.afterMark c with
  | true => exact h.mark x x' '/' hx
  | false => exact hx

/-- Reading from related states ends in related ones, in the same mode. -/
theorem Keeps.run (h : R.Keeps r) {x x' : σ} (hx : r x x') (m : Mode) (s : Chars) :
    (R.run (m, x) s).1 = (R.run (m, x') s).1 ∧ r (R.run (m, x) s).2 (R.run (m, x') s).2 := by
  induction s generalizing m x x' with
  | nil => exact ⟨rfl, hx⟩
  | cons c s ih => exact ih (h.step hx m c) (m.next c).1

/-! ## Characters of code -/

theorem step_of_ne_slash (hm : m ≠ .slash) :
    R.step (m, x) c = ((m.next c).1, R.take x (m.next c).2 c) := by
  rw [step, Mode.afterMark_of_ne hm, if_neg Bool.false_ne_true]

theorem step_code :
    R.step (.code, x) c = ((Mode.inCode c).1, R.take x (Mode.inCode c).2 c) :=
  step_of_ne_slash (by decide)

theorem step_slash (hslash : c ≠ '/') (hstar : c ≠ '*') :
    R.step (.slash, x) c = R.step (.code, R.mark x '/') c := by
  have hmark : Mode.slash.afterMark c := by
    rw [Mode.afterMark, bne_iff_ne.2 hslash, bne_iff_ne.2 hstar]
    rfl
  rw [step_code, step, Mode.next_of_afterMark hmark, hmark, if_pos rfl]

theorem step_letter (hc : isNameChar c) :
    R.step (.code, x) c = (.code, R.letter x c) := by
  rw [step_code, Mode.inCode, if_pos hc, take]

theorem isNameChar_of_isBlank (hc : isBlank c) : isNameChar c = false := by
  have hdollar : c ≠ '$' := by
    rintro rfl
    cases hc
  rw [isNameChar, isWord_of_isBlank hc, Bool.false_or, beq_eq_false_iff_ne]
  exact hdollar

theorem step_blank (hc : isBlank c) : R.step (.code, x) c = (.code, R.blank x) := by
  rw [step_code, Mode.inCode, isNameChar_of_isBlank hc, if_neg Bool.false_ne_true, if_pos hc, take]

theorem run_blanks {x : σ} (hx : R.blank x = x) {gap : Chars} (hgap : ∀ c ∈ gap, isBlank c) :
    R.run (.code, x) gap = (.code, x) := by
  induction gap with
  | nil => rfl
  | cons c gap ih =>
    obtain ⟨hc, hgap⟩ := forall_mem_cons.1 hgap
    rw [run_cons, step_blank hc, hx, ih hgap]

theorem isNameChar_of_symbol (hc : c.toNat < 128)
    (h : (c.isAlphanum || c == '_' || c == '$') = false) : isNameChar c = false := by
  rw [Bool.or_eq_false_iff] at h
  rw [isNameChar, isWord_of_symbol hc h.1, h.2]
  rfl

theorem isNameChar_of_ascii (hc : c.toNat < 128) (h : (c.isAlphanum || c == '_')) :
    isNameChar c := by
  rw [isNameChar, isWord_eq hc, h]
  rfl

theorem isNameChar_digits (n : Nat) : ∀ c ∈ Number.digits n, isNameChar c := by
  intro c hc
  have hdigit : c.isDigit := Nat.isDigit_of_mem_toDigits (by decide) (by decide) hc
  refine isNameChar_of_ascii (toNat_lt_of_isDigit hdigit) ?_
  rw [Char.isAlphanum, hdigit, Bool.or_true]
  rfl

/-- The letters of a name are put one by one to what is being read. -/
theorem run_name (put : σ → Chars → σ) (hnil : ∀ x, put x [] = x)
    (hcons : ∀ x c w, put (R.letter x c) w = put x (c :: w)) {w : Chars}
    (hw : ∀ c ∈ w, isNameChar c) : R.run (.code, x) w = (.code, put x w) := by
  induction w generalizing x with
  | nil => rw [run_nil, hnil]
  | cons c w ih =>
    obtain ⟨hc, hw⟩ := forall_mem_cons.1 hw
    rw [run_cons, step_letter hc, ih hw, hcons]

/-- A mark of code that starts neither a comment nor a literal. -/
def isMark (c : Char) : Bool :=
  !isNameChar c && !isBlank c && c != '/' && !isQuote c

theorem isMark_of_symbol (hc : c.toNat < 128)
    (h : (c.isAlphanum || c == '_' || c == '$' || isBlank c || c == '/' || isQuote c) = false) : isMark c := by
  simp only [Bool.or_eq_false_iff] at h
  obtain ⟨⟨⟨hname, hblank⟩, hslash⟩, hquote⟩ := h
  have hsymbol : isNameChar c = false := isNameChar_of_symbol hc
    (by simp only [Bool.or_eq_false_iff, hname, and_self])
  rw [isMark, hsymbol, hblank, hquote, bne, hslash]
  rfl

theorem isMark_of_mem (hc : ['=', ';', ',', '(', ')', '\x7b', '\x7d'].contains c) : isMark c := by
  have hall : ∀ d ∈ ['=', ';', ',', '(', ')', '\x7b', '\x7d'], d.toNat < 128 ∧
      (d.isAlphanum || d == '_' || d == '$' || isBlank d || d == '/' || isQuote d) = false :=
    forall_mem_of_all rfl
  rw [contains_iff_mem] at hc
  exact isMark_of_symbol (hall c hc).1 (hall c hc).2

theorem step_mark (hc : isMark c) : R.step (.code, x) c = (.code, R.mark x c) := by
  simp only [isMark, Bool.and_eq_true, Bool.not_eq_true', bne_iff_ne] at hc
  rw [step_code, Mode.inCode, hc.1.1.1, hc.1.1.2, hc.2, if_neg Bool.false_ne_true,
    if_neg Bool.false_ne_true, if_neg hc.1.2, if_neg Bool.false_ne_true, take]

/-! ## Comments -/

theorem run_line (ht : ∀ c ∈ t, c ≠ '\n' ∧ c ≠ '\r') : R.run (.line, x) t = (.line, x) := by
  induction t with
  | nil => rfl
  | cons c t ih =>
    obtain ⟨hc, ht⟩ := forall_mem_cons.1 ht
    rw [run_cons, step_of_ne_slash (by decide), Mode.next, if_neg (not_or.2 hc), take, ih ht]

theorem run_lineComment (ht : ∀ c ∈ t, c ≠ '\n' ∧ c ≠ '\r') :
    R.run (.code, x) ('/' :: '/' :: t ++ ['\n']) = (.code, R.blank (R.blank x)) := by
  have hopen : R.step (.code, x) '/' = (.slash, R.blank x) := by
    have hname : isNameChar '/' = false := isNameChar_of_symbol (by decide) rfl
    have hblank : isBlank '/' = false := by decide
    rw [step_code, Mode.inCode, hname, hblank, if_neg Bool.false_ne_true, if_neg Bool.false_ne_true,
      if_pos rfl, take]
  have hline : R.step (.slash, R.blank x) '/' = (.line, R.blank x) := rfl
  have hend : R.step (.line, R.blank x) '\n' = (.code, R.blank (R.blank x)) := rfl
  rw [cons_append, cons_append, run_cons, hopen, run_cons, hline, run_append, run_line ht,
    run_cons, hend, run_nil]

theorem run_block (ht : '*' ∉ t) (x : σ) : R.run (.block, x) t = (.block, x) := by
  induction t with
  | nil => rfl
  | cons c t ih =>
    rw [mem_cons, not_or] at ht
    rw [run_cons, step_of_ne_slash (by decide), Mode.next, if_neg (Ne.symm ht.1), take, ih ht.2]

/-! ## Line ends -/

theorem ne_of_isBlank (h : isBlank c) : c ≠ '/' ∧ c ≠ '*' ∧ c ≠ '\\' ∧ ∀ d, c ≠ quoteMark d := by
  have hne {e : Char} (he : isBlank e = false) : c ≠ e := by
    rintro rfl
    rw [h] at he
    cases he
  refine ⟨hne (by decide), hne (by decide), hne (by decide), fun d => ?_⟩
  cases d with
  | true => exact hne (by decide)
  | false => exact hne (by decide)

/-- A line feed leads to code exactly if neither a block comment nor a literal is open, and then
it is a blank. -/
theorem step_feed :
    ((R.step (m, x) '\n').1 = .code ↔ m = .code ∨ m = .slash ∨ m = .line) ∧
      ((R.step (m, x) '\n').1 = .code → ∃ z, R.step (m, x) '\n' = (.code, R.blank z)) := by
  have hfeed : isBlank '\n' := by decide
  cases m with
  | code =>
    rw [step_blank hfeed]
    exact ⟨by simp, fun _ => ⟨x, rfl⟩⟩
  | slash =>
    rw [step_slash (by decide) (by decide), step_blank hfeed]
    exact ⟨by simp, fun _ => ⟨R.mark x '/', rfl⟩⟩
  | line => exact ⟨by simp [step, Mode.next], fun _ => ⟨x, rfl⟩⟩
  | block => simp [step, Mode.next]
  | star => simp [step, Mode.next]
  | quote d => cases d <;> simp [step, Mode.next, quoteMark]
  | escape d => simp [step, Mode.next]

/-- A blank before a line feed adds nothing to it, outside of block comments and literals. -/
theorem step_blank_feed (hlumps : ∀ x, R.blank (R.blank x) = R.blank x) {c : Char} (hc : isBlank c) {m : Mode}
    (hm : m = .code ∨ m = .slash ∨ m = .line) :
    R.step (R.step (m, x) c) '\n' = R.step (m, x) '\n' := by
  obtain ⟨hslash, hstar, -⟩ := ne_of_isBlank hc
  have hcode (z : σ) : R.step (R.step (.code, z) c) '\n' = R.step (.code, z) '\n' := by
    rw [step_blank hc, step_blank (by decide), step_blank (by decide), hlumps]
  rcases hm with rfl | rfl | rfl
  · exact hcode x
  · rw [step_slash hslash hstar, step_slash (by decide) (by decide)]
    exact hcode (R.mark x '/')
  · by_cases hend : c = '\n' ∨ c = '\r'
    · have hclose : R.step (.line, x) c = (.code, R.blank x) := by
        rw [step_of_ne_slash (by decide), Mode.next, if_pos hend, take]
      rw [hclose, step_blank (by decide), hlumps]
      rfl
    · rw [step_of_ne_slash (by decide) (x := x) (c := c), Mode.next, if_neg hend, take]

theorem closed_of_next (hc : isBlank c)
    (h : (m.next c).1 = .code ∨ (m.next c).1 = .slash ∨ (m.next c).1 = .line) :
    m = .code ∨ m = .slash ∨ m = .line := by
  obtain ⟨hslash, hstar, hbackslash, hquote⟩ := ne_of_isBlank hc
  cases m with
  | code => exact .inl rfl
  | slash => exact .inr (.inl rfl)
  | line => exact .inr (.inr rfl)
  | block => simp [Mode.next, hstar] at h
  | star => simp [Mode.next, hstar, hslash] at h
  | quote d => simp [Mode.next, hbackslash, hquote d] at h
  | escape d => simp [Mode.next] at h

/-- Blanks before a line feed add nothing to it, if it leads to code. -/
theorem run_blanks_feed (hlumps : ∀ x, R.blank (R.blank x) = R.blank x) {gap : Chars}
    (hgap : ∀ c ∈ gap, isBlank c) {y : Mode × σ} (hcode : (R.run y (gap ++ ['\n'])).1 = .code) :
    R.run y (gap ++ ['\n']) = R.run y ['\n'] := by
  induction gap generalizing y with
  | nil => rfl
  | cons c gap ih =>
    obtain ⟨hc, hgap⟩ := forall_mem_cons.1 hgap
    rw [cons_append, run_cons] at hcode ⊢
    have hrest := ih hgap hcode
    rw [hrest] at hcode ⊢
    obtain ⟨m, x⟩ := y
    exact step_blank_feed hlumps hc (closed_of_next hc (step_feed.1.1 hcode))

/-- Blanks in a row are like one, and so are characters of literals. -/
structure Lumps (R : Reader σ) : Prop where
  blank : ∀ x, R.blank (R.blank x) = R.blank x
  quoted : ∀ x c d, R.quoted (R.quoted x c) d = R.quoted x d

theorem step_lineEnd (h : R.Lumps) (hc : c = '\n' ∨ c = '\r') (y : Mode × σ) :
    R.step (R.step y c) '\n' = R.step y '\n' := by
  have hblank : isBlank c := by
    rcases hc with rfl | rfl
    · decide
    · decide
  obtain ⟨hslash, hstar, hbackslash, hquote⟩ := ne_of_isBlank hblank
  have hfeed (d : Bool) (z : σ) : R.step (.quote d, z) '\n' = (.quote d, R.quoted z '\n') := by
    cases d <;> rfl
  obtain ⟨m, x⟩ := y
  cases m with
  | code => exact step_blank_feed h.blank hblank (.inl rfl)
  | slash => exact step_blank_feed h.blank hblank (.inr (.inl rfl))
  | line => exact step_blank_feed h.blank hblank (.inr (.inr rfl)) (x := x)
  | block => rw [step_of_ne_slash (by decide) (x := x) (c := c), Mode.next, if_neg hstar, take]
  | star =>
    rw [step_of_ne_slash (by decide) (x := x) (c := c), Mode.next, if_neg hslash, if_neg hstar, take]
    rfl
  | quote d =>
    have hstays : R.step (.quote d, x) c = (.quote d, R.quoted x c) := by
      rw [step_of_ne_slash (by simp), Mode.next, if_neg hbackslash, if_neg (hquote d), take]
    rw [hstays, hfeed, hfeed, h.quoted]
  | escape d =>
    have hescape (e : Char) : R.step (.escape d, x) e = (.quote d, R.quoted x e) := rfl
    rw [hescape, hfeed, hescape, h.quoted]

end Reader

end Obscura.Text
