import Mathlib.Data.List.TakeWhile
import Obscura.Layout.Token
import Obscura.Proofs.Characters

/-
  The lexemes of the language whose texts are spaced anew: names, number literals
  with separators, fraction and exponent, and signs, each as long as it can be.
  A text is seen as its characters that are no blanks, with a gap behind some of
  them (`layout`), and a lexeme never runs over a gap. So two layouts of the same
  characters have the same lexemes unless the second has a gap inside a lexeme of
  the first, or has none between a point and a digit where the first has one
  (`lexed_eq_iff`).
-/

namespace Obscura.Layout

open Text List

variable {c : Char} {m n : Nat} {s t u : Chars}

/-! ## Number literals -/

/-- How far a number literal has been read. -/
inductive NumberState where
  | start
  | zero
  | whole
  | wholeBar
  | point
  | part
  | partBar
  | letter
  | minus
  | power
  | powerBar
  | mark
  | hex
  | hexBar
deriving Repr, DecidableEq

variable {q r : NumberState}

namespace NumberState

/-- Behind a digit before the point. -/
def stepWhole (c : Char) : Option NumberState :=
  if c.isDigit then some whole
  else if c = '_' then some wholeBar
  else if c = '.' then some point
  else if c = 'e' ∨ c = 'E' then some letter
  else none

/-- One more character of a number literal. A bar stands between two digits, a point
before one, and `x` behind a zero that is the first character. -/
def step : NumberState → Char → Option NumberState
  | start, c =>
    if c = '0' then some zero
    else if c.isDigit then some whole
    else if c = '.' then some point
    else none
  | zero, c => if c = 'x' then some mark else stepWhole c
  | whole, c => stepWhole c
  | wholeBar, c => if c.isDigit then some whole else none
  | point, c => if c.isDigit then some part else none
  | part, c =>
    if c.isDigit then some part
    else if c = '_' then some partBar
    else if c = 'e' ∨ c = 'E' then some letter
    else none
  | partBar, c => if c.isDigit then some part else none
  | letter, c => if c.isDigit then some power else if c = '-' then some minus else none
  | minus, c => if c.isDigit then some power else none
  | power, c => if c.isDigit then some power else if c = '_' then some powerBar else none
  | powerBar, c => if c.isDigit then some power else none
  | mark, c => if isHexDigit c then some hex else none
  | hex, c => if isHexDigit c then some hex else if c = '_' then some hexBar else none
  | hexBar, c => if isHexDigit c then some hex else none

/-- A literal may end here: behind a digit. -/
def ends : NumberState → Bool
  | zero | whole | part | power | hex => true
  | _ => false

def read (q : NumberState) (t : Chars) : Option NumberState :=
  t.foldlM step q

end NumberState

/-- A number literal: digits with single bars between them, a fraction, an exponent, or
`0x` and hexadecimal digits. -/
def isNumberLiteral (t : Chars) : Bool :=
  (NumberState.start.read t).any NumberState.ends

/-! ## Lexemes -/

def continuesIdentifier (c : Char) : Bool :=
  isAsciiWord c || c == '$'

/-- A name of the language or a keyword. -/
def isNameLexeme : Chars → Bool
  | [] => false
  | c :: t => (continuesIdentifier c && !c.isDigit) && t.all continuesIdentifier

def signs : List Chars :=
  ["=>", "->", ":=", "==", "!=", "<=", ">=", "&&", "||", "<<", ">>", ">>>", "**", "++", "--", "+=",
    "-=", "*=", "/=", "%=", "|=", "&=", "^=", "<<=", ">>=", ">>>="].map String.toList

/-- A lexeme of more than one character, a name or a digit; any other character is a lexeme by
itself. -/
def isLexeme (t : Chars) : Bool :=
  isNameLexeme t || isNumberLiteral t || signs.contains t

/-- The largest number up to `n` that has the property `p`, or 1. -/
def largest (p : Nat → Bool) : Nat → Nat
  | 0 => 1
  | n + 1 => if p (n + 1) then n + 1 else largest p n

def lexemeLength (s : Chars) : Nat :=
  largest (fun n => isLexeme (s.take n)) s.length

theorem one_le_largest (p : Nat → Bool) : 1 ≤ largest p n := by
  induction n with
  | zero => exact Nat.le_refl 1
  | succ n ih =>
    rw [largest]
    split
    · exact Nat.le_add_left 1 n
    · exact ih

/-- The lexemes of a text, without the blanks between them. -/
def lexemes (s : Chars) : List Chars :=
  match s with
  | [] => []
  | c :: t =>
    if isBlank c then lexemes t
    else (c :: t).take (lexemeLength (c :: t)) :: lexemes ((c :: t).drop (lexemeLength (c :: t)))
termination_by s.length
decreasing_by
  · exact Nat.lt_succ_self _
  · have := one_le_largest (fun n => isLexeme ((c :: t).take n)) (n := (c :: t).length)
    rw [length_drop, length_cons]
    unfold lexemeLength
    omega

theorem lexemes_blank (hc : isBlank c) : lexemes (c :: t) = lexemes t := by
  rw [lexemes, if_pos hc]

theorem lexemes_blanks {b : Chars} (hb : ∀ c ∈ b, isBlank c) (t : Chars) :
    lexemes (b ++ t) = lexemes t := by
  induction b with
  | nil => rfl
  | cons c b ih =>
    rw [cons_append, lexemes_blank (hb c mem_cons_self),
      ih fun d hd => hb d (mem_cons_of_mem c hd)]

/-! ## The longest lexeme -/

/-- A lexeme of length `n` stands at the front of a text, and no longer one. -/
structure IsLongest (s : Chars) (n : Nat) : Prop where
  pos : 1 ≤ n
  le : n ≤ s.length
  lexeme : n = 1 ∨ isLexeme (s.take n) = true
  longest : ∀ k, n < k → k ≤ s.length → isLexeme (s.take k) = false

theorem largest_spec {p : Nat → Bool} (hn : 1 ≤ n) :
    largest p n ≤ n ∧ (largest p n = 1 ∨ p (largest p n)) ∧
      ∀ k, largest p n < k → k ≤ n → p k = false := by
  induction n with
  | zero => omega
  | succ n ih =>
    rw [largest]
    split
    next hp => exact ⟨Nat.le_refl _, .inr hp, fun k hk hle => absurd hk (Nat.not_lt.2 hle)⟩
    next hp =>
      cases n with
      | zero => exact ⟨Nat.le_refl 1, .inl rfl, fun k hk hle => absurd hk (Nat.not_lt.2 hle)⟩
      | succ n =>
        obtain ⟨hle, hor, hmax⟩ := ih (Nat.le_add_left 1 n)
        refine ⟨Nat.le_succ_of_le hle, hor, fun k hk hkn => ?_⟩
        rcases Nat.lt_or_eq_of_le hkn with hlt | rfl
        · exact hmax k hk (Nat.le_of_lt_succ hlt)
        · simpa using hp

theorem isLongest_lexemeLength (h : s ≠ []) : IsLongest s (lexemeLength s) := by
  obtain ⟨hle, hor, hmax⟩ := largest_spec (p := fun n => isLexeme (s.take n))
    (length_pos_iff.2 h)
  exact ⟨one_le_largest _, hle, hor, hmax⟩

theorem IsLongest.not_lt (hm : IsLongest s m) (hn : IsLongest s n) : ¬ m < n := by
  intro hlt
  rcases hn.lexeme with h | h
  · have := hm.pos
    omega
  · rw [hm.longest n hlt hn.le] at h
    cases h

theorem IsLongest.unique (hm : IsLongest s m) (hn : IsLongest s n) : m = n :=
  Nat.le_antisymm (Nat.not_lt.1 (hn.not_lt hm)) (Nat.not_lt.1 (hm.not_lt hn))

theorem IsLongest.eq (h : IsLongest s n) : lexemeLength s = n := by
  have hs : s ≠ [] := length_pos_iff.1 (Nat.le_trans h.pos h.le)
  exact (isLongest_lexemeLength hs).unique h

/-! ## What lexemes are made of -/

theorem isAsciiWord_of_isDigit (h : c.isDigit) : isAsciiWord c := by
  rw [isAsciiWord, Char.isAlphanum, h, Bool.or_true, Bool.true_or]

theorem isAsciiWord_of_isHexDigit (h : isHexDigit c) : isAsciiWord c := by
  have halpha (hc : c.isAlpha) : isAsciiWord c := by
    rw [isAsciiWord, Char.isAlphanum, hc, Bool.true_or, Bool.true_or]
  simp only [isHexDigit, Bool.or_eq_true, Bool.and_eq_true, decide_eq_true_eq, Char.le_def] at h
  rcases h with (h | ⟨hle, hge⟩) | ⟨hle, hge⟩
  · exact isAsciiWord_of_isDigit h
  · have hlower : c.isLower :=
      Bool.and_eq_true_iff.2 ⟨decide_eq_true hle, decide_eq_true (UInt32.le_trans hge (by decide))⟩
    exact halpha (Bool.or_eq_true_iff.2 (.inr hlower))
  · have hupper : c.isUpper := decide_eq_true ⟨hle, UInt32.le_trans hge (by decide)⟩
    exact halpha (Bool.or_eq_true_iff.2 (.inl hupper))

namespace NumberState

theorem read_nil : q.read [] = some q := rfl

theorem read_cons :
    q.read (c :: t) = (q.step c).bind fun r => r.read t := foldlM_cons ..

theorem read_append (q : NumberState) (t u : Chars) :
    q.read (t ++ u) = (q.read t).bind fun r => r.read u := foldlM_append ..

theorem exists_of_read_append_cons (h : q.read (t ++ c :: u) = some r) :
    ∃ p p', q.read t = some p ∧ p.step c = some p' ∧ p'.read u = some r := by
  rw [read_append, Option.bind_eq_some_iff] at h
  obtain ⟨p, hp, h⟩ := h
  rw [read_cons, Option.bind_eq_some_iff] at h
  obtain ⟨p', hstep, h⟩ := h
  exact ⟨p, p', hp, hstep, h⟩

theorem step_char (h : q.step c = some r) : isAsciiWord c ∨ c = '.' ∧ r = point ∨ c = '-' := by
  have hdigit := isAsciiWord_of_isDigit (c := c)
  have hhex := isAsciiWord_of_isHexDigit (c := c)
  have hword : ∀ d ∈ ['_', 'e', 'E', 'x', '0'], isAsciiWord d :=
    forall_mem_of_all rfl
  simp only [forall_mem_cons] at hword
  cases q <;> simp only [step, stepWhole] at h <;> grind

theorem step_point (h : point.step c = some r) : c.isDigit := by
  rw [step] at h
  by_contra hc
  rw [if_neg hc] at h
  cases h

theorem step_digit (hq : q.ends) (hc : c.isDigit) :
    ∃ r, q.step c = some r ∧ r.ends := by
  have hx : c ≠ 'x' := by
    rintro rfl
    cases hc
  have hhex : isHexDigit c := by simp [isHexDigit, hc]
  cases q with
  | zero => exact ⟨whole, by simp [step, stepWhole, hx, hc], rfl⟩
  | whole => exact ⟨whole, by simp [step, stepWhole, hc], rfl⟩
  | part => exact ⟨part, by simp [step, hc], rfl⟩
  | power => exact ⟨power, by simp [step, hc], rfl⟩
  | hex => exact ⟨hex, by simp [step, hhex], rfl⟩
  | _ => cases hq

end NumberState

theorem isNumberLiteral_iff :
    isNumberLiteral t ↔ ∃ q, NumberState.start.read t = some q ∧ q.ends := by
  rw [isNumberLiteral, Option.any_eq_true]

theorem isLexeme_iff :
    isLexeme t ↔ isNameLexeme t ∨ isNumberLiteral t ∨ t ∈ signs := by
  rw [isLexeme, Bool.or_eq_true, Bool.or_eq_true, contains_iff_mem, or_assoc]

theorem continuesIdentifier_of_mem (h : isNameLexeme t)
    (hc : c ∈ t) : continuesIdentifier c := by
  cases t with
  | nil => cases hc
  | cons d t =>
    simp only [isNameLexeme, Bool.and_eq_true, all_eq_true] at h
    rcases mem_cons.1 hc with rfl | hc
    · exact h.1.1
    · exact h.2 c hc

theorem number_char (h : isNumberLiteral t) (hc : c ∈ t) :
    isAsciiWord c ∨ c = '.' ∨ c = '-' := by
  obtain ⟨q, hq, -⟩ := isNumberLiteral_iff.1 h
  obtain ⟨a, b, rfl⟩ := append_of_mem hc
  obtain ⟨p, p', -, hstep, -⟩ := NumberState.exists_of_read_append_cons hq
  exact (NumberState.step_char hstep).imp_right (Or.imp_left And.left)

theorem sign_char (h : t ∈ signs) (hc : c ∈ t) : c ∈ "=>-:!<&|*+/%^".toList := by
  have hall : ∀ t ∈ signs, t.all (fun c => "=>-:!<&|*+/%^".toList.contains c) = true :=
    forall_mem_of_all rfl
  exact contains_iff_mem.1 (all_eq_true.1 (hall t h) c hc)

/-- The characters behind which a blank is dropped are no part of a lexeme, but for the point
of a number. -/
theorem lexeme_tight {a b : Chars} (h : isLexeme (a ++ c :: b))
    (hc : c ∈ "(\x7b[.,;".toList) : c = '.' ∧ ∃ d b', b = d :: b' ∧ d.isDigit := by
  have hmem : c ∈ a ++ c :: b := mem_append_right a mem_cons_self
  have hall : ∀ c ∈ "(\x7b[.,;".toList, continuesIdentifier c = false ∧ c ≠ '-' ∧
      c ∉ "=>-:!<&|*+/%^".toList :=
    forall_mem_of_all rfl
  obtain ⟨hname, hminus, hsign⟩ := hall c hc
  rcases isLexeme_iff.1 h with h | h | h
  · rw [continuesIdentifier_of_mem h hmem] at hname
    cases hname
  · obtain ⟨q, hq, hends⟩ := isNumberLiteral_iff.1 h
    obtain ⟨p, p', -, hstep, hread⟩ := NumberState.exists_of_read_append_cons hq
    have hword : isAsciiWord c ≠ true := by
      intro hw
      rw [continuesIdentifier, hw] at hname
      cases hname
    obtain ⟨rfl, rfl⟩ := ((NumberState.step_char hstep).resolve_left hword).resolve_right hminus
    refine ⟨rfl, ?_⟩
    cases b with
    | nil =>
      rw [NumberState.read_nil, Option.some.injEq] at hread
      subst hread
      cases hends
    | cons d b =>
      obtain ⟨r, hr, -⟩ := Option.bind_eq_some_iff.1 hread
      exact ⟨d, b, rfl, NumberState.step_point hr⟩
  · exact absurd (sign_char h hmem) hsign

theorem isBlank_of_isAsciiWord (h : isAsciiWord c) : isBlank c = false := by
  rw [Bool.eq_false_iff]
  intro hb
  have hword := isWord_of_isBlank hb
  simp only [isWord, isAlnum, isLetter, isNumeral, isFigure, isDecimal, Bool.or_eq_false_iff] at hword
  simp [isAsciiWord, Char.isAlphanum, hword] at h

theorem lexeme_not_blank (h : isLexeme t) (hc : c ∈ t) : isBlank c = false := by
  have hall : ∀ c ∈ "$.=>-:!<&|*+/%^".toList, isBlank c = false := forall_mem_of_all rfl
  rcases isLexeme_iff.1 h with h | h | h
  · have hname := continuesIdentifier_of_mem h hc
    rw [continuesIdentifier, Bool.or_eq_true, beq_iff_eq] at hname
    rcases hname with hword | rfl
    · exact isBlank_of_isAsciiWord hword
    · decide
  · rcases number_char h hc with hword | rfl | rfl
    · exact isBlank_of_isAsciiWord hword
    · decide
    · decide
  · exact hall c (mem_cons_of_mem _ (mem_cons_of_mem _ (sign_char h hc)))

theorem isLexeme_point {d : Char} (hd : d.isDigit) : isLexeme ['.', d] := by
  have h : isNumberLiteral ['.', d] :=
    isNumberLiteral_iff.2 ⟨.part, by simp [NumberState.read, NumberState.step, hd], rfl⟩
  exact isLexeme_iff.2 (.inr (.inl h))

/-! ## Layouts -/

/-- A character of a text that is no blank, with the blanks behind it and whether a space is
written behind it. -/
structure Spot where
  char : Char
  gap : Chars
  spaced : Bool
deriving Repr, DecidableEq

variable {a b : List Spot} {z : Spot}

namespace Spot

/-- What is written behind a character. -/
def space (z : Spot) : Chars :=
  if z.spaced then [' '] else []

end Spot

def charsOf (zs : List Spot) : Chars :=
  zs.map Spot.char

/-- The text of some characters with the given blanks behind them. -/
def layout (f : Spot → Chars) (zs : List Spot) : Chars :=
  zs.flatMap fun z => z.char :: f z

/-- The number of characters before the first gap. -/
def reach (f : Spot → Chars) : List Spot → Nat
  | [] => 0
  | z :: zs => if f z = [] then reach f zs + 1 else 1

/-- The lexeme at the front of a layout ends before the first gap. -/
def firstLength (f : Spot → Chars) (zs : List Spot) : Nat :=
  lexemeLength ((charsOf zs).take (reach f zs))

def lexed (f : Spot → Chars) (zs : List Spot) : List (List Spot) :=
  match zs with
  | [] => []
  | z :: t => (z :: t).take (firstLength f (z :: t)) :: lexed f ((z :: t).drop (firstLength f (z :: t)))
termination_by zs.length
decreasing_by
  have : 1 ≤ firstLength f (z :: t) := one_le_largest _
  rw [length_drop, length_cons]
  omega

section Reach

variable (f : Spot → Chars)

theorem reach_le (zs : List Spot) : reach f zs ≤ zs.length := by
  induction zs with
  | nil => exact Nat.le_refl 0
  | cons z zs ih =>
    rw [reach]
    split
    · exact Nat.succ_le_succ ih
    · exact Nat.le_add_left 1 _

theorem one_le_reach (zs : List Spot) : 1 ≤ reach f (z :: zs) := by
  rw [reach]
  split
  · exact Nat.le_add_left 1 _
  · exact Nat.le_refl 1

variable {f}

theorem gap_of_lt_reach (h : a.length + 1 < reach f (a ++ z :: b)) : f z = [] := by
  induction a with
  | nil =>
    by_contra hz
    rw [nil_append, reach, if_neg hz] at h
    exact absurd h (Nat.lt_irrefl _)
  | cons y a ih =>
    rw [cons_append, reach] at h
    split at h
    · exact ih (Nat.lt_of_succ_lt_succ h)
    · exact absurd h (by rw [length_cons]; omega)

theorem gap_of_reach_eq {y : Spot} (h : reach f (a ++ z :: y :: b) = a.length + 1) : f z ≠ [] := by
  induction a with
  | nil =>
    intro hz
    have := one_le_reach f (z := y) b
    rw [nil_append, reach, if_pos hz, length_nil] at h
    omega
  | cons x a ih =>
    rw [cons_append, reach, length_cons] at h
    split at h
    · exact ih (Nat.succ.inj h)
    · omega

theorem reach_of_gap (h : f z ≠ []) : reach f (a ++ z :: b) ≤ a.length + 1 := by
  by_contra hlt
  exact h (gap_of_lt_reach (Nat.not_le.1 hlt))

/-- The first `n` characters are in reach if there is no gap before the last of them. -/
theorem le_reach_iff {zs : List Spot} (hn : n ≤ zs.length) :
    n ≤ reach f zs ↔ ∀ z ∈ (zs.take n).dropLast, f z = [] := by
  induction zs generalizing n with
  | nil => simp [reach, Nat.le_zero.1 hn]
  | cons z zs ih =>
    rcases n with _ | _ | n
    · simp
    · simp [one_le_reach f zs]
    · obtain ⟨y, zs, rfl⟩ : ∃ y t, zs = y :: t := by
        cases zs with
        | nil => simp at hn
        | cons y t => exact ⟨y, t, rfl⟩
      rw [take_succ_cons, take_succ_cons, dropLast_cons_cons, forall_mem_cons,
        reach, ← take_succ_cons, ← ih (Nat.le_of_succ_le_succ hn)]
      split
      next hz => simp [hz]
      next hz => simp [hz]

end Reach

theorem IsLongest.append {r : Chars} (h : IsLongest u n)
    (hr : ∀ c, r.head? = some c → isBlank c) : IsLongest (u ++ r) n := by
  have htake {k : Nat} (hk : k ≤ u.length) : (u ++ r).take k = u.take k :=
    take_append_of_le_length hk
  refine ⟨h.pos, Nat.le_trans h.le (by simp), ?_, fun k hnk hk => ?_⟩
  · rw [htake h.le]
    exact h.lexeme
  by_cases hku : k ≤ u.length
  · rw [htake hku]
    exact h.longest k hnk hku
  cases r with
  | nil => simp [hku] at hk
  | cons c r =>
    rw [Bool.eq_false_iff]
    intro hlex
    have hmem : c ∈ (u ++ c :: r).take k := by
      obtain ⟨j, rfl⟩ := Nat.exists_eq_add_of_lt (Nat.not_le.1 hku)
      rw [Nat.add_assoc, take_length_add_append]
      exact mem_append_right u mem_cons_self
    have hb := lexeme_not_blank hlex hmem
    rw [hr c rfl] at hb
    cases hb

section Lexed

variable {f g : Spot → Chars} {zs : List Spot}

theorem length_charsOf : (charsOf zs).length = zs.length := length_map _

theorem firstLength_spec (h : zs ≠ []) :
    IsLongest ((charsOf zs).take (reach f zs)) (firstLength f zs) := by
  refine isLongest_lexemeLength (length_pos_iff.1 ?_)
  obtain ⟨z, t, rfl⟩ := exists_cons_of_ne_nil h
  have hone := one_le_reach f (z := z) t
  have hle := reach_le f (z :: t)
  rw [length_take, length_charsOf]
  omega

theorem firstLength_le_reach (h : zs ≠ []) : firstLength f zs ≤ reach f zs :=
  Nat.le_trans (firstLength_spec h).le (length_take_le ..)

theorem firstLength_le_length (h : zs ≠ []) : firstLength f zs ≤ zs.length :=
  Nat.le_trans (firstLength_le_reach h) (reach_le f zs)

theorem layout_split (hf : ∀ z ∈ zs, ∀ c ∈ f z, isBlank c) (hn : 1 ≤ n) (hr : n ≤ reach f zs) :
    ∃ b, (∀ c ∈ b, isBlank c) ∧ layout f zs = (charsOf zs).take n ++ (b ++ layout f (zs.drop n)) ∧
      (n = reach f zs → b = [] → zs.drop n = []) := by
  induction zs generalizing n with
  | nil => exact absurd (Nat.le_trans hn hr) (by simp [reach])
  | cons z zs ih =>
    obtain ⟨hz, hzs⟩ := forall_mem_cons.1 hf
    rw [reach] at hr ⊢
    obtain ⟨n, rfl⟩ := Nat.exists_eq_add_of_le' hn
    by_cases hgap : f z = []
    · rw [if_pos hgap] at hr ⊢
      cases n with
      | zero =>
        refine ⟨[], by simp, by simp [layout, charsOf, hgap], fun heq _ => ?_⟩
        cases zs with
        | nil => rfl
        | cons y t =>
          have := one_le_reach f (z := y) t
          omega
      | succ n =>
        obtain ⟨b, hb, heq, hend⟩ := ih hzs (Nat.le_add_left 1 n) (Nat.le_of_succ_le_succ hr)
        refine ⟨b, hb, ?_, fun hn => hend (Nat.succ.inj hn)⟩
        have hcons : layout f (z :: zs) = z.char :: layout f zs := by simp [layout, hgap]
        rw [hcons, heq]
        rfl
    · rw [if_neg hgap] at hr ⊢
      obtain rfl : n = 0 := by omega
      exact ⟨f z, hz, by simp [layout, charsOf], fun _ hnil => absurd hnil hgap⟩

theorem lexemes_layout (hc : ∀ z ∈ zs, isBlank z.char = false)
    (hf : ∀ z ∈ zs, ∀ c ∈ f z, isBlank c) :
    lexemes (layout f zs) = (lexed f zs).map charsOf := by
  induction hn : zs.length using Nat.strongRecOn generalizing zs with
  | ind n ih =>
    subst hn
    cases zs with
    | nil => simp [layout, lexed, lexemes]
    | cons z t =>
      have hne : z :: t ≠ [] := cons_ne_nil z t
      have hlong := firstLength_spec (f := f) hne
      have hle := firstLength_le_reach (f := f) hne
      obtain ⟨b, hb, heq, hend⟩ := layout_split hf (one_le_reach f t) (Nat.le_refl _)
      have hlength : lexemeLength (layout f (z :: t)) = firstLength f (z :: t) := by
        rw [heq]
        refine (hlong.append fun c hhead => ?_).eq
        cases b with
        | nil => simp [hend rfl rfl, layout] at hhead
        | cons d b =>
          rw [cons_append, head?_cons, Option.some.injEq] at hhead
          exact hhead ▸ hb d mem_cons_self
      obtain ⟨b, hb, heq, -⟩ := layout_split hf hlong.pos hle
      have hsize : ((charsOf (z :: t)).take (firstLength f (z :: t))).length = firstLength f (z :: t) := by
        rw [length_take, length_charsOf]
        exact Nat.min_eq_left (firstLength_le_length hne)
      have hcons : layout f (z :: t) = z.char :: (f z ++ layout f t) := rfl
      have hstep : lexemes (layout f (z :: t)) = (layout f (z :: t)).take (firstLength f (z :: t)) ::
          lexemes ((layout f (z :: t)).drop (firstLength f (z :: t))) := by
        rw [← hlength, hcons, lexemes, if_neg (by simp [hc z mem_cons_self])]
      rw [hstep, heq, take_left' hsize, drop_left' hsize, lexemes_blanks hb, lexed, map_cons]
      have hsub : ∀ y ∈ (z :: t).drop (firstLength f (z :: t)), y ∈ z :: t := fun y hy =>
        mem_of_mem_drop hy
      rw [ih _ (by rw [length_drop]; have := hlong.pos; simp only [length_cons]; omega)
        (fun y hy => hc y (hsub y hy)) (fun y hy => hf y (hsub y hy)) rfl, charsOf, charsOf,
        map_take]

/-! ## Two layouts of the same characters -/

/-- A gap between a point and a digit that only the first of two layouts has. -/
def Joins (f g : Spot → Chars) (zs : List Spot) : Prop :=
  ∃ a z y b, zs = a ++ z :: y :: b ∧ z.char = '.' ∧ f z ≠ [] ∧ g z = [] ∧ y.char.isDigit = true

/-- The second layout leaves gaps out only behind some characters. -/
def ClosesTight (f g : Spot → Chars) (zs : List Spot) : Prop :=
  ∀ a z y b, zs = a ++ z :: y :: b → f z ≠ [] → g z = [] → z.char ∈ "(\x7b[.,;".toList

theorem Joins.of_drop (h : Joins f g (zs.drop n)) : Joins f g zs := by
  obtain ⟨a, z, y, b, heq, h⟩ := h
  exact ⟨zs.take n ++ a, z, y, b, by rw [append_assoc, ← heq, take_append_drop], h⟩

theorem ClosesTight.drop (h : ClosesTight f g zs) (n : Nat) : ClosesTight f g (zs.drop n) :=
  fun a z y b heq =>
    h (zs.take n ++ a) z y b (by rw [append_assoc, ← heq, take_append_drop])

theorem take_charsOf {k : Nat} (h : k ≤ n) : ((charsOf zs).take n).take k = (charsOf zs).take k := by
  rw [take_take, Nat.min_eq_left h]

theorem exists_split (h : n + 1 < zs.length) : ∃ a z y b, zs = a ++ z :: y :: b ∧ a.length = n := by
  obtain ⟨y, b, hb⟩ := exists_cons_of_length_pos (l := zs.drop (n + 1))
    (by rw [length_drop]; omega)
  refine ⟨zs.take n, zs[n], y, b, ?_, length_take_of_le (by omega)⟩
  rw [← hb, getElem_cons_drop, take_append_drop]

/-- Where the second layout has no gap inside the first lexeme, this is its first lexeme too. -/
theorem firstLength_eq (hne : zs ≠ []) (ht : ClosesTight f g zs) (hj : ¬ Joins f g zs)
    (h : ∀ z ∈ (zs.take (firstLength f zs)).dropLast, g z = []) :
    firstLength g zs = firstLength f zs := by
  have hlong := firstLength_spec (f := f) hne
  have hreach := (le_reach_iff (firstLength_le_length hne)).2 h
  have hle := firstLength_le_reach (f := f) hne
  have hlexeme := hlong.lexeme
  rw [take_charsOf hle] at hlexeme
  refine IsLongest.eq ⟨hlong.pos, ?_, ?_, fun k hk hkr => ?_⟩
  · rw [length_take, length_charsOf]
    exact Nat.le_min.2 ⟨hreach, firstLength_le_length hne⟩
  · rwa [take_charsOf hreach]
  rw [length_take, length_charsOf, Nat.le_min] at hkr
  rw [take_charsOf hkr.1]
  by_cases hkf : k ≤ reach f zs
  · rw [← take_charsOf hkf]
    refine hlong.longest k hk ?_
    rw [length_take, length_charsOf]
    exact Nat.le_min.2 ⟨hkf, hkr.2⟩
  -- the first layout has a gap before the end of these characters, which the second leaves out
  rw [Bool.eq_false_iff]
  intro hlex
  have hone : 1 ≤ reach f zs := Nat.le_trans hlong.pos hle
  have hlt : reach f zs - 1 + 1 < zs.length := by omega
  obtain ⟨a, z, y, b, rfl, ha⟩ := exists_split hlt
  have hend : reach f (a ++ z :: y :: b) = a.length + 1 := by omega
  have hf : f z ≠ [] := gap_of_reach_eq hend
  have hg : g z = [] := gap_of_lt_reach (Nat.lt_of_lt_of_le (by omega) hkr.1)
  obtain ⟨j, rfl⟩ : ∃ j, k = (charsOf a).length + (j + 2) :=
    ⟨k - a.length - 2, by rw [length_charsOf]; omega⟩
  have hchars : charsOf (a ++ z :: y :: b) = charsOf a ++ z.char :: y.char :: charsOf b := by
    simp [charsOf]
  rw [hchars, take_length_add_append, take_succ_cons, take_succ_cons] at hlex
  obtain ⟨hpoint, d, b', heq, hd⟩ := lexeme_tight hlex (ht a z y b rfl hf hg)
  obtain ⟨rfl, -⟩ := cons.inj heq
  exact hj ⟨a, z, y, b, rfl, hpoint, hf, hg, hd⟩

/-- Layouts with the same first lexeme: the second has no gap in it, and joins no point to a
digit there. -/
theorem of_firstLength_eq (hne : zs ≠ []) (h : firstLength g zs = firstLength f zs) :
    (∀ z ∈ (zs.take (firstLength f zs)).dropLast, g z = []) ∧
      (Joins f g zs → Joins f g (zs.drop (firstLength f zs))) := by
  refine ⟨(le_reach_iff (firstLength_le_length hne)).1 (h ▸ firstLength_le_reach hne), ?_⟩
  rintro ⟨a, z, y, b, rfl, hpoint, hf, hg, hd⟩
  by_cases hak : firstLength f (a ++ z :: y :: b) ≤ a.length
  · exact ⟨a.drop _, z, y, b, drop_append_of_le_length hak, hpoint, hf, hg, hd⟩
  -- the first lexeme ends with the point, so it is the point alone
  exfalso
  have hlong := firstLength_spec (f := f) hne
  have hle := firstLength_le_reach (f := f) hne
  have hend : firstLength f (a ++ z :: y :: b) = a.length + 1 :=
    Nat.le_antisymm (Nat.le_trans hle (reach_of_gap hf)) (Nat.not_le.1 hak)
  have hlexeme := hlong.lexeme
  have hchars : (charsOf (a ++ z :: y :: b)).take (a.length + 1) = charsOf a ++ [z.char] := by
    rw [charsOf, map_append, ← charsOf, ← length_charsOf, take_length_add_append]
    rfl
  rw [take_charsOf hle, hend, hchars] at hlexeme
  rcases hlexeme with hone | hlexeme
  · obtain rfl : a = [] := length_eq_zero_iff.1 (Nat.succ.inj hone)
    have hreach : 2 ≤ reach g ([] ++ z :: y :: b) := by
      have := one_le_reach g (z := y) b
      rw [nil_append, reach, if_pos hg]
      omega
    have hlex : isLexeme (((charsOf ([] ++ z :: y :: b)).take (reach g ([] ++ z :: y :: b))).take 2) =
        true := by
      rw [take_charsOf hreach]
      change isLexeme [z.char, y.char]
      rw [hpoint]
      exact isLexeme_point hd
    rw [(firstLength_spec hne).longest 2 (by rw [h, hend]; exact Nat.lt_succ_self 1)
      (by rw [length_take, length_charsOf]; exact Nat.le_min.2 ⟨hreach, by simp⟩)] at hlex
    cases hlex
  · obtain ⟨-, d, b', heq, -⟩ := lexeme_tight hlexeme (by rw [hpoint]; decide)
    cases heq

/-- Two layouts of the same characters have the same lexemes if and only if the second has no
gap inside a lexeme of the first and joins no point to a digit. -/
theorem lexed_eq_iff (ht : ClosesTight f g zs) :
    (lexed g zs).map charsOf = (lexed f zs).map charsOf ↔
      (∀ G ∈ lexed f zs, ∀ z ∈ G.dropLast, g z = []) ∧ ¬ Joins f g zs := by
  induction hn : zs.length using Nat.strongRecOn generalizing zs with
  | ind n ih =>
    subst hn
    cases zs with
    | nil =>
      simp only [lexed, Joins, map_nil, not_mem_nil, false_imp_iff, implies_true, true_and,
        true_iff]
      rintro ⟨a, z, y, b, heq, -⟩
      simp at heq
    | cons z t =>
      have hne : z :: t ≠ [] := cons_ne_nil z t
      have hlt : ((z :: t).drop (firstLength f (z :: t))).length < (z :: t).length := by
        have := (firstLength_spec (f := f) hne).pos
        rw [length_drop, length_cons]
        omega
      have hrest := ih _ hlt (ht.drop _) rfl
      rw [lexed, lexed, map_cons, map_cons, cons.injEq, forall_mem_cons]
      constructor
      · rintro ⟨hfirst, hlater⟩
        have hlength := congrArg length hfirst
        rw [length_charsOf, length_charsOf, length_take_of_le (firstLength_le_length hne),
          length_take_of_le (firstLength_le_length hne)] at hlength
        obtain ⟨hinside, hjoins⟩ := of_firstLength_eq hne hlength
        rw [hlength, hrest] at hlater
        exact ⟨⟨hinside, hlater.1⟩, fun hj => hlater.2 (hjoins hj)⟩
      · rintro ⟨⟨hinside, hlater⟩, hj⟩
        have hlength := firstLength_eq hne ht hj hinside
        rw [hlength, hrest]
        exact ⟨rfl, hlater, fun h => hj h.of_drop⟩

end Lexed

end Obscura.Layout
