import Obscura.Proofs.Directives
import Obscura.Proofs.Strings
import Obscura.Proofs.Tables

/-
  Which runs of digits the passes rewrite. The lexemes of the integer pass that are
  whole numbers are the runs of digits that stand between two word boundaries with no
  point at either end and outside of strings (`mem_placed_lexemes`); by way of the
  pieces that a text falls into when its directives are taken out, this becomes a
  condition on the text itself (`Disguised`). For the pass with tables it is a condition
  on the word, its line and the marks of the text (`Tabulated`).
-/

namespace Obscura.Literal

open Text Layout Number List

variable {as bs ps : List Piece} {before : Option Char} {c : Char} {i p q n : Nat}
  {l r s t u x y v : Chars} {behind : List Chars}

/-! ## Whole numbers among lexemes -/

def IsDigits (w : Chars) : Prop :=
  w ≠ [] ∧ ∀ c ∈ w, isDecimal c = true

/-- Neither a word nor a decimal fraction goes on over the character. -/
def Clear (o : Option Char) : Prop :=
  isWordAt o = false ∧ o ≠ some '.'

theorem Clear.isDecimal (h : Clear r.head?) : ∀ c, r.head? = some c → isDecimal c = false := by
  intro c hc
  rw [hc] at h
  exact isDecimal_of_isWord_eq_false h.1

theorem not_clear_of_isDecimal (h : isDecimal c) : ¬Clear (some c) := by
  rintro ⟨hword, -⟩
  rw [isWordAt_some, isWord_of_isDecimal h] at hword
  cases hword

theorem lexeme_cases (before : Option Char) (c : Char) (t : Chars) :
    (∃ u r, lexeme before c t = (.quoted u, r) ∧ u.getLast? = some c ∧ (c = '"' ∨ c = '\'')) ∨
    (∃ u v r, lexeme before c t = (.fraction (u ++ '.' :: v), r) ∧ (∀ x ∈ u, isDecimal x) ∧
      (∀ x ∈ v, isDecimal x) ∧ ∀ x, r.head? = some x → isDecimal x = false) ∨
    (∃ w r, lexeme before c t = (.whole w, r) ∧ IsDigits w ∧ Clear r.head? ∧ isWordAt before = false) ∨
    (lexeme before c t = (.char c, t) ∧
      (isDecimal c → isWordAt before ∨ ¬Clear (t.dropWhile isDecimal).head?) ∧
      (c = '.' → ∀ x, t.head? = some x → isDecimal x = false)) := by
  have hrun : ∀ x ∈ t.takeWhile isDecimal, isDecimal x = true := fun x hx => mem_takeWhile_imp hx
  by_cases hquote : c = '"' ∨ c = '\''
  · have hdecimal : isDecimal c = false := by
      rcases hquote with rfl | rfl <;> exact isDecimal_of_isWord_eq_false (isWord_of_symbol (by decide) rfl)
    have hdot : c ≠ '.' := by
      rcases hquote with rfl | rfl <;> decide
    rw [lexeme.eq_def, if_pos hquote]
    cases hclosing : closing? (fun _ => true) c t with
    | none =>
      refine .inr (.inr (.inr ⟨rfl, fun h => ?_, fun h => absurd h hdot⟩))
      rw [hdecimal] at h
      cases h
    | some x =>
      obtain ⟨u, r⟩ := x
      have hlast : (c :: u).getLast? = some c := by
        obtain ⟨m, rfl⟩ := exists_of_closing? hclosing
        rw [← cons_append, getLast?_concat]
      exact .inl ⟨c :: u, r, rfl, hlast, hquote⟩
  rw [lexeme.eq_def, if_neg hquote]
  by_cases hdecimal : isDecimal c
  · have hds : IsDigits (c :: t.takeWhile isDecimal) :=
      ⟨cons_ne_nil _ _, forall_mem_cons.2 ⟨hdecimal, hrun⟩⟩
    have hdot : c ≠ '.' := by
      rintro rfl
      exact absurd hdecimal (by rw [isDecimal_of_isWord_eq_false (isWord_of_symbol (by decide) rfl)]; decide)
    rw [if_pos hdecimal]
    dsimp only
    split
    · rename_i r hr
      exact .inr (.inl ⟨_, _, _, rfl, hds.2, fun x hx => mem_takeWhile_imp hx, fun x hx => dropWhile_stops hx⟩)
    · rename_i hne
      have hpoint : (t.dropWhile isDecimal).head? ≠ some '.' := fun h => by
        obtain ⟨r, hr⟩ := head?_eq_some_iff.1 h
        exact hne r hr
      split
      · rename_i hword
        rw [Bool.or_eq_true] at hword
        refine .inr (.inr (.inr ⟨rfl, fun _ => hword.imp_right fun h hclear => ?_, fun h => absurd h hdot⟩))
        rw [hclear.1] at h
        cases h
      · rename_i hword
        rw [Bool.or_eq_true, not_or, Bool.not_eq_true, Bool.not_eq_true] at hword
        exact .inr (.inr (.inl ⟨_, _, rfl, hds, ⟨hword.2, hpoint⟩, hword.1⟩))
  rw [if_neg hdecimal]
  by_cases hdot : c = '.'
  · subst hdot
    rw [if_pos rfl]
    cases t with
    | nil =>
      refine .inr (.inr (.inr ⟨rfl, fun h => absurd h hdecimal, fun _ x hx => ?_⟩))
      cases hx
    | cons x t =>
      dsimp only
      split
      · exact .inr (.inl ⟨[], _, _, rfl, forall_mem_nil _, hrun, fun x hx => dropWhile_stops hx⟩)
      · rename_i hx
        refine .inr (.inr (.inr ⟨rfl, fun h => absurd h hdecimal, fun _ y hy => ?_⟩))
        cases hy
        exact Bool.not_eq_true _ ▸ hx
  · rw [if_neg hdot]
    exact .inr (.inr (.inr ⟨rfl, fun h => absurd h hdecimal, fun h => absurd h hdot⟩))

theorem lastOr_none : lastOr none u = u.getLast? := by
  rw [lastOr]
  cases u.getLast? <;> rfl

theorem lastOr_append :
    lastOr before (u ++ v) = lastOr (lastOr before u) v := by
  rw [lastOr, getLast?_append]
  cases hv : v.getLast? with
  | none =>
    rw [lastOr, hv]
    rfl
  | some c =>
    rw [lastOr, hv]
    rfl

/-- A run of digits stands at the place `i` of a text, and nothing goes on over its ends. -/
def WholeAt (before : Option Char) (m : Chars) (i : Nat) (w : Chars) : Prop :=
  IsDigits w ∧ ∃ a b, m = a ++ (w ++ b) ∧ a.length = i ∧ Clear (lastOr before a) ∧ Clear b.head?

theorem wholeAt_append :
    WholeAt before (u ++ r) (u.length + i) w ↔ WholeAt (lastOr before u) r i w := by
  refine and_congr_right fun _ => ⟨?_, ?_⟩
  · rintro ⟨a, b, heq, hlen, hbefore, hbehind⟩
    rcases append_eq_append_iff.1 heq with ⟨x, rfl, rfl⟩ | ⟨x, rfl, hx⟩
    · refine ⟨x, b, rfl, ?_, ?_, hbehind⟩
      · rw [length_append] at hlen
        omega
      · rwa [lastOr_append] at hbefore
    · obtain ⟨rfl, rfl⟩ : x = [] ∧ i = 0 := by
        rw [length_append] at hlen
        exact ⟨length_eq_zero_iff.1 (by omega), by omega⟩
      rw [append_nil] at *
      exact ⟨[], b, hx.symm, rfl, hbefore, hbehind⟩
  · rintro ⟨a, b, rfl, rfl, hbefore, hbehind⟩
    refine ⟨u ++ a, b, (append_assoc _ _ _).symm, length_append, ?_, hbehind⟩
    rwa [lastOr_append]

theorem eq_of_digits (hw : ∀ c ∈ w, isDecimal c)
    (hb : ∀ c, b.head? = some c → isDecimal c = false) (hu : ∀ c ∈ u, isDecimal c)
    (hr : ∀ c, r.head? = some c → isDecimal c = false) (h : w ++ b = u ++ r) : w = u ∧ b = r := by
  have hwu : w = u := by
    rw [← takeWhile_run hw hb, h, takeWhile_run hu hr]
  subst hwu
  exact ⟨rfl, append_cancel_left h⟩

/-- A run of digits that starts in a lexeme, but in no string, is this lexeme. -/
theorem WholeAt.eq_lexeme
    (h : WholeAt before (c :: t) i w) (hi : i < (lexeme before c t).1.text.length)
    (hquoted : ∀ u, (lexeme before c t).1 ≠ .quoted u) : i = 0 ∧ (lexeme before c t).1 = .whole w := by
  obtain ⟨hw, a, b, heq, rfl, hbefore, hbehind⟩ := h
  rw [← lexeme_append before] at heq
  obtain ⟨x, hx, hrest⟩ : ∃ x, (lexeme before c t).1.text = a ++ x ∧ w ++ b = x ++ (lexeme before c t).2 := by
    rcases append_eq_append_iff.1 heq with ⟨x, rfl, -⟩ | ⟨x, hx, hrest⟩
    · rw [length_append] at hi
      omega
    · exact ⟨x, hx, hrest⟩
  -- a lexeme of digits and points goes on over each of its places but the first one
  have hfirst (hall : ∀ y ∈ (lexeme before c t).1.text, ¬Clear (some y)) : a = [] := by
    rcases eq_nil_or_concat a with rfl | ⟨a, y, rfl⟩
    · rfl
    · rw [concat_eq_append, lastOr, getLast?_concat] at hbefore
      exact absurd hbefore (hall y (hx ▸ by simp))
  rcases lexeme_cases before c t with
    ⟨u, r, hl, -⟩ | ⟨u, v, r, hl, hu, hv, -⟩ | ⟨u, r, hl, hu, hr, -⟩ | ⟨hl, hdecimal, -⟩
  · exact absurd (congrArg Prod.fst hl) (hquoted u)
  · rw [hl] at hx hrest hfirst ⊢
    obtain rfl : a = [] := hfirst fun y hy => by
      simp only [Lexeme.text, mem_append, mem_cons] at hy
      rcases hy with hy | rfl | hy
      · exact not_clear_of_isDecimal (hu y hy)
      · exact fun hclear => hclear.2 rfl
      · exact not_clear_of_isDecimal (hv y hy)
    obtain rfl : u ++ '.' :: v = x := hx
    rw [append_assoc] at hrest
    have hpoint : ∀ y, ('.' :: v ++ r).head? = some y → isDecimal y = false := by
      rintro y ⟨⟩
      exact isDecimal_of_isWord_eq_false (isWord_of_symbol (by decide) rfl)
    obtain ⟨-, rfl⟩ := eq_of_digits hw.2 hbehind.isDecimal hu hpoint hrest
    exact absurd rfl hbehind.2
  · rw [hl] at hx hrest hfirst ⊢
    obtain rfl : a = [] := hfirst fun y hy => not_clear_of_isDecimal (hu.2 y hy)
    obtain rfl : u = x := hx
    obtain ⟨rfl, -⟩ := eq_of_digits hw.2 hbehind.isDecimal hu.2 hr.isDecimal hrest
    exact ⟨rfl, rfl⟩
  · rw [hl] at hi hx hrest
    obtain rfl : a = [] := length_eq_zero_iff.1 (Nat.lt_one_iff.1 hi)
    obtain rfl : [c] = x := hx
    obtain ⟨d, v, rfl⟩ := exists_cons_of_ne_nil hw.1
    rw [cons_append, singleton_append] at hrest
    obtain ⟨rfl, rfl⟩ := cons.inj hrest
    rw [dropWhile_run (fun y hy => hw.2 y (.tail _ hy)) hbehind.isDecimal] at hdecimal
    rcases hdecimal (hw.2 d mem_cons_self) with hword | hclear
    · rw [show isWordAt before = false from hbefore.1] at hword
      cases hword
    · exact absurd hbehind hclear

theorem lexeme_point :
    lastOr before (lexeme before c t).1.text = some '.' →
      ∀ x, (lexeme before c t).2.head? = some x → isDecimal x = false := by
  rcases lexeme_cases before c t with
    ⟨u, r, hl, hlast, hquote⟩ | ⟨u, v, r, hl, -, -, hr⟩ | ⟨u, r, hl, -, hr, -⟩ | ⟨hl, -, hdot⟩
  · rw [hl, lastOr, Lexeme.text, hlast]
    intro hpoint
    rcases hquote with rfl | rfl <;> exact absurd (Option.some.inj hpoint) (by decide)
  · rw [hl]
    exact fun _ => hr
  · rw [hl]
    exact fun _ => hr.isDecimal
  · rw [hl]
    exact fun h => hdot (Option.some.inj h)

theorem wholeAt_of_lexeme
    (hbefore : before = some '.' → ∀ x, (c :: t).head? = some x → isDecimal x = false)
    (h : (lexeme before c t).1 = .whole w) : WholeAt before (c :: t) 0 w := by
  have htext := lexeme_append before c t
  rcases lexeme_cases before c t with ⟨u, r, hl, -⟩ | ⟨u, v, r, hl, -⟩ | ⟨u, r, hl, hu, hr, hword⟩ | ⟨hl, -⟩
  · rw [hl] at h
    cases h
  · rw [hl] at h
    cases h
  · rw [hl] at h htext
    cases h
    refine ⟨hu, [], r, htext.symm, rfl, ⟨hword, fun hdot => ?_⟩, hr⟩
    obtain ⟨d, v, rfl⟩ := exists_cons_of_ne_nil hu.1
    obtain ⟨rfl, -⟩ := cons.inj htext
    have := hbefore hdot d rfl
    rw [hu.2 d mem_cons_self] at this
    cases this
  · rw [hl] at h
    cases h

/-- The place `q` lies in a string among lexemes of which the first one has the place `p`. -/
def InString (p : Nat) (ls : List Lexeme) (q : Nat) : Prop :=
  ∃ x t, (x, Lexeme.quoted t) ∈ placed Lexeme.text p ls ∧ x ≤ q ∧ q < x + t.length

theorem inString_cons {l : Lexeme} {ls : List Lexeme} (hq : p + l.text.length ≤ q) :
    InString p (l :: ls) q ↔ InString (p + l.text.length) ls q := by
  constructor
  · rintro ⟨x, t, hmem, hle, hlt⟩
    rcases mem_cons.1 hmem with heq | hmem
    · cases heq
      simp only [Lexeme.text] at hq
      omega
    · exact ⟨x, t, hmem, hle, hlt⟩
  · rintro ⟨x, t, hmem, hle, hlt⟩
    exact ⟨x, t, .tail _ hmem, hle, hlt⟩

/-- **The whole numbers among lexemes** are the runs of digits over whose ends nothing goes
on, strings apart. -/
theorem mem_placed_lexemes {m : Chars}
    (hbefore : before = some '.' → ∀ c, m.head? = some c → isDecimal c = false) :
    (q, Lexeme.whole w) ∈ placed Lexeme.text p (lexemes before m) ↔
      ∃ i, q = p + i ∧ WholeAt before m i w ∧ ¬InString p (lexemes before m) q := by
  induction hlen : m.length using Nat.strong_induction_on generalizing before m p with
  | _ n ih =>
    subst hlen
    cases m with
    | nil =>
      rw [lexemes]
      constructor
      · intro hmem
        cases hmem
      · rintro ⟨i, -, ⟨hw, a, b, hnil, -⟩, -⟩
        rw [eq_comm, append_eq_nil_iff, append_eq_nil_iff] at hnil
        exact absurd hnil.2.1 hw.1
    | cons c t =>
      have hshort := Nat.lt_succ_of_le (lexeme_length before c t)
      have hrest := ih _ hshort (p := p + (lexeme before c t).1.text.length) lexeme_point rfl
      rw [lexemes, placed, mem_cons, hrest, Prod.mk.injEq]
      constructor
      · rintro (⟨rfl, hl⟩ | ⟨i, rfl, hwhole, hfree⟩)
        · refine ⟨0, rfl, wholeAt_of_lexeme hbefore hl.symm, ?_⟩
          rintro ⟨x, u, hmem, hle, hlt⟩
          rcases mem_cons.1 hmem with heq | hmem
          · cases hl.trans (Prod.mk.inj heq).2.symm
          · have hafter := le_of_mem_placed hmem
            have := length_pos_iff.2 (Lexeme.text_ne_nil before c t)
            dsimp only at hafter
            omega
        · refine ⟨_, Nat.add_assoc _ _ _, ?_, ?_⟩
          · rw [← lexeme_append before c t]
            exact wholeAt_append.2 hwhole
          · rwa [inString_cons (Nat.le_add_right _ _)]
      · rintro ⟨i, rfl, hwhole, hfree⟩
        by_cases hi : i < (lexeme before c t).1.text.length
        · obtain ⟨rfl, hl⟩ := hwhole.eq_lexeme hi fun u hu => by
            rw [hu] at hi
            exact hfree ⟨p, u, hu ▸ mem_cons_self, Nat.le_add_right _ _, Nat.add_lt_add_left hi p⟩
          exact .inl ⟨rfl, hl.symm⟩
        · obtain ⟨j, rfl⟩ := Nat.exists_eq_add_of_le (Nat.le_of_not_lt hi)
          rw [← lexeme_append before c t] at hwhole
          rw [← Nat.add_assoc] at hfree ⊢
          rw [inString_cons (Nat.le_add_right _ _)] at hfree
          exact .inr ⟨j, rfl, wholeAt_append.1 hwhole, hfree⟩

/-! ## Lexemes in pieces -/

/-- No directive was taken out right before what follows the pieces. -/
def Loose (as : List Piece) : Prop :=
  ∀ n t, as.getLast? ≠ some (.taken n t)

theorem getLast?_placeholder : (placeholder n).getLast? = some '_' := by
  rw [placeholder, getLast?_cons, getLast?_append]
  rfl

theorem loose_of_clear (h : Clear (maskedText as).getLast?) : Loose as := by
  intro n t hlast
  rw [← dropLast_append_getLast? _ hlast, maskedText_append, maskedText_taken, maskedText_nil,
    append_nil, getLast?_append, getLast?_placeholder] at h
  exact absurd h.1 (by rw [Option.some_or, isWordAt_some, isWord_eq (by decide)]; decide)

theorem Loose.getLast?_eq (h : Loose as) : (maskedText as).getLast? = (sourceText as).getLast? := by
  cases hlast : as.getLast? with
  | none =>
    rw [getLast?_eq_none_iff.1 hlast]
    rfl
  | some p =>
    cases p with
    | stays c =>
      rw [← dropLast_append_getLast? _ hlast, maskedText_append, sourceText_append, maskedText_stays,
        sourceText_stays, maskedText_nil, sourceText_nil, getLast?_concat, getLast?_concat]
    | taken n t => exact absurd hlast (h n t)

theorem head?_maskedText (h : ∀ n t, bs.head? ≠ some (.taken n t)) :
    (maskedText bs).head? = (sourceText bs).head? := by
  cases bs with
  | nil => rfl
  | cons p bs =>
    cases p with
    | stays c => rfl
    | taken n t => exact absurd rfl (h n t)

/-- Characters at the front are no part of a placeholder if none of them starts one. -/
theorem exists_map_stays (hw : '_' ∉ w) (h : maskedText ps = w ++ r) :
    ∃ bs, ps = w.map .stays ++ bs ∧ maskedText bs = r := by
  induction w generalizing ps with
  | nil => exact ⟨ps, rfl, h⟩
  | cons c w ih =>
    rw [mem_cons, not_or] at hw
    cases ps with
    | nil => cases h
    | cons p ps =>
      cases p with
      | stays d =>
        rw [maskedText_stays, cons_append] at h
        obtain ⟨rfl, hrest⟩ := cons.inj h
        obtain ⟨bs, rfl, hr⟩ := ih hw.2 hrest
        exact ⟨bs, rfl, hr⟩
      | taken n t => exact absurd (cons.inj h).1 hw.1

theorem exists_pieces_of_wholeAt (h : WholeAt none (maskedText ps) i w) :
    ∃ as bs, ps = as ++ (w.map .stays ++ bs) ∧ (maskedText as).length = i := by
  obtain ⟨hw, a, b, heq, rfl, hbefore, -⟩ := h
  obtain ⟨as, cs, rfl, rfl, hcs⟩ : ∃ as cs, ps = as ++ cs ∧ maskedText as = a ∧ maskedText cs = w ++ b := by
    rcases eq_nil_or_concat a with rfl | ⟨a, c, rfl⟩
    · exact ⟨[], ps, rfl, rfl, heq⟩
    · rw [concat_eq_append, append_assoc, singleton_append] at heq
      rw [concat_eq_append, lastOr, getLast?_concat] at hbefore
      obtain ⟨as, cs, rfl, rfl, hcs⟩ := exists_cut hbefore.1 heq
      exact ⟨as ++ [.stays c], cs, by simp, by simp, hcs⟩
  have hline : '_' ∉ w := fun hmem => by
    have := hw.2 '_' hmem
    rw [isDecimal_eq_isDigit (by decide)] at this
    cases this
  obtain ⟨bs, rfl, -⟩ := exists_map_stays hline hcs
  exact ⟨as, bs, rfl, rfl⟩

theorem wholeAt_iff (as : List Piece) (hw : IsDigits w)
    (hbs : ∀ n t, bs.head? ≠ some (.taken n t)) :
    WholeAt none (maskedText (as ++ (w.map .stays ++ bs))) (maskedText as).length w ↔
      Clear (sourceText as).getLast? ∧ Clear (sourceText bs).head? ∧ Loose as := by
  rw [maskedText_append, maskedText_append, maskedText_map_stays, ← head?_maskedText hbs]
  constructor
  · rintro ⟨-, a, b, heq, hlen, hbefore, hbehind⟩
    obtain ⟨rfl, hrest⟩ := append_inj heq hlen.symm
    obtain rfl := append_cancel_left hrest
    rw [lastOr_none] at hbefore
    have hloose := loose_of_clear hbefore
    exact ⟨hloose.getLast?_eq ▸ hbefore, hbehind, hloose⟩
  · rintro ⟨hbefore, hbehind, hloose⟩
    refine ⟨hw, _, _, rfl, rfl, ?_, hbehind⟩
    rwa [lastOr_none, hloose.getLast?_eq]

/-! ## What the integer pass writes -/

theorem disguiseLexeme_cases (l : Lexeme) :
    (∃ w, l = .whole w ∧ readInt? w ≠ none) ∨
      (∀ d, (disguiseLexeme l d).1 = l.text) ∧ ∀ w, l = .whole w → readInt? w = none := by
  cases l with
  | whole w =>
    cases hw : readInt? w with
    | none =>
      refine .inr ⟨fun d => ?_, fun v hv => ?_⟩
      · rw [disguiseLexeme, hw]
        rfl
      · cases hv
        exact hw
    | some n => exact .inl ⟨w, rfl, by rw [hw]; exact Option.some_ne_none n⟩
  | char c => exact .inr ⟨fun _ => rfl, fun w hw => by cases hw⟩
  | quoted t => exact .inr ⟨fun _ => rfl, fun w hw => by cases hw⟩
  | fraction t => exact .inr ⟨fun _ => rfl, fun w hw => by cases hw⟩

theorem exists_parts_disguiseLexemes (ls : List Lexeme) (d : Draws) :
    ∃ r : List (Chars × Option Chars), (disguiseLexemes ls d).1 = replaced id r ∧
      joined r = ls.flatMap Lexeme.text ∧ ∀ p q e, (∃ h ∈ holesFrom p r, h.start = q ∧ h.stop = e) ↔
        ∃ w, (q, Lexeme.whole w) ∈ placed Lexeme.text p ls ∧ readInt? w ≠ none ∧ e = q + w.length := by
  induction ls generalizing d with
  | nil => exact ⟨[], rfl, rfl, fun p q e => ⟨nofun, nofun⟩⟩
  | cons l ls ih =>
    obtain ⟨r, hout, htext, hmem⟩ := ih (disguiseLexeme l d).2
    rw [disguiseLexemes_cons, hout]
    rcases disguiseLexeme_cases l with ⟨w, rfl, hread⟩ | ⟨hkeep, hnone⟩
    · refine ⟨(w, some (disguiseLexeme (.whole w) d).1) :: r, rfl, ?_, fun p q e => ?_⟩
      · rw [joined, flatMap_cons, ← joined, htext]
        rfl
      · rw [holesFrom, placed]
        simp only [mem_cons, or_and_right, exists_or, exists_eq_left, hmem, Prod.mk.injEq, Lexeme.whole.injEq]
        refine or_congr_left ⟨?_, ?_⟩
        · rintro ⟨rfl, rfl⟩
          exact ⟨w, ⟨rfl, rfl⟩, hread, rfl⟩
        · rintro ⟨v, ⟨rfl, rfl⟩, -, rfl⟩
          exact ⟨rfl, rfl⟩
    · refine ⟨(l.text, none) :: r, ?_, ?_, fun p q e => ?_⟩
      · rw [hkeep]
        rfl
      · rw [joined, flatMap_cons, ← joined, htext]
        rfl
      · rw [holesFrom, placed, hmem]
        simp only [mem_cons, Prod.mk.injEq, or_and_right, exists_or]
        refine ⟨.inr, ?_⟩
        rintro (⟨w, ⟨-, hw⟩, hread, -⟩ | h)
        · exact absurd (hnone w hw.symm) hread
        · exact h

/-- The text `out` is what the integer pass makes of `s`: some runs of digits are exchanged
in the text with placeholders, and the directives are put back. A run is exchanged exactly
if no word and no fraction goes on over its ends, no directive ends right before it, it
stands in no string and can be read. A version directive that starts a line and holds no
comment is taken out as a whole. -/
structure Disguised (s out : Chars) (ps : List Piece) (swaps : List (Hole Chars)) : Prop where
  source : sourceText ps = s
  masked : maskedText ps = (maskDirectives s).1
  inOrder : InOrder (maskedText ps).length 0 (swaps.map (Hole.patch id))
  text : out = unmask 0 (patched 0 (maskedText ps) (swaps.map (Hole.patch id))) (maskDirectives s).2
  digits : ∀ h ∈ swaps, ∃ as w bs, ps = as ++ (w.map .stays ++ bs) ∧ IsDigits w ∧
    h.start = (maskedText as).length ∧ h.stop = h.start + w.length
  swap_iff : ∀ as w bs, ps = as ++ (w.map .stays ++ bs) → IsDigits w →
    ((∃ h ∈ swaps, h.start = (maskedText as).length ∧ h.stop = (maskedText as).length + w.length) ↔
      Clear (sourceText as).getLast? ∧ Clear (sourceText bs).head? ∧ Loose as ∧
        ¬InString 0 (lexemes none (maskedText ps)) (maskedText as).length ∧ readInt? w ≠ none)
  directive : ∀ a t b, s = a ++ (t ++ b) → EndsLine a → IsDirective t → ¬['/', '/'] <:+: t →
    ∃ as k x bs, ps = as ++ .taken k (x ++ t) :: bs ∧ a = sourceText as ++ x

theorem Masked.head?_ne_taken {qs : List Piece} (h : Masked s ps qs)
    (hqs : qs = as ++ (w.map .stays ++ bs)) (hw : IsDigits w) : ∀ n t, bs.head? ≠ some (.taken n t) := by
  intro n t hhead
  obtain ⟨cs, rfl⟩ := head?_eq_some_iff.1 hhead
  rw [← append_assoc] at hqs
  have hline := h.endsLine hqs
  obtain ⟨v, c, rfl⟩ : ∃ v c, w = v ++ [c] := ⟨_, _, (dropLast_append_getLast hw.1).symm⟩
  rw [sourceText_append, sourceText_map_stays, ← append_assoc] at hline
  rcases hline with hnil | hlast
  · simp at hnil
  · rw [getLast?_concat] at hlast
    cases hlast
    exact absurd (hw.2 '\n' (by simp)) (by rw [isDecimal_eq_isDigit (by decide)]; decide)

theorem exists_disguised (s : Chars) (d : Draws) :
    ∃ ps swaps, Disguised s (disguiseIntegers s d).1 ps swaps := by
  obtain ⟨rs, ps, hmasked⟩ := exists_masked s
  obtain ⟨r, hout, htext, hmem⟩ := exists_parts_disguiseLexemes (lexemes none (maskedText ps)) d
  rw [flatMap_text_lexemes] at htext
  have hwhole (q : Nat) (w : Chars) := mem_placed_lexemes (m := maskedText ps) (p := 0) (q := q) (w := w)
    (show none = some '.' → _ from nofun)
  refine ⟨ps, holesFrom 0 r, hmasked.source, hmasked.masked, ?_, ?_, ?_, ?_, ?_⟩
  · have horder := inOrder_holesFrom id 0 r
    rwa [htext, Nat.zero_add] at horder
  · rw [← htext, patched_holesFrom, ← hout, hmasked.masked]
    rfl
  · intro h hh
    obtain ⟨w, hw, -, hstop⟩ := (hmem 0 h.start h.stop).1 ⟨h, hh, rfl, rfl⟩
    obtain ⟨i, hi, hat, -⟩ := (hwhole _ _).1 hw
    obtain ⟨as, bs, hps, hlen⟩ := exists_pieces_of_wholeAt hat
    exact ⟨as, w, bs, hps, hat.1, by rw [hi, hlen, Nat.zero_add], hstop⟩
  · intro as w bs hps hw
    have hiff := wholeAt_iff as hw (hmasked.head?_ne_taken hps hw)
    rw [← hps] at hiff
    rw [hmem]
    constructor
    · rintro ⟨v, hv, hread, hstop⟩
      obtain ⟨i, hi, hat, hfree⟩ := (hwhole _ _).1 hv
      obtain rfl : i = (maskedText as).length := by omega
      obtain rfl : v = w := by
        obtain ⟨-, a, b, heq, hlen, -⟩ := hat
        rw [hps, maskedText_append, maskedText_append, maskedText_map_stays] at heq
        exact (append_inj (append_inj heq hlen.symm).2 (by omega)).1.symm
      obtain ⟨hbefore, hbehind, hloose⟩ := hiff.1 hat
      exact ⟨hbefore, hbehind, hloose, hfree, hread⟩
    · rintro ⟨hbefore, hbehind, hloose, hfree, hread⟩
      refine ⟨w, (hwhole _ _).2 ⟨_, (Nat.zero_add _).symm, hiff.2 ⟨hbefore, hbehind, hloose⟩,
        hfree⟩, hread, rfl⟩
  · rintro a t b rfl ha ht hplain
    exact hmasked.exists_taken ht hplain ha

/-! ## What goes behind tables -/

theorem isWord_of_isLineEnd (h : isLineEnd c) : isWord c = false := by
  refine isWord_of_isBlank ?_
  simp only [isLineEnd, Bool.or_eq_true, Bool.and_eq_true, decide_eq_true_eq, beq_iff_eq] at h
  rw [isBlank, Bool.or_eq_true, Bool.or_eq_true, Bool.and_eq_true, Bool.and_eq_true, decide_eq_true_eq,
    decide_eq_true_eq, decide_eq_true_eq, decide_eq_true_eq]
  rcases h with (((h | h) | h) | h) | h
  · exact .inl (.inl (by omega))
  · exact .inl (.inr (by omega))
  · exact .inr (by rw [h]; decide)
  · exact .inr (by rw [h]; decide)
  · exact .inr (by rw [h]; decide)

variable {before : List Chars}

theorem getLast?_line
    (h : linesKeepEnds s = before ++ l :: behind) (hne : behind ≠ []) :
    ∃ c, l.getLast? = some c ∧ isLineEnd c := by
  fun_induction linesKeepEnds s generalizing before l with
  | case1 => simp at h
  | case2 s ih =>
    cases before with
    | nil =>
      cases h
      exact ⟨'\n', rfl, rfl⟩
    | cons b before => exact ih (cons.inj h).2
  | case3 c s _ hc ih =>
    cases before with
    | nil =>
      cases h
      exact ⟨c, rfl, hc⟩
    | cons b before => exact ih (cons.inj h).2
  | case4 c s _ hc ih =>
    cases hls : linesKeepEnds s with
    | nil =>
      rw [hls, consLine] at h
      cases before with
      | nil => exact absurd (cons.inj h).2.symm hne
      | cons b before => simp at h
    | cons m ms =>
      rw [hls, consLine] at h
      cases before with
      | nil =>
        obtain ⟨rfl, rfl⟩ := cons.inj h
        obtain ⟨x, hx, hend⟩ := ih (show _ = [] ++ _ from hls)
        exact ⟨x, by rw [getLast?_cons, hx]; rfl, hend⟩
      | cons b before =>
        obtain ⟨rfl, hrest⟩ := cons.inj h
        have hcut : linesKeepEnds s = (m :: before) ++ l :: behind := by
          rw [hls, hrest]
          rfl
        exact ih hcut

/-- The place `p` lies in the line `l`. -/
def LineAt (s : Chars) (p : Nat) (l : Chars) : Prop :=
  ∃ before behind, linesKeepEnds s = before ++ l :: behind ∧ before.flatten.length ≤ p ∧
    p < before.flatten.length + l.length

theorem isWordAt_getLast?_flatten
    (h : linesKeepEnds s = before ++ l :: behind) : isWordAt before.flatten.getLast? = false := by
  rcases eq_nil_or_concat before with rfl | ⟨bs, m, rfl⟩
  · rfl
  · rw [concat_eq_append, append_assoc] at h
    obtain ⟨c, hc, hend⟩ := getLast?_line h (cons_ne_nil _ _)
    have hm : m ≠ [] := fun hnil => by
      rw [hnil] at hc
      cases hc
    rw [concat_eq_append, flatten_append, flatten_singleton, getLast?_append_of_ne_nil _ hm, hc]
    exact isWord_of_isLineEnd hend

theorem eq_nil_of_line
    (h : linesKeepEnds s = before ++ (x ++ y) :: behind) (hy : y ≠ []) (hword : ∀ c ∈ y, isWord c) :
    behind = [] := by
  by_contra hne
  obtain ⟨c, hc, hend⟩ := getLast?_line h hne
  rw [getLast?_append_of_ne_nil x hy] at hc
  have hlast := hword c (mem_of_getLast? hc)
  rw [isWord_of_isLineEnd hend] at hlast
  cases hlast

/-- A word that stands alone in its line stands alone in the text. -/
theorem boundaries_of_line (hne : w ≠ [])
    (hword : ∀ c ∈ w, isWord c) (hlines : linesKeepEnds (a ++ (w ++ b)) = before ++ (x ++ w ++ y) :: behind)
    (hlen : before.flatten.length + x.length = a.length) (hx : isWordAt x.getLast? = false)
    (hy : isWordAt y.head? = false) : isWordAt a.getLast? = false ∧ isWordAt b.head? = false := by
  have hall := flatten_linesKeepEnds (a ++ (w ++ b))
  rw [hlines, flatten_append, flatten_cons] at hall
  obtain ⟨rfl, hrest⟩ : before.flatten ++ x = a ∧ w ++ (y ++ behind.flatten) = w ++ b := by
    refine append_inj ?_ (by rw [length_append, hlen])
    rw [← hall]
    simp
  obtain rfl := append_cancel_left hrest
  constructor
  · rcases eq_nil_or_concat x with rfl | ⟨x, c, rfl⟩
    · rw [append_nil]
      exact isWordAt_getLast?_flatten hlines
    · rwa [getLast?_append_of_ne_nil _ (by simp)]
  · cases y with
    | nil =>
      rw [append_nil] at hlines
      rw [eq_nil_of_line hlines hne hword]
      rfl
    | cons c y => exact hy

section Lines

variable {a w b : Chars} (hw : IsDigits w)

include hw

theorem exists_line_iff : (∃ before l behind x y, linesKeepEnds (a ++ (w ++ b)) = before ++ l :: behind ∧
      isDirectiveLine l = false ∧ l = x ++ w ++ y ∧ before.flatten.length + x.length = a.length ∧
      isWordAt x.getLast? = false ∧ isWordAt y.head? = false) ↔
    isWordAt a.getLast? = false ∧ isWordAt b.head? = false ∧
      ∃ l, LineAt (a ++ (w ++ b)) a.length l ∧ isDirectiveLine l = false := by
  have hpos := length_pos_of_ne_nil hw.1
  have hword : ∀ c ∈ w, isWord c = true := fun c hc => isWord_of_isDecimal (hw.2 c hc)
  constructor
  · rintro ⟨before, l, behind, x, y, hlines, hplain, rfl, hlen, hx, hy⟩
    obtain ⟨ha, hb⟩ := boundaries_of_line hw.1 hword hlines hlen hx hy
    refine ⟨ha, hb, _, ⟨before, behind, hlines, ?_, ?_⟩, hplain⟩
    · omega
    · simp only [length_append]
      omega
  · rintro ⟨ha, hb, l, ⟨before, behind, hlines, hle, hlt⟩, hplain⟩
    have hall := flatten_linesKeepEnds (a ++ (w ++ b))
    rw [hlines, flatten_append, flatten_cons] at hall
    obtain ⟨x, rfl, hx⟩ : ∃ x, a = before.flatten ++ x ∧ l ++ behind.flatten = x ++ (w ++ b) := by
      rcases append_eq_append_iff.1 hall with ⟨x, hx, hrest⟩ | ⟨x, hx, hrest⟩
      · exact ⟨x, hx, hrest⟩
      · obtain rfl : x = [] := by
          rw [hx, length_append] at hle
          exact length_eq_zero_iff.1 (by omega)
        exact ⟨[], by rw [hx, append_nil, append_nil], hrest.symm⟩
    obtain ⟨z, rfl, hz⟩ : ∃ z, l = x ++ z ∧ z ++ behind.flatten = w ++ b := by
      rcases append_eq_append_iff.1 hx with ⟨z, rfl, -⟩ | ⟨z, hz, hrest⟩
      · rw [length_append, length_append] at hlt
        omega
      · exact ⟨z, hz, hrest.symm⟩
    have hne : z ≠ [] := by
      rintro rfl
      rw [append_nil, length_append] at hlt
      omega
    obtain ⟨y, rfl, hb'⟩ : ∃ y, z = w ++ y ∧ b = y ++ behind.flatten := by
      rcases append_eq_append_iff.1 hz with ⟨y, rfl, hrest⟩ | ⟨y, hy, hrest⟩
      · -- digits that go on behind the line
        have hlast := eq_nil_of_line hlines hne fun c hc => hword c (mem_append_left y hc)
        rw [hlast, flatten_nil, eq_comm, append_eq_nil_iff] at hrest
        exact ⟨[], by rw [hrest.1, append_nil, append_nil], by rw [hrest.2, hlast]; rfl⟩
      · exact ⟨y, hy, hrest⟩
    refine ⟨before, _, behind, x, y, hlines, hplain, (append_assoc _ _ _).symm,
      length_append.symm, ?_, ?_⟩
    · rcases eq_nil_or_concat x with rfl | ⟨x, c, rfl⟩
      · rfl
      · rwa [getLast?_append_of_ne_nil _ (by simp)] at ha
    · cases y with
      | nil => rfl
      | cons c y => rwa [hb'] at hb

end Lines

/-- The text `out` is what the pass for tables makes of `s`: some constants are exchanged for
calls, the accessors are put in and line feeds are tidied up. A run of digits is exchanged
exactly if it is a word, on a line without directive, outside of comments, strings and the
arguments of guards. -/
structure Tabulated (s out : Chars) (swaps : List (Hole Lookup)) : Prop where
  inOrder : InOrder s.length 0 (swaps.map (Hole.patch Lookup.call))
  text : out = tidyNewlines (insertAccessors (accessorBlock (intTable (cells s)) (boolTable (cells s)))
    (patched 0 s (swaps.map (Hole.patch Lookup.call))))
  constant : ∀ h ∈ swaps, ∃ a w b, s = a ++ (w ++ b) ∧ IsConstant w ∧ h.start = a.length ∧
    h.stop = h.start + w.length
  swap_iff : ∀ a w b, s = a ++ (w ++ b) → IsDigits w →
    ((∃ h ∈ swaps, h.start = a.length ∧ h.stop = a.length + w.length) ↔
      isWordAt a.getLast? = false ∧ isWordAt b.head? = false ∧
        (∃ l, LineAt s a.length l ∧ isDirectiveLine l = false) ∧
        (shielded s)[a.length]? ≠ some true ∧ ∀ r ∈ guardRanges s, ¬(r.1 ≤ a.length ∧ a.length < r.2))

theorem eligible_iff (hw : IsDigits w) : Eligible (a ++ (w ++ b)) a.length w ↔
    isWordAt a.getLast? = false ∧ isWordAt b.head? = false ∧
      (∃ l, LineAt (a ++ (w ++ b)) a.length l ∧ isDirectiveLine l = false) ∧
      (shielded (a ++ (w ++ b)))[a.length]? ≠ some true ∧
        ∀ r ∈ guardRanges (a ++ (w ++ b)), ¬(r.1 ≤ a.length ∧ a.length < r.2) := by
  rw [Eligible, exists_line_iff hw]
  constructor
  · rintro ⟨-, ⟨ha, hb, hline⟩, hfree⟩
    exact ⟨ha, hb, hline, hfree⟩
  · rintro ⟨ha, hb, hline, hfree⟩
    exact ⟨.inr (.inr hw), ⟨ha, hb, hline⟩, hfree⟩

theorem Eligible.exists_text (h : Eligible s p w) :
    ∃ a b, s = a ++ (w ++ b) ∧ a.length = p := by
  obtain ⟨-, ⟨before, l, behind, a, b, hlines, -, rfl, hlen, -⟩, -⟩ := h
  refine ⟨before.flatten ++ a, b ++ behind.flatten, ?_, by rw [length_append, hlen]⟩
  rw [← flatten_linesKeepEnds s, hlines]
  simp

theorem exists_eligible {ints bools : List Chars} {h : Hole Lookup}
    (hh : h ∈ holesFrom 0 ((cells s).map (Cell.swapped ints bools))) :
    ∃ w, Eligible s h.start w ∧ h.stop = h.start + w.length := by
  obtain ⟨w, hw, heq⟩ := mem_holes_swapped.1 hh
  exact ⟨w, mem_placed_cells.1 hw, congrArg Hole.stop heq⟩

theorem exists_tabulated (s : Chars) : ∃ swaps, Tabulated s (tabulate s) swaps := by
  have hswapped := (indexed_cells s).swapped
  refine ⟨_, hswapped.inOrder, by rw [← hswapped.text, tabulate_eq], fun h hh => ?_, ?_⟩
  · obtain ⟨v, hv, hstop⟩ := exists_eligible hh
    obtain ⟨a, b, hs, hlen⟩ := hv.exists_text
    exact ⟨a, v, b, hs, hv.1, hlen.symm, hstop⟩
  · rintro a w b rfl hw
    rw [← eligible_iff hw]
    constructor
    · rintro ⟨h, hh, hstart, hstop⟩
      obtain ⟨v, hv, hstop'⟩ := exists_eligible hh
      obtain ⟨a', b', hs, hlen⟩ := hv.exists_text
      obtain ⟨-, hrest⟩ := append_inj hs (by omega)
      obtain ⟨rfl, -⟩ := append_inj hrest (by omega)
      rwa [hstart] at hv
    · intro h
      obtain ⟨k, hk, hstart, hstop, -⟩ := (hswapped.eligible_iff _ _).1 h
      exact ⟨k, hk, hstart, hstop⟩

/-! ## Both passes -/

/-- **Which runs of digits are rewritten.** Both passes take words of digits only. The integer
pass spares decimal fractions, strings and the directives that start a line; the pass for
tables spares strings, comments, guards and the lines that start with a directive in its
usual spelling, but no fractions. Neither looks at the unit behind a number. -/
theorem numbers_rewritten_exactly (s : Chars) (d : Draws) :
    (∃ swaps, Tabulated s (tabulate s) swaps) ∧ ∃ ps swaps, Disguised s (disguiseIntegers s d).1 ps swaps :=
  ⟨exists_tabulated s, exists_disguised s d⟩

theorem isDirective_spaced {v : Chars} (hne : v ≠ []) (hv : ∀ c ∈ v, isBlank c) :
    IsDirective ("pragma".toList ++ (v ++ "solidity 1;".toList)) :=
  ⟨[], "pragma".toList, v, "solidity".toList, ' ', ['1'], rfl, nofun, rfl, hne, hv, rfl, rfl, nofun, by decide⟩

/-- A number before a unit, in a directive that does not start a line, in a fraction and in a
directive with two blanks. -/
theorem units_fractions_and_directives_rewritten :
    IsDirective "pragma solidity 1;".toList ∧ IsDirective "pragma  solidity 1;".toList ∧
      (disguiseIntegers "1 ether".toList (.stream [] 0)).1 = "(11 + 8 - 18) ether".toList ∧
      (disguiseIntegers ";pragma solidity 1;".toList (.stream [] 0)).1 =
      ";pragma solidity (11 + 8 - 18);".toList ∧
      tabulate "1 ether".toList = "__get_int(0) ether".toList ∧
      tabulate "1.5".toList = "__get_int(0).__get_int(1)".toList ∧
      tabulate "pragma  solidity 1;".toList = "pragma  solidity __get_int(0);".toList := by
  refine ⟨isDirective_spaced (v := [' ']) nofun (forall_mem_of_all (by decide)),
    isDirective_spaced (v := [' ', ' ']) nofun (forall_mem_of_all (by decide)), ?_⟩
  decide +kernel

end Obscura.Literal
