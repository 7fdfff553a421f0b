import Obscura.Proofs.Scrambling
import Obscura.Proofs.Strings
import Obscura.Proofs.Tables
import Obscura.Proofs.Truths

/-
  Texts in which every quote opens or closes a string (`Strings`). The scan for strings
  marks exactly these strings, so that words are exchanged only between them
  (`Strings.exchange`). Strings also stay as they are when other texts are replaced or
  line feeds are dropped, as long as they hold none of these themselves.
-/

namespace Obscura.Layout

open Text List

/-! ## Texts in order -/

variable {c : Char}

/-- A character that stands in a text, but not in its middle part. -/
theorem cut_beside {l u v x y : Chars} (hl : c ∉ l) (h : x ++ c :: y = u ++ l ++ v) :
    (∃ w, u = x ++ c :: w ∧ y = w ++ l ++ v) ∨ ∃ w, x = u ++ l ++ w ∧ v = w ++ c :: y := by
  rcases append_eq_append_iff.1 h with ⟨a, hu, hy⟩ | ⟨w, hx, hv⟩
  · cases a with
    | nil => exact .inr ⟨[], by simpa using hu.symm, hy.symm⟩
    | cons d a =>
      obtain ⟨rfl, rfl⟩ := cons.inj hy
      rcases append_eq_append_iff.1 hu with ⟨b, rfl, rfl⟩ | ⟨b, rfl, hb⟩
      · exact absurd (mem_append_right b mem_cons_self) hl
      · cases b with
        | nil =>
          obtain rfl : c :: a = l := hb
          exact absurd mem_cons_self hl
        | cons d b =>
          obtain ⟨rfl, rfl⟩ := cons.inj hb
          exact .inl ⟨b, rfl, rfl⟩
  · exact .inr ⟨w, hx, hv⟩

namespace OccurInOrder

variable {ls ms : List Chars} {s t : Chars}

theorem append_append (hs : OccurInOrder ls s) (ht : OccurInOrder ms t) : OccurInOrder (ls ++ ms) (s ++ t) := by
  induction ls generalizing s with
  | nil => exact ht.append s
  | cons l ls ih =>
    obtain ⟨u, v, rfl, hv⟩ := hs
    exact ⟨u, v ++ t, append_assoc .., ih hv⟩

theorem of_sublist (hs : OccurInOrder ms s) (h : ls.Sublist ms) : OccurInOrder ls s := by
  induction h generalizing s with
  | slnil => trivial
  | cons m _ ih =>
    obtain ⟨u, v, rfl, hv⟩ := hs
    exact (ih hv).append (u ++ m)
  | cons_cons m _ ih =>
    obtain ⟨u, v, rfl, hv⟩ := hs
    exact ⟨u, v, rfl, ih hv⟩

end OccurInOrder

end Obscura.Layout

namespace Obscura.Text

open List

/-! ## Replacing beside a character -/

section Replace

variable {p x s : Chars} (hp : p ≠ [])

theorem replaceAll_cons {s : Chars} (h : ¬p <+: c :: s) :
    replaceAll p x hp (c :: s) = c :: replaceAll p x hp s := by
  rw [replaceAll]
  split
  · rename_i r hr
    exact absurd ⟨r, (stripFront?_eq_some_iff.1 hr).symm⟩ h
  · rfl

theorem replaceAll_append : replaceAll p x hp (p ++ s) = x ++ replaceAll p x hp s := by
  obtain ⟨c, q, rfl⟩ := exists_cons_of_ne_nil hp
  rw [cons_append, replaceAll]
  split
  · rename_i r hr
    have : s = r := append_cancel_left (stripFront?_eq_some_iff.1 hr)
    rw [this]
  · rename_i hnone
    rw [← cons_append, stripFront?_eq_some_iff.2 rfl] at hnone
    cases hnone

theorem replaceAll_eq_self {s : Chars} (h : ¬p <:+: s) : replaceAll p x hp s = s := by
  induction s with
  | nil => rw [replaceAll]
  | cons c s ih =>
    rw [replaceAll_cons hp fun hpre => h hpre.isInfix, ih fun hin => h (hin.trans (suffix_cons c s).isInfix)]

/-- Nothing that is replaced runs over a character that the pattern lacks. -/
theorem replaceAll_append_cons (hc : c ∉ p) (u v : Chars) :
    replaceAll p x hp (u ++ c :: v) = replaceAll p x hp u ++ c :: replaceAll p x hp v := by
  induction hn : u.length using Nat.strong_induction_on generalizing u with
  | _ n ih =>
    subst hn
    by_cases hpre : p <+: u
    · obtain ⟨w, rfl⟩ := hpre
      have hlen : w.length < (p ++ w).length := by
        rw [length_append]
        have := length_pos_of_ne_nil hp
        omega
      rw [append_assoc, replaceAll_append, replaceAll_append, ih _ hlen w rfl, append_assoc]
    · have hnot : ¬p <+: u ++ c :: v := by
        rintro ⟨r, hr⟩
        rcases append_eq_append_iff.1 hr with ⟨w, hw, -⟩ | ⟨w, hw, hv⟩
        · exact hpre ⟨w, hw.symm⟩
        · cases w with
          | nil => exact hpre ⟨[], by simpa using hw⟩
          | cons d w =>
            obtain ⟨rfl, -⟩ := cons.inj hv
            exact hc (hw ▸ mem_append_right u mem_cons_self)
      cases u with
      | nil =>
        rw [nil_append, replaceAll_cons hp hnot, replaceAll]
        rfl
      | cons d u =>
        rw [cons_append] at hnot ⊢
        rw [replaceAll_cons hp hnot, replaceAll_cons hp hpre,
          ih u.length (Nat.lt_succ_self _) u rfl, cons_append]

end Replace

end Obscura.Text

namespace Obscura.Literal

open Text Layout Number Expression List

/-! ## Texts whose quotes are all closed -/

theorem ne_backslash_of_isQuote {q : Char} (hq : isQuote q) : q ≠ '\\' := by
  rintro rfl
  cases hq

theorem isQuote_iff : isQuote c ↔ c = '"' ∨ c = '\'' := by
  rw [isQuote, Bool.or_eq_true, beq_iff_eq, beq_iff_eq, or_comm]

theorem isQuote_of_isWord (h : isWord c) : isQuote c = false := by
  rw [Bool.eq_false_iff]
  intro hq
  rw [isWord_of_isQuote hq] at h
  cases h

theorem isQuote_of_isPlain {f : Chars} (h : isPlain f) : ∀ c ∈ f, isQuote c = false := by
  induction f with
  | nil => exact forall_mem_nil _
  | cons c f ih =>
    obtain ⟨hc, -, hf⟩ := isPlain_cons h
    refine forall_mem_cons.2 ⟨?_, ih hf⟩
    rw [Bool.eq_false_iff, Ne, isQuote_iff]
    rintro (rfl | rfl) <;> cases hc

/-- The text behind an opening quote `q`, up to the one that closes the string. -/
def Closes (escapes : Char → Bool) (q : Char) (a : Chars) : Prop :=
  closing? escapes q a = some (a, [])

section Closes

variable {escapes : Char → Bool} {q c : Char} {s w : Chars}

theorem closes_cons (hc : c ≠ '\\') :
    Closes escapes q (c :: s) ↔ c = q ∧ s = [] ∨ c ≠ q ∧ Closes escapes q s := by
  rw [Closes, closing?_cons hc]
  by_cases hq : c = q
  · simp [hq]
  · rw [if_neg hq, Option.map_eq_some_iff]
    constructor
    · rintro ⟨⟨a, r⟩, ha, he⟩
      cases he
      exact .inr ⟨hq, ha⟩
    · rintro (⟨h, -⟩ | ⟨-, h⟩)
      · exact absurd h hq
      · exact ⟨_, h, rfl⟩

theorem closes_escape : Closes escapes q ('\\' :: c :: s) ↔ escapes c ∧ Closes escapes q s := by
  rw [Closes, closing?]
  by_cases hc : escapes c
  · rw [if_pos hc, Option.map_eq_some_iff]
    constructor
    · rintro ⟨⟨a, r⟩, ha, he⟩
      cases he
      exact ⟨hc, ha⟩
    · rintro ⟨-, h⟩
      exact ⟨_, h, rfl⟩
  · simp [hc]

theorem not_closes_backslash (hq : isQuote q) : ¬Closes escapes q ['\\'] := by
  simp [Closes, closing?, (ne_backslash_of_isQuote hq).symm]

theorem closes_append (hw : ∀ c ∈ w, c ≠ q ∧ c ≠ '\\') : Closes escapes q (w ++ s) ↔ Closes escapes q s := by
  induction w with
  | nil => rfl
  | cons c w ih =>
    obtain ⟨hq, hc⟩ := hw c mem_cons_self
    rw [cons_append, closes_cons hc, ih fun d hd => hw d (.tail _ hd)]
    simp [hq]

theorem Closes.closing? (h : Closes escapes q s) (hq : isQuote q) (r : Chars) :
    closing? escapes q (s ++ r) = some (s, r) :=
  (closing_of_closing? h).2.closing? (ne_backslash_of_isQuote hq) r

end Closes

/-- The strings of a text, each closed by the quote that opens it; there is no other
quote in the text. -/
inductive Strings (escapes : Char → Bool) : Chars → List Chars → Prop
  | nil : Strings escapes [] []
  | plain {c s ls} (hc : isQuote c = false) (h : Strings escapes s ls) : Strings escapes (c :: s) ls
  | quoted {q a s ls} (hq : isQuote q = true) (ha : Closes escapes q a) (h : Strings escapes s ls) :
      Strings escapes (q :: (a ++ s)) ((q :: a) :: ls)

namespace Strings

variable {escapes : Char → Bool} {s t a b w : Chars} {ls ms : List Chars}

theorem append (hs : Strings escapes s ls) (ht : Strings escapes t ms) :
    Strings escapes (s ++ t) (ls ++ ms) := by
  induction hs with
  | nil => exact ht
  | plain hc _ ih => exact .plain hc ih
  | quoted hq ha _ ih =>
    rw [cons_append, append_assoc, cons_append]
    exact .quoted hq ha ih

theorem of_plain (hw : ∀ c ∈ w, isQuote c = false) : Strings escapes w [] := by
  induction w with
  | nil => exact .nil
  | cons c w ih => exact .plain (hw c mem_cons_self) (ih fun d hd => hw d (.tail _ hd))

theorem of_cons (hc : isQuote c = false) (h : Strings escapes (c :: s) ls) : Strings escapes s ls := by
  cases h with
  | plain _ h => exact h
  | quoted hq =>
    rw [hc] at hq
    cases hq

theorem of_append (hw : ∀ c ∈ w, isQuote c = false) (h : Strings escapes (w ++ b) ls) :
    Strings escapes b ls := by
  induction w with
  | nil => exact h
  | cons c w ih => exact ih (fun d hd => hw d (.tail _ hd)) (h.of_cons (hw c mem_cons_self))

theorem occurInOrder (h : Strings escapes s ls) : OccurInOrder ls s := by
  induction h with
  | nil => trivial
  | @plain c _ _ _ _ ih => exact ih.append [c]
  | @quoted q a s _ _ _ _ ih => exact ⟨[], s, rfl, ih⟩

theorem exists_ends (h : Strings escapes s ls) {l : Chars} (hl : l ∈ ls) :
    ∃ q m, isQuote q ∧ l = q :: (m ++ [q]) := by
  induction h with
  | nil => cases hl
  | plain _ _ ih => exact ih hl
  | quoted hq ha _ ih =>
    rcases mem_cons.1 hl with rfl | hl
    · obtain ⟨m, rfl⟩ := exists_of_closing? ha
      exact ⟨_, m, hq, rfl⟩
    · exact ih hl

end Strings

/-- Every quote of the text opens, closes or stands in a closed literal. -/
def ClosesQuotes (t : Chars) : Prop :=
  ∃ ls, Strings (· != '\n') t ls

/-! ## What the shield covers -/

/-- The scan for strings that the shield is made with. -/
def quoteMarks (s : Chars) : List Bool :=
  marks afterQuoted? s

theorem afterQuoted?_plain (hc : isQuote c = false) (s : Chars) : afterQuoted? (c :: s) = none := by
  rw [afterQuoted?, if_neg]
  rw [← isQuote_iff, hc]
  exact Bool.false_ne_true

theorem afterQuoted?_quoted {q : Char} {a : Chars} (hq : isQuote q) (ha : Closes (· != '\n') q a)
    (s : Chars) : afterQuoted? (q :: a ++ s) = some s := by
  rw [cons_append, afterQuoted?, if_pos (isQuote_iff.1 hq), ha.closing? hq s]
  rfl

theorem length_quoteMarks (s : Chars) : (quoteMarks s).length = s.length := length_marks

section Marked

variable {a b s : Chars} {ls ms : List Chars}

theorem quoteMarks_plain (hc : isQuote c = false) :
    quoteMarks (c :: s) = false :: quoteMarks s := marks_none (afterQuoted?_plain hc s)

theorem quoteMarks_quoted {q : Char} (hq : isQuote q) (ha : Closes (· != '\n') q a) (s : Chars) :
    quoteMarks (q :: a ++ s) = replicate (q :: a).length true ++ quoteMarks s :=
  marks_some (cons_ne_nil q a) (afterQuoted?_quoted hq ha s)

theorem quoteMarks_append (h : Strings (· != '\n') a ms) (b : Chars) :
    quoteMarks (a ++ b) = quoteMarks a ++ quoteMarks b := by
  induction h with
  | nil =>
    rw [quoteMarks, quoteMarks, marks]
    rfl
  | @plain c s _ hc _ ih => rw [cons_append, quoteMarks_plain hc, quoteMarks_plain hc, ih, cons_append]
  | @quoted q a s _ hq ha _ ih =>
    have hleft := quoteMarks_quoted hq ha s
    have hboth := quoteMarks_quoted hq ha (s ++ b)
    rw [ih, ← append_assoc, ← append_assoc, ← hleft] at hboth
    exact hboth

/-- A place that the scan does not mark lies between two strings. -/
theorem Strings.split (h : Strings (· != '\n') s ls) (hs : s = a ++ b)
    (hfree : (quoteMarks s)[a.length]? ≠ some true) :
    ∃ ls₁ ls₂, ls = ls₁ ++ ls₂ ∧ Strings (· != '\n') a ls₁ ∧ Strings (· != '\n') b ls₂ := by
  induction h generalizing a with
  | nil =>
    obtain ⟨rfl, rfl⟩ := append_eq_nil_iff.1 hs.symm
    exact ⟨[], [], rfl, .nil, .nil⟩
  | @plain c s ls hc h ih =>
    cases a with
    | nil =>
      cases hs
      exact ⟨[], ls, rfl, .nil, .plain hc h⟩
    | cons d a =>
      obtain ⟨rfl, htail⟩ := cons.inj hs
      rw [quoteMarks_plain hc] at hfree
      obtain ⟨ls₁, ls₂, rfl, hleft, hright⟩ := ih htail hfree
      exact ⟨ls₁, ls₂, rfl, .plain hc hleft, hright⟩
  | @quoted q m s ls hq hm h ih =>
    rw [← cons_append] at hs hfree
    rw [quoteMarks_quoted hq hm] at hfree
    cases a with
    | nil => exact absurd rfl hfree
    | cons d a =>
      -- the place is not in the string
      have hlen : (q :: m).length ≤ (d :: a).length := by
        by_contra hlt
        rw [Nat.not_le] at hlt
        rw [getElem?_append_left (by rwa [length_replicate]), getElem?_replicate, if_pos hlt] at hfree
        exact hfree rfl
      obtain ⟨v, hv, rfl⟩ : ∃ v, d :: a = q :: m ++ v ∧ s = v ++ b := by
        rcases append_eq_append_iff.1 hs with ⟨v, hv, hs⟩ | ⟨v, hv, hs⟩
        · exact ⟨v, hv, hs⟩
        · have hnil : v = [] := by
            have := congrArg length hv
            rw [length_append] at this
            exact length_eq_zero_iff.1 (by omega)
          subst hnil
          rw [append_nil] at hv
          exact ⟨[], by rw [hv, append_nil], hs.symm⟩
      rw [hv, length_append, getElem?_append_right (by rw [length_replicate]; omega),
        length_replicate, Nat.add_sub_cancel_left] at hfree
      obtain ⟨ls₁, ls₂, rfl, hleft, hright⟩ := ih rfl hfree
      exact ⟨(q :: m) :: ls₁, ls₂, rfl, hv ▸ .quoted hq hm hleft, hright⟩

end Marked

theorem quoteMarks_of_shielded {s : Chars} {p : Nat} (h : (shielded s)[p]? ≠ some true) :
    (quoteMarks s)[p]? ≠ some true := by
  intro hmark
  obtain ⟨hp, -⟩ := List.getElem?_eq_some_iff.1 hmark
  rw [quoteMarks, length_marks] at hp
  refine h ?_
  rw [shielded, orMarks, getElem?_zipWith, ← quoteMarks, hmark,
    getElem?_eq_getElem (by simp [orMarks, length_marks, hp])]
  simp

/-! ## Words exchanged between strings -/

/-- Neither the word, which is not empty, nor what stands for it holds a quote. -/
def Seg.Quoteless : Seg → Prop
  | .char _ => True
  | .swap w f => w ≠ [] ∧ (∀ c ∈ w, isQuote c = false) ∧ ∀ c ∈ f, isQuote c = false

theorem Free.append {as bs : List Seg} {m n : List Bool} (hm : m.length = (oldOf as).length)
    (h : Free (m ++ n) (as ++ bs)) : Free m as ∧ Free n bs := by
  induction as generalizing m with
  | nil =>
    rw [length_eq_zero_iff.1 hm] at h ⊢
    exact ⟨trivial, h⟩
  | cons x as ih =>
    have hlen : m.length = x.old.length + (oldOf as).length := by
      rw [hm, oldOf, flatMap_cons, length_append, oldOf]
    have hrest := h.2
    rw [drop_append_of_le_length (by omega)] at hrest
    obtain ⟨hleft, hright⟩ := ih (by rw [length_drop]; omega) hrest
    refine ⟨⟨fun w f hx => ?_, hleft⟩, hright⟩
    have hfree := h.1 w f hx
    subst hx
    rwa [take_append_of_le_length (by rw [hlen]; exact Nat.le_add_right _ _)] at hfree

theorem Strings.exchange {ss : List Seg} {ls : List Chars} (hquote : ∀ x ∈ ss, x.Quoteless)
    (hfree : Free (quoteMarks (oldOf ss)) ss) (h : Strings (· != '\n') (oldOf ss) ls) :
    Strings (· != '\n') (newOf ss) ls := by
  induction hn : ss.length using Nat.strong_induction_on generalizing ss ls with
  | _ n ih =>
    subst hn
    cases ss with
    | nil => exact h
    | cons x ss =>
      have hquote' : ∀ y ∈ ss, y.Quoteless := fun y hy => hquote y (.tail _ hy)
      cases x with
      | swap w f =>
        obtain ⟨-, hw, hf⟩ := hquote _ mem_cons_self
        have hmarks : quoteMarks (w ++ oldOf ss) = quoteMarks w ++ quoteMarks (oldOf ss) :=
          quoteMarks_append (.of_plain hw) _
        have hrest : Free ((quoteMarks (w ++ oldOf ss)).drop w.length) ss := hfree.2
        rw [hmarks, drop_left' (length_quoteMarks w)] at hrest
        have hold : Strings (· != '\n') (w ++ oldOf ss) ls := h
        exact (Strings.of_plain hf).append (ih ss.length (Nat.lt_succ_self _) hquote' hrest
          (hold.of_append hw) rfl)
      | char c =>
        have hold : Strings (· != '\n') (c :: oldOf ss) ls := h
        have hrest : Free ((quoteMarks (c :: oldOf ss)).drop 1) ss := hfree.2
        generalize hs : oldOf ss = s at hold hrest
        cases hold with
        | plain hc hold =>
          subst hs
          rw [quoteMarks_plain hc] at hrest
          exact .plain hc (ih ss.length (Nat.lt_succ_self _) hquote' hrest hold rfl)
        | @quoted _ a s ls hq ha hold =>
          -- in a string no word is exchanged
          rw [← cons_append, quoteMarks_quoted hq ha] at hrest
          obtain ⟨ss', rfl, rfl, hfree'⟩ :=
            exists_of_free ss hs hrest fun w f hmem => (hquote' _ hmem).1
          have hlt : ss'.length < (.char c :: (a.map .char ++ ss')).length := by
            rw [length_cons, length_append]
            omega
          have hrest' := ih ss'.length hlt (fun y hy => hquote' y (mem_append_right _ hy)) hfree' hold rfl
          have htext : newOf (a.map .char ++ ss') = a ++ newOf ss' := by
            simp [newOf, flatMap_map, Seg.new]
          show Strings _ (c :: newOf (a.map .char ++ ss')) _
          rw [htext]
          exact .quoted hq ha hrest'

/-! ## Rewriting around strings -/

/-- A text between two quotes. -/
def IsQuoted (l : Chars) : Prop :=
  ∃ q m, isQuote q = true ∧ l = q :: (m ++ [q])

section Around

variable {ls : List Chars} {s x : Chars}

theorem occurInOrder_replaceAll {p : Chars} (hp : p ≠ []) (hquote : ∀ c ∈ p, isQuote c = false)
    (hls : ∀ l ∈ ls, IsQuoted l ∧ ¬p <:+: l) (h : OccurInOrder ls s) :
    OccurInOrder ls (replaceAll p x hp s) := by
  induction ls generalizing s with
  | nil => trivial
  | cons l ls ih =>
    obtain ⟨u, v, rfl, hv⟩ := h
    obtain ⟨⟨q, m, hq, rfl⟩, hin⟩ := hls l mem_cons_self
    have hqp : q ∉ p := fun hmem => by
      rw [hquote q hmem] at hq
      cases hq
    have hm : ¬p <:+: m := fun hmem => hin (hmem.trans ⟨[q], [q], by simp⟩)
    refine ⟨replaceAll p x hp u, replaceAll p x hp v, ?_, ih (fun l hl => hls l (.tail _ hl)) hv⟩
    have heq : u ++ q :: (m ++ [q]) ++ v = u ++ q :: (m ++ q :: v) := by simp
    rw [heq, replaceAll_append_cons hp hqp, replaceAll_append_cons hp hqp, replaceAll_eq_self hp hm]
    simp

theorem capNewlines_run {l : Chars} (hne : l ≠ []) (hl : '\n' ∉ l) (seen : Nat) (v : Chars) :
    capNewlines seen (l ++ v) = l ++ capNewlines 0 v := by
  induction l generalizing seen with
  | nil => exact absurd rfl hne
  | cons c l ih =>
    obtain ⟨hc, hl⟩ := not_or.1 (mem_cons.not.1 hl)
    rw [cons_append, capNewlines, if_neg (Ne.symm hc)]
    by_cases hnil : l = []
    · subst hnil
      rfl
    · rw [ih hnil hl, cons_append]

theorem exists_capNewlines (seen : Nat) (u : Chars) :
    ∃ n, ∀ v, capNewlines seen (u ++ v) = capNewlines seen u ++ capNewlines n v := by
  induction u generalizing seen with
  | nil => exact ⟨seen, fun v => rfl⟩
  | cons c u ih =>
    by_cases hc : c = '\n'
    · by_cases hseen : seen < 2
      · obtain ⟨n, hn⟩ := ih (seen + 1)
        refine ⟨n, fun v => ?_⟩
        rw [cons_append, capNewlines, capNewlines, if_pos hc, if_pos hc, if_pos hseen, if_pos hseen, hn,
          cons_append]
      · obtain ⟨n, hn⟩ := ih seen
        refine ⟨n, fun v => ?_⟩
        rw [cons_append, capNewlines, capNewlines, if_pos hc, if_pos hc, if_neg hseen, if_neg hseen, hn]
    · obtain ⟨n, hn⟩ := ih 0
      refine ⟨n, fun v => ?_⟩
      rw [cons_append, capNewlines, capNewlines, if_neg hc, if_neg hc, hn, cons_append]

theorem occurInOrder_capNewlines (hls : ∀ l ∈ ls, l ≠ [] ∧ '\n' ∉ l) (h : OccurInOrder ls s) (seen : Nat) :
    OccurInOrder ls (capNewlines seen s) := by
  induction ls generalizing s seen with
  | nil => trivial
  | cons l ls ih =>
    obtain ⟨u, v, rfl, hv⟩ := h
    obtain ⟨hne, hl⟩ := hls l mem_cons_self
    obtain ⟨n, hn⟩ := exists_capNewlines seen u
    refine ⟨capNewlines seen u, capNewlines 0 v, ?_, ih (fun l hl => hls l (.tail _ hl)) hv 0⟩
    rw [append_assoc, hn, capNewlines_run hne hl, append_assoc]

theorem occurInOrder_flatMap {f : Char → Chars} (hls : ∀ l ∈ ls, l.flatMap f = l) (h : OccurInOrder ls s) :
    OccurInOrder ls (s.flatMap f) := by
  induction ls generalizing s with
  | nil => trivial
  | cons l ls ih =>
    obtain ⟨u, v, rfl, hv⟩ := h
    refine ⟨u.flatMap f, v.flatMap f, ?_, ih (fun l hl => hls l (.tail _ hl)) hv⟩
    rw [flatMap_append, flatMap_append, hls l mem_cons_self]

theorem occurInOrder_tidyNewlines (hls : ∀ l ∈ ls, IsQuoted l ∧ '\n' ∉ l) (h : OccurInOrder ls s) :
    OccurInOrder ls (tidyNewlines s) := by
  have hone : OccurInOrder ls (replaceAll ['\r', '\n'] ['\n'] (by simp) s) := by
    refine occurInOrder_replaceAll _ (forall_mem_of_all rfl) (fun l hl => ⟨(hls l hl).1, fun hin => ?_⟩) h
    exact (hls l hl).2 (hin.subset (by simp))
  have hcap := occurInOrder_capNewlines (fun l hl => ⟨?_, (hls l hl).2⟩) hone 0
  · unfold tidyNewlines
    split
    · refine occurInOrder_flatMap (fun l hl => ?_) hcap
      have hid : ∀ c ∈ l, (if c = '\n' then ['\r', '\n'] else [c]) = [c] := by
        intro c hc
        refine if_neg ?_
        rintro rfl
        exact (hls l hl).2 hc
      rw [flatMap_congr hid, flatMap_singleton']
    · exact hcap
  · obtain ⟨⟨q, m, -, rfl⟩, -⟩ := hls l hl
    exact cons_ne_nil _ _

end Around

end Obscura.Literal
