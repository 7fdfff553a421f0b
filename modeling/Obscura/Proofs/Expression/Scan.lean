import Mathlib.Data.List.TakeWhile
import Obscura.Proofs.Characters
import Obscura.Proofs.Expression.Parser

/-
  The scan of a text into items. A text is cut into given items exactly if it is
  their texts one after the other, each item is formed by its rule, and none could
  go on with the character behind it (`items?_eq_some_iff`). Whether an item could
  go on is a question about one character, so that items can be exchanged one by
  one in front of a text that starts alike.
-/

namespace Obscura.Expression

open Text List

variable {a e : Expr} {as bs is js : List Item} {c : Char} {ds r s : Chars} {i : Item}
  {m : Sign} {o : Option Char}

/-! ## Formed items -/

def IsName (w : Chars) : Prop :=
  ∃ c t, w = c :: t ∧ isNameStart c = true ∧ ∀ d ∈ t, isNamePart d = true

def Item.Formed : Item → Prop
  | .blank c => isBlank c = true
  | .number ds => ds ≠ [] ∧ ∀ c ∈ ds, c.isDigit = true
  | .name w => IsName w
  | .member w => IsName w
  | .sign _ => True

def Item.ends : Item → Option Char → Bool
  | .blank _, _ => true
  | .sign m, o => !o.any (extendsSign m)
  | _, o => endsWord o

/-- Formed items that stay apart when they are written one after the other. -/
def Lexed : List Item → Prop
  | [] => True
  | i :: is => i.Formed ∧ i.ends (textOf is).head? = true ∧ Lexed is

theorem textOf_cons : textOf (i :: is) = i.text ++ textOf is :=
  flatMap_cons

theorem textOf_append : textOf (is ++ js) = textOf is ++ textOf js :=
  flatMap_append

theorem isNamePart_of_isNameStart (h : isNameStart c) : isNamePart c := by
  simp only [isNameStart, isNamePart, Char.isAlphanum, Bool.or_eq_true] at h ⊢
  rcases h with (h | h) | h
  · exact .inl (.inl (.inl h))
  · exact .inl (.inr h)
  · exact .inr h

theorem isNamePart_of_isName {w : Chars} (h : IsName w) (hc : c ∈ w) : isNamePart c := by
  obtain ⟨a, u, rfl, ha, hu⟩ := h
  rcases mem_cons.1 hc with rfl | hc
  · exact isNamePart_of_isNameStart ha
  · exact hu c hc

theorem isNamePart_of_isDigit (h : c.isDigit) : isNamePart c := by
  simp [isNamePart, Char.isAlphanum, h]

theorem toNat_lt_of_isNamePart (h : isNamePart c) : c.toNat < 128 := by
  simp only [isNamePart, Bool.or_eq_true, beq_iff_eq] at h
  rcases h with (h | h) | h
  · exact toNat_lt_of_isAlphanum h
  · subst h
    decide
  · subst h
    decide

theorem isBlank_of_isNamePart (h : isNamePart c) : isBlank c = false :=
  forall_ascii (P := fun c => isNamePart c = true → isBlank c = false) (by decide)
    (toNat_lt_of_isNamePart h) h

theorem isDigit_of_isNameStart (h : isNameStart c) : c.isDigit = false :=
  forall_ascii (P := fun c => isNameStart c = true → c.isDigit = false) (by decide)
    (toNat_lt_of_isNamePart (isNamePart_of_isNameStart h)) h

/-! ## Ends of words -/

theorem isNamePart_of_endsWord (h : endsWord o) (hc : o = some c) : isNamePart c = false := by
  subst hc
  simpa [endsWord] using h

theorem isDigit_of_endsWord (h : endsWord o) (hc : o = some c) : c.isDigit = false := by
  have := isNamePart_of_endsWord h hc
  exact Bool.eq_false_iff.2 fun hd => by rw [isNamePart_of_isDigit hd] at this; cases this

theorem endsWord_dropWhile : endsWord (s.dropWhile isNamePart).head? := by
  cases h : (s.dropWhile isNamePart).head? with
  | none => rfl
  | some c => simp [endsWord, dropWhile_stops h]

/-! ## Signs -/

theorem text_grow? {m' : Sign} (h : m.grow? c = some m') : m'.text = m.text ++ [c] := by
  unfold Sign.grow? at h
  split at h <;> cases h <;> rfl

theorem text_ofChar? (h : Sign.ofChar? c = some m) : m.text = [c] := by
  unfold Sign.ofChar? at h
  split at h <;> cases h <;> rfl

theorem longest_append :
    (m.longest s).1.text ++ (m.longest s).2 = m.text ++ s := by
  induction s generalizing m with
  | nil => rfl
  | cons c s ih =>
    rw [Sign.longest]
    split
    · rename_i m' h
      rw [ih, text_grow? h, append_assoc]
      rfl
    · rfl

theorem longest_of_ends (h : (Item.sign m).ends r.head?) : m.longest r = (m, r) := by
  cases r with
  | nil => rfl
  | cons c r =>
    have hgrow : m.grow? c = none := by
      have : extendsSign m c = false := by simpa [Item.ends] using h
      rw [extendsSign, Bool.or_eq_false_iff] at this
      simpa using this.1
    rw [Sign.longest, hgrow]

theorem longest_text (m : Sign) : ∃ c t m₀, m.text = c :: t ∧ Sign.ofChar? c = some m₀ ∧
    isBlank c = false ∧ isNamePart c = false ∧ c ≠ '.' ∧ ∀ r, m₀.longest (t ++ r) = m.longest r := by
  cases m <;> exact ⟨_, _, _, rfl, rfl, by decide, by decide, by decide, fun r => rfl⟩

/-! ## Items of a text -/

theorem item?_text (hi : i.Formed) (he : i.ends r.head?) :
    ∃ c t, i.text ++ r = c :: t ∧ item? c t = some (i, r) := by
  cases i with
  | blank c => exact ⟨c, r, rfl, if_pos hi⟩
  | number ds =>
    obtain ⟨hne, hds⟩ := hi
    cases ds with
    | nil => exact absurd rfl hne
    | cons c ds =>
      have hc : c.isDigit := hds c (.head _)
      have hrest : ∀ d ∈ ds, d.isDigit = true := fun d hd => hds d (.tail _ hd)
      have hhead : ∀ d, r.head? = some d → d.isDigit = false := fun d => isDigit_of_endsWord he
      refine ⟨c, ds ++ r, rfl, ?_⟩
      rw [item?.eq_def, if_neg (by rw [isBlank_of_isNamePart (isNamePart_of_isDigit hc)]; decide),
        if_pos hc]
      dsimp only
      rw [dropWhile_run hrest hhead, takeWhile_run hrest hhead]
      exact if_pos he
  | name w =>
    obtain ⟨c, t, rfl, hc, ht⟩ := hi
    have hhead : ∀ d, r.head? = some d → isNamePart d = false := fun d => isNamePart_of_endsWord he
    refine ⟨c, t ++ r, rfl, ?_⟩
    rw [item?.eq_def, if_neg (by rw [isBlank_of_isNamePart (isNamePart_of_isNameStart hc)]; decide),
      if_neg (by rw [isDigit_of_isNameStart hc]; decide), if_pos hc, takeWhile_run ht hhead,
      dropWhile_run ht hhead]
  | member w =>
    obtain ⟨c, t, rfl, hc, ht⟩ := hi
    have hhead : ∀ d, r.head? = some d → isNamePart d = false := fun d => isNamePart_of_endsWord he
    refine ⟨'.', c :: (t ++ r), rfl, ?_⟩
    rw [item?.eq_def, if_neg (by decide), if_neg (by decide), if_neg (by decide), if_pos rfl]
    show (if isNameStart c then _ else _) = _
    rw [if_pos hc, takeWhile_run ht hhead, dropWhile_run ht hhead]
  | sign m =>
    obtain ⟨c, t, m₀, htext, hm₀, hblank, hpart, hdot, hlong⟩ := longest_text m
    refine ⟨c, t ++ r, by rw [Item.text, htext]; rfl, ?_⟩
    have hdigit : c.isDigit = false :=
      Bool.eq_false_iff.2 fun h => by rw [isNamePart_of_isDigit h] at hpart; cases hpart
    have hstart : isNameStart c = false :=
      Bool.eq_false_iff.2 fun h => by rw [isNamePart_of_isNameStart h] at hpart; cases hpart
    rw [item?.eq_def, if_neg (by rw [hblank]; decide), if_neg (by rw [hdigit]; decide),
      if_neg (by rw [hstart]; decide), if_neg hdot, hm₀]
    dsimp only
    rw [hlong, longest_of_ends he]
    have : r.head?.any (extendsSign m) = false := by simpa [Item.ends] using he
    rw [this]
    rfl

theorem item?_sound (h : item? c s = some (i, r)) :
    i.text ++ r = c :: s ∧ i.Formed ∧ i.ends r.head? := by
  unfold item? at h
  dsimp only at h
  split at h
  · rename_i hc
    cases h
    exact ⟨rfl, hc, rfl⟩
  split at h
  · rename_i hc
    split at h
    · rename_i hr
      cases h
      refine ⟨by simp [Item.text, takeWhile_append_dropWhile], ⟨cons_ne_nil _ _, ?_⟩, hr⟩
      intro d hd
      rcases mem_cons.1 hd with rfl | hd
      · exact hc
      · exact mem_takeWhile_imp hd
    · cases h
  split at h
  · rename_i hc
    cases h
    exact ⟨by simp [Item.text, takeWhile_append_dropWhile],
      ⟨c, _, rfl, hc, fun d hd => mem_takeWhile_imp hd⟩, endsWord_dropWhile⟩
  split at h
  · rename_i hdot
    subst hdot
    split at h
    · cases h
    · rename_i d t
      split at h
      · rename_i hd
        cases h
        exact ⟨by simp [Item.text, takeWhile_append_dropWhile],
          ⟨d, _, rfl, hd, fun x hx => mem_takeWhile_imp hx⟩, endsWord_dropWhile⟩
      · cases h
  · split at h
    · cases h
    · rename_i m hm
      split at h
      · cases h
      · rename_i hend
        cases h
        exact ⟨by rw [Item.text, longest_append, text_ofChar? hm]; rfl, trivial,
          by simpa [Item.ends] using hend⟩

/-- **What a text is cut into.** -/
theorem items?_eq_some_iff : items? s = some is ↔ textOf is = s ∧ Lexed is := by
  constructor
  · intro h
    fun_induction items? s generalizing is with
    | case1 =>
      cases h
      exact ⟨rfl, trivial⟩
    | case2 c t hi => cases h
    | case3 c t i r hi ih =>
      obtain ⟨js, hjs, rfl⟩ := Option.map_eq_some_iff.1 h
      obtain ⟨rfl, hl⟩ := ih hjs
      obtain ⟨htext, hform, hends⟩ := item?_sound hi
      exact ⟨htext, hform, hends, hl⟩
  · rintro ⟨rfl, hl⟩
    induction is with
    | nil => simp [textOf, items?]
    | cons i is ih =>
      obtain ⟨c, t, htext, hi⟩ := item?_text hl.1 hl.2.1
      rw [textOf_cons, htext, items?]
      split
      · rename_i h
        rw [hi] at h
        cases h
      · rename_i j r h
        rw [hi] at h
        cases h
        rw [ih hl.2.2]
        rfl

/-- **What a text is read as**: the tree that is written with its items, blanks
left out. -/
theorem read?_eq_some_iff : read? s = some e ↔
      ∃ is, textOf is = s ∧ Lexed is ∧ tokensOf is = e.tokens ∧ e.Leveled 0 := by
  rw [read?, Option.bind_eq_some_iff]
  constructor
  · rintro ⟨is, his, hp⟩
    obtain ⟨hs, hl⟩ := items?_eq_some_iff.1 his
    obtain ⟨he, ht⟩ := parse?_eq_some_iff.1 hp
    exact ⟨is, hs, hl, ht.symm, he⟩
  · rintro ⟨is, hs, hl, ht, he⟩
    exact ⟨is, items?_eq_some_iff.2 ⟨hs, hl⟩, parse?_eq_some_iff.2 ⟨he, ht.symm⟩⟩

/-! ## Items and their texts -/

theorem text_ne_nil : m.text ≠ [] := by
  cases m <;> exact cons_ne_nil _ _

theorem text_ne_nil_of_formed (h : i.Formed) : i.text ≠ [] := by
  cases i with
  | blank c => exact cons_ne_nil _ _
  | number ds => exact h.1
  | name w =>
    obtain ⟨c, u, rfl, -⟩ := h
    exact cons_ne_nil _ _
  | member w => exact cons_ne_nil _ _
  | sign m => exact text_ne_nil

theorem text_of_isToken (hi : i.Formed) (ht : i.isToken) :
    ∃ c t, i.text = c :: t ∧ isBlank c = false := by
  cases i with
  | blank c => cases ht
  | number ds =>
    obtain ⟨c, t, rfl⟩ := exists_cons_of_ne_nil hi.1
    exact ⟨c, t, rfl, isBlank_of_isNamePart (isNamePart_of_isDigit (hi.2 c mem_cons_self))⟩
  | name w =>
    obtain ⟨c, t, rfl, hc, -⟩ := hi
    exact ⟨c, t, rfl, isBlank_of_isNamePart (isNamePart_of_isNameStart hc)⟩
  | member w => exact ⟨'.', w, rfl, rfl⟩
  | sign m =>
    obtain ⟨c, t, -, hm, -, hblank, -⟩ := longest_text m
    exact ⟨c, t, hm, hblank⟩

theorem isToken_iff {t : Chars} (hi : i.Formed) (h : i.text = c :: t) :
    i.isToken ↔ isBlank c = false := by
  constructor
  · intro ht
    obtain ⟨d, u, hd, hblank⟩ := text_of_isToken hi ht
    rw [hd] at h
    cases h
    exact hblank
  · intro hc
    cases i with
    | blank d =>
      cases h
      exact absurd (show isBlank c from hi) (by rw [hc]; exact Bool.false_ne_true)
    | number ds => rfl
    | name w => rfl
    | member w => rfl
    | sign m => rfl

theorem eq_of_tokensOf_eq {js : List Item} (his : ∀ i ∈ is, i.Formed) (hjs : ∀ j ∈ js, j.Formed)
    (htext : textOf is = textOf js) (htokens : tokensOf is = tokensOf js) : is = js := by
  induction is generalizing js with
  | nil =>
    cases js with
    | nil => rfl
    | cons j js =>
      refine absurd (append_eq_nil_iff.1 htext.symm).1 ?_
      exact text_ne_nil_of_formed (hjs j mem_cons_self)
  | cons i is ih =>
    have hi := his i mem_cons_self
    obtain ⟨c, t, hc⟩ := exists_cons_of_ne_nil (text_ne_nil_of_formed hi)
    cases js with
    | nil =>
      rw [textOf_cons, hc] at htext
      cases htext
    | cons j js =>
      have hj := hjs j mem_cons_self
      obtain ⟨d, u, hd⟩ := exists_cons_of_ne_nil (text_ne_nil_of_formed hj)
      have hhead : c = d := by
        rw [textOf_cons, textOf_cons, hc, hd] at htext
        exact (cons.inj htext).1
      subst hhead
      have hiff : i.isToken ↔ j.isToken := (isToken_iff hi hc).trans (isToken_iff hj hd).symm
      have hsame : i = j ∧ tokensOf is = tokensOf js := by
        by_cases ht : i.isToken
        · rw [tokensOf, tokensOf, filter_cons_of_pos ht,
            filter_cons_of_pos (hiff.1 ht)] at htokens
          exact cons.inj htokens
        · rw [tokensOf, tokensOf, filter_cons_of_neg ht,
            filter_cons_of_neg fun h => ht (hiff.2 h)] at htokens
          refine ⟨?_, htokens⟩
          cases i with
          | blank x =>
            cases j with
            | blank y =>
              cases hc
              cases hd
              rfl
            | _ => exact absurd (hiff.2 rfl) ht
          | _ => exact absurd rfl ht
      obtain ⟨rfl, hrest⟩ := hsame
      rw [textOf_cons, textOf_cons] at htext
      rw [ih (fun x hx => his x (.tail _ hx)) (fun x hx => hjs x (.tail _ hx))
        (append_cancel_left htext) hrest]

theorem Lexed.formed (h : Lexed is) : ∀ i ∈ is, i.Formed := by
  induction is with
  | nil => intro i hi; cases hi
  | cons j is ih =>
    intro i hi
    rcases mem_cons.1 hi with rfl | hi
    · exact h.1
    · exact ih h.2.2 i hi

/-- **Formed items are read** as the tree whose tokens they hold, exactly if they stay
apart and the tree needs no brackets. -/
theorem read?_textOf_iff (hf : ∀ i ∈ is, i.Formed)
    (ht : tokensOf is = e.tokens) : read? (textOf is) = some e ↔ Lexed is ∧ e.Leveled 0 := by
  rw [read?_eq_some_iff]
  constructor
  · rintro ⟨js, hjs, hl, htokens, he⟩
    obtain rfl := eq_of_tokensOf_eq hf hl.formed hjs.symm (ht.trans htokens.symm)
    exact ⟨hl, he⟩
  · rintro ⟨hl, he⟩
    exact ⟨is, rfl, hl, ht, he⟩

/-! ## Items with blanks between them -/

/-- Items that stay apart from all that starts with a space or a closing bracket. -/
def Steady (is : List Item) : Prop :=
  ∀ rest, Lexed rest → (∀ c, (textOf rest).head? = some c → c = ' ' ∨ c = ')') → Lexed (is ++ rest)

theorem extendsSign_space : extendsSign m ' ' = false := by
  cases m <;> rfl

theorem ends_bracket (hm : m = .openRound ∨ m = .closeRound) :
    (Item.sign m).ends o := by
  cases o with
  | none => rfl
  | some c => rcases hm with rfl | rfl <;> rfl

theorem steady_number (hne : ds ≠ []) (hd : ∀ c ∈ ds, c.isDigit) : Steady [.number ds] := by
  intro rest hl hrest
  refine ⟨⟨hne, hd⟩, ?_, hl⟩
  show endsWord (textOf rest).head?
  cases h : (textOf rest).head? with
  | none => rfl
  | some c => rcases hrest c h with rfl | rfl <;> decide

theorem Steady.minus (hne : ds ≠ []) (hd : ∀ c ∈ ds, c.isDigit) :
    Steady [.sign .minus, .number ds] := by
  intro rest hl hrest
  refine ⟨trivial, ?_, steady_number hne hd rest hl hrest⟩
  obtain ⟨c, u, rfl⟩ := exists_cons_of_ne_nil hne
  have hc := hd c mem_cons_self
  have hgrow : Sign.grow? .minus c = none := by
    unfold Sign.grow?
    split <;> first | rfl | exact absurd hc (by decide)
  simp [Item.ends, textOf_cons, Item.text, extendsSign, hgrow]

theorem Steady.operator (ha : Steady as) (hb : Steady bs) (m : Sign) :
    Steady (as ++ .blank ' ' :: .sign m :: .blank ' ' :: bs) := by
  intro rest hl hrest
  rw [append_assoc]
  refine ha _ ⟨rfl, rfl, trivial, ?_, rfl, rfl, hb rest hl hrest⟩ ?_
  · simp [Item.ends, textOf_cons, Item.text, extendsSign_space]
  · rintro c ⟨⟩
    exact .inl rfl

/-- Whatever stands behind a closing bracket, the items before it are cut alike. -/
theorem Steady.lexed_group (hi : Steady is) {rest : List Item} (hl : Lexed rest) :
    Lexed (.sign .openRound :: (is ++ .sign .closeRound :: rest)) := by
  refine ⟨trivial, ends_bracket (.inl rfl), hi _ ⟨trivial, ends_bracket (.inr rfl), hl⟩ ?_⟩
  rintro c ⟨⟩
  exact .inr rfl

theorem Steady.group (hi : Steady is) : Steady (.sign .openRound :: (is ++ [.sign .closeRound])) := by
  intro rest hl _
  have := hi.lexed_group hl
  rwa [append_cons] at this

theorem textOf_operator :
    textOf (as ++ .blank ' ' :: .sign m :: .blank ' ' :: bs) =
      textOf as ++ (' ' :: (m.text ++ [' '])) ++ textOf bs := by
  simp [textOf, Item.text]

theorem textOf_group :
    textOf (.sign .openRound :: (as ++ [.sign .closeRound])) = '(' :: (textOf as ++ [')']) := by
  simp [textOf, Item.text, Sign.text]

theorem tokensOf_operator {b : Expr} (ha : tokensOf as = a.tokens)
    (hb : tokensOf bs = b.tokens) :
    tokensOf (as ++ .blank ' ' :: .sign m :: .blank ' ' :: bs) = (Expr.binary m a b).tokens := by
  rw [Expr.tokens, ← ha, ← hb, tokensOf, filter_append]
  rfl

theorem tokensOf_group (ha : tokensOf as = a.tokens) :
    tokensOf (.sign .openRound :: (as ++ [.sign .closeRound])) = (Expr.group a).tokens := by
  rw [Expr.tokens, ← ha, tokensOf, filter_cons_of_pos rfl, filter_append]
  rfl

end Obscura.Expression
