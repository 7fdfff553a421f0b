import Mathlib.Data.List.Forall2
import Obscura.Number.Whole
import Obscura.Proofs.Expression.Scan

/-
  What expressions stand for. A meaning says what numbers, names and operators
  stand for, in any domain: values, values that may be missing, or computations.
  Brackets stand for nothing of their own. A tree whose numbers are exchanged for
  trees that stand for the same keeps its meaning (`Exchanged.value`), and so does
  the exchange in its tokens (`exists_exchanged`).
-/

namespace Obscura.Expression

open List Expr

/-- What the operators of expressions do in a domain. -/
structure Meaning (D : Type) where
  number : Chars → D
  before : Sign → D → D
  behind : Tail → D → D
  apply : Bracket → D → D → D
  binary : Sign → D → D → D
  choice : D → D → D → D

/-- The number that digits stand for; leading zeros do not count. -/
def numeral (ds : Chars) : Nat :=
  Nat.ofDigitChars 10 ds 0

section Digits

open Number

theorem numeral_digits (n : Nat) : numeral (digits n) = n := Nat.ofDigitChars_ten_toDigits

theorem isDigit_digits (n : Nat) : ∀ c ∈ digits n, c.isDigit :=
  fun _ hc => Nat.isDigit_of_mem_toDigits (by decide) (by decide) hc

theorem digits_ne_nil (n : Nat) : digits n ≠ [] := Nat.toDigits_ne_nil

theorem steady_digits (n : Nat) : Steady [.number (digits n)] :=
  steady_number (digits_ne_nil n) (isDigit_digits n)

end Digits

namespace Expr

/-- What a tree stands for, given what its names do. -/
def value {D : Type} (M : Meaning D) (env : Chars → D) : Expr → D
  | number ds => M.number ds
  | name w => env w
  | group e => e.value M env
  | before m e => M.before m (e.value M env)
  | behind e t => M.behind t (e.value M env)
  | apply b f i => M.apply b (f.value M env) (i.value M env)
  | binary m a b => M.binary m (a.value M env) (b.value M env)
  | choice c a b => M.choice (c.value M env) (a.value M env) (b.value M env)

/-- The names of a tree, members left out. -/
def names : Expr → List Chars
  | number _ => []
  | name w => [w]
  | group e => e.names
  | before _ e => e.names
  | behind e _ => e.names
  | apply _ f i => f.names ++ i.names
  | binary _ a b => a.names ++ b.names
  | choice c a b => c.names ++ (a.names ++ b.names)

/-- The value of a tree of numbers, sums, products and differences, where no part
is below zero. -/
def natural? : Expr → Option Nat
  | number ds => some (numeral ds)
  | group e => e.natural?
  | binary m a b =>
    match m, a.natural?, b.natural? with
    | .plus, some x, some y => some (x + y)
    | .times, some x, some y => some (x * y)
    | .minus, some x, some y => if y ≤ x then some (x - y) else none
    | _, _, _ => none
  | _ => none

end Expr

/-- Numbers are written in the domain by `lit`, and sums, products and differences
that are not below zero are those of numbers. -/
structure Meaning.Counts {D : Type} (M : Meaning D) (lit : Nat → D) : Prop where
  number : ∀ ds, M.number ds = lit (numeral ds)
  plus : ∀ x y, M.binary .plus (lit x) (lit y) = lit (x + y)
  times : ∀ x y, M.binary .times (lit x) (lit y) = lit (x * y)
  minus : ∀ x y, y ≤ x → M.binary .minus (lit x) (lit y) = lit (x - y)

theorem Meaning.Counts.value_of_natural? {D : Type} {M : Meaning D} {lit : Nat → D}
    (hM : M.Counts lit) (env : Chars → D) {e : Expr} {n : Nat} (h : e.natural? = some n) :
    e.value M env = lit n := by
  induction e generalizing n with
  | number ds =>
    cases h
    exact hM.number ds
  | group e ih => exact ih h
  | binary m a b iha ihb =>
    simp only [natural?] at h
    split at h
    · rename_i x y ha hb
      cases h
      rw [value, iha ha, ihb hb, hM.plus]
    · rename_i x y ha hb
      cases h
      rw [value, iha ha, ihb hb, hM.times]
    · rename_i x y ha hb
      split at h
      · rename_i hxy
        cases h
        rw [value, iha ha, ihb hb, hM.minus x y hxy]
      · cases h
    · cases h
  | _ => cases h

theorem mem_tokens_iff {e : Expr} {w : Chars} : .name w ∈ e.tokens ↔ w ∈ e.names := by
  induction e with
  | number ds => simp [tokens, names]
  | name v => simp [tokens, names]
  | group e ih => simp [tokens, names, ih]
  | before m e ih => simp [tokens, names, ih]
  | behind e t ih => cases t <;> simp [tokens, Tail.tokens, names, ih]
  | apply b f i ihf ihi => simp [tokens, names, ihf, ihi]
  | binary m a b iha ihb => simp [tokens, names, iha, ihb]
  | choice c a b ihc iha ihb => simp [tokens, names, ihc, iha, ihb]

/-! ## Exchanging numbers -/

/-- The second tree is the first one with every number exchanged for a tree that is
related to it. -/
inductive Exchanged (R : Chars → Expr → Prop) : Expr → Expr → Prop where
  | number {ds x} (h : R ds x) : Exchanged R (.number ds) x
  | name (w) : Exchanged R (.name w) (.name w)
  | group {e e'} (h : Exchanged R e e') : Exchanged R (.group e) (.group e')
  | before (m) {e e'} (h : Exchanged R e e') : Exchanged R (.before m e) (.before m e')
  | behind (t) {e e'} (h : Exchanged R e e') : Exchanged R (.behind e t) (.behind e' t)
  | apply (b) {f f' i i'} (hf : Exchanged R f f') (hi : Exchanged R i i') :
    Exchanged R (.apply b f i) (.apply b f' i')
  | binary (m) {a a' b b'} (ha : Exchanged R a a') (hb : Exchanged R b b') :
    Exchanged R (.binary m a b) (.binary m a' b')
  | choice {c c' a a' b b'} (hc : Exchanged R c c') (ha : Exchanged R a a')
    (hb : Exchanged R b b') : Exchanged R (.choice c a b) (.choice c' a' b')

def TokenExchanged (R : Chars → Expr → Prop) (t : Item) (us : List Item) : Prop :=
  match t with
  | .number ds => ∃ x, R ds x ∧ us = x.tokens
  | t => us = [t]

section Exchange

variable {R : Chars → Expr → Prop}

theorem Exchanged.value {D : Type} {M : Meaning D} {env : Chars → D}
    (hR : ∀ ds x, R ds x → x.value M env = M.number ds) {e e' : Expr} (h : Exchanged R e e') :
    e'.value M env = e.value M env := by
  induction h with
  | number h => exact hR _ _ h
  | name w => rfl
  | group h ih => exact ih
  | before m h ih => rw [Expr.value, ih, Expr.value]
  | behind t h ih => rw [Expr.value, ih, Expr.value]
  | apply b hf hi ihf ihi => rw [Expr.value, ihf, ihi, Expr.value]
  | binary m ha hb iha ihb => rw [Expr.value, iha, ihb, Expr.value]
  | choice hc ha hb ihc iha ihb => rw [Expr.value, ihc, iha, ihb, Expr.value]

theorem Exchanged.leveled (hR : ∀ ds x, R ds x → ∀ k, x.Leveled k) {e e' : Expr}
    (h : Exchanged R e e') {k : Nat} (he : e.Leveled k) : e'.Leveled k := by
  induction h generalizing k with
  | number h => exact hR _ _ h k
  | name w => trivial
  | group h ih => exact ih he
  | before m h ih => exact ⟨he.1, he.2.1, ih he.2.2⟩
  | behind t h ih => exact ⟨he.1, ih he.2⟩
  | apply b hf hi ihf ihi => exact ⟨ihf he.1, ihi he.2⟩
  | binary m ha hb iha ihb =>
    obtain ⟨l, hl, hk, hea, heb⟩ := he
    exact ⟨l, hl, hk, iha hea, ihb heb⟩
  | choice hc ha hb ihc iha ihb => exact ⟨he.1, ihc he.2.1, iha he.2.2.1, ihb he.2.2.2⟩

variable {uss : List (List Item)}

theorem flatten_of_signs {m : Sign}
    (h : Forall₂ (TokenExchanged R) [.sign m] uss) : uss.flatten = [.sign m] := by
  obtain ⟨u, us, hu, hus, rfl⟩ := forall₂_cons_left_iff.1 h
  cases hus
  rw [hu]
  rfl

theorem flatten_of_tail {t : Tail}
    (h : Forall₂ (TokenExchanged R) t.tokens uss) : uss.flatten = t.tokens := by
  cases t with
  | step m => exact flatten_of_signs h
  | member w =>
    obtain ⟨u, us, hu, hus, rfl⟩ := forall₂_cons_left_iff.1 h
    cases hus
    rw [hu]
    rfl
  | call =>
    obtain ⟨u, us, hu, hus, rfl⟩ := forall₂_cons_left_iff.1 h
    rw [flatten_cons, flatten_of_signs hus, hu]
    rfl

theorem forall₂_append_left {ts ts' : List Item}
    (h : Forall₂ (TokenExchanged R) (ts ++ ts') uss) :
    ∃ vss wss, uss = vss ++ wss ∧ Forall₂ (TokenExchanged R) ts vss ∧
      Forall₂ (TokenExchanged R) ts' wss := by
  induction ts generalizing uss with
  | nil => exact ⟨[], uss, rfl, .nil, h⟩
  | cons t ts ih =>
    obtain ⟨u, us, hu, hus, rfl⟩ := forall₂_cons_left_iff.1 h
    obtain ⟨vss, wss, rfl, hv, hw⟩ := ih hus
    exact ⟨u :: vss, wss, rfl, .cons hu hv, hw⟩

theorem forall₂_sign_cons {m : Sign} {ts : List Item}
    (h : Forall₂ (TokenExchanged R) (.sign m :: ts) uss) :
    ∃ vss, uss = [.sign m] :: vss ∧ Forall₂ (TokenExchanged R) ts vss := by
  obtain ⟨u, us, hu, hus, rfl⟩ := forall₂_cons_left_iff.1 h
  exact ⟨us, by rw [hu], hus⟩

/-- Tokens exchanged one by one are those of the tree with its numbers exchanged. -/
theorem exists_exchanged {e : Expr}
    (h : Forall₂ (TokenExchanged R) e.tokens uss) :
    ∃ e', Exchanged R e e' ∧ e'.tokens = uss.flatten := by
  induction e generalizing uss with
  | number ds =>
    obtain ⟨u, us, ⟨x, hx, rfl⟩, hus, rfl⟩ := forall₂_cons_left_iff.1 h
    cases hus
    exact ⟨x, .number hx, by simp⟩
  | name w =>
    obtain ⟨u, us, hu, hus, rfl⟩ := forall₂_cons_left_iff.1 h
    cases hus
    exact ⟨.name w, .name w, by rw [hu]; rfl⟩
  | group e ih =>
    obtain ⟨_, rfl, hs⟩ := forall₂_sign_cons h
    obtain ⟨_, _, rfl, he, hc⟩ := forall₂_append_left hs
    obtain ⟨e', hx, ht⟩ := ih he
    exact ⟨.group e', .group hx, by simp [tokens, ht, flatten_of_signs hc]⟩
  | before m e ih =>
    obtain ⟨_, rfl, he⟩ := forall₂_sign_cons h
    obtain ⟨e', hx, ht⟩ := ih he
    exact ⟨.before m e', .before m hx, by simp [tokens, ht]⟩
  | behind e t ih =>
    obtain ⟨_, _, rfl, he, htail⟩ := forall₂_append_left h
    obtain ⟨e', hx, ht⟩ := ih he
    exact ⟨.behind e' t, .behind t hx, by simp [tokens, ht, flatten_of_tail htail]⟩
  | apply b f i ihf ihi =>
    obtain ⟨_, _, rfl, hf, hs⟩ := forall₂_append_left h
    obtain ⟨_, rfl, hr⟩ := forall₂_sign_cons hs
    obtain ⟨_, _, rfl, hi, hc⟩ := forall₂_append_left hr
    obtain ⟨f', hfx, hft⟩ := ihf hf
    obtain ⟨i', hix, hit⟩ := ihi hi
    exact ⟨.apply b f' i', .apply b hfx hix, by simp [tokens, hft, hit, flatten_of_signs hc]⟩
  | binary m a b iha ihb =>
    obtain ⟨_, _, rfl, ha, hs⟩ := forall₂_append_left h
    obtain ⟨_, rfl, hb⟩ := forall₂_sign_cons hs
    obtain ⟨a', hax, hat⟩ := iha ha
    obtain ⟨b', hbx, hbt⟩ := ihb hb
    exact ⟨.binary m a' b', .binary m hax hbx, by simp [tokens, hat, hbt]⟩
  | choice c a b ihc iha ihb =>
    obtain ⟨_, _, rfl, hc, hs⟩ := forall₂_append_left h
    obtain ⟨_, rfl, hr⟩ := forall₂_sign_cons hs
    obtain ⟨_, _, rfl, ha, hs'⟩ := forall₂_append_left hr
    obtain ⟨_, rfl, hb⟩ := forall₂_sign_cons hs'
    obtain ⟨c', hcx, hct⟩ := ihc hc
    obtain ⟨a', hax, hat⟩ := iha ha
    obtain ⟨b', hbx, hbt⟩ := ihb hb
    exact ⟨.choice c' a' b', .choice hcx hax hbx, by simp [tokens, hct, hat, hbt]⟩

end Exchange

end Obscura.Expression
