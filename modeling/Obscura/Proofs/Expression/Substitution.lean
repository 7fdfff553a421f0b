import Obscura.Proofs.Expression.Value

/-
  Putting expressions in the places of names. Trees are substituted in trees and
  items in items, and the two go together (`tokensOf_fill`). No brackets are added:
  what is put in has to fit the level of its place (`leveled_subst`). A tree with
  substitutions stands for what it stood for with its names bound anew
  (`value_subst`).
-/

namespace Obscura.Expression

open List

variable {e : Expr} {is : List Item} {k : Nat}

namespace Expr

/-- Put trees in the places of names, all at once. -/
def subst (σ : Chars → Option Expr) : Expr → Expr
  | number ds => number ds
  | name w => (σ w).getD (name w)
  | group e => group (e.subst σ)
  | before m e => before m (e.subst σ)
  | behind e t => behind (e.subst σ) t
  | apply b f i => apply b (f.subst σ) (i.subst σ)
  | binary m a b => binary m (a.subst σ) (b.subst σ)
  | choice c a b => choice (c.subst σ) (a.subst σ) (b.subst σ)

/-- The names of a tree that stands where level `k` is asked for, each with the level
that its own place asks for. -/
def places (k : Nat) : Expr → List (Nat × Chars)
  | number _ => []
  | name w => [(k, w)]
  | group e => e.places 0
  | before _ e => e.places prefixLevel
  | behind e _ => e.places wholeLevel
  | apply _ f i => f.places wholeLevel ++ i.places 0
  | binary m a b =>
    a.places (leftNeed (m.level?.getD 0)) ++ b.places (rightNeed (m.level?.getD 0))
  | choice c a b => c.places 2 ++ (a.places 0 ++ b.places 1)

/-- The names with those of the substitution bound anew. -/
def rebound {D : Type} (M : Meaning D) (σ : Chars → Option Expr) (env : Chars → D)
    (w : Chars) : D :=
  match σ w with
  | some x => x.value M env
  | none => env w

end Expr

/-- What stands in the place of an item. -/
def Item.filled (f : Chars → Option (List Item)) : Item → List Item
  | .name w => (f w).getD [.name w]
  | i => [i]

/-- Put items in the places of names. -/
def fill (f : Chars → Option (List Item)) (is : List Item) : List Item :=
  is.flatMap (Item.filled f)

section Fill

variable {f : Chars → Option (List Item)} {σ : Chars → Option Expr} {js : List Item}

theorem fill_append (is js : List Item) : fill f (is ++ js) = fill f is ++ fill f js :=
  flatMap_append

theorem fill_cons (i : Item) (is : List Item) : fill f (i :: is) = fill f [i] ++ fill f is :=
  fill_append [i] is

theorem fill_name (w : Chars) : fill f [.name w] = (f w).getD [.name w] := append_nil _

theorem fill_tail (t : Tail) : fill f t.tokens = t.tokens := by
  cases t <;> rfl

theorem tokensOf_append : tokensOf (is ++ js) = tokensOf is ++ tokensOf js :=
  filter_append ..

theorem fill_tokens (hf : ∀ w ∈ e.names, f w = (σ w).map Expr.tokens) :
    fill f e.tokens = (e.subst σ).tokens := by
  induction e with
  | number ds => rfl
  | name w =>
    rw [Expr.tokens, fill_name, hf w mem_cons_self, Expr.subst]
    cases σ w <;> rfl
  | group e ih =>
    rw [Expr.tokens, fill_cons, fill_append, ih hf]
    rfl
  | before m e ih =>
    rw [Expr.tokens, fill_cons, ih hf]
    rfl
  | behind e t ih => rw [Expr.tokens, fill_append, ih hf, fill_tail, Expr.subst, Expr.tokens]
  | apply b g i ihg ihi =>
    rw [Expr.tokens, fill_append, fill_cons, fill_append,
      ihg fun w hw => hf w (mem_append_left _ hw), ihi fun w hw => hf w (mem_append_right _ hw)]
    rfl
  | binary m a b iha ihb =>
    rw [Expr.tokens, fill_append, fill_cons, iha fun w hw => hf w (mem_append_left _ hw),
      ihb fun w hw => hf w (mem_append_right _ hw)]
    rfl
  | choice c a b ihc iha ihb =>
    have hr : ∀ w ∈ a.names ++ b.names, f w = (σ w).map Expr.tokens :=
      fun w hw => hf w (mem_append_right _ hw)
    rw [Expr.tokens, fill_append, fill_cons, fill_append, fill_cons _ b.tokens,
      ihc fun w hw => hf w (mem_append_left _ hw), iha fun w hw => hr w (mem_append_left _ hw),
      ihb fun w hw => hr w (mem_append_right _ hw)]
    rfl

theorem tokensOf_fill_tokens :
    tokensOf (fill f is) = fill (fun w => (f w).map tokensOf) (tokensOf is) := by
  induction is with
  | nil => rfl
  | cons i is ih =>
    rw [fill_cons, tokensOf_append, ih]
    cases i with
    | blank c => rfl
    | name w =>
      rw [fill_name, show tokensOf (.name w :: is) = .name w :: tokensOf is from rfl,
        fill_cons _ (tokensOf is), fill_name]
      cases f w <;> rfl
    | number ds => rfl
    | member w => rfl
    | sign m => rfl

/-- **Items put in items** are written like the trees put in the tree. -/
theorem tokensOf_fill (h : tokensOf is = e.tokens)
    (hf : ∀ w, .name w ∈ is → (f w).map tokensOf = (σ w).map Expr.tokens) :
    tokensOf (fill f is) = (e.subst σ).tokens := by
  rw [tokensOf_fill_tokens, h]
  refine fill_tokens fun w hw => hf w ?_
  rw [← mem_tokens_iff, ← h] at hw
  exact mem_of_mem_filter hw

theorem filled_of_none {i : Item} (h : ∀ w, i = .name w → f w = none) : i.filled f = [i] := by
  cases i with
  | name w =>
    rw [Item.filled, h w rfl]
    rfl
  | _ => rfl

theorem forall_mem_fill {P : Item → Prop} (his : ∀ i ∈ is, (∀ w, i = .name w → f w = none) → P i)
    (hf : ∀ w ys, .name w ∈ is → f w = some ys → ∀ i ∈ ys, P i) : ∀ i ∈ fill f is, P i := by
  intro i hi
  obtain ⟨j, hj, hij⟩ := mem_flatMap.1 hi
  by_cases hkept : ∀ w, j = .name w → f w = none
  · rw [filled_of_none hkept] at hij
    obtain rfl := mem_singleton.1 hij
    exact his _ hj hkept
  · obtain ⟨w, hne⟩ := Classical.not_forall.1 hkept
    obtain ⟨rfl, hput⟩ := Classical.not_imp.1 hne
    obtain ⟨ys, hys⟩ := Option.ne_none_iff_exists'.1 hput
    rw [Item.filled, hys] at hij
    exact hf w ys hj hys i hij

end Fill

namespace Expr

variable {σ : Chars → Option Expr}

/-- **A substitution needs no brackets** exactly if all that is put in fits its
place. -/
theorem leveled_subst : (e.subst σ).Leveled k ↔
      e.Leveled k ∧ ∀ p ∈ e.places k, ∀ x, σ p.2 = some x → x.Leveled p.1 := by
  induction e generalizing k with
  | number ds => simp [subst, places, Leveled]
  | name w =>
    cases h : σ w with
    | none => simp [subst, places, Leveled, h]
    | some x => simp [subst, places, Leveled, h]
  | group e ih => exact ih
  | before m e ih =>
    simp only [subst, places, Leveled, ih, and_assoc]
  | behind e t ih =>
    simp only [subst, places, Leveled, ih, and_assoc]
  | apply b f i ihf ihi =>
    simp only [subst, places, Leveled, ihf, ihi, mem_append, or_imp, forall_and]
    tauto
  | binary m a b iha ihb =>
    simp only [subst, places, Leveled, iha, ihb, mem_append, or_imp, forall_and]
    constructor
    · rintro ⟨l, hl, hk, ⟨ha, hpa⟩, hb, hpb⟩
      rw [hl]
      exact ⟨⟨l, rfl, hk, ha, hb⟩, hpa, hpb⟩
    · rintro ⟨⟨l, hl, hk, ha, hb⟩, hpa, hpb⟩
      rw [hl] at hpa hpb
      exact ⟨l, hl, hk, ⟨ha, hpa⟩, hb, hpb⟩
  | choice c a b ihc iha ihb =>
    simp only [subst, places, Leveled, ihc, iha, ihb, mem_append, or_imp, forall_and]
    tauto

theorem mem_names_of_mem_places {p : Nat × Chars} (h : p ∈ e.places k) : p.2 ∈ e.names := by
  induction e generalizing k with
  | number ds => cases h
  | name w =>
    obtain rfl := mem_singleton.1 h
    exact mem_singleton.2 rfl
  | group e ih => exact ih h
  | before m e ih => exact ih h
  | behind e t ih => exact ih h
  | apply b f i ihf ihi => exact mem_append.2 ((mem_append.1 h).imp ihf ihi)
  | binary m a b iha ihb => exact mem_append.2 ((mem_append.1 h).imp iha ihb)
  | choice c a b ihc iha ihb =>
    exact mem_append.2 ((mem_append.1 h).imp ihc fun h =>
      mem_append.2 ((mem_append.1 h).imp iha ihb))

theorem value_congr {D : Type} {M : Meaning D} {env env' : Chars → D}
    (h : ∀ w ∈ e.names, env w = env' w) : e.value M env = e.value M env' := by
  induction e with
  | number ds => rfl
  | name w => exact h w (mem_singleton.2 rfl)
  | group e ih => exact ih h
  | before m e ih => rw [value, ih h, value]
  | behind e t ih => rw [value, ih h, value]
  | apply b f i ihf ihi =>
    rw [value, ihf fun w hw => h w (mem_append_left _ hw),
      ihi fun w hw => h w (mem_append_right _ hw), value]
  | binary m a b iha ihb =>
    rw [value, iha fun w hw => h w (mem_append_left _ hw),
      ihb fun w hw => h w (mem_append_right _ hw), value]
  | choice c a b ihc iha ihb =>
    rw [value, ihc fun w hw => h w (mem_append_left _ hw),
      iha fun w hw => h w (mem_append_right _ (mem_append_left _ hw)),
      ihb fun w hw => h w (mem_append_right _ (mem_append_right _ hw)), value]

/-- **What a substitution stands for.** -/
theorem value_subst {D : Type} (M : Meaning D) (env : Chars → D) :
    (e.subst σ).value M env = e.value M (rebound M σ env) := by
  induction e with
  | number ds => rfl
  | name w =>
    rw [subst, value, rebound]
    cases σ w <;> rfl
  | group e ih => exact ih
  | before m e ih => rw [subst, value, ih, value]
  | behind e t ih => rw [subst, value, ih, value]
  | apply b f i ihf ihi => rw [subst, value, ihf, ihi, value]
  | binary m a b iha ihb => rw [subst, value, iha, ihb, value]
  | choice c a b ihc iha ihb => rw [subst, value, ihc, iha, ihb, value]

end Expr

end Obscura.Expression
