import Mathlib.Control.Monad.Basic
import Mathlib.Data.List.Forall2

/-
  Steps that can fail, taken apart. A sequence of steps that succeeds is made of
  steps that succeed; each lemma says so for one way to write a sequence.
-/

namespace Obscura

open List

variable {ε α β : Type}

variable {f : α → Except ε β}

theorem bind_ok {x : Except ε α} {b : β} :
    x >>= f = .ok b ↔ ∃ a, x = .ok a ∧ f a = .ok b := by
  cases x with
  | error e =>
    constructor
    · intro h
      cases h
    · rintro ⟨_, h, -⟩
      cases h
  | ok a =>
    constructor
    · intro h
      exact ⟨a, rfl, h⟩
    · rintro ⟨_, h, hf⟩
      cases h
      exact hf

theorem pure_ok {a b : α} : (pure a : Except ε α) = .ok b ↔ a = b :=
  ⟨fun h => Except.ok.inj h, fun h => h ▸ rfl⟩

theorem forall₂_of_mapM :
    ∀ {xs : List α} {ys : List β}, xs.mapM f = .ok ys → Forall₂ (fun x y => f x = .ok y) xs ys
  | [], ys, h => by
    rw [mapM_nil, pure_ok] at h
    subst h
    exact .nil
  | x :: xs, ys, h => by
    rw [mapM_cons] at h
    obtain ⟨y, hy, h⟩ := bind_ok.1 h
    obtain ⟨zs, hzs, h⟩ := bind_ok.1 h
    rw [pure_ok] at h
    subst h
    exact .cons hy (forall₂_of_mapM hzs)

variable {xs : List α}

theorem exists_mem_of_forall₂ {R : α → β → Prop} {ys : List β} (h : Forall₂ R xs ys) :
    ∀ y ∈ ys, ∃ x ∈ xs, R x y := by
  induction h with
  | nil =>
    intro y hy
    cases hy
  | cons hxy _ ih =>
    intro y hy
    rcases mem_cons.1 hy with rfl | hy
    · exact ⟨_, mem_cons_self, hxy⟩
    · obtain ⟨x, hx, hr⟩ := ih y hy
      exact ⟨x, .tail _ hx, hr⟩

theorem exists_of_mapM {ys : List β} (h : xs.mapM f = .ok ys) :
    ∀ y ∈ ys, ∃ x ∈ xs, f x = .ok y := exists_mem_of_forall₂ (forall₂_of_mapM h)

theorem mapM_of_forall₂ {ys : List β}
    (h : Forall₂ (fun x y => f x = .ok y) xs ys) : xs.mapM f = .ok ys := by
  induction h with
  | nil => rfl
  | cons hy _ ih =>
    rw [mapM_cons]
    exact bind_ok.2 ⟨_, hy, bind_ok.2 ⟨_, ih, rfl⟩⟩

theorem mapM_of_forall {g : α → β} (h : ∀ x ∈ xs, f x = .ok (g x)) :
    xs.mapM f = .ok (xs.map g) := mapM_of_forall₂ (forall₂_map_right_iff.2 (forall₂_same.2 h))

theorem exists_mapM {R : β → α → Prop}
    (h : ∀ x ∈ xs, ∃ y, f x = .ok y ∧ R y x) : ∃ ys, xs.mapM f = .ok ys ∧ Forall₂ R ys xs := by
  induction xs with
  | nil => exact ⟨[], rfl, .nil⟩
  | cons x xs ih =>
    obtain ⟨y, hy, hr⟩ := h x mem_cons_self
    obtain ⟨ys, hys, hrs⟩ := ih fun x' hx' => h x' (.tail _ hx')
    refine ⟨y :: ys, ?_, .cons hr hrs⟩
    rw [mapM_cons]
    exact bind_ok.2 ⟨y, hy, bind_ok.2 ⟨ys, hys, rfl⟩⟩

theorem mapM_error {e : ε} {x : α} (hx : x ∈ xs)
    (hf : f x = .error e) (h : ∀ y ∈ xs, (∃ z, f y = .ok z) ∨ f y = .error e) :
    xs.mapM f = .error e := by
  induction xs with
  | nil => cases hx
  | cons y ys ih =>
    rw [mapM_cons]
    rcases h y mem_cons_self with ⟨z, hz⟩ | he
    · have hys : x ∈ ys := by
        rcases mem_cons.1 hx with rfl | hx
        · rw [hf] at hz
          cases hz
        · exact hx
      rw [hz, ih hys fun w hw => h w (.tail _ hw)]
      rfl
    · rw [he]
      rfl

theorem foldlM_append_cons {f : β → α → Except ε β} {a b : β} {x : α} {ys : List α} :
    (xs ++ x :: ys).foldlM f a = .ok b ↔
      ∃ m m', xs.foldlM f a = .ok m ∧ f m x = .ok m' ∧ ys.foldlM f m' = .ok b := by
  rw [foldlM_append, bind_ok]
  simp only [foldlM_cons, bind_ok]
  exact ⟨fun ⟨m, h, m', h', h''⟩ => ⟨m, m', h, h', h''⟩,
    fun ⟨m, m', h, h', h''⟩ => ⟨m, h, m', h', h''⟩⟩

end Obscura
