import Obscura.Session

/-
  Steps of a session, taken apart. A step that succeeds ends in a session with a
  result; a sequence that succeeds is made of steps that do.
-/

namespace Obscura

variable {σ σ' σ₁ : Session}

def said (line : String) (σ : Session) : Session :=
  { σ with report := σ.report ++ (line.toList ++ ['\n']) }

namespace Run

variable {α β : Type} {f : α → Run β} {x : Run α} {line : String}

theorem bind_apply : (x >>= f) σ = ExceptT.bindCont f (x σ).1 (x σ).2 :=
  rfl

theorem bind_ok {b : β} :
    (x >>= f) σ = (.ok b, σ') ↔ ∃ a σ₁, x σ = (.ok a, σ₁) ∧ f a σ₁ = (.ok b, σ') := by
  rw [bind_apply]
  rcases x σ with ⟨a | a, σ₁⟩
  · constructor
    · intro h
      cases h
    · rintro ⟨_, _, h, -⟩
      cases h
  · constructor
    · intro h
      exact ⟨a, σ₁, rfl, h⟩
    · rintro ⟨_, _, h, hf⟩
      cases h
      exact hf

theorem bind_of_ok {a : α} (h : x σ = (.ok a, σ₁)) :
    (x >>= f) σ = f a σ₁ := by
  rw [bind_apply, h]
  rfl

theorem bind_congr {x y : Run α} (h : x σ = y σ') (f : α → Run β) : (x >>= f) σ = (y >>= f) σ' := by
  rw [bind_apply, bind_apply, h]

theorem bind_of_error {e : Fault} (h : x σ = (.error e, σ₁)) :
    (x >>= f) σ = (.error e, σ₁) := by
  rw [bind_apply, h]
  rfl

theorem bind_const (b : β) :
    (x >>= fun _ => pure b) σ = ((x σ).1.map fun _ => b, (x σ).2) := by
  rw [bind_apply]
  rcases x σ with ⟨a | a, σ₁⟩
  · rfl
  · rfl

theorem attempt_bind (f : Except Fault α → Run β) :
    (attempt x >>= f) σ = f (x σ).1 (x σ).2 :=
  rfl

theorem get_bind (f : Session → Run β) : (getThe Session >>= f) σ = f σ σ :=
  rfl

theorem files_bind (f : Files → Run β) : (files >>= f) σ = f σ.files σ :=
  rfl

theorem say_bind (f : Unit → Run β) :
    (say line >>= f) σ = f () (said line σ) :=
  rfl

theorem ofExcept_ok {x : Except Fault α} {a : α} : ofExcept x σ = (.ok a, σ') ↔ x = .ok a ∧ σ' = σ := by
  constructor
  · intro h
    cases h
    exact ⟨rfl, rfl⟩
  · rintro ⟨rfl, rfl⟩
    rfl

/-- The step does not fail. -/
def Total (x : Run α) : Prop :=
  ∀ σ, ∃ a σ', x σ = (.ok a, σ')

theorem Total.bind (hx : Total x) (hf : ∀ a, Total (f a)) :
    Total (x >>= f) := by
  intro σ
  obtain ⟨a, σ₁, ha⟩ := hx σ
  obtain ⟨b, σ', hb⟩ := hf a σ₁
  exact ⟨b, σ', bind_ok.2 ⟨a, σ₁, ha, hb⟩⟩

end Run

end Obscura
