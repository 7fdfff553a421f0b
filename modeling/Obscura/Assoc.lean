/-
  Association lists that keep the order of first insertion.
-/

namespace Obscura

/-- Values by key; each key occurs once. -/
abbrev Assoc (κ α : Type) := List (κ × α)

namespace Assoc

variable {κ α : Type} [DecidableEq κ]

def find (k : κ) : Assoc κ α → Option α
  | [] => none
  | e :: es => if e.1 = k then some e.2 else find k es

def has (k : κ) (m : Assoc κ α) : Bool :=
  (find k m).isSome

def set (k : κ) (v : α) : Assoc κ α → Assoc κ α
  | [] => [(k, v)]
  | e :: es => if e.1 = k then (e.1, v) :: es else e :: set k v es

def push (k : κ) (v : α) : Assoc κ (List α) → Assoc κ (List α)
  | [] => [(k, [v])]
  | e :: es => if e.1 = k then (e.1, e.2 ++ [v]) :: es else e :: push k v es

def values (m : Assoc κ α) : List α :=
  m.map (·.2)

theorem find_set (k j : κ) (v : α) (m : Assoc κ α) :
    find j (set k v m) = if k = j then some v else find j m := by
  induction m with
  | nil => simp [set, find]
  | cons e es ih =>
    by_cases h : e.1 = k
    · simp only [set, h, if_true, find]
      split <;> rfl
    · simp only [set, h, if_false, find, ih]
      by_cases hj : e.1 = j
      · have : k ≠ j := fun x => h (hj.trans x.symm)
        simp [hj, this]
      · simp [hj]

theorem mem_of_find {k : κ} {v : α} {m : Assoc κ α} (h : find k m = some v) : (k, v) ∈ m := by
  induction m with
  | nil => cases h
  | cons e es ih =>
    rw [find] at h
    split at h
    · rename_i he
      cases h
      exact he ▸ List.mem_cons_self
    · exact .tail _ (ih h)

theorem mem_set {k : κ} {v : α} {e : κ × α} {m : Assoc κ α} (h : e ∈ set k v m) : e = (k, v) ∨ e ∈ m := by
  induction m with
  | nil => exact .inl (List.mem_singleton.1 h)
  | cons d es ih =>
    rw [set] at h
    split at h
    · rename_i hd
      rcases List.mem_cons.1 h with rfl | h
      · exact .inl (hd ▸ rfl)
      · exact .inr (.tail _ h)
    · rcases List.mem_cons.1 h with rfl | h
      · exact .inr (.head _)
      · exact (ih h).imp_right (.tail _)

theorem mem_foldl_set {e : κ × α} {l : List (κ × α)} {m : Assoc κ α}
    (h : e ∈ l.foldl (fun m x => set x.1 x.2 m) m) : e ∈ m ∨ e ∈ l := by
  induction l generalizing m with
  | nil => exact .inl h
  | cons x l ih =>
    rcases ih h with h | h
    · rcases mem_set h with rfl | h
      · exact .inr (.head _)
      · exact .inl h
    · exact .inr (.tail _ h)

end Assoc

end Obscura
