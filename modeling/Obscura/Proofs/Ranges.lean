import Obscura.Ast.Range
import Obscura.Proofs.Files
import Obscura.Proofs.Integers

/-
  The readers of source ranges against each other. They differ in what they make of a
  text without a length and in whether they hand on a fault, so that the strictest
  (`read_ok_iff`) decides: what it reads, all read alike.
-/

namespace Obscura.Ast

open Text Number List

variable {s : Chars} {i : Int} {r : Range}

/-- The passes that read a range, and no file with it. -/
inductive Client where
  | tables
  | scalars
  | locals
  | blocks
  | calls
  | predicates

/-- What a pass makes of a text: a range, nothing or a fault. -/
def Client.read (s : Chars) : Client → Except Fault (Option Range)
  | tables | scalars | locals => (Range.readOpen s).map some
  | blocks | calls => (Range.read s).map some
  | predicates => .ok (Range.read? s)

/-- The text of a source range. -/
def Location.text (start length file : Nat) : Chars :=
  digits start ++ ':' :: (digits length ++ ':' :: digits file)

theorem readNumber_ok_iff : readNumber s = .ok i ↔ readInt? s = some i := by
  unfold readNumber
  cases readInt? s <;> simp

theorem read_ok_iff : Range.read s = .ok r ↔ ∃ a b ls i n, splitAt ':' s = a :: b :: ls ∧
    readInt? a = some i ∧ readInt? b = some n ∧ ⟨i, i + n⟩ = r := by
  rw [Range.read]
  split
  · rename_i hs
    simp [hs]
  · rename_i a hs
    simp [hs, bind_ok, throw, throwThe, MonadExceptOf.throw]
  · rename_i a b ls hs
    simp only [hs, bind_ok, readNumber_ok_iff, pure_ok, cons.injEq]
    constructor
    · rintro ⟨i, hi, n, hn, h⟩
      exact ⟨a, b, ls, i, n, ⟨rfl, rfl, rfl⟩, hi, hn, h⟩
    · rintro ⟨_, _, _, i, n, ⟨rfl, rfl, rfl⟩, hi, hn, h⟩
      exact ⟨i, hi, n, hn, h⟩

/-- What the strictest reader reads, all read. -/
theorem Client.read_eq (h : Range.read s = .ok r) (p : Client) : p.read s = .ok (some r) := by
  have hopen : Range.readOpen s = .ok r := by
    obtain ⟨a, b, ls, i, n, hs, hi, hn, hr⟩ := read_ok_iff.1 h
    simp only [Range.readOpen, hs, bind_ok, readNumber_ok_iff, pure_ok]
    exact ⟨i, hi, n, hn, hr⟩
  cases p with
  | tables | scalars | locals => rw [read, hopen]; rfl
  | blocks | calls => rw [read, h]; rfl
  | predicates => rw [read, Range.read?, h]; rfl

theorem read_of_location {l : Location} (h : Location.read? s = some l) :
    Range.read s = .ok ⟨l.start, l.start + l.length⟩ := by
  rw [read_ok_iff]
  unfold Location.read? at h
  split at h
  · rename_i a b c ls hs
    split at h
    · rename_i hi hn _
      cases h
      exact ⟨a, b, c :: ls, _, _, hs, hi, hn, rfl⟩
    · cases h
  · rename_i a b hs
    split at h
    · rename_i hi hn
      cases h
      exact ⟨a, b, [], _, _, hs, hi, hn, rfl⟩
    · cases h
  · cases h

section Written

variable {n a b f : Nat}

theorem readInt?_digits (h : (digits n).length ≤ maxDigits) : readInt? (digits n) = some (n : Int) := by
  have hread := Literal.readInt?_render n
  rwa [render, if_neg (by omega), Int.natAbs_natCast, if_pos h] at hread

theorem colon_not_mem_digits : ':' ∉ digits n := by
  intro h
  cases Expression.isDigit_digits n _ h

theorem splitAt_text : splitAt ':' (Location.text a b f) = [digits a, digits b, digits f] := by
  rw [Location.text, splitAt_append colon_not_mem_digits, splitAt_append colon_not_mem_digits,
    splitAt_of_not_mem colon_not_mem_digits]

end Written

/-- **The readers of ranges agree.** -/
theorem clients_agree (s : Chars) :
    (Client.tables.read s = Client.scalars.read s ∧ Client.scalars.read s = Client.locals.read s) ∧
      Client.blocks.read s = Client.calls.read s ∧
      (∀ r, Client.blocks.read s = .ok (some r) → ∀ p : Client, p.read s = .ok (some r)) ∧
      (Client.predicates.read s = .ok none ↔ ∃ e, Client.blocks.read s = .error e) ∧
      (∀ l, Location.read? s = some l → Client.blocks.read s = .ok (some ⟨l.start, l.start + l.length⟩)) ∧
      ∀ a b f : Nat, (digits a).length ≤ maxDigits → (digits b).length ≤ maxDigits →
        (digits f).length ≤ maxDigits →
        (∀ p : Client, p.read (Location.text a b f) = .ok (some ⟨a, a + b⟩)) ∧
          Location.read? (Location.text a b f) = some ⟨a, b, f⟩ := by
  refine ⟨⟨rfl, rfl⟩, rfl, fun r h => ?_, ?_, fun l hl => Client.read_eq (read_of_location hl) .blocks, ?_⟩
  · rw [Client.read] at h
    cases hr : Range.read s with
    | error e => rw [hr] at h; cases h
    | ok r' =>
      rw [hr] at h
      cases h
      exact Client.read_eq hr
  · simp only [Client.read, Range.read?]
    cases Range.read s <;> simp [Except.toOption, Except.map]
  · intro a b f ha hb hf
    have hread : Location.read? (Location.text a b f) = some ⟨a, b, f⟩ := by
      simp only [Location.read?, splitAt_text, readInt?_digits ha, readInt?_digits hb, readInt?_digits hf]
    exact ⟨Client.read_eq (read_of_location hread), hread⟩

end Obscura.Ast
