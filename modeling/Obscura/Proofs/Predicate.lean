import Obscura.Flow.Predicate

/-
  When an opaque predicate holds. The helper never overflows, and its value
  follows the remainder of the hash, which has the sign of the hash. The
  predicates of the negative and of the even variant hold for every hash. That
  of the positive variant fails for the negative hashes that take ten or more
  from the twenty (`Variant.Misses`). The main statement is `holds_exactly`.
-/

namespace Obscura.Flow

/-! ## Hashes as signed numbers -/

/-- Reading a hash with a sign is the two's complement reading of its bits. -/
theorem signed_toNat (hash : BitVec 256) : signed hash.toNat = hash.toInt := by
  have hbit : signBit = 2 ^ 255 := rfl
  rw [BitVec.toInt_eq_toNat_cond, signed, hbit]
  split <;> split <;> omega

/-- The remainder of a number is smaller than the divisor on both sides of
zero. -/
theorem tmod_within (x : Int) {n : Int} (hn : 0 < n) : -n < x.tmod n ∧ x.tmod n < n := by
  have habs : (x.tmod n).natAbs = x.natAbs % n.natAbs := Int.natAbs_tmod x n
  have hlt : x.natAbs % n.natAbs < n.natAbs := Nat.mod_lt _ (by omega)
  omega

/-- The remainder of a hash by a hundred is the remainder of its distance to
zero, with the sign of the hash. -/
theorem toInt_tmod (hash : BitVec 256) :
    hash.toInt.tmod 100 =
      if hash.msb then -(((-hash).toNat % 100 : Nat) : Int)
      else ((hash.toNat % 100 : Nat) : Int) := by
  have hlt := hash.isLt
  rw [BitVec.toInt_eq_msb_cond]
  split
  · rename_i hmsb
    have hhigh : 2 ^ 255 ≤ hash.toNat := BitVec.le_toNat_of_msb_true hmsb
    have hdist : (-hash).toNat = 2 ^ 256 - hash.toNat := by
      rw [BitVec.toNat_neg, Nat.mod_eq_of_lt (by omega)]
    have hneg : (hash.toNat : Int) - (2 ^ 256 : Nat) = -((-hash).toNat : Int) := by
      omega
    rw [hneg, Int.neg_tmod]
    rfl
  · rfl

/-! ## The value of the helper -/

/-- What the helper makes of a signed hash. -/
def Variant.value : Variant → Int → Int
  | .positive, x => x.tmod 100 + 20
  | .negative, x => x.tmod 100 - 150
  | .even, x => x.tmod 50 * 2

theorem checked_of_fits {i : Int} (h : fits i) : checked i = some i :=
  if_pos h

theorem fits_of_small {i : Int} (h : -1000 ≤ i ∧ i ≤ 1000) : fits i := by
  have hbit : signBit = 2 ^ 255 := rfl
  unfold fits
  omega

theorem value_small (v : Variant) (x : Int) : -1000 ≤ v.value x ∧ v.value x ≤ 1000 := by
  have h100 : -100 < x.tmod 100 ∧ x.tmod 100 < 100 := tmod_within x (by decide)
  have h50 : -50 < x.tmod 50 ∧ x.tmod 50 < 50 := tmod_within x (by decide)
  cases v <;> simp only [Variant.value] <;> omega

theorem eval_word (h : Nat) (helper : Option Int) {n : Nat} (hn : n ≤ 1000) :
    (Term.word n).eval h helper = some (n : Int) :=
  checked_of_fits (fits_of_small (by omega))

theorem eval_group (h : Nat) (helper : Option Int) (a : Term) :
    (Term.group a).eval h helper = a.eval h helper := rfl

theorem eval_hash_mod (h : Nat) (helper : Option Int) {n : Nat} (h0 : n ≠ 0) (hn : n ≤ 1000) :
    (Term.mod .hash (.word n)).eval h helper = some ((signed h).tmod n) := by
  have hz : (n : Int) ≠ 0 := by omega
  simp only [Term.eval, checked_of_fits (fits_of_small (i := n) (by omega)), Option.bind_eq_bind,
    Option.bind_some, hz, if_false]

/-- The helper has a value for every hash: no operation in it overflows. -/
theorem eval_body (v : Variant) (h : Nat) : v.body.eval h none = some (v.value (signed h)) := by
  have hfit : checked (v.value (signed h)) = some (v.value (signed h)) :=
    checked_of_fits (fits_of_small (value_small v _))
  cases v with
  | positive =>
    rw [Variant.body, Term.eval, eval_hash_mod h none (by decide) (by decide),
      eval_word h none (by decide)]
    exact hfit
  | negative =>
    rw [Variant.body, Term.eval, eval_group, eval_hash_mod h none (by decide) (by decide),
      eval_word h none (by decide)]
    exact hfit
  | even =>
    rw [Variant.body, Term.eval, eval_group, eval_hash_mod h none (by decide) (by decide),
      eval_word h none (by decide)]
    exact hfit

/-! ## The truth of the predicate -/

/-- What a variant asks of the value of its helper. -/
def Variant.Asks : Variant → Int → Prop
  | .positive, y => 10 < y
  | .negative, y => y < -10
  | .even, y => y.tmod 2 = 0

instance : (v : Variant) → (y : Int) → Decidable (v.Asks y)
  | .positive, y => inferInstanceAs (Decidable (10 < y))
  | .negative, y => inferInstanceAs (Decidable (y < -10))
  | .even, y => inferInstanceAs (Decidable (y.tmod 2 = 0))

/-- The condition has a truth value for every value of the helper. -/
theorem eval_test (v : Variant) (h : Nat) (y : Int) :
    v.test.eval h (some y) = some (decide (v.Asks y)) := by
  cases v with
  | positive => rfl
  | negative => rfl
  | even => rfl

/-- The hashes that the condition of a variant does not hold for: with the
positive variant those that are negative numbers and whose distance to zero
leaves ten or more by a hundred. -/
def Variant.Misses (v : Variant) (hash : BitVec 256) : Prop :=
  v = .positive ∧ hash.msb = true ∧ 10 ≤ (-hash).toNat % 100

instance (v : Variant) (hash : BitVec 256) : Decidable (v.Misses hash) :=
  inferInstanceAs (Decidable (_ ∧ _ ∧ _))

theorem asks_value_iff (v : Variant) (hash : BitVec 256) :
    v.Asks (v.value hash.toInt) ↔ ¬ v.Misses hash := by
  cases v with
  | positive =>
    simp only [Variant.Asks, Variant.value, Variant.Misses, true_and, toInt_tmod]
    cases hash.msb with
    | true =>
      simp only [if_true, true_and]
      omega
    | false =>
      simp only [Bool.false_eq_true, if_false, false_and, not_false_eq_true, iff_true]
      omega
  | negative =>
    have hm : ¬ Variant.negative.Misses hash := fun h => nomatch h.1
    have hr : -100 < hash.toInt.tmod 100 ∧ hash.toInt.tmod 100 < 100 := tmod_within _ (by decide)
    simp only [Variant.Asks, Variant.value, hm, not_false_eq_true, iff_true]
    omega
  | even =>
    have hm : ¬ Variant.even.Misses hash := fun h => nomatch h.1
    simp only [Variant.Asks, Variant.value, hm, not_false_eq_true, iff_true]
    exact Int.mul_tmod_left _ _

/-- The value of `a && b`: the right side is looked at only if the left one is
true. -/
def conjunction (a b : Option Bool) : Option Bool := do
  if ← a then b else return false

theorem conjunction_true (a : Option Bool) : conjunction a (some true) = a := by
  rcases a with - | - | - <;> rfl

/-- **The exact truth of an opaque predicate.** For every variant and every
hash the helper has a value that fits. The condition is false on the hashes that
the variant misses and true on all others, so that any condition of a source
keeps its value in front of it exactly if the hash is not missed. -/
theorem holds_exactly (v : Variant) (hash : BitVec 256) :
    (∃ y, v.body.eval hash.toNat none = some y ∧ fits y) ∧
      v.holds hash.toNat = some (decide (¬ v.Misses hash)) ∧
      ((∀ cond, conjunction cond (v.holds hash.toNat) = cond) ↔ ¬ v.Misses hash) := by
  have hbody := eval_body v hash.toNat
  have hholds : v.holds hash.toNat = some (decide (¬ v.Misses hash)) := by
    rw [Variant.holds, hbody, eval_test, signed_toNat]
    simp only [asks_value_iff]
  refine ⟨⟨_, hbody, fits_of_small (value_small v _)⟩, hholds, ?_⟩
  rw [hholds]
  by_cases hm : v.Misses hash
  · simp only [hm, not_true_eq_false, decide_false, iff_false]
    intro hall
    exact absurd (hall (some true)) (by decide)
  · simp only [hm, not_false_eq_true, decide_true, iff_true]
    exact conjunction_true

/-- Ten below zero is a hash that the positive variant misses: the helper gives
ten, which is not above ten. -/
theorem positive_misses_ten_below_zero :
    Variant.positive.body.eval (-10#256).toNat none = some 10 ∧
      Variant.positive.holds (-10#256).toNat = some false := by
  decide

end Obscura.Flow
