import Obscura.Literal.Truth
import Obscura.Proofs.Expression.Value

/-
  What drawn formulas stand for. A formula is read as its tree, whose value is
  reckoned with strict integers: nothing is divided by zero, bits are those of
  numbers that are not negative, and both sides of a connective have a value. Then
  every formula drawn for a truth value has that value.
-/

namespace Obscura.Literal

open Number Expression Term

/-! ## Strict integer arithmetic -/

inductive Datum where
  | int (i : Int)
  | truth (b : Bool)
deriving Repr, DecidableEq

def operate : Sign → Int → Int → Option Datum
  | .plus, i, j => some (.int (i + j))
  | .minus, i, j => some (.int (i - j))
  | .times, i, j => some (.int (i * j))
  | .divide, i, j => if j = 0 then none else some (.int (i.tdiv j))
  | .modulo, i, j => if j = 0 then none else some (.int (i.tmod j))
  | .left, i, j => if 0 ≤ i ∧ 0 ≤ j then some (.int (i.toNat <<< j.toNat : Nat)) else none
  | .right, i, j => if 0 ≤ i ∧ 0 ≤ j then some (.int (i.toNat >>> j.toNat : Nat)) else none
  | .bitAnd, i, j => if 0 ≤ i ∧ 0 ≤ j then some (.int (i.toNat &&& j.toNat : Nat)) else none
  | .bitOr, i, j => if 0 ≤ i ∧ 0 ≤ j then some (.int (i.toNat ||| j.toNat : Nat)) else none
  | .bitXor, i, j => if 0 ≤ i ∧ 0 ≤ j then some (.int (i.toNat ^^^ j.toNat : Nat)) else none
  | .equal, i, j => some (.truth (decide (i = j)))
  | .unequal, i, j => some (.truth (decide (i ≠ j)))
  | .less, i, j => some (.truth (decide (i < j)))
  | .greater, i, j => some (.truth (decide (j < i)))
  | .atMost, i, j => some (.truth (decide (i ≤ j)))
  | .atLeast, i, j => some (.truth (decide (j ≤ i)))
  | _, _, _ => none

def connect : Sign → Bool → Bool → Option Datum
  | .both, a, b => some (.truth (a && b))
  | .either, a, b => some (.truth (a || b))
  | .equal, a, b => some (.truth (a == b))
  | .unequal, a, b => some (.truth (a != b))
  | _, _, _ => none

/-- The value of an expression, if all of its parts have one. -/
def arithmetic : Meaning (Option Datum) where
  number ds := some (.int (numeral ds))
  before m x :=
    match m, x with
    | .minus, some (.int i) => some (.int (-i))
    | .negation, some (.truth b) => some (.truth !b)
    | _, _ => none
  behind _ _ := none
  apply _ _ _ := none
  binary m x y :=
    match x, y with
    | some (.int i), some (.int j) => operate m i j
    | some (.truth a), some (.truth b) => connect m a b
    | _, _ => none
  choice c x y :=
    match c, x, y with
    | some (.truth b), some x, some y => some (if b then x else y)
    | _, _, _ => none

/-! ## Formulas as trees -/

def Operation.token : Operation → Sign
  | .add => .plus
  | .sub => .minus
  | .mul => .times
  | .div => .divide
  | .mod => .modulo
  | .shiftLeft => .left
  | .shiftRight => .right
  | .and => .bitAnd
  | .or => .bitOr
  | .xor => .bitXor

def Comparison.token : Comparison → Sign
  | .eq => .equal
  | .ge => .atLeast
  | .lt => .less
  | .gt => .greater

def levelOf (m : Sign) : Nat :=
  m.level?.getD 0

/-- Operands of these levels can stand beside the sign without brackets. -/
def fitsBeside (m : Sign) (j k : Nat) : Bool :=
  leftNeed (levelOf m) ≤ j && rightNeed (levelOf m) ≤ k

namespace Term

def tree : Term → Expr
  | .num i =>
    if i < 0 then .before .minus (.number (digits i.natAbs)) else .number (digits i.natAbs)
  | .op o a b => .binary o.token a.tree b.tree
  | .group a => .group a.tree
  | .padded a => a.tree

def items : Term → List Item
  | .num i =>
    if i < 0 then [.sign .minus, .number (digits i.natAbs)] else [.number (digits i.natAbs)]
  | .op o a b => a.items ++ .blank ' ' :: .sign o.token :: .blank ' ' :: b.items
  | .group a => .sign .openRound :: (a.items ++ [.sign .closeRound])
  | .padded a => .blank ' ' :: a.items

def level : Term → Nat
  | .num _ => prefixLevel
  | .op o _ _ => levelOf o.token
  | .group _ => wholeLevel
  | .padded a => a.level

/-- No part of the term would be read otherwise than it is built. -/
def fits : Term → Bool
  | .num _ => true
  | .op o a b => fitsBeside o.token a.level b.level && (a.fits && b.fits)
  | .group a => a.fits
  | .padded a => a.fits

end Term

namespace Formula

def tree : Formula → Expr
  | .compare o a b => .binary o.token a.tree b.tree
  | .both a b => .binary .both a.tree b.tree
  | .either a b => .binary .either a.tree b.tree
  | .group a => .group a.tree

def items : Formula → List Item
  | .compare o a b => a.items ++ .blank ' ' :: .sign o.token :: .blank ' ' :: b.items
  | .both a b => a.items ++ .blank ' ' :: .sign .both :: .blank ' ' :: b.items
  | .either a b => a.items ++ .blank ' ' :: .sign .either :: .blank ' ' :: b.items
  | .group a => .sign .openRound :: (a.items ++ [.sign .closeRound])

def level : Formula → Nat
  | .compare o _ _ => levelOf o.token
  | .both _ _ => levelOf .both
  | .either _ _ => levelOf .either
  | .group _ => wholeLevel

def fits : Formula → Bool
  | .compare o a b => fitsBeside o.token a.level b.level && (a.fits && b.fits)
  | .both a b => fitsBeside .both a.level b.level && (a.fits && b.fits)
  | .either a b => fitsBeside .either a.level b.level && (a.fits && b.fits)
  | .group a => a.fits

end Formula

/-! ## Reading formulas -/

theorem leveled_binary {m : Sign} {l j j' k : Nat} {a b : Expr} (hm : m.level? = some l)
    (hk : k ≤ l) (h : fitsBeside m j j') (ha : ∀ i, i ≤ j → a.Leveled i)
    (hb : ∀ i, i ≤ j' → b.Leveled i) : (Expr.binary m a b).Leveled k := by
  simp only [fitsBeside, levelOf, hm, Option.getD_some, Bool.and_eq_true, decide_eq_true_eq] at h
  exact ⟨l, hm, hk, ha _ h.1, hb _ h.2⟩

theorem Operation.level?_token (o : Operation) : o.token.level? = some (levelOf o.token) := by
  cases o <;> rfl

theorem Comparison.level?_token (o : Comparison) : o.token.level? = some (levelOf o.token) := by
  cases o <;> rfl

theorem Term.leveled {t : Term} (h : t.fits) {k : Nat} (hk : k ≤ t.level) :
    t.tree.Leveled k := by
  induction t generalizing k with
  | num i =>
    rw [tree]
    split
    · exact ⟨rfl, hk, trivial⟩
    · trivial
  | op o a b iha ihb =>
    rw [fits, Bool.and_eq_true, Bool.and_eq_true] at h
    exact leveled_binary o.level?_token hk h.1 (fun i => iha h.2.1) fun i => ihb h.2.2
  | group a ih => exact ih h (Nat.zero_le _)
  | padded a ih => exact ih h hk

theorem Formula.leveled {f : Formula} (h : f.fits) {k : Nat} (hk : k ≤ f.level) :
    f.tree.Leveled k := by
  induction f generalizing k with
  | compare o a b =>
    rw [Formula.fits, Bool.and_eq_true, Bool.and_eq_true] at h
    exact leveled_binary o.level?_token hk h.1 (fun i => Term.leveled h.2.1) fun i =>
      Term.leveled h.2.2
  | both a b iha ihb =>
    rw [Formula.fits, Bool.and_eq_true, Bool.and_eq_true] at h
    exact leveled_binary rfl hk h.1 (fun i => iha h.2.1) fun i => ihb h.2.2
  | either a b iha ihb =>
    rw [Formula.fits, Bool.and_eq_true, Bool.and_eq_true] at h
    exact leveled_binary rfl hk h.1 (fun i => iha h.2.1) fun i => ihb h.2.2
  | group a ih => exact ih h (Nat.zero_le _)

theorem Term.steady_items (t : Term) : Steady t.items := by
  induction t with
  | num i =>
    rw [items]
    split
    · exact .minus (digits_ne_nil _) (isDigit_digits _)
    · exact steady_digits _
  | op o a b iha ihb => exact iha.operator ihb o.token
  | group a ih => exact ih.group
  | padded a ih => exact fun rest hl hrest => ⟨rfl, rfl, ih rest hl hrest⟩

theorem Formula.steady_items (f : Formula) : Steady f.items := by
  induction f with
  | compare o a b => exact a.steady_items.operator b.steady_items o.token
  | both a b iha ihb => exact iha.operator ihb .both
  | either a b iha ihb => exact iha.operator ihb .either
  | group a ih => exact ih.group

theorem Operation.sign_eq (o : Operation) : o.sign = ' ' :: (o.token.text ++ [' ']) := by
  cases o <;> rfl

theorem Comparison.sign_eq (o : Comparison) : o.sign = ' ' :: (o.token.text ++ [' ']) := by
  cases o <;> rfl

theorem Term.text_items (t : Term) : textOf t.items = t.text := by
  induction t with
  | num i =>
    rw [items, text, render]
    split <;> simp [textOf, Item.text, Sign.text]
  | op o a b iha ihb => rw [items, textOf_operator, iha, ihb, ← o.sign_eq]; rfl
  | group a ih => rw [items, textOf_group, ih]; rfl
  | padded a ih => rw [items, textOf_cons, ih]; rfl

theorem Formula.text_items (f : Formula) : textOf f.items = f.text := by
  induction f with
  | compare o a b =>
    rw [Formula.items, textOf_operator, a.text_items, b.text_items, ← o.sign_eq]
    rfl
  | both a b iha ihb => rw [Formula.items, textOf_operator, iha, ihb]; rfl
  | either a b iha ihb => rw [Formula.items, textOf_operator, iha, ihb]; rfl
  | group a ih => rw [Formula.items, textOf_group, ih]; rfl

theorem Term.tokens_items (t : Term) : tokensOf t.items = t.tree.tokens := by
  induction t with
  | num i =>
    rw [items, tree]
    split <;> rfl
  | op o a b iha ihb => exact tokensOf_operator iha ihb
  | group a ih => exact tokensOf_group ih
  | padded a ih => exact ih

theorem Formula.tokens_items (f : Formula) : tokensOf f.items = f.tree.tokens := by
  induction f with
  | compare o a b => exact tokensOf_operator a.tokens_items b.tokens_items
  | both a b iha ihb => exact tokensOf_operator iha ihb
  | either a b iha ihb => exact tokensOf_operator iha ihb
  | group a ih => exact tokensOf_group ih

theorem Formula.read?_text {f : Formula} (h : f.fits) : read? f.text = some f.tree := by
  refine read?_eq_some_iff.2 ⟨f.items, f.text_items, ?_, f.tokens_items, leveled h (Nat.zero_le _)⟩
  have := f.steady_items [] trivial nofun
  rwa [List.append_nil] at this

theorem Term.names_tree (t : Term) : t.tree.names = [] := by
  induction t with
  | num i =>
    rw [tree]
    split <;> rfl
  | op o a b iha ihb => rw [tree, Expr.names, iha, ihb]; rfl
  | group a ih => exact ih
  | padded a ih => exact ih

theorem Formula.names_tree (f : Formula) : f.tree.names = [] := by
  induction f with
  | compare o a b => rw [Formula.tree, Expr.names, a.names_tree, b.names_tree]; rfl
  | both a b iha ihb => rw [Formula.tree, Expr.names, iha, ihb]; rfl
  | either a b iha ihb => rw [Formula.tree, Expr.names, iha, ihb]; rfl
  | group a ih => exact ih

/-! ## Values of formulas -/

def Term.Is (t : Term) (i : Int) : Prop :=
  ∀ env, t.tree.value arithmetic env = some (.int i)

def Formula.Is (f : Formula) (b : Bool) : Prop :=
  ∀ env, f.tree.value arithmetic env = some (.truth b)

theorem Term.is_num (i : Int) : (num i).Is i := by
  intro env
  rw [tree]
  split
  · rename_i h
    show some (Datum.int (-(numeral (digits i.natAbs) : Int))) = some (.int i)
    rw [numeral_digits, show -(i.natAbs : Int) = i by omega]
  · rename_i h
    show some (Datum.int (numeral (digits i.natAbs) : Int)) = some (.int i)
    rw [numeral_digits, show (i.natAbs : Int) = i by omega]

section Rules

variable {a b : Term} {x y z : Int} {f g : Formula} {t u : Bool}

theorem Term.Is.op (ha : a.Is x) (hb : b.Is y) {o : Operation}
    (h : operate o.token x y = some (.int z)) : (op o a b).Is z := by
  intro env
  rw [tree, Expr.value, ha env, hb env]
  exact h

theorem Term.Is.grouped (ha : a.Is x) (hb : b.Is y) {o : Operation}
    (h : operate o.token x y = some (.int z)) : (grouped o a b).Is z :=
  ha.op hb h

theorem Term.Is.compared (ha : a.Is x) (hb : b.Is y) {o : Comparison}
    (h : operate o.token x y = some (.truth t)) : (compared o a b).Is t := by
  intro env
  show arithmetic.binary o.token (a.tree.value arithmetic env) (b.tree.value arithmetic env) = _
  rw [ha env, hb env]
  exact h

theorem Formula.Is.group (hf : f.Is t) : (Formula.group f).Is t :=
  hf

theorem Formula.Is.both (hf : f.Is t) (hg : g.Is u) : (Formula.both f g).Is (t && u) := by
  intro env
  rw [Formula.tree, Expr.value, hf env, hg env]
  rfl

theorem Formula.Is.either (hf : f.Is t) (hg : g.Is u) : (Formula.either f g).Is (t || u) := by
  intro env
  rw [Formula.tree, Expr.value, hf env, hg env]
  rfl

theorem Formula.Is.of_eq (hf : f.Is t) (h : t = u) : f.Is u :=
  h ▸ hf

end Rules

section Builders

variable {a b j s v : Int} {p q r : Formula} {t u : Bool}

theorem is_product : (grouped .mul (.num a) (.num b)).Is (a * b) :=
  (is_num a).grouped (is_num b) rfl

theorem is_remainder (hb : 1 ≤ b) : (grouped .mod (.num a) (.num b)).Is (a.tmod b) :=
  (is_num a).grouped (is_num b) (if_neg (by omega))

theorem is_quotient (hb : 1 ≤ b) :
    (grouped .div (grouped .mul (.num a) (.num b)) (.num b)).Is a := by
  have hdiv : operate Operation.div.token (a * b) b = some (.int ((a * b).tdiv b)) :=
    if_neg (by omega)
  rw [Int.mul_tdiv_cancel a (by omega)] at hdiv
  exact is_product.grouped (is_num b) hdiv

theorem is_multiple (hb : 1 ≤ b) :
    (grouped .mod (grouped .mul (.num a) (.num b)) (.num b)).Is 0 := by
  have hmod : operate Operation.mod.token (a * b) b = some (.int ((a * b).tmod b)) :=
    if_neg (by omega)
  rw [Int.mul_tmod_left] at hmod
  exact is_product.grouped (is_num b) hmod

theorem sumIs_is : (sumIs a b s).Is (decide (a + b = s)) :=
  ((is_num a).grouped (is_num b) rfl).compared (is_num s) rfl

theorem sumIs_holds : (sumIs a b (a + b)).Is true :=
  sumIs_is.of_eq (decide_eq_true rfl)

theorem sumIs_fails {s : Int} (h : a + b ≠ s) : (sumIs a b s).Is false :=
  sumIs_is.of_eq (decide_eq_false h)

theorem productReaches_is : (productReaches a b v).Is (decide (v ≤ a * b)) :=
  is_product.compared (is_num v) rfl

theorem remainderBelow_holds (hb : 1 ≤ b) : (remainderBelow a b).Is true :=
  ((is_remainder hb).compared (is_num b) rfl).of_eq
    (decide_eq_true (Int.tmod_lt_of_pos a (by omega)))

theorem remainderAbove_fails (hb : 1 ≤ b) : (remainderAbove a b).Is false :=
  ((is_remainder hb).compared (is_num b) rfl).of_eq
    (decide_eq_false (Int.not_lt.2 (Int.le_of_lt (Int.tmod_lt_of_pos a (by omega)))))

theorem selfAnd_is (ha : 1 ≤ a) : (selfIs .and a v).Is (decide (a = v)) := by
  have hand : operate Operation.and.token a a = some (.int a) := by
    rw [show operate Operation.and.token a a = _ from if_pos (by omega), Nat.and_self,
      Int.toNat_of_nonneg (by omega)]
  exact ((is_num a).grouped (is_num a) hand).compared (is_num v) rfl

theorem selfAnd_holds (ha : 1 ≤ a) : (selfIs .and a a).Is true :=
  (selfAnd_is ha).of_eq (decide_eq_true rfl)

theorem selfXor_is (ha : 1 ≤ a) : (selfIs .xor a v).Is (decide (0 = v)) := by
  have hxor : operate Operation.xor.token a a = some (.int 0) := by
    rw [show operate Operation.xor.token a a = _ from if_pos (by omega), Nat.xor_self]
    rfl
  exact ((is_num a).grouped (is_num a) hxor).compared (is_num v) rfl

theorem shiftedBackIs_is (ha : 1 ≤ a) : (shiftedBackIs a v).Is (decide (a = v)) := by
  have hleft : operate Operation.shiftLeft.token a 1 = some (.int ((a.toNat <<< 1 : Nat))) :=
    if_pos (by omega)
  have hright : ∀ i : Int, 0 ≤ i →
      operate Operation.shiftRight.token i 1 = some (.int ((i.toNat >>> 1 : Nat))) :=
    fun i hi => if_pos ⟨hi, by decide⟩
  have hback := hright _ (Int.natCast_nonneg (a.toNat <<< 1))
  rw [Int.toNat_natCast, Nat.shiftLeft_shiftRight, Int.toNat_of_nonneg (by omega)] at hback
  exact (((is_num a).grouped (is_num 1) hleft).grouped (is_num 1) hback).compared
    (is_num v) rfl

theorem triple_of_first (hp : p.Is true) (hq : q.Is true) (hr : r.Is t) : (triple p q r).Is true :=
  (hp.both hq).group.either hr

theorem triple_of_last (hp : p.Is t) (hq : q.Is u) (hr : r.Is true) : (triple p q r).Is true :=
  ((hp.both hq).group.either hr).of_eq (Bool.or_true _)

theorem triple_fails (hp : p.Is false) (hq : q.Is u) (hr : r.Is false) : (triple p q r).Is false :=
  (hp.both hq).group.either hr

theorem evident_holds (hb : 1 ≤ b) : (evident a b).Is true :=
  triple_of_last sumIs_is productReaches_is (remainderBelow_holds hb)

theorem absurdity_fails (hb : 1 ≤ b) {i : Int} (hi : 1 ≤ i) :
    (absurdity a b i j).Is false :=
  triple_fails (sumIs_fails (by omega)) productReaches_is (remainderAbove_fails hb)

end Builders

/-! ## Draws -/

/-- Whatever is drawn, the result has the property. -/
def Yields {α : Type} (m : Sampled α) (P : α → Prop) : Prop :=
  ∀ d, P (m d).1

theorem Yields.bind {α β : Type} {m : Sampled α} {f : α → Sampled β} {P : α → Prop} {Q : β → Prop}
    (hm : Yields m P) (hf : ∀ x, P x → Yields (f x) Q) : Yields (m >>= f) Q :=
  fun d => hf _ (hm d) _

theorem Yields.pure {α : Type} {x : α} {P : α → Prop} (h : P x) : Yields (pure x : Sampled α) P :=
  fun _ => h

theorem yields_upToDraw (n : Nat) : Yields (upToDraw n) (1 ≤ ·) := by
  intro d
  show (1 : Int) ≤ ((Sampled.below n d).1 + 1 : Nat)
  omega

/-- A formula in brackets that is read as it is built, and has the truth value. -/
structure Sound (t : Bool) (f : Formula) : Prop where
  fits : f.fits = true
  bracketed : ∃ g, f = .group g
  value : f.Is t

theorem sound_group {t : Bool} {f : Formula} (h : f.fits = true ∧ f.Is t) : Sound t (.group f) :=
  ⟨h.1, ⟨f, rfl⟩, h.2.group⟩

theorem yields_oneDraw {t : Bool} {m : Nat} {f : Int → Formula}
    (h : ∀ a, 1 ≤ a → (f a).fits = true ∧ (f a).Is t) :
    Yields (upToDraw m >>= fun a => pure (.group (f a))) (Sound t) :=
  (yields_upToDraw m).bind fun a ha => .pure (sound_group (h a ha))

theorem yields_twoDraws {t : Bool} {m n : Nat} {f : Int → Int → Formula}
    (h : ∀ a, 1 ≤ a → ∀ b, 1 ≤ b → (f a b).fits = true ∧ (f a b).Is t) :
    Yields (upToDraw m >>= fun a => upToDraw n >>= fun b => pure (.group (f a b))) (Sound t) :=
  (yields_upToDraw m).bind fun a ha => yields_oneDraw (h a ha)

theorem yields_trueFormula : Yields trueFormula (Sound true) := by
  unfold trueFormula
  refine Yields.bind (P := fun _ => True) (fun _ => trivial) fun v _ => ?_
  split
  · exact yields_twoDraws fun a ha b hb => ⟨rfl, evident_holds hb⟩
  · exact yields_twoDraws fun a ha b hb => ⟨rfl, triple_of_last
      (((is_num a).grouped (is_num b) rfl).compared (is_num _) rfl)
      (((is_remainder hb).grouped (is_num b) rfl).compared (is_num _) rfl)
      (((is_quotient hb).compared (is_num a) rfl).of_eq (decide_eq_true rfl))⟩
  · refine yields_oneDraw fun a ha => ?_
    have hor : operate Operation.or.token a (a + 1) =
        some (.int ((a.toNat ||| (a + 1).toNat : Nat))) := if_pos (by omega)
    exact ⟨rfl, triple_of_first ((shiftedBackIs_is ha).of_eq (decide_eq_true rfl))
      (selfAnd_holds ha)
      (((is_num a).grouped (is_num (a + 1)) hor).compared (is_num (a + 1)) rfl)⟩
  · exact yields_twoDraws fun a ha b hb => ⟨rfl,
      (((is_multiple hb).compared (is_num 0) rfl).of_eq (decide_eq_true rfl)).both
        (sumIs_holds.either (selfXor_is ha))⟩
  · exact (yields_upToDraw _).bind fun a ha => yields_twoDraws fun b hb c hc => ⟨rfl, (triple_of_last
      ((Term.Is.grouped (is_num a) (is_num b) rfl).compared (is_num _) rfl)
      ((is_product.grouped (is_num b) rfl).compared
        (((is_num b).op (is_num c) rfl).grouped (is_num b) rfl) rfl)
      (remainderBelow_holds ha)).both (selfAnd_holds ha)⟩
  · exact yields_twoDraws fun a ha b hb => ⟨rfl, (evident_holds hb).either (selfAnd_is hb)⟩
  · exact yields_twoDraws fun a ha b hb => ⟨rfl, (evident_holds (by omega)).either (evident_holds ha)⟩
  · exact yields_twoDraws fun a ha b hb => ⟨rfl, (evident_holds hb).both
      (((((is_num a).op (is_num b) rfl).grouped (is_num b) rfl).compared
        (is_num a) rfl).of_eq (decide_eq_true (Int.add_sub_cancel a b)))⟩
  · exact yields_twoDraws fun a ha b hb => ⟨rfl,
      ((((is_remainder hb).compared (is_num 0) rfl).either
      ((shiftedBackIs_is ha).of_eq (decide_eq_true rfl))).of_eq (Bool.or_true _)).both
        sumIs_holds⟩
  · exact (yields_upToDraw _).bind fun a ha => yields_twoDraws fun b hb c hc => ⟨rfl,
      triple_of_last sumIs_is productReaches_is (remainderBelow_holds ha)⟩
  · exact yields_twoDraws fun a ha b hb => ⟨rfl,
      ((selfXor_is ha).either sumIs_holds).of_eq (Bool.or_true _)⟩
  · exact yields_twoDraws fun a ha b hb => ⟨rfl, evident_holds hb⟩

theorem yields_falseFormula : Yields falseFormula (Sound false) := by
  unfold falseFormula
  refine Yields.bind (P := fun _ => True) (fun _ => trivial) fun v _ => ?_
  split
  · exact yields_oneDraw fun a ha => ⟨rfl, (sumIs_fails (by omega)).both
      ((is_quotient (by decide)).compared (is_num a) rfl)⟩
  · exact yields_twoDraws fun a ha b hb => ⟨rfl, absurdity_fails hb (by decide)⟩
  · exact yields_twoDraws fun a ha b _ => ⟨rfl,
      (shiftedBackIs_is ha).of_eq (decide_eq_false (by omega))⟩
  · exact yields_twoDraws fun a ha b hb => ⟨rfl, (is_multiple hb).compared (is_num 1) rfl⟩
  · refine (yields_upToDraw 8).bind fun a ha => (yields_upToDraw 12).bind fun b _ =>
      yields_trueFormula.bind fun f hf => .pure ?_
    exact ⟨hf.fits, ⟨_, rfl⟩, (sumIs_fails (by omega)).both hf.value⟩
  · exact yields_oneDraw fun a ha => ⟨rfl,
      (((is_product.grouped (is_num 1) rfl).compared is_product rfl).of_eq
        (decide_eq_false (by omega))).both (selfXor_is ha)⟩
  · exact yields_twoDraws fun a ha b hb => ⟨rfl,
      (absurdity_fails (by omega) (by decide)).both (absurdity_fails ha (by decide))⟩
  · exact (yields_upToDraw _).bind fun a ha => yields_twoDraws fun b hb c hc => ⟨rfl,
      ((selfAnd_is ha).of_eq (decide_eq_false (by omega))).either
      (sumIs_fails (by omega))⟩
  · exact yields_oneDraw fun a ha => ⟨rfl,
      (((is_remainder (by omega)).compared (is_num a) rfl).both
      (sumIs_fails (by omega))).of_eq (Bool.and_false _)⟩
  · exact yields_twoDraws fun a ha b hb => ⟨rfl, ((is_product.compared (is_num _) rfl).of_eq
      (decide_eq_false (by omega))).both (selfAnd_is (by omega))⟩
  · exact yields_twoDraws fun a ha b hb => ⟨rfl, (((is_num a).grouped (is_num b) rfl).compared
      (is_num _) rfl).of_eq (decide_eq_false (by omega))⟩
  · exact yields_twoDraws fun a ha b hb => ⟨rfl,
      (((is_product.grouped (is_num 1) rfl).compared is_product rfl).of_eq
        (decide_eq_false (by omega))).either (sumIs_fails (by omega))⟩

/-- **Drawn formulas have their truth value.** -/
theorem yields_truthFormula (t : Bool) : Yields (truthFormula t) (Sound t) := by
  cases t with
  | false => exact yields_falseFormula
  | true => exact yields_trueFormula

end Obscura.Literal
