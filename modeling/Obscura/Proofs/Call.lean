import Obscura.Proofs.Expression.Substitution
import Obscura.Proofs.NestedCalls

/-
  Inlining of calls in expressions. A call is written over with the returned
  expression of its function, the arguments in the places of the parameters. The
  arguments get brackets of their own and the returned expression gets none, so the
  result is read as meant exactly where the returned expression binds as tightly as
  the place of the call asks for.
-/

namespace Obscura.Flow

open Text Ast Json Expression List

variable {as : List Expr} {w : Chars}

/-! ## Calls in expressions -/

/-- Items of an expression that a text can be cut into. -/
structure Written (is : List Item) (e : Expr) : Prop where
  lexed : Lexed is
  tokens : tokensOf is = e.tokens

/-- An argument of a call: its node, where it stands and how it is read. -/
structure Argument where
  members : Members
  start : Nat
  items : List Item
  tree : Expr

variable {a : Argument}

namespace Argument

/-- The argument is put in without brackets. -/
def isBare (a : Argument) : Bool :=
  isKind "Identifier" a.members || isKind "Literal" a.members

/-- The source holds the argument at its range. -/
structure Shown (s : Bytes) (a : Argument) : Prop where
  spans : Spans s (.obj a.members) a.start (Expression.textOf a.items)
  written : Written a.items a.tree
  leveled : a.tree.Leveled 1
  bare : a.isBare = true → (∃ w, a.tree = .name w) ∨ ∃ ds, a.tree = .number ds

def put (a : Argument) : List Item :=
  if a.isBare then a.items else .sign .openRound :: (a.items ++ [.sign .closeRound])

def putTree (a : Argument) : Expr :=
  if a.isBare then a.tree else .group a.tree

end Argument

/-- The call of a function with arguments. -/
def called (f : Chars) : List Expr → Expr
  | [] => .behind (.name f) .call
  | a :: as => .apply .round (.name f) (as.foldl (.binary .comma) a)

/-- A call in a text, with the function that it calls. -/
structure Call where
  site : CallSite
  callee : Chars
  written : List Item
  parameters : List Parameter
  arguments : List Argument
  /-- The position of the returned expression, its items and its tree. -/
  start : Nat
  returned : List Item
  tree : Expr

namespace Call

def names (c : Call) : List Chars :=
  c.parameters.map Parameter.name

/-- The argument for the name of a parameter. -/
def given (c : Call) (w : Chars) : Option Argument :=
  (named (c.names.zip c.arguments)).find w

def callTree (c : Call) : Expr :=
  called c.callee (c.arguments.map Argument.tree)

/-- The returned expression with the arguments in it. -/
def inlined (c : Call) : List Item :=
  fill (fun w => (c.given w).map Argument.put) c.returned

def inlinedTree (c : Call) : Expr :=
  c.tree.subst fun w => (c.given w).map Argument.putTree

/-- The name of the parameter that an item of the returned expression is. -/
def mark (c : Call) : Item → Option Chars
  | .name w => if (c.given w).isSome then some w else none
  | _ => none

/-- The items of the returned expression as bytes, those of parameters marked. -/
def parts (c : Call) : List (Bytes × Option Chars) :=
  c.returned.map fun i => (encode i.text, c.mark i)

def putText (c : Call) (w : Chars) : Chars :=
  Expression.textOf (((c.given w).map Argument.put).getD [])

/-- A name in the returned expression: it is that of a parameter and names its range,
or it is something else. -/
inductive Refers (c : Call) (ms : Members) : Option (Hole Chars) → Prop where
  | elsewhere {k : Key} (hk : (fieldOf "referencedDeclaration" ms).key = .ok k)
      (h : ∀ p ∈ c.parameters, p.id ≠ k) : Refers c ms none
  | parameter {p : Parameter} {h : Hole Chars} (hp : p ∈ c.parameters)
      (hk : (fieldOf "referencedDeclaration" ms).key = .ok p.id) (hname : h.what = p.name)
      (hr : rangeOf (.obj ms) = .ok ⟨(c.start + h.start : Nat), (c.start + h.stop : Nat)⟩) :
      Refers c ms (some h)

/-- The tree shows the call as it stands in the text: the ranges are those of the
nodes, and each place of a parameter in the returned expression has one name node. -/
structure Shown (s : Bytes) (c : Call) : Prop where
  parameters : ∃ v, (Json.obj c.site.target.function).need "parameters" = .ok v ∧
    v.need "parameters" = .ok (.arr (c.parameters.map Parameter.node))
  parameter : ∀ p ∈ c.parameters, p.Shown
  distinct : (c.parameters.map Parameter.id).Nodup
  arguments : c.site.node.need "arguments" = .ok (.arr (c.arguments.map fun a => .obj a.members))
  argument : ∀ a ∈ c.arguments, a.Shown s
  arity : c.arguments.length = c.parameters.length
  written : Written c.written c.callTree
  spans : Spans s (fieldOf "expression" c.site.target.statement) c.start (Expression.textOf c.returned)
  returned : Written c.returned c.tree
  leveled : c.tree.Leveled 0
  ascii : ∀ ch ∈ Expression.textOf c.returned, ch.toNat < 128
  uses : ∃ us, Forall₂ (Refers c)
      ((directNodes (fieldOf "expression" c.site.target.statement)).filter (isKind "Identifier")) us ∧
    (us.filterMap id).Perm (holesFrom 0 c.parts)

end Call

/-! ## The text of a call -/

section CallText

variable {s : Bytes} {c : Call}

def Argument.passed (a : Argument) : Passed :=
  ⟨a.members, a.start, Expression.textOf a.items⟩

theorem Argument.put_passed (a : Argument) : a.passed.put = Expression.textOf a.put := by
  rw [Argument.put]
  show (if a.isBare = true then _ else _) = _
  split
  · rfl
  · rw [textOf_group]
    rfl

/-- The call without the structure of its expressions. -/
def Call.use (c : Call) : Use :=
  ⟨c.site, c.parameters, c.arguments.map Argument.passed, c.start, c.returned.map fun i => (i.text, c.mark i)⟩

theorem Call.put_use (c : Call) (w : Chars) : c.use.put w = c.putText w := by
  have hfind := find_named_map (g := fun w : Chars => w) (fun _ _ h => h) Argument.passed
    (c.names.zip c.arguments) w
  have hzip : c.names.zip (c.arguments.map Argument.passed) =
      (c.names.zip c.arguments).map fun x => (x.1, x.2.passed) := by
    rw [zip_map_right]
    rfl
  show (((named (c.names.zip (c.arguments.map Argument.passed))).find w).map Passed.put).getD [] = _
  rw [hzip, hfind, putText, given]
  cases (named (c.names.zip c.arguments)).find w with
  | none => rfl
  | some a => exact a.put_passed

theorem Call.replaced_eq (c : Call) :
    replaced c.putText (c.returned.map fun i => (i.text, c.mark i)) = Expression.textOf c.inlined := by
  rw [replaced, flatMap_map, Expression.textOf, inlined, fill, flatMap_assoc]
  congr 1
  funext i
  cases i with
  | name w =>
    rw [mark, Item.filled]
    cases hg : c.given w with
    | none => exact (append_nil _).symm
    | some a =>
      show c.putText w = Expression.textOf a.put
      rw [putText, hg]
      rfl
  | blank ch => exact (append_nil _).symm
  | number ds => exact (append_nil _).symm
  | member w => exact (append_nil _).symm
  | sign m => exact (append_nil _).symm

theorem Call.inlined_use (c : Call) : c.use.inlined = Expression.textOf c.inlined := by
  rw [Use.inlined, funext c.put_use, ← c.replaced_eq]
  rfl

theorem Call.Refers.use {ms : Members} {o : Option (Hole Chars)} (h : c.Refers ms o) :
    c.use.Refers ms o := by
  cases h with
  | elsewhere hk hne => exact .elsewhere hk hne
  | parameter hp hk hname hr => exact .parameter hp hk hname hr

theorem Call.Shown.ascii_part (h : c.Shown s) :
    ∀ x ∈ c.use.returned, x.1 ≠ [] ∧ ∀ ch ∈ x.1, ch.toNat < 128 := by
  intro x hx
  obtain ⟨i, hi, rfl⟩ := mem_map.1 hx
  exact ⟨text_ne_nil_of_formed (h.returned.lexed.formed i hi),
    fun ch hch => h.ascii ch (mem_flatMap.2 ⟨i, hi, hch⟩)⟩

theorem Call.Shown.use (h : c.Shown s) : c.use.Shown s where
  parameters := h.parameters
  parameter := h.parameter
  distinct := h.distinct
  arguments := by
    rw [Call.use, map_map]
    exact h.arguments
  argument a ha := by
    obtain ⟨b, hb, rfl⟩ := mem_map.1 ha
    exact (h.argument b hb).spans
  arity := (length_map _).trans h.arity
  spans := by
    rw [Call.use, joined, flatMap_map]
    exact h.spans
  place x _ hx := h.ascii_part _ hx
  uses := by
    obtain ⟨us, hus, hperm⟩ := h.uses
    refine ⟨us, hus.imp fun _ _ ho => ho.use, ?_⟩
    rw [bytesOf, Call.use, map_map]
    exact hperm

end CallText

/-! ## The text of a source -/

/-- A source in stretches of text and calls. -/
inductive Stretch where
  | text (t : Chars)
  | call (c : Call)

variable {ss : List Stretch}

namespace Stretch

def old : Stretch → Chars
  | text t => t
  | call c => Expression.textOf c.written

/-- The stretch after inlining. -/
def new : Stretch → Chars
  | text t => t
  | call c => Expression.textOf c.inlined

def part : Stretch → Bytes × Option Call
  | text t => (encode t, none)
  | call c => (encode (Expression.textOf c.written), some c)

end Stretch

/-- The calls of the tree to functions that can be inlined are those of the source,
each in its place. No call stands inside of another one. -/
structure Described (tree : Json) (ss : List Stretch) : Prop where
  sites : ∃ known sites, inlinables tree = .ok known ∧ callSites known tree = .ok sites ∧
    sites.Perm ((holesFrom 0 (ss.map Stretch.part)).map fun h => h.what.site)
  placed : ∀ h ∈ holesFrom 0 (ss.map Stretch.part), rangeOf h.what.site.node = .ok ⟨h.start, h.stop⟩
  shown : ∀ c, .call c ∈ ss → c.Shown (encode (ss.flatMap Stretch.old))

theorem mem_of_hole {h : Hole Call} (hh : h ∈ holesFrom 0 (ss.map Stretch.part)) :
    .call h.what ∈ ss := by
  obtain ⟨-, u, hu, -⟩ := mem_holesFrom hh
  obtain ⟨x, hx, heq⟩ := mem_map.1 hu
  cases x with
  | text t => cases heq
  | call c =>
    cases heq
    exact hx

theorem tokens_ne_nil (e : Expr) : e.tokens ≠ [] := by
  cases e <;> simp [Expr.tokens, tokens_ne_nil]

theorem Written.text_ne_nil {is : List Item} {e : Expr} (h : Written is e) : Expression.textOf is ≠ [] := by
  intro htext
  cases is with
  | nil => exact tokens_ne_nil e h.tokens.symm
  | cons i is => exact text_ne_nil_of_formed h.lexed.1 (append_eq_nil_iff.1 htext).1

/-- The stretches as a nest with no call inside of another. -/
def nestOf : List Stretch → Nest
  | [] => .nil
  | .text t :: ss => .text t (nestOf ss)
  | .call c :: ss => .call c.use (.text (Expression.textOf c.written) .nil) (nestOf ss)

theorem old_nestOf : (nestOf ss).old = ss.flatMap Stretch.old := by
  induction ss with
  | nil => rfl
  | cons x ss ih =>
    cases x with
    | text t => exact congrArg (t ++ ·) ih
    | call c => exact congrArg₂ (· ++ ·) (append_nil _) ih

theorem new_nestOf : (nestOf ss).new = ss.flatMap Stretch.new := by
  induction ss with
  | nil => rfl
  | cons x ss ih =>
    cases x with
    | text t => exact congrArg (t ++ ·) ih
    | call c => exact congrArg₂ (· ++ ·) c.inlined_use ih

theorem even_nestOf : (nestOf ss).Even := by
  induction ss with
  | nil => trivial
  | cons x ss ih =>
    cases x with
    | text t => exact ih
    | call c => exact ⟨rfl, trivial, ih⟩

theorem led_nestOf (h : ∀ c, .call c ∈ ss → Expression.textOf c.written ≠ []) : (nestOf ss).Led := by
  induction ss with
  | nil => trivial
  | cons x ss ih =>
    have hrest := ih fun c hc => h c (.tail _ hc)
    cases x with
    | text t => exact hrest
    | call c => exact ⟨⟨_, _, rfl, h c mem_cons_self⟩, trivial, hrest⟩

theorem calls_nestOf (p : Nat) : (nestOf ss).calls p =
    (holesFrom p (ss.map Stretch.part)).map fun h => ⟨h.start, h.stop, h.what.use⟩ := by
  induction ss generalizing p with
  | nil => rfl
  | cons x ss ih =>
    cases x with
    | text t => exact ih _
    | call c =>
      have hlen : (encode (Expression.textOf c.written ++ [])).length =
          (encode (Expression.textOf c.written)).length := by rw [append_nil]
      rw [nestOf, Nest.calls, Nest.old, Nest.old, hlen, ih]
      rfl

/-- **What inlining writes.** -/
theorem inlineCallsWith_eq {tree : Json} (h : Described tree ss) :
    inlineCallsWith (ss.flatMap Stretch.old) tree = .ok (ss.flatMap Stretch.new) := by
  have hdescribed : (nestOf ss).Described tree := by
    refine ⟨?_, ?_, ?_, led_nestOf fun c hc => (h.shown c hc).written.text_ne_nil⟩
    all_goals rw [calls_nestOf]
    · rw [map_map]
      exact h.sites
    · exact forall_mem_map.2 h.placed
    · refine forall_mem_map.2 fun x hx => ?_
      have hx := h.shown x.what (mem_of_hole hx)
      rw [old_nestOf]
      exact ⟨hx.use, aligned_of_ascii fun y hy => (hx.ascii_part y hy).2⟩
  rw [← old_nestOf, ← new_nestOf]
  exact hdescribed.eq_new even_nestOf

/-! ## Trees of calls -/

section Trees

variable {s : Bytes}

theorem Argument.Shown.tokens_put (h : a.Shown s) : tokensOf a.put = a.putTree.tokens := by
  rw [Argument.put, Argument.putTree]
  split
  · exact h.written.tokens
  · exact tokensOf_group h.written.tokens

theorem Argument.Shown.formed_put (h : a.Shown s) : ∀ i ∈ a.put, i.Formed := by
  intro i hi
  rw [Argument.put] at hi
  split at hi
  · exact h.written.lexed.formed i hi
  · rcases mem_cons.1 hi with rfl | hi
    · trivial
    · rcases mem_append.1 hi with hi | hi
      · exact h.written.lexed.formed i hi
      · rw [mem_singleton.1 hi]
        trivial

theorem Argument.Shown.leveled_putTree (h : a.Shown s) (k : Nat) : a.putTree.Leveled k := by
  rw [Argument.putTree]
  split
  · rename_i hbare
    rcases h.bare hbare with ⟨w, hw⟩ | ⟨ds, hds⟩
    · rw [hw]
      trivial
    · rw [hds]
      trivial
  · show a.tree.Leveled 0
    exact h.leveled.mono (Nat.zero_le 1)

theorem Argument.value_putTree {D : Type} (M : Meaning D) (env : Chars → D) (a : Argument) :
    a.putTree.value M env = a.tree.value M env := by
  rw [Argument.putTree]
  split <;> rfl

variable {c : Call} {k : Nat}

theorem Call.mem_of_given (h : c.given w = some a) : a ∈ c.arguments :=
  (of_mem_zip (mem_of_find_named h)).2

theorem Call.Shown.tokens_inlined (h : c.Shown s) : tokensOf c.inlined = c.inlinedTree.tokens := by
  refine tokensOf_fill h.returned.tokens fun w _ => ?_
  cases hg : c.given w with
  | none => rfl
  | some a => exact congrArg some (h.argument a (c.mem_of_given hg)).tokens_put

theorem Call.Shown.formed_inlined (h : c.Shown s) : ∀ i ∈ c.inlined, i.Formed := by
  refine forall_mem_fill (fun i hi _ => h.returned.lexed.formed i hi) fun w ys _ hw => ?_
  obtain ⟨a, ha, rfl⟩ := Option.map_eq_some_iff.1 hw
  exact (h.argument a (c.mem_of_given ha)).formed_put

theorem Call.Shown.leveled_inlinedTree (h : c.Shown s) {k : Nat} :
    c.inlinedTree.Leveled k ↔ c.tree.Leveled k := by
  rw [Call.inlinedTree, Expr.leveled_subst]
  refine and_iff_left fun p _ x hx => ?_
  obtain ⟨a, ha, rfl⟩ := Option.map_eq_some_iff.1 hx
  exact (h.argument a (c.mem_of_given ha)).leveled_putTree p.1

theorem leveled_commas {a : Expr} (ha : a.Leveled 0) (has : ∀ b ∈ as, b.Leveled 1) :
    (as.foldl (.binary .comma) a).Leveled 0 := by
  induction as generalizing a with
  | nil => exact ha
  | cons b as ih =>
    exact ih ⟨0, rfl, Nat.le_refl 0, ha, has b mem_cons_self⟩ fun x hx => has x (.tail _ hx)

theorem leveled_called (f : Chars) (has : ∀ a ∈ as, a.Leveled 1) :
    (called f as).Leveled k := by
  cases as with
  | nil => exact ⟨nofun, trivial⟩
  | cons a as =>
    exact ⟨trivial, leveled_commas ((has a mem_cons_self).mono (Nat.zero_le 1))
      fun x hx => has x (.tail _ hx)⟩

theorem Call.Shown.leveled_callTree (h : c.Shown s) (k : Nat) : c.callTree.Leveled k := by
  refine leveled_called _ (fun x hx => ?_)
  obtain ⟨a, ha, rfl⟩ := mem_map.1 hx
  exact (h.argument a ha).leveled

end Trees

/-! ## What calls stand for -/

section Values

variable {D : Type} (M : Meaning D) (env : Chars → D)

def calledOn (f : D) : List D → D
  | [] => M.behind .call f
  | v :: vs => M.apply .round f (vs.foldl (M.binary .comma) v)

/-- The names with those of parameters bound to values. -/
def bound (ws : List Chars) (vs : List D) (w : Chars) : D :=
  ((named (ws.zip vs)).find w).getD (env w)

/-- The function stands for its returned expression, if its arguments do nothing but
have a value, and those of the call are such. -/
structure Call.Means (P : D → Prop) (c : Call) : Prop where
  calm : ∀ a ∈ c.arguments, P (a.tree.value M env)
  returns : ∀ vs : List D, vs.length = c.parameters.length → (∀ v ∈ vs, P v) →
    calledOn M (env c.callee) vs = c.tree.value M (bound env c.names vs)

theorem value_commas (a : Expr) :
    (as.foldl (.binary .comma) a).value M env =
      (as.map (Expr.value M env)).foldl (M.binary .comma) (a.value M env) := by
  induction as generalizing a with
  | nil => rfl
  | cons b as ih => exact ih _

theorem value_called (f : Chars) :
    (called f as).value M env = calledOn M (env f) (as.map (Expr.value M env)) := by
  cases as with
  | nil => rfl
  | cons a as =>
    rw [called, Expr.value, value_commas]
    rfl

theorem Call.value_inlinedTree (c : Call) :
    c.inlinedTree.value M env =
      c.tree.value M (bound env c.names (c.arguments.map fun a => a.tree.value M env)) := by
  rw [Call.inlinedTree, Expr.value_subst]
  congr 1
  funext w
  have hfind := find_named_map (g := fun w : Chars => w) (fun _ _ h => h)
    (fun a : Argument => a.tree.value M env) (c.names.zip c.arguments) w
  have hzip : c.names.zip (c.arguments.map fun a => a.tree.value M env) =
      (c.names.zip c.arguments).map fun x => (x.1, x.2.tree.value M env) := by
    rw [zip_map_right]
    rfl
  rw [bound, hzip, hfind, Expr.rebound, Call.given]
  cases (named (c.names.zip c.arguments)).find w with
  | none => rfl
  | some a => exact a.value_putTree M env

theorem Call.Means.value_eq {s : Bytes} {P : D → Prop} {c : Call} (hm : c.Means M env P)
    (h : c.Shown s) : c.inlinedTree.value M env = c.callTree.value M env := by
  rw [c.value_inlinedTree, Call.callTree, value_called, map_map]
  refine (hm.returns _ ?_ ?_).symm
  · rw [length_map, h.arity]
  · intro v hv
    obtain ⟨a, ha, rfl⟩ := mem_map.1 hv
    exact hm.calm a ha

end Values

/-! ## Expressions with calls -/

section Expressions

variable (calls : Chars → Option Call)

/-- An item of an expression, or the call in its place. -/
def stretchOf : Item → Stretch
  | .name w => (calls w).elim (.text w) .call
  | i => .text i.text

def calledItems (is : List Item) : List Item :=
  fill (fun w => (calls w).map Call.written) is

def inlinedItems (is : List Item) : List Item :=
  fill (fun w => (calls w).map Call.inlined) is

def calledTree (C : Expr) : Expr :=
  C.subst fun w => (calls w).map Call.callTree

def inlinedTree (C : Expr) : Expr :=
  C.subst fun w => (calls w).map Call.inlinedTree

variable {calls}

theorem stretchOf_of_call {c : Call} (hc : calls w = some c) : stretchOf calls (.name w) = .call c := by
  rw [stretchOf, hc]
  rfl

theorem flatMap_stretchOf {f : Call → List Item} {g : Stretch → Chars} (htext : ∀ t, g (.text t) = t)
    (hcall : ∀ c, g (.call c) = Expression.textOf (f c)) (is : List Item) :
    (is.map (stretchOf calls)).flatMap g = Expression.textOf (fill (fun w => (calls w).map f) is) := by
  rw [flatMap_map, Expression.textOf, fill, flatMap_assoc]
  congr 1
  funext i
  cases i with
  | name w =>
    rw [stretchOf, Item.filled]
    cases calls w with
    | none => exact (htext w).trans (append_nil _).symm
    | some c => exact hcall c
  | blank c => exact (htext _).trans (append_nil _).symm
  | number ds => exact (htext _).trans (append_nil _).symm
  | member w => exact (htext _).trans (append_nil _).symm
  | sign m => exact (htext _).trans (append_nil _).symm

variable {s : Bytes} {is : List Item} {C : Expr}
  (hshown : ∀ w c, .name w ∈ is → calls w = some c → c.Shown s)

include hshown

theorem tokensOf_calledItems (ht : tokensOf is = C.tokens) :
    tokensOf (calledItems calls is) = (calledTree calls C).tokens := by
  refine tokensOf_fill ht fun w hw => ?_
  cases hc : calls w with
  | none => rfl
  | some c => exact congrArg some (hshown w c hw hc).written.tokens

theorem tokensOf_inlinedItems (ht : tokensOf is = C.tokens) :
    tokensOf (inlinedItems calls is) = (inlinedTree calls C).tokens := by
  refine tokensOf_fill ht fun w hw => ?_
  cases hc : calls w with
  | none => rfl
  | some c => exact congrArg some (hshown w c hw hc).tokens_inlined

theorem formed_inlinedItems (hl : Lexed (calledItems calls is)) :
    ∀ i ∈ inlinedItems calls is, i.Formed := by
  refine forall_mem_fill (fun i hi hkept => hl.formed i ?_) fun w ys hw hys => ?_
  · refine mem_flatMap.2 ⟨i, hi, ?_⟩
    rw [filled_of_none fun w hw => ?_]
    · exact mem_singleton.2 rfl
    · exact Option.map_eq_none_iff.2 (Option.map_eq_none_iff.1 (hkept w hw))
  · obtain ⟨c, hc, rfl⟩ := Option.map_eq_some_iff.1 hys
    exact (hshown w c hw hc).formed_inlined

end Expressions

/-- **When inlining keeps the value of an expression.** An expression `C` has calls in
the places of some of its names. Each call is written over with what its function
returns. The new text is read as `C` with the returned expressions in it exactly if
each of them binds as tightly as its place asks for and no two items run together;
where the functions stand for what they return, this has the value of `C` with the
calls. -/
theorem inlineCallsWith_keeps_value_exactly {tree : Json} {us vs : List Stretch} {is : List Item}
    {C : Expr} {calls : Chars → Option Call}
    (h : Described tree (us ++ (is.map (stretchOf calls) ++ vs)))
    (hl : Lexed (calledItems calls is)) (ht : tokensOf is = C.tokens) (hC : C.Leveled 0) :
    read? (Expression.textOf (calledItems calls is)) = some (calledTree calls C) ∧
    inlineCallsWith (us.flatMap Stretch.old ++
        (Expression.textOf (calledItems calls is) ++ vs.flatMap Stretch.old)) tree =
      .ok (us.flatMap Stretch.new ++
        (Expression.textOf (inlinedItems calls is) ++ vs.flatMap Stretch.new)) ∧
    (read? (Expression.textOf (inlinedItems calls is)) = some (inlinedTree calls C) ↔
      Lexed (inlinedItems calls is) ∧
        ∀ p ∈ C.places 0, ∀ c, calls p.2 = some c → c.tree.Leveled p.1) ∧
    ∀ (D : Type) (M : Meaning D) (env : Chars → D) (P : D → Prop),
      (∀ w c, .name w ∈ is → calls w = some c → c.Means M env P) →
      (inlinedTree calls C).value M env = (calledTree calls C).value M env := by
  obtain ⟨s, hshown⟩ : ∃ s, ∀ w c, .name w ∈ is → calls w = some c → c.Shown s := by
    refine ⟨_, fun w c hw hc => h.shown c (List.mem_append_right _ (List.mem_append_left _ ?_))⟩
    exact List.mem_map.2 ⟨_, hw, stretchOf_of_call hc⟩
  have hname : ∀ w ∈ C.names, .name w ∈ is := by
    intro w hw
    rw [← mem_tokens_iff, ← ht] at hw
    exact List.mem_of_mem_filter hw
  refine ⟨?_, ?_, ?_, ?_⟩
  · have hlevel : (calledTree calls C).Leveled 0 := by
      refine Expr.leveled_subst.2 ⟨hC, fun p hp x hx => ?_⟩
      obtain ⟨c, hc, rfl⟩ := Option.map_eq_some_iff.1 hx
      exact (hshown p.2 c (hname _ (Expr.mem_names_of_mem_places hp)) hc).leveled_callTree p.1
    exact (read?_textOf_iff hl.formed (tokensOf_calledItems hshown ht)).2 ⟨hl, hlevel⟩
  · have hrun := inlineCallsWith_eq h
    rw [List.flatMap_append, List.flatMap_append, List.flatMap_append, List.flatMap_append,
      flatMap_stretchOf (fun _ => rfl) (fun _ => rfl),
      flatMap_stretchOf (fun _ => rfl) (fun _ => rfl)] at hrun
    exact hrun
  · rw [read?_textOf_iff (formed_inlinedItems hshown hl) (tokensOf_inlinedItems hshown ht), inlinedTree,
      Expr.leveled_subst]
    refine and_congr_right fun _ => (and_iff_right hC).trans ?_
    constructor
    · intro hfit p hp c hc
      have hfits := hfit p hp c.inlinedTree (by rw [hc]; rfl)
      exact (hshown p.2 c (hname _ (Expr.mem_names_of_mem_places hp)) hc).leveled_inlinedTree.1 hfits
    · intro hfit p hp x hx
      obtain ⟨c, hc, rfl⟩ := Option.map_eq_some_iff.1 hx
      exact (hshown p.2 c (hname _ (Expr.mem_names_of_mem_places hp)) hc).leveled_inlinedTree.2
        (hfit p hp c hc)
  · intro D M env P hmeans
    rw [inlinedTree, calledTree, Expr.value_subst, Expr.value_subst]
    refine Expr.value_congr fun w hw => ?_
    rw [Expr.rebound, Expr.rebound]
    cases hc : calls w with
    | none => rfl
    | some c =>
      exact (hmeans w c (hname w hw) hc).value_eq M env (hshown w c (hname w hw) hc)

/-! ## A function that doubles, and one that adds one -/

def sumNode : Members :=
  operationNode "43:5:0" (nameNode "a" 3 "43:1:0") (literalNode "47:1:0")

def doubleCall : Call where
  site := ⟨.obj (callNode "41:8:0" sumNode), functionNode returnedNode, returnNode returnedNode⟩
  callee := ['f']
  written := [.name ['f'], .sign .openRound, .name ['a'], .blank ' ', .sign .plus, .blank ' ',
    .number ['1'], .sign .closeRound]
  parameters := [⟨.obj [("id", .int 2), ("name", .str "x")], .whole 2, ['x']⟩]
  arguments := [⟨sumNode, 43, [.name ['a'], .blank ' ', .sign .plus, .blank ' ', .number ['1']],
    .binary .plus (.name ['a']) (.number ['1'])⟩]
  start := 28
  returned := [.name ['x'], .blank ' ', .sign .times, .blank ' ', .number ['2']]
  tree := .binary .times (.name ['x']) (.number ['2'])

def doubleCalls (w : Chars) : Option Call :=
  if w = ['c'] then some doubleCall else none

def doubleItems : List Item :=
  [.name ['c'], .blank ' ', .sign .minus, .blank ' ', .number ['3']]

def doubleStretches : List Stretch :=
  [.text doubleFront] ++ (doubleItems.map (stretchOf doubleCalls) ++ [.text [';']])

theorem doubleCall_shown : doubleCall.Shown (encode (doubleStretches.flatMap Stretch.old)) where
  parameters := ⟨_, rfl, rfl⟩
  parameter p hp := by
    obtain rfl := mem_singleton.1 hp
    exact ⟨⟨_, rfl, rfl⟩, rfl⟩
  distinct := by decide
  arguments := rfl
  argument a ha := by
    obtain rfl := mem_singleton.1 ha
    exact {
      spans := ⟨by decide, (encode (doubleStretches.flatMap Stretch.old)).take 43,
        (encode (doubleStretches.flatMap Stretch.old)).drop 48, by decide, by decide⟩
      written := ⟨((items?_eq_some_iff (s := "a + 1".toList)).1 (by decide +kernel)).2, rfl⟩
      leveled := ⟨10, rfl, by decide, trivial, trivial⟩
      bare := nofun }
  arity := rfl
  written := ⟨((items?_eq_some_iff (s := "f(a + 1)".toList)).1 (by decide +kernel)).2, rfl⟩
  spans := ⟨by decide, (encode (doubleStretches.flatMap Stretch.old)).take 28,
    (encode (doubleStretches.flatMap Stretch.old)).drop 33, by decide, by decide⟩
  returned := ⟨((items?_eq_some_iff (s := "x * 2".toList)).1 (by decide +kernel)).2, rfl⟩
  leveled := ⟨11, rfl, by decide, trivial, trivial⟩
  ascii := forall_mem_of_all (by decide)
  uses := ⟨[some ⟨0, 1, ['x']⟩], .cons (.parameter mem_cons_self rfl rfl rfl) .nil, .of_eq rfl⟩

theorem doubleTree_described : Described (callTreeOf "41:8:0" sumNode) doubleStretches where
  sites := ⟨_, _, rfl, rfl, .of_eq rfl⟩
  placed h hh := by
    obtain rfl := mem_singleton.1 (show h ∈ [⟨41, 49, doubleCall⟩] from hh)
    rfl
  shown c hc := by
    have hcall : .call c ∈ doubleItems.map (stretchOf doubleCalls) := by
      rcases mem_append.1 hc with hc | hc
      · cases mem_singleton.1 hc
      · rcases mem_append.1 hc with hc | hc
        · exact hc
        · cases mem_singleton.1 hc
    obtain ⟨i, hi, heq⟩ := mem_map.1 hcall
    cases i with
    | name w =>
      rw [stretchOf, doubleCalls] at heq
      split at heq
      · cases heq
        exact doubleCall_shown
      · cases heq
    | _ => cases heq

/-- Whole numbers that depend on one number; a function is applied to what its
argument is there. -/
def pointwise : Meaning (Int → Int) where
  number ds _ := numeral ds
  before _ v := v
  behind _ v := v
  apply _ f v t := f (v t)
  binary m a b t :=
    match m with
    | .plus => a t + b t
    | .minus => a t - b t
    | .times => a t * b t
    | _ => 0
  choice _ a _ := a

def doubling (w : Chars) : Int → Int :=
  if w = ['f'] then fun t => t * 2 else id

theorem doubleCall_means : doubleCall.Means pointwise doubling fun _ => True where
  calm _ _ := trivial
  returns vs hvs _ := by
    obtain ⟨v, rfl⟩ := length_eq_one_iff.1 hvs
    rfl

/-- The argument is put in brackets, and a product needs none in a difference. -/
theorem inlineCallsWith_keeps_value_double :
    ∃ e e', read? "f(a + 1) - 3".toList = some e ∧
      inlineCallsWith (doubleFront ++ "f(a + 1) - 3;".toList) (callTreeOf "41:8:0" sumNode) =
        .ok (doubleFront ++ "(a + 1) * 2 - 3;".toList) ∧
      read? "(a + 1) * 2 - 3".toList = some e' ∧
      e'.value pointwise doubling = e.value pointwise doubling := by
  obtain ⟨hold, hrun, hnew, hvalue⟩ := inlineCallsWith_keeps_value_exactly
    (C := .binary .minus (.name ['c']) (.number ['3'])) doubleTree_described
    ((items?_eq_some_iff (s := "f(a + 1) - 3".toList)).1 (by decide +kernel)).2 rfl
    ⟨10, rfl, by decide, trivial, trivial⟩
  refine ⟨_, _, hold, hrun, hnew.2 ⟨?_, ?_⟩, hvalue _ pointwise doubling (fun _ => True) ?_⟩
  · exact ((items?_eq_some_iff (s := "(a + 1) * 2 - 3".toList)).1 (by decide +kernel)).2
  · intro p hp c hc
    obtain rfl := List.mem_singleton.1 (show p ∈ [(10, ['c'])] from hp)
    cases hc
    exact ⟨11, rfl, by decide, trivial, trivial⟩
  · intro w c _ hc
    rw [doubleCalls] at hc
    split at hc
    · cases hc
      exact doubleCall_means
    · cases hc

def addFront : Chars :=
  "function f(uint x) \x7b return x + 1; \x7d y = ".toList

def addingOne (w : Chars) : Int → Int :=
  if w = ['f'] then fun t => t + 1 else id

/-- A returned sum is torn apart by the product that its call stands in. -/
theorem sum_in_product_changes_value :
    inlineCallsWith (addFront ++ "f(a) * 2;".toList) (callTreeOf "41:4:0" (nameNode "a" 3 "43:1:0")) =
        .ok (addFront ++ "a + 1 * 2;".toList) ∧
      (∀ v, calledOn pointwise (addingOne ['f']) [v] =
        (Expr.binary .plus (.name ['x']) (.number ['1'])).value pointwise (bound addingOne [['x']] [v])) ∧
      ∃ e e', read? "f(a) * 2".toList = some e ∧ read? "a + 1 * 2".toList = some e' ∧
        e.value pointwise addingOne 1 = 4 ∧ e'.value pointwise addingOne 1 = 3 := by
  exact ⟨by decide +kernel, fun v => rfl, .binary .times (called ['f'] [.name ['a']]) (.number ['2']),
    .binary .plus (.name ['a']) (.binary .times (.number ['1']) (.number ['2'])), by decide +kernel,
    by decide +kernel, by decide, by decide⟩

end Obscura.Flow
