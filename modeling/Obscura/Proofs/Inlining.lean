import Obscura.Flow.Call
import Obscura.Proofs.Characters
import Obscura.Proofs.Except
import Obscura.Proofs.Patch
import Obscura.Proofs.Utf8

/-
  The text that takes the place of a call. It is the returned expression of the
  function with the arguments in the places of the parameters. The tree gives these
  places in bytes, and they are taken for places of characters. So the arguments come
  into the right places exactly if no place has other than ASCII characters before it
  (`inlinedText_in_place_iff`).
-/

namespace Obscura.Flow

open Text Ast Json List

variable {t : Chars} {node : Json} {start : Nat}

/-! ## Nodes and what they name -/

/-- The text stands in the bytes from `start` on, and the node names this range. -/
structure Spans (s : Bytes) (node : Json) (start : Nat) (t : Chars) : Prop where
  range : rangeOf node = .ok ⟨start, (start + (encode t).length : Nat)⟩
  there : ∃ u v, s = u ++ (encode t ++ v) ∧ u.length = start

structure Parameter where
  node : Json
  id : Key
  name : Chars

variable {ps : List Parameter}

structure Parameter.Shown (p : Parameter) : Prop where
  id : ∃ v, p.node.need "id" = .ok v ∧ v.key = .ok p.id
  name : p.node.need "name" = .ok (.str (String.ofList p.name))

/-- Values by name, where a later one replaces an earlier one of its name. -/
def named {κ α : Type} [DecidableEq κ] (kvs : List (κ × α)) : Assoc κ α :=
  kvs.foldl (fun m x => Assoc.set x.1 x.2 m) []

section Named

variable {κ κ' α β : Type} [DecidableEq κ] [DecidableEq κ']

variable {kvs : List (κ × α)}

theorem find_foldl_set_of_forall_ne {k : κ} (h : ∀ x ∈ kvs, x.1 ≠ k)
    (m : Assoc κ α) : (kvs.foldl (fun m x => Assoc.set x.1 x.2 m) m).find k = m.find k := by
  induction kvs generalizing m with
  | nil => rfl
  | cons x kvs ih =>
    rw [foldl_cons, ih fun y hy => h y (.tail _ hy), Assoc.find_set, if_neg (h x mem_cons_self)]

theorem find_named_of_nodup (hd : (kvs.map (·.1)).Nodup) {k : κ} {v : α}
    (h : (k, v) ∈ kvs) : (named kvs).find k = some v := by
  obtain ⟨l, r, rfl⟩ := append_of_mem h
  have hr : ∀ x ∈ r, x.1 ≠ k := by
    rw [map_append, nodup_append] at hd
    intro x hx he
    exact (nodup_cons.1 hd.2.1).1 (mem_map.2 ⟨x, hx, he⟩)
  rw [named, foldl_append, foldl_cons, find_foldl_set_of_forall_ne hr, Assoc.find_set,
    if_pos rfl]

theorem find_named_of_forall_ne {k : κ} (h : ∀ x ∈ kvs, x.1 ≠ k) :
    (named kvs).find k = none := find_foldl_set_of_forall_ne h []

theorem mem_of_find_named {k : κ} {v : α} (h : (named kvs).find k = some v) :
    (k, v) ∈ kvs := (Assoc.mem_foldl_set (Assoc.mem_of_find h)).resolve_left not_mem_nil

theorem find_named_map {g : κ → κ'} (hg : ∀ a b, g a = g b → a = b) (f : α → β)
    (kvs : List (κ × α)) (k : κ) :
    (named (kvs.map fun x => (g x.1, f x.2))).find (g k) = ((named kvs).find k).map f := by
  rw [named, named, foldl_map]
  suffices h : ∀ (m : Assoc κ α) (m' : Assoc κ' β), (∀ k, m'.find (g k) = (m.find k).map f) →
      (kvs.foldl (fun m x => Assoc.set (g x.1) (f x.2) m) m').find (g k) =
        ((kvs.foldl (fun m x => Assoc.set x.1 x.2 m) m).find k).map f from h [] [] fun _ => rfl
  induction kvs with
  | nil => exact fun m m' h => h k
  | cons x kvs ih =>
    intro m m' h
    refine ih _ _ fun j => ?_
    rw [Assoc.find_set, Assoc.find_set]
    by_cases hj : x.1 = j
    · rw [if_pos hj, if_pos (congrArg g hj)]
      rfl
    · rw [if_neg hj, if_neg fun he => hj (hg _ _ he), h]

end Named

/-! ## Calls -/

/-- An argument: its node, and the text in the place of the node. -/
structure Passed where
  members : Members
  start : Nat
  text : Chars

/-- The argument in brackets, unless it is a name or a literal. -/
def Passed.put (a : Passed) : Chars :=
  if isKind "Identifier" a.members || isKind "Literal" a.members then a.text else '(' :: (a.text ++ [')'])

/-- A call of a function that returns an expression. -/
structure Use where
  site : CallSite
  parameters : List Parameter
  arguments : List Passed
  start : Nat
  /-- The returned expression in parts, those that name a parameter marked. -/
  returned : List (Chars × Option Chars)

/-- Parts of a text as parts of its bytes. -/
def bytesOf {β : Type} (r : List (Chars × Option β)) : List (Bytes × Option β) :=
  r.map fun x => (encode x.1, x.2)

namespace Use

/-- What is put in for the name of a parameter. -/
def put (u : Use) (w : Chars) : Chars :=
  (((named ((u.parameters.map Parameter.name).zip u.arguments)).find w).map Passed.put).getD []

/-- The returned expression with the arguments in it. -/
def inlined (u : Use) : Chars :=
  replaced u.put u.returned

/-- A name in the returned expression: it is that of a parameter and names its range,
or it is something else. -/
inductive Refers (u : Use) (ms : Members) : Option (Hole Chars) → Prop where
  | elsewhere {k : Key} (hk : (fieldOf "referencedDeclaration" ms).key = .ok k)
      (h : ∀ p ∈ u.parameters, p.id ≠ k) : Refers u ms none
  | parameter {p : Parameter} {h : Hole Chars} (hp : p ∈ u.parameters)
      (hk : (fieldOf "referencedDeclaration" ms).key = .ok p.id) (hname : h.what = p.name)
      (hr : rangeOf (.obj ms) = .ok ⟨(u.start + h.start : Nat), (u.start + h.stop : Nat)⟩) :
      Refers u ms (some h)

/-- The tree shows the call as it stands in the text: the ranges are those of the
nodes, and each place of a parameter in the returned expression has one name node. -/
structure Shown (s : Bytes) (u : Use) : Prop where
  parameters : ∃ v, (Json.obj u.site.target.function).need "parameters" = .ok v ∧
    v.need "parameters" = .ok (.arr (u.parameters.map Parameter.node))
  parameter : ∀ p ∈ u.parameters, p.Shown
  distinct : (u.parameters.map Parameter.id).Nodup
  arguments : u.site.node.need "arguments" = .ok (.arr (u.arguments.map fun a => .obj a.members))
  argument : ∀ a ∈ u.arguments, Spans s (.obj a.members) a.start a.text
  arity : u.arguments.length = u.parameters.length
  spans : Spans s (fieldOf "expression" u.site.target.statement) u.start (joined u.returned)
  place : ∀ x w, (x, some w) ∈ u.returned → x ≠ [] ∧ ∀ c ∈ x, c.toNat < 128
  uses : ∃ us, Forall₂ (Refers u)
      ((directNodes (fieldOf "expression" u.site.target.statement)).filter (isKind "Identifier")) us ∧
    (us.filterMap id).Perm (holesFrom 0 (bytesOf u.returned))

end Use

/-! ## What the pass puts in -/

section CallText

variable {s : Bytes} {u : Use}

theorem Spans.slice (h : Spans s node start t) :
    slice s start (start + (encode t).length : Nat) = encode t := by
  obtain ⟨u, v, rfl, rfl⟩ := h.there
  exact slice_middle u (encode t) v

theorem decoded_encode : decoded (encode t) = .ok t := by
  rw [decoded, decode?_encode]

theorem rangeOf_ok {r : Range} (h : rangeOf node = .ok r) :
    node.isSet ∧
      ∃ src, node.field "src" = .ok src ∧ src.isSet ∧ rangeIn src = .ok r := by
  obtain ⟨src, hsrc, hr⟩ := bind_ok.1 h
  cases node with
  | obj ms =>
    have hset : (Json.obj ms).isSet := by
      cases ms with
      | nil => cases hsrc
      | cons m ms => rfl
    refine ⟨hset, src, congrArg _ (need_ok hsrc), ?_, hr⟩
    cases src with
    | str t =>
      by_cases ht : t = ""
      · rw [ht, show rangeIn (.str "") = .error .badNumber from rfl] at hr
        cases hr
      · exact bne_iff_ne.2 ht
    | _ => cases hr
  | _ => cases hsrc

theorem Spans.textOf (h : Spans s node start t) : textOf s node = .ok t := by
  obtain ⟨-, src, hfield, hset, hr⟩ := rangeOf_ok h.range
  refine bind_ok.2 ⟨src, hfield, ?_⟩
  rw [hset]
  refine bind_ok.2 ⟨_, hr, ?_⟩
  rw [h.slice, decoded_encode]

theorem argumentText_eq {a : Passed} (h : Spans s (.obj a.members) a.start a.text) :
    argumentText s (.obj a.members) = .ok a.put := by
  refine bind_ok.2 ⟨_, h.textOf, bind_ok.2 ⟨_, rfl, ?_⟩⟩
  rw [Passed.put]
  show (if (isKind "Identifier" a.members || isKind "Literal" a.members) = true then _ else _) = _
  split <;> rfl

theorem bindFrom_eq {as : List Passed} {nodes : List Json} {i : Nat}
    (hp : ∀ p ∈ ps, p.Shown) (ha : ∀ a ∈ as, Spans s (.obj a.members) a.start a.text)
    (hlen : as.length = ps.length) (hnodes : nodes.drop i = as.map fun a => .obj a.members)
    (m : Assoc Key Chars) :
    bindFrom s (.arr nodes) i (ps.map Parameter.node) m =
      .ok (((ps.map Parameter.name).zip as).foldl (fun m x =>
        Assoc.set (.text (String.ofList x.1)) x.2.put m) m) := by
  induction ps generalizing as i m with
  | nil => rfl
  | cons p ps ih =>
    cases as with
    | nil => cases hlen
    | cons a as =>
      have hat : nodes[i]? = some (.obj a.members) := by
        rw [← head?_drop, hnodes]
        rfl
      have hrest : nodes.drop (i + 1) = as.map fun a => .obj a.members := by
        rw [← tail_drop, hnodes]
        rfl
      refine bind_ok.2 ⟨_, (hp p mem_cons_self).name, bind_ok.2 ⟨.obj a.members, ?_,
        bind_ok.2 ⟨_, argumentText_eq (ha a mem_cons_self), bind_ok.2 ⟨_, rfl, ?_⟩⟩⟩⟩
      · rw [argumentAt, hat]
      · exact ih (fun q hq => hp q (.tail _ hq)) (fun b hb => ha b (.tail _ hb)) (Nat.succ.inj hlen)
          hrest _

theorem parameterNames_eq (hp : ∀ p ∈ ps, p.Shown) : parameterNames (ps.map Parameter.node) =
      .ok (named (ps.map fun p => (p.id, Key.text (String.ofList p.name)))) := by
  rw [parameterNames, named]
  generalize ([] : Assoc Key Key) = m
  induction ps generalizing m with
  | nil => rfl
  | cons p ps ih =>
    obtain ⟨⟨v, hv, hk⟩, hn⟩ := hp p mem_cons_self
    rw [map_cons, foldlM_cons]
    refine bind_ok.2 ⟨_, bind_ok.2 ⟨_, hv, bind_ok.2 ⟨_, hn, bind_ok.2 ⟨_, hk,
      bind_ok.2 ⟨_, rfl, rfl⟩⟩⟩⟩, ?_⟩
    exact ih (fun q hq => hp q (.tail _ hq)) _

/-- What the parameters stand for, as the pass has it. -/
def Use.values (u : Use) : Assoc Key Chars :=
  ((u.parameters.map Parameter.name).zip u.arguments).foldl (fun m x =>
    Assoc.set (.text (String.ofList x.1)) x.2.put m) []

theorem Use.find_values (u : Use) (w : Chars) :
    (u.values.find (.text (String.ofList w))).getD [] = u.put w := by
  have hfind := find_named_map (g := fun w => Key.text (String.ofList w))
    (fun a b h => String.ofList_injective (Key.text.inj h)) Passed.put
    ((u.parameters.map Parameter.name).zip u.arguments) w
  rw [named, foldl_map] at hfind
  exact congrArg (·.getD []) hfind

/-- The substitution for a place of a parameter. -/
def Use.substitution (u : Use) (h : Hole Chars) : Substitution :=
  ⟨h.start, h.stop, u.put h.what⟩

theorem substitutionHere_eq (hd : (u.parameters.map Parameter.id).Nodup) {ms : Members}
    {o : Option (Hole Chars)} (h : u.Refers ms o) :
    substitutionHere u.start (named (u.parameters.map fun p => (p.id, Key.text (String.ofList p.name))))
      u.values ms = .ok (o.toList.map u.substitution) := by
  cases h with
  | elsewhere hk hne =>
    refine bind_ok.2 ⟨_, hk, ?_⟩
    rw [find_named_of_forall_ne]
    · rfl
    · intro x hx
      obtain ⟨p, hp, rfl⟩ := mem_map.1 hx
      exact hne p hp
  | @parameter p h hp hk hname hr =>
    refine bind_ok.2 ⟨_, hk, ?_⟩
    have hkeys : ((u.parameters.map fun p => (p.id, Key.text (String.ofList p.name))).map (·.1)).Nodup := by
      rw [map_map]
      exact hd
    have hstart : ((u.start + h.start : Nat) : Int) - u.start = h.start := by omega
    have hstop : ((u.start + h.stop : Nat) : Int) - u.start = h.stop := by omega
    rw [find_named_of_nodup hkeys (mem_map_of_mem hp)]
    refine bind_ok.2 ⟨_, hr, ?_⟩
    rw [u.find_values, ← hname, hstart, hstop]
    rfl

/-- The text with something put in at each place, the last first. -/
def puts (put : Chars → Chars) (hs : List (Hole Chars)) (t : Chars) : Chars :=
  hs.foldr (fun h t => bracket t h.start h.stop (put h.what)) t

/-- The returned expression with something put in for each name of a parameter, at its
position in the bytes. -/
def Use.written (u : Use) (put : Chars → Chars) : Chars :=
  puts put (holesFrom 0 (bytesOf u.returned)) (joined u.returned)

theorem substitute_eq (h : u.Shown s) {subs : List Substitution}
    (hsubs : subs.Perm ((holesFrom 0 (bytesOf u.returned)).map u.substitution)) :
    substitute (joined u.returned) subs = u.written u.put := by
  have hrising : ((holesFrom 0 (bytesOf u.returned)).map u.substitution).Pairwise fun a b =>
      a.start < b.start := by
    rw [pairwise_map]
    refine pairwise_holesFrom fun x w hx => ?_
    obtain ⟨⟨y, o⟩, hy, heq⟩ := mem_map.1 hx
    cases heq
    exact fun hnil => (h.place _ _ hy).1 (encode_injective (u := []) hnil)
  rw [substitute, mergeSort_eq_reverse hsubs hrising, foldl_reverse, foldr_map]
  rfl

theorem inlinedText_eq (h : u.Shown s) : inlinedText s u.site = .ok (some (u.written u.put)) := by
  obtain ⟨v, hv, hparams⟩ := h.parameters
  obtain ⟨us, hus, hperm⟩ := h.uses
  refine bind_ok.2 ⟨v, hv, bind_ok.2 ⟨_, hparams, bind_ok.2 ⟨_, h.arguments, bind_ok.2 ⟨_, rfl,
    bind_ok.2 ⟨_, rfl, ?_⟩⟩⟩⟩⟩
  have harity : ¬ (u.parameters.map Parameter.node).length ≠
      (u.arguments.map fun a => Json.obj a.members).length := by
    rw [length_map, length_map, h.arity]
    exact fun hne => hne rfl
  have hset : (!(fieldOf "expression" u.site.target.statement).isSet) = false := by
    rw [(rangeOf_ok h.spans.range).1]
    rfl
  have hsubs := mapM_of_forall₂
    (forall₂_map_right_iff.2 (hus.imp fun ms o ho => substitutionHere_eq h.distinct ho))
  have hflat : (us.map fun o => o.toList.map u.substitution).flatten =
      (us.filterMap id).map u.substitution := by
    rw [← flatMap_def, map_filterMap, filterMap_eq_flatMap_toList]
    congr 1
    funext o
    cases o <;> rfl
  rw [if_neg harity]
  refine bind_ok.2 ⟨u.values, bindFrom_eq h.parameter h.argument h.arity rfl [], ?_⟩
  dsimp only
  rw [hset]
  refine bind_ok.2 ⟨_, h.spans.range, bind_ok.2 ⟨joined u.returned, ?_,
    bind_ok.2 ⟨_, parameterNames_eq h.parameter, bind_ok.2 ⟨_, hsubs, ?_⟩⟩⟩⟩
  · rw [h.spans.slice, decoded_encode]
  · rw [hflat, substitute_eq h (hperm.map _)]
    rfl

end CallText

/-! ## Positions in bytes and in characters -/

/-- No place of a parameter has other than ASCII characters before it. -/
def Aligned {β : Type} : List (Chars × Option β) → Prop
  | [] => True
  | (u, _) :: r => (∀ x ∈ r, x.2 = none) ∨ (∀ c ∈ u, c.toNat < 128) ∧ Aligned r

theorem encode_replaced (put : β → Chars) (r : List (Chars × Option β)) :
    encode (replaced put r) = replaced (fun w => encode (put w)) (bytesOf r) := by
  rw [replaced, replaced, bytesOf, encode, flatMap_assoc, flatMap_map]
  congr 1
  funext x
  cases x.2 <;> rfl

section Puts

variable {put : Chars → Chars}

theorem bracket_middle (p u y v : List α) :
    bracket (p ++ (u ++ y)) p.length (p ++ u).length v = p ++ (v ++ y) := by
  rw [bracket, upTo, fromPos, place_ofNat_of_le (by simp), place_ofNat_of_le (by simp), take_left,
    ← append_assoc p u y, drop_left, append_assoc]

theorem puts_append (put : Chars → Chars) {hs : List (Hole Chars)} {p : Chars}
    (h : ∀ e ∈ hs, p.length ≤ e.start) (y : Chars) : ∃ z, puts put hs (p ++ y) = p ++ z := by
  induction hs with
  | nil => exact ⟨y, rfl⟩
  | cons e hs ih =>
    obtain ⟨z, hz⟩ := ih fun f hf => h f (.tail _ hf)
    have hstart := h e mem_cons_self
    have htake : (p ++ z).take (min e.start (p ++ z).length) =
        p ++ z.take (min e.start (p ++ z).length - p.length) := by
      rw [take_append, take_of_length_le (by rw [length_append]; omega)]
    refine ⟨z.take (min e.start (p ++ z).length - p.length) ++ (put e.what ++ fromPos (p ++ z) e.stop), ?_⟩
    show bracket (puts put hs (p ++ y)) _ _ _ = _
    rw [hz, bracket, upTo, place_ofNat, htake, append_assoc, append_assoc]

theorem holesFrom_of_none {a r : List (Chars × Option β)} (h : ∀ x ∈ a, x.2 = none) (p : Nat) :
    holesFrom p (bytesOf (a ++ r)) = holesFrom (p + (encode (joined a)).length) (bytesOf r) := by
  induction a generalizing p with
  | nil => rfl
  | cons x a ih =>
    obtain ⟨u, o⟩ := x
    obtain rfl : o = none := h _ mem_cons_self
    have hlen : (encode (joined ((u, none) :: a))).length = (encode u).length + (encode (joined a)).length := by
      rw [joined, flatMap_cons, encode_append, length_append]
      rfl
    rw [cons_append, bytesOf, map_cons, holesFrom, ← bytesOf, ih fun y hy => h y (.tail _ hy), hlen,
      Nat.add_assoc]

variable {r : List (Chars × Option β)}

theorem aligned_of_none (h : ∀ x ∈ r, x.2 = none) : Aligned r := by
  cases r with
  | nil => trivial
  | cons x r => exact .inl fun y hy => h y (.tail _ hy)

theorem aligned_of_ascii (h : ∀ x ∈ r, ∀ c ∈ x.1, c.toNat < 128) :
    Aligned r := by
  induction r with
  | nil => trivial
  | cons x r ih => exact .inr ⟨h x mem_cons_self, ih fun y hy => h y (.tail _ hy)⟩

theorem replaced_of_none {f : β → Chars} (h : ∀ x ∈ r, x.2 = none) :
    replaced f r = joined r := by
  rw [replaced, joined]
  refine flatMap_congr fun x hx => ?_
  rw [h x hx]
  rfl

theorem exists_first_place {r : List (α × Option β)} (h : ¬ ∀ x ∈ r, x.2 = none) :
    ∃ a x w b, r = a ++ (x, some w) :: b ∧ ∀ y ∈ a, y.2 = none := by
  induction r with
  | nil => exact absurd nofun h
  | cons x r ih =>
    obtain ⟨u, o⟩ := x
    cases o with
    | some w => exact ⟨[], u, w, r, rfl, nofun⟩
    | none =>
      obtain ⟨a, x, w, b, rfl, ha⟩ := ih fun hr => h (forall_mem_cons.2 ⟨rfl, hr⟩)
      exact ⟨(u, none) :: a, x, w, b, rfl, forall_mem_cons.2 ⟨rfl, ha⟩⟩

theorem length_append_ascii (p : Chars) {u : Chars} (hu : ∀ c ∈ u, c.toNat < 128) :
    p.length + (encode u).length = (p ++ u).length := by
  rw [length_encode_of_ascii hu, length_append]

variable {r : List (Chars × Option Chars)}
  (hplace : ∀ x w, (x, some w) ∈ r → x ≠ [] ∧ ∀ c ∈ x, c.toNat < 128)

include hplace

theorem puts_of_aligned (p : Chars) (h : Aligned r) :
    puts put (holesFrom p.length (bytesOf r)) (p ++ joined r) = p ++ replaced put r := by
  induction r generalizing p with
  | nil => rfl
  | cons x r ih =>
    obtain ⟨u, o⟩ := x
    have hrest := ih (fun y w hy => hplace y w (.tail _ hy)) (p ++ u) (h.elim aligned_of_none And.right)
    rw [append_assoc, append_assoc] at hrest
    cases o with
    | none =>
      -- a part that is not ASCII does no harm if no place follows it
      rcases h with hnone | ⟨hu, -⟩
      · have hnone : ∀ x ∈ (u, none) :: r, x.2 = none := forall_mem_cons.2 ⟨rfl, hnone⟩
        have hholes := holesFrom_of_none (r := []) hnone p.length
        rw [append_nil] at hholes
        rw [hholes, replaced_of_none hnone]
        rfl
      · rw [← length_append_ascii p hu] at hrest
        exact hrest
    | some w =>
      have hu := (hplace u w mem_cons_self).2
      show bracket (puts put (holesFrom (p.length + (encode u).length) (bytesOf r)) (p ++ (u ++ joined r)))
        p.length (p.length + (encode u).length : Nat) (put w) = _
      rw [length_append_ascii p hu, hrest, bracket_middle]
      rfl

/-- Where something other than ASCII comes into the right places, the places are right. -/
theorem aligned_of_puts {c : Char} (hc : 128 ≤ c.toNat) (p : Chars)
    (h : puts (fun _ => [c]) (holesFrom p.length (bytesOf r)) (p ++ joined r) =
      p ++ replaced (fun _ => [c]) r) : Aligned r := by
  induction r generalizing p with
  | nil => trivial
  | cons x r ih =>
    obtain ⟨u, o⟩ := x
    have hrest := ih (fun y w hy => hplace y w (.tail _ hy)) (p ++ u)
    rw [append_assoc, append_assoc] at hrest
    cases o with
    | none =>
      by_cases hnone : ∀ x ∈ r, x.2 = none
      · exact .inl hnone
      by_cases hu : ∀ c ∈ u, c.toNat < 128
      · refine .inr ⟨hu, hrest ?_⟩
        rw [← length_append_ascii p hu]
        exact h
      -- The first place is taken to start behind its first character, which stays then.
      obtain ⟨a, x, w, b, rfl, ha⟩ := exists_first_place hnone
      obtain ⟨hne, hx⟩ := hplace x w (.tail _ (mem_append_right a mem_cons_self))
      obtain ⟨d, x, rfl⟩ := exists_cons_of_ne_nil hne
      have hlong : u.length < (encode u).length :=
        Nat.lt_of_not_le fun hle => hu ((length_le_encode u).2 hle)
      have hstart : ∀ e ∈ holesFrom p.length (bytesOf (((u, none) :: a) ++ (d :: x, some w) :: b)),
          (p ++ (u ++ joined a) ++ [d]).length ≤ e.start := by
        intro e he
        rw [holesFrom_of_none (forall_mem_cons.2 ⟨rfl, ha⟩)] at he
        have hle := (mem_holesFrom he).1
        have hshort := (length_le_encode (joined a)).1
        rw [joined, flatMap_cons, ← joined, encode_append, length_append] at hle
        dsimp only at hle
        simp only [length_append, length_singleton]
        omega
      obtain ⟨z, hz⟩ := puts_append (fun _ => [c]) hstart (x ++ joined b)
      have hold : p ++ joined ((u, none) :: (a ++ (d :: x, some w) :: b)) =
          p ++ (u ++ joined a) ++ [d] ++ (x ++ joined b) := by simp [joined]
      have hnew : p ++ replaced (fun _ => [c]) ((u, none) :: (a ++ (d :: x, some w) :: b)) =
          p ++ (u ++ joined a) ++ ([c] ++ replaced (fun _ => [c]) b) := by
        rw [← replaced_of_none (f := fun _ => [c]) ha]
        simp [replaced]
      rw [hold, hnew] at h
      have heq := append_cancel_left (((append_assoc ..).symm.trans hz.symm).trans h)
      have hdc : d = c := (cons.inj heq).1
      exact absurd (hdc ▸ hx d mem_cons_self) (Nat.not_lt.2 hc)
    | some w =>
      have hu := (hplace u w mem_cons_self).2
      have hlen := length_append_ascii p hu
      obtain ⟨z, hz⟩ := puts_append (fun _ => [c]) (p := p ++ u)
        (fun e he => (mem_holesFrom he).1) (joined r)
      rw [append_assoc, append_assoc] at hz
      have h : bracket (puts (fun _ => [c]) (holesFrom (p.length + (encode u).length) (bytesOf r))
        (p ++ (u ++ joined r))) p.length (p.length + (encode u).length : Nat) [c] = _ := h
      rw [hlen, hz, bracket_middle] at h
      have hz' : z = replaced (fun _ => [c]) r := (cons.inj (append_cancel_left h)).2
      exact .inr ⟨hu, hrest (by rw [hz, hz'])⟩

end Puts

/-- The text that takes the place of a call, if its places are right. -/
theorem inlinedText_of_aligned {s : Bytes} {u : Use} (h : u.Shown s) (ha : Aligned u.returned) :
    inlinedText s u.site = .ok (some u.inlined) := by
  have hplaces : u.written u.put = u.inlined := puts_of_aligned h.place [] ha
  rw [inlinedText_eq h, hplaces]

/-- **Where the arguments of a call come.** The returned expression gets the arguments
at the positions of the parameters in its bytes, counted in characters. These are the
places of the parameters, whatever the arguments are, if and only if no place has other
than ASCII characters before it. -/
theorem inlinedText_in_place_iff {s : Bytes} {u : Use} (h : u.Shown s) :
    inlinedText s u.site = .ok (some (u.written u.put)) ∧
    ((∀ put : Chars → Chars,
        encode (u.written put) = replaced (fun w => encode (put w)) (bytesOf u.returned)) ↔
      Aligned u.returned) := by
  refine ⟨inlinedText_eq h, fun hput => ?_, fun ha put => ?_⟩
  · refine aligned_of_puts h.place (c := 'é') (by decide) [] (encode_injective ?_)
    exact (hput fun _ => ['é']).trans (encode_replaced _ _).symm
  · rw [← encode_replaced]
    exact congrArg encode (puts_of_aligned h.place [] ha)

/-! ## A function that doubles, and one that joins texts -/

def nameNode (name : String) (referred : Int) (src : String) : Members :=
  [("nodeType", .str "Identifier"), ("name", .str name), ("referencedDeclaration", .int referred),
    ("src", .str src)]

def literalNode (src : String) : Members :=
  [("nodeType", .str "Literal"), ("src", .str src)]

def operationNode (src : String) (a b : Members) : Members :=
  [("nodeType", .str "BinaryOperation"), ("src", .str src), ("leftExpression", .obj a),
    ("rightExpression", .obj b)]

def returnedNode : Members :=
  operationNode "28:5:0" (nameNode "x" 2 "28:1:0") (literalNode "32:1:0")

def returnNode (value : Members) : Members :=
  [("nodeType", .str "Return"), ("expression", .obj value)]

def functionNode (value : Members) : Members :=
  [("nodeType", .str "FunctionDefinition"), ("id", .int 1), ("visibility", .str "internal"),
    ("stateMutability", .str "pure"), ("parameters", .obj [("parameters", .arr
      [.obj [("id", .int 2), ("name", .str "x")]])]),
    ("body", .obj [("nodeType", .str "Block"), ("statements", .arr [.obj (returnNode value)])])]

def callNode (src : String) (argument : Members) : Members :=
  [("nodeType", .str "FunctionCall"), ("src", .str src), ("expression", .obj (nameNode "f" 1 "41:1:0")),
    ("arguments", .arr [.obj argument])]

def callTreeOf (src : String) (argument : Members) : Json :=
  .obj [("nodes", .arr [.obj (functionNode returnedNode), .obj (callNode src argument)])]

def doubleFront : Chars :=
  "function f(uint x) \x7b return x * 2; \x7d y = ".toList

/-- A call of the function that doubles, with one argument. -/
def doubleUse (src : String) (argument : Passed) : Use where
  site := ⟨.obj (callNode src argument.members), functionNode returnedNode, returnNode returnedNode⟩
  parameters := [⟨.obj [("id", .int 2), ("name", .str "x")], .whole 2, ['x']⟩]
  arguments := [argument]
  start := 28
  returned := [(['x'], some ['x']), ([' ', '*', ' ', '2'], none)]

theorem doubleUse_spans :
    Spans (encode (doubleFront ++ t)) (.obj returnedNode) 28 ['x', ' ', '*', ' ', '2'] := by
  have hcut : doubleFront = doubleFront.take 28 ++ (['x', ' ', '*', ' ', '2'] ++ doubleFront.drop 33) := by
    decide
  refine ⟨by decide, encode (doubleFront.take 28), encode (doubleFront.drop 33 ++ t), ?_,
    by decide⟩
  rw [← encode_append, ← encode_append, ← append_assoc _ _ t, ← append_assoc _ _ t, ← hcut]

theorem doubleUse_shown (src : String) (argument : Passed)
    (ha : Spans (encode (doubleFront ++ t)) (.obj argument.members) argument.start argument.text) :
    (doubleUse src argument).Shown (encode (doubleFront ++ t)) where
  parameters := ⟨_, rfl, rfl⟩
  parameter p hp := by
    obtain rfl := mem_singleton.1 hp
    exact ⟨⟨_, rfl, rfl⟩, rfl⟩
  distinct := nodup_singleton _
  arguments := rfl
  argument a ha' := by
    obtain rfl := mem_singleton.1 ha'
    exact ha
  arity := rfl
  spans := doubleUse_spans
  place x w hx := by
    rcases mem_cons.1 hx with hx | hx
    · cases hx
      exact ⟨by decide, forall_mem_of_all rfl⟩
    · cases mem_singleton.1 hx
  uses := ⟨[some ⟨0, 1, ['x']⟩], .cons (.parameter mem_cons_self rfl rfl rfl) .nil, .of_eq rfl⟩

def sumPassed : Passed :=
  ⟨operationNode "43:5:0" (nameNode "a" 3 "43:1:0") (literalNode "47:1:0"), 43, "a + 1".toList⟩

theorem inlinedText_in_place_double :
    (doubleUse "41:8:0" sumPassed).Shown (encode (doubleFront ++ "f(a + 1);".toList)) ∧
    inlinedText (encode (doubleFront ++ "f(a + 1);".toList)) (doubleUse "41:8:0" sumPassed).site =
      .ok (some "(a + 1) * 2".toList) := by
  have hshown := doubleUse_shown "41:8:0" sumPassed (t := "f(a + 1);".toList)
    ⟨by decide, encode (doubleFront ++ "f(".toList), encode ");".toList, by decide, by decide⟩
  obtain ⟨hrun, hplace⟩ := inlinedText_in_place_iff hshown
  have hbytes := hplace.2 (.inr ⟨forall_mem_of_all (by decide), .inl nofun⟩) (doubleUse "41:8:0" sumPassed).put
  rw [← encode_replaced] at hbytes
  have htext : replaced (doubleUse "41:8:0" sumPassed).put (doubleUse "41:8:0" sumPassed).returned =
      "(a + 1) * 2".toList := by decide
  rw [encode_injective hbytes, htext] at hrun
  exact ⟨hshown, hrun⟩

def accentFront : Chars :=
  "function f(string memory x) \x7b return string.concat(unicode\"é\", x); \x7d y = ".toList

def accentTree : Json :=
  .obj [("nodes", .arr [.obj (functionNode [("nodeType", .str "FunctionCall"), ("src", .str "37:29:0"),
      ("arguments", .arr [.obj (literalNode "51:11:0"), .obj (nameNode "x" 2 "64:1:0")])]),
    .obj (callNode "74:4:0" (nameNode "a" 3 "76:1:0"))])]

/-- **A place behind a longer character** is missed: the parameter stays, and what
stands behind it is overwritten. -/
theorem place_behind_accent_missed :
    inlineCallsWith (accentFront ++ "f(a);".toList) accentTree =
      .ok (accentFront ++ "string.concat(unicode\"é\", xa;".toList) := by
  decide +kernel

end Obscura.Flow
