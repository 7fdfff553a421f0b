import Obscura.Proofs.ContractHeader
import Obscura.Proofs.Utf8

/-
  Where the helper of opaque predicates lands. It is put, once, behind the last brace
  of the line of the first header, if there is such a line at all; so it is a member
  of a contract exactly if this brace opens the body of a contract, or stands in a
  line comment between the members of one. If no condition stands before the end of
  the line, this can be told from the source (`helper_stands_in_contract_iff`).
-/

namespace Obscura.Flow

open Text Ast List

variable {a out rest source t u v : Chars} {c : Chaotic} {cs : List Condition} {k n : Nat}
  {p q s : Bytes}

/-! ## What stands before all conditions -/

theorem splice_append {α : Type} (p q x : List α) {i j : Int} (hi : (p.length : Int) ≤ i) :
    ∃ q', splice (p ++ q) i j x = p ++ q' := by
  have hplace : p.length ≤ place (p ++ q).length i := by
    unfold place
    rw [if_neg (by omega), length_append]
    omega
  refine ⟨q.take (place (p ++ q).length i - p.length) ++ x ++ (p ++ q).drop (max (place (p ++ q).length i)
    (place (p ++ q).length j)), ?_⟩
  unfold splice
  dsimp only
  rw [take_append, take_of_length_le hplace, append_assoc, append_assoc, append_assoc]

theorem strengthen_append {r : Range} {out : Bytes × Nat}
    (hr : (p.length : Int) ≤ r.start) (h : strengthen c s (p ++ q, k) r = .ok out) : ∃ q', out.1 = p ++ q' := by
  unfold strengthen at h
  split at h
  · cases h
    exact ⟨q, rfl⟩
  obtain ⟨condition, -, h⟩ := bind_ok.1 h
  split at h
  · cases h
    exact ⟨q, rfl⟩
  · cases h
    exact splice_append p q _ hr

theorem foldlM_strengthen_append {rs : List Range} {out : Bytes × Nat}
    (hrs : ∀ r ∈ rs, (p.length : Int) ≤ r.start) (h : rs.foldlM (strengthen c s) (p ++ q, k) = .ok out) :
    ∃ q', out.1 = p ++ q' := by
  induction rs generalizing q k with
  | nil =>
    cases h
    exact ⟨q, rfl⟩
  | cons r rs ih =>
    obtain ⟨hr, hrs⟩ := forall_mem_cons.1 hrs
    rw [foldlM_cons] at h
    obtain ⟨⟨_, m⟩, hstep, h⟩ := bind_ok.1 h
    obtain ⟨q', rfl⟩ := strengthen_append hr hstep
    exact ih hrs h

theorem exists_of_decode?_append {bs : Bytes} (h : decode? (encode u ++ bs) = some t) :
    ∃ v, t = u ++ v := by
  rw [decode?, readChars_encode, mapM_append, mapM_id_map_some] at h
  obtain ⟨_, hu, h⟩ := Option.bind_eq_some_iff.1 h
  cases hu
  obtain ⟨v, -, hv⟩ := Option.bind_eq_some_iff.1 h
  cases hv
  exact ⟨v, rfl⟩

theorem strengthenAll_append (hcs : ∀ r ∈ conditionRanges cs, ((encode u).length : Int) ≤ r.start)
    (h : strengthenAll c (u ++ v) cs = .ok (out, n)) : ∃ v', out = u ++ v' := by
  unfold strengthenAll at h
  obtain ⟨⟨bs, m⟩, hfold, h⟩ := bind_ok.1 h
  obtain ⟨t, ht, h⟩ := bind_ok.1 h
  cases h
  rw [encode_append] at hfold
  obtain ⟨q, rfl⟩ := foldlM_strengthen_append hcs hfold
  unfold decoded at ht
  split at ht
  · rename_i t' ht'
    cases ht
    exact exists_of_decode?_append ht'
  · cases ht

/-! ## Putting the helper in -/

/-- The helper stands in the text once more than before: behind the first header, which ends with `a`. -/
def HelperAdded (c : Chaotic) (text result a : Chars) : Prop :=
  ∃ rest, FirstHeader text a rest ∧ result = a ++ '\x7b' :: (components c ++ rest)

theorem addHelper_of_firstHeader (c : Chaotic) (h : FirstHeader t a rest) :
    addHelper c t = some (a ++ '\x7b' :: (components c ++ rest)) := by
  have hlen : a.length + 1 = (a ++ ['\x7b']).length := by rw [length_append]; rfl
  rw [addHelper, bodyStart?_eq_some_iff.2 ⟨a, rest, h, rfl⟩, h.1, append_cons, hlen, Option.map_some,
    take_left, drop_left, append_assoc, append_assoc]
  rfl

theorem addHelper_of_not_firstHeader (c : Chaotic) (h : ∀ a rest, ¬FirstHeader t a rest) :
    addHelper c t = none := by
  rw [addHelper, Option.map_eq_none_iff, Option.eq_none_iff_forall_ne_some]
  intro n hn
  obtain ⟨a, rest, hfirst, -⟩ := bodyStart?_eq_some_iff.1 hn
  exact h a rest hfirst

theorem firstHeader_of_bodyStart? (ht : t = a ++ '\x7b' :: rest)
    (h : bodyStart? t = some (a.length + 1)) : FirstHeader t a rest := by
  obtain ⟨a', rest', hfirst, hlen⟩ := bodyStart?_eq_some_iff.1 h
  obtain ⟨rfl, hrest⟩ := append_inj (ht.symm.trans hfirst.1) (Nat.succ.inj hlen)
  obtain ⟨-, rfl⟩ := cons.inj hrest
  exact hfirst

/-- The first header of a text whose conditions all stand behind the line of it. -/
theorem exists_firstHeader {b r : Chars} (hfirst : FirstHeader source b (r ++ '\n' :: v))
    (hcs : ∀ q ∈ conditionRanges cs, ((encode (b ++ '\x7b' :: (r ++ ['\n']))).length : Int) ≤ q.start)
    (h : strengthenAll c source cs = .ok (out, n)) :
    ∃ a rest, FirstHeader (weakenPure out) a rest ∧ Weakened b a := by
  have hstart : bodyStart? source = some (b.length + 1) := bodyStart?_eq_some_iff.2 ⟨b, _, hfirst, rfl⟩
  have hline (w : Chars) : b ++ '\x7b' :: (r ++ ['\n']) ++ w = b ++ '\x7b' :: r ++ '\n' :: w := by
    simp only [append_assoc, cons_append, nil_append]
  have hsource : source = b ++ '\x7b' :: r ++ '\n' :: v := by
    rw [hfirst.1, append_assoc]
    rfl
  rw [hsource, ← hline] at h
  obtain ⟨v', rfl⟩ := strengthenAll_append hcs h
  have hweak : Weakened (b ++ '\x7b' :: (r ++ ['\n']) ++ v') (weakenPure _) := weakened_replaceWord none
  have hsame : bodyStart? (weakenPure (b ++ '\x7b' :: (r ++ ['\n']) ++ v')) = some (b.length + 1) := by
    rw [hsource] at hstart
    rw [hweak.bodyStart?_eq, hline]
    refine bodyStart?_append hstart ?_
    rw [length_append, length_cons]
    omega
  obtain ⟨a, rest, ha, hlen⟩ := bodyStart?_eq_some_iff.1 hsame
  obtain ⟨b', r', hb', hwb⟩ := hweak.cut (a := b) (d := '\x7b') (r := r ++ ['\n'] ++ v')
    (by simp only [append_assoc, cons_append]) (by decide)
  rw [ha.1] at hb'
  obtain ⟨rfl, -⟩ := append_inj hb' (by rw [hwb.length_eq]; omega)
  exact ⟨a, rest, ha, hwb⟩

/-- The pass goes through if it has a tree and strengthens a condition. -/
theorem insertOpaque_ok {version : String} {path : Option String}
    {σ σ₁ : Session} {tree : Json}
    (htree : opaqueTree version source path σ = (.ok (some tree), σ₁)) (hconditions : conditions tree = .ok cs)
    (hstrong : strengthenAll c source cs = .ok (out, n)) (hn : n ≠ 0) :
    ∃ σ', insertOpaque c version source path σ =
      (.ok ((addHelper c (weakenPure out)).getD (weakenPure out)), σ') := by
  have hne : cs.isEmpty = false := by
    rw [isEmpty_eq_false_iff]
    rintro rfl
    have hranges : conditionRanges [] = [] := by simp [conditionRanges]
    rw [strengthenAll, hranges] at hstrong
    obtain ⟨⟨bs, m⟩, hfold, h⟩ := bind_ok.1 hstrong
    cases hfold
    obtain ⟨t, -, ht⟩ := bind_ok.1 h
    cases ht
    exact hn rfl
  unfold insertOpaque
  rw [Run.bind_of_ok htree]
  dsimp only
  rw [Run.bind_of_ok (Run.ofExcept_ok.2 ⟨hconditions, rfl⟩), hne, if_neg Bool.false_ne_true]
  rw [Run.bind_of_ok (Run.ofExcept_ok.2 ⟨hstrong, rfl⟩)]
  dsimp only
  rw [if_neg hn]
  cases addHelper c (weakenPure out) with
  | none => exact ⟨_, rfl⟩
  | some t => exact ⟨_, rfl⟩

/-- **Where the helper lands.** The pass puts it behind the last brace of the line of the first
header, and nowhere if there is no such line. There it is a member of a contract exactly if this
brace opens the body of a contract or stands in a line comment between members. If no condition
starts before the end of that line in the source, the header and its brace are those of the source. -/
theorem helper_stands_in_contract_iff (draws : Draws) {version : String}
    {source out : Chars} {path : Option String}
    {σ σ₁ : Session} {tree : Json} {cs : List Condition} {n : Nat}
    (htree : opaqueTree version source path σ = (.ok (some tree), σ₁)) (hconditions : conditions tree = .ok cs)
    (hstrong : strengthenAll (Chaotic.draw draws).1 source cs = .ok (out, n)) (hn : n ≠ 0) :
    ∃ result σ', insertOpaque (Chaotic.draw draws).1 version source path σ = (.ok result, σ') ∧
      ((∀ a rest, ¬FirstHeader (weakenPure out) a rest) ∧ result = weakenPure out ∨
        ∃ a, HelperAdded (Chaotic.draw draws).1 (weakenPure out) result a ∧
          (HelperStands (Chaotic.draw draws).1 (a ++ ['\x7b']) ↔ OpensContract a ∨ InMemberRemark a)) ∧
      ∀ b r v, FirstHeader source b (r ++ '\n' :: v) →
        (∀ q ∈ conditionRanges cs, ((encode (b ++ '\x7b' :: (r ++ ['\n']))).length : Int) ≤ q.start) →
        ∃ a, HelperAdded (Chaotic.draw draws).1 (weakenPure out) result a ∧
          (HelperStands (Chaotic.draw draws).1 (a ++ ['\x7b']) ↔ OpensContract b ∨ InMemberRemark b) := by
  have hnamed := Nesting.isNamed_draw draws
  obtain ⟨σ', hrun⟩ := insertOpaque_ok htree hconditions hstrong hn
  have hadded {a rest : Chars} (h : FirstHeader (weakenPure out) a rest) :
      HelperAdded (Chaotic.draw draws).1 (weakenPure out)
        ((addHelper (Chaotic.draw draws).1 (weakenPure out)).getD (weakenPure out)) a := by
    rw [addHelper_of_firstHeader _ h]
    exact ⟨rest, h, rfl⟩
  refine ⟨_, σ', hrun, ?_, fun b r v hfirst hcs => ?_⟩
  · by_cases hheader : ∃ a rest, FirstHeader (weakenPure out) a rest
    · obtain ⟨a, rest, h⟩ := hheader
      exact .inr ⟨a, hadded h, helperStands_iff hnamed a⟩
    · have hnone : ∀ a rest, ¬FirstHeader (weakenPure out) a rest := fun a rest h => hheader ⟨a, rest, h⟩
      rw [addHelper_of_not_firstHeader _ hnone]
      exact .inl ⟨hnone, rfl⟩
  · obtain ⟨a, rest, h, hweak⟩ := exists_firstHeader hfirst hcs hstrong
    refine ⟨a, hadded h, ?_⟩
    rw [helperStands_iff hnamed, hweak.opensContract_iff, hweak.inMemberRemark_iff]

/-! ### Two sources -/

/-- A contract with one branch, whose condition has the given range. -/
def branchTree (src : String) : Json :=
  .obj [("nodeType", .str "SourceUnit"), ("nodes", .arr [
    .obj [("nodeType", .str "ContractDefinition"), ("nodes", .arr [
    .obj [("nodeType", .str "FunctionDefinition"),
      ("body", .obj [("nodeType", .str "Block"), ("statements", .arr [
      .obj [("nodeType", .str "IfStatement"),
        ("condition", .obj [("nodeType", .str "Identifier"), ("src", .str src)])]])])]])]])]

def compiling (tree : Json) : Session where
  compiler := { answers := [some fun path => [(path ++ ":C", some tree)]] }

theorem opaqueTree_compiling (hsource : source ≠ []) (tree : Json) (htree : tree.isSet) :
    opaqueTree defaultVersion source none (compiling tree) = (.ok (some tree), {}) := by
  have hunder : treeUnder scratchPath [(scratchPath ++ ":C", some tree)] = some tree := by
    unfold treeUnder
    split
    · rename_i u hu
      rw [mem_singleton.1 (mem_of_find?_eq_some hu)]
    · rfl
  have htext : treeOfText (compiling tree) =
      (.ok ((treeUnder scratchPath [(scratchPath ++ ":C", some tree)]).filter Json.isSet), {}) := rfl
  rw [hunder, Option.filter_some_pos htree] at htext
  obtain ⟨c, s, rfl⟩ := exists_cons_of_ne_nil hsource
  exact htext

/-- The body starts on a line of its own. -/
def branchBelowHeader : Chars :=
  "contract C\x7b\nbool a;function f()public\x7bif(a)\x7b\x7d\x7d\x7d".toList

theorem helper_stands_behind_header :
    ∃ result σ' a rest, insertOpaque (Chaotic.draw (.stream [] 0)).1 defaultVersion branchBelowHeader none
        (compiling (branchTree "41:1:0")) = (.ok result, σ') ∧
      result = a ++ '\x7b' :: (components (Chaotic.draw (.stream [] 0)).1 ++ rest) ∧
      HelperStands (Chaotic.draw (.stream [] 0)).1 (a ++ ['\x7b']) := by
  have hstrong : strengthenAll (Chaotic.draw (.stream [] 0)).1 branchBelowHeader [⟨.ifStatement,
      .str "41:1:0"⟩] =
      .ok ("contract C\x7b\nbool a;function f()public\x7bif(".toList
        ++ "(a) && (calculateCPM_6830(cpm_x_1048) % int256(2) == int256(0))".toList
        ++ ")\x7b\x7d\x7d\x7d".toList, 1) := by
    decide +kernel
  have hfirst : FirstHeader branchBelowHeader "contract C".toList
      ([] ++ '\n' :: "bool a;function f()public\x7bif(a)\x7b\x7d\x7d\x7d".toList) :=
    firstHeader_of_bodyStart? (by decide) (by decide)
  have hopens : OpensContract "contract C".toList := by decide +kernel
  obtain ⟨result, σ', hrun, -, hplace⟩ := helper_stands_in_contract_iff (.stream [] 0)
    (opaqueTree_compiling (by decide) (branchTree "41:1:0") rfl) rfl hstrong (by decide)
  obtain ⟨a, ⟨rest, -, hresult⟩, hstands⟩ := hplace _ _ _ hfirst (by decide +kernel)
  exact ⟨result, σ', a, rest, hrun, hresult, hstands.2 (.inl hopens)⟩

/-- All of the contract is one line. -/
def branchBesideHeader : Chars :=
  "contract C\x7bbool a;function f()public\x7bif(a)\x7b\x7d\x7d\x7d".toList

/-- What stands before the last brace of the line when the condition is strengthened. -/
def upToBranch : Chars :=
  "contract C\x7b".toList ++ ("bool a;function f()public".toList ++ '\x7b' ::
    "if((a) && (calculateCPM_6830(cpm_x_1048) % int256(2) == int256(0)))".toList)

/-- On the line of the header the last brace is that of the branch, and the helper lands there. -/
theorem helper_lands_in_branch :
    (∃ σ', insertOpaque (Chaotic.draw (.stream [] 0)).1 defaultVersion branchBesideHeader none
        (compiling (branchTree "40:1:0")) =
      (.ok (upToBranch ++ '\x7b' :: (components (Chaotic.draw (.stream [] 0)).1 ++
        "\x7d\x7d\x7d".toList)), σ')) ∧
      ¬HelperStands (Chaotic.draw (.stream [] 0)).1 (upToBranch ++ ['\x7b']) := by
  have hstrong : strengthenAll (Chaotic.draw (.stream [] 0)).1 branchBesideHeader [⟨.ifStatement,
      .str "40:1:0"⟩] =
      .ok (upToBranch ++ '\x7b' :: "\x7d\x7d\x7d".toList, 1) := by
    decide +kernel
  have hfirst : FirstHeader (weakenPure (upToBranch ++ '\x7b' :: "\x7d\x7d\x7d".toList)) upToBranch
      "\x7d\x7d\x7d".toList :=
    firstHeader_of_bodyStart? (by decide +kernel) (by decide +kernel)
  have hcontract : Nesting.Within 1 (Nesting.reader.read "contract C\x7b".toList) :=
    Nesting.within_iff.2 (by decide +kernel)
  have hbranch : Nesting.Within 2 (Nesting.reader.read upToBranch) :=
    hcontract.read_append_open (by decide) (by decide)
  have hsource : branchBesideHeader ≠ [] := by decide
  obtain ⟨σ', hrun⟩ := insertOpaque_ok (opaqueTree_compiling hsource
    (branchTree "40:1:0") rfl) rfl hstrong (by decide)
  rw [addHelper_of_firstHeader _ hfirst] at hrun
  refine ⟨⟨σ', hrun⟩, fun h => ?_⟩
  rcases (helperStands_iff (Nesting.isNamed_draw _) _).1 h with ⟨-, -, hdepth⟩ | ⟨hline, -⟩
  · cases hbranch.depth.symm.trans hdepth
  · cases hbranch.code.symm.trans hline

end Obscura.Flow
