import Mathlib.Data.List.Perm.Basic
import Obscura.Proofs.Chunks
import Obscura.Proofs.Except
import Obscura.Proofs.Session
import Obscura.Rename.Renamer

/-
  Renaming one name after the other is one substitution of all names at once. A
  replaced name was a whole word and becomes a whole word, so that the words of a
  text change one by one (`chunks_replaceWord`); no new name is itself a name, so
  that no word changes twice (`foldl_exchanged`).
-/

namespace Obscura.Text

open List

variable {before : Option Char} {c : Char} {ks : List Chunk} {s v w whole x : Chars}

/-! ## One name -/

def Chunk.exchanged (w x : Chars) (k : Chunk) : Chunk :=
  if k = .word w then .word x else k

/-- A text made of word characters only. -/
def IsRun (w : Chars) : Prop :=
  w ≠ [] ∧ ∀ c ∈ w, isWord c = true

theorem wordAhead_iff {w : Chars} :
    wordAhead w before s ↔ ∃ r, s = w ++ r ∧ isBoundary before s.head? ∧
      isBoundary (w.getLast?.or before) r.head? := by
  unfold wordAhead
  cases h : stripFront? w s with
  | none =>
    constructor
    · intro hfalse
      cases hfalse
    · rintro ⟨r, hr, -⟩
      rw [stripFront?_eq_some_iff.2 hr] at h
      cases h
  | some r =>
    rw [stripFront?_eq_some_iff] at h
    constructor
    · intro hb
      rw [Bool.and_eq_true] at hb
      exact ⟨r, h, hb⟩
    · rintro ⟨r', hr', hb⟩
      obtain rfl := append_cancel_left (h.symm.trans hr')
      exact Bool.and_eq_true_iff.2 hb

theorem replaceWord_nil :
    replaceWord w x before [] = [] := by
  rw [replaceWord]

theorem replaceWord_skip {w x : Chars} {t : Chars} (h : wordAhead w before (c :: t) = false) :
    replaceWord w x before (c :: t) = c :: replaceWord w x (some c) t := by
  rw [replaceWord, dif_neg (by simp [h])]

theorem replaceWord_found {w x : Chars} (hw : w ≠ []) {before : Option Char} {r : Chars}
    (h : wordAhead w before (w ++ r)) :
    replaceWord w x before (w ++ r) = x ++ replaceWord w x w.getLast? r := by
  obtain ⟨c, v, rfl⟩ := exists_cons_of_ne_nil hw
  rw [cons_append] at h ⊢
  rw [replaceWord, dif_pos ⟨hw, h⟩]
  congr 2
  simp

theorem replaceWord_inside (w x : Chars) {b : Char} (hb : isWord b)
    (hv : ∀ c ∈ v, isWord c) (r : Chars) :
    ∃ d, replaceWord w x (some b) (v ++ r) = v ++ replaceWord w x (some d) r := by
  induction v generalizing b with
  | nil => exact ⟨b, rfl⟩
  | cons c v ih =>
    have hc := hv c mem_cons_self
    have hnone : wordAhead w (some b) (c :: (v ++ r)) = false := by
      rw [Bool.eq_false_iff]
      intro h
      obtain ⟨-, -, hbound, -⟩ := wordAhead_iff.1 h
      simp [isBoundary, hb, hc] at hbound
    obtain ⟨d, hrest⟩ := ih hc fun e he => hv e (.tail _ he)
    refine ⟨d, ?_⟩
    rw [cons_append, replaceWord_skip hnone, hrest, cons_append]

theorem exchanged_mark (w x : Chars) (c : Char) :
    (Chunk.mark c).exchanged w x = .mark c := if_neg (by simp)

theorem exchanged_word {w x : Chars} (hx : IsRun x) (hv : IsRun v) :
    ∃ v', IsRun v' ∧ (Chunk.word v).exchanged w x = .word v' := by
  by_cases h : Chunk.word v = .word w
  · exact ⟨x, hx, if_pos h⟩
  · exact ⟨v, hv, if_neg h⟩

/-- Words that are exchanged for words stand apart as before. -/
theorem Separated.map {f : Chunk → Chunk} (hmark : ∀ c, f (.mark c) = .mark c)
    (hword : ∀ v, IsRun v → ∃ v', IsRun v' ∧ f (.word v) = .word v') (h : Separated ks) :
    Separated (ks.map f) ∧
      isWordAt ((ks.map f).flatMap Chunk.text).head? = isWordAt (ks.flatMap Chunk.text).head? := by
  induction ks with
  | nil => exact ⟨trivial, rfl⟩
  | cons k ks ih =>
    rw [map_cons, flatMap_cons, flatMap_cons]
    cases k with
    | mark c =>
      rw [hmark]
      exact ⟨⟨h.1, (ih h.2).1⟩, rfl⟩
    | word v =>
      obtain ⟨hv, hend, hrest⟩ := h
      obtain ⟨hsep, hhead⟩ := ih hrest
      obtain ⟨v', hv', heq⟩ := hword v hv
      rw [heq]
      refine ⟨⟨hv', hhead.trans hend, hsep⟩, ?_⟩
      rw [Chunk.text, Chunk.text, isWordAt_head?_append hv'.1 hv'.2,
        isWordAt_head?_append hv.1 hv.2]

section Word

variable {w x t : Chars} (hw : IsRun w)

include hw

theorem wordAhead_mark (hc : isWord c = false) :
    wordAhead w before (c :: t) = false := by
  rw [Bool.eq_false_iff]
  intro h
  obtain ⟨r, hr, -⟩ := wordAhead_iff.1 h
  obtain ⟨d, v, rfl⟩ := exists_cons_of_ne_nil hw.1
  obtain ⟨rfl, -⟩ := cons.inj hr
  have := hw.2 c mem_cons_self
  rw [hc] at this
  cases this

theorem wordAhead_run {r : Chars} (hv : IsRun v) (hr : isWordAt r.head? = false)
    (hbefore : isWordAt before = false) :
    wordAhead w before (v ++ r) ↔ v = w := by
  rw [wordAhead_iff]
  have hlast : isWordAt (w.getLast?.or before) := by
    rw [getLast?_eq_some_getLast hw.1]
    exact hw.2 _ (getLast_mem hw.1)
  constructor
  · rintro ⟨r', heq, -, hbound⟩
    rw [isBoundary, hlast] at hbound
    have hr' : isWordAt r'.head? = false := by simpa using hbound
    have hcut {u t : Chars} (hu : IsRun u) (ht : isWordAt t.head? = false) :
        (u ++ t).takeWhile isWord = u := by
      refine takeWhile_run hu.2 fun c hc => ?_
      rwa [hc] at ht
    rw [← hcut hv hr, heq, hcut hw hr']
  · rintro rfl
    refine ⟨r, rfl, ?_, ?_⟩
    · rw [isBoundary, hbefore, isWordAt_head?_append hv.1 hv.2]
      rfl
    · rw [isBoundary, hlast, hr]
      rfl

/-- The induction runs over the chunks; what stands before a chunk is no word, or the
chunk is a mark. -/
theorem replaceWord_flatMap (hks : Separated ks)
    (h : isWordAt before = false ∨ isWordAt (ks.flatMap Chunk.text).head? = false) :
    replaceWord w x before (ks.flatMap Chunk.text) =
      ks.flatMap fun k => (k.exchanged w x).text := by
  induction ks generalizing before with
  | nil => exact replaceWord_nil
  | cons k ks ih =>
    rw [flatMap_cons, flatMap_cons]
    cases k with
    | mark c =>
      rw [exchanged_mark, Chunk.text, singleton_append, singleton_append,
        replaceWord_skip (wordAhead_mark hw hks.1),
        ih hks.2 (.inl (show isWordAt (some c) = false from hks.1))]
    | word v =>
      obtain ⟨hv, hend, hrest⟩ := hks
      have hbefore : isWordAt before = false := by
        refine h.resolve_right fun hhead => ?_
        rw [flatMap_cons, Chunk.text, isWordAt_head?_append hv.1 hv.2] at hhead
        cases hhead
      have hfind := wordAhead_run hw hv hend hbefore
      by_cases heq : v = w
      · subst heq
        have hswap : (Chunk.word v).exchanged v x = .word x := if_pos rfl
        rw [hswap, Chunk.text, replaceWord_found hv.1 (hfind.2 rfl), ih hrest (.inr hend)]
        rfl
      · have hkeep : (Chunk.word v).exchanged w x = .word v := if_neg (by simpa using heq)
        have hnone : wordAhead w before (v ++ ks.flatMap Chunk.text) = false :=
          Bool.eq_false_iff.2 fun hahead => heq (hfind.1 hahead)
        rw [hkeep, Chunk.text]
        obtain ⟨c, v, rfl⟩ := exists_cons_of_ne_nil hv.1
        obtain ⟨d, hinside⟩ := replaceWord_inside w x (hv.2 c mem_cons_self)
          (fun e he => hv.2 e (.tail _ he)) (ks.flatMap Chunk.text)
        rw [cons_append] at hnone ⊢
        rw [replaceWord_skip hnone, hinside, ih hrest (.inr hend)]
        rfl

/-- **The words of a text change one by one** when a name is replaced. -/
theorem chunks_replaceWord (hx : IsRun x) (s : Chars) :
    chunks (replaceWord w x none s) = (chunks s).map (Chunk.exchanged w x) := by
  have hsep := separated_chunks s
  have htext := replaceWord_flatMap hw (x := x) hsep (.inl isWordAt_none)
  rw [flatMap_text_chunks] at htext
  have hnew := hsep.map (exchanged_mark w x) fun v hv => exchanged_word hx hv
  rw [htext, ← flatMap_map, chunks_of_separated hnew.1]

end Word

/-! ## Templates -/

theorem parseFrom_of_not_mem (hs : '\\' ∉ s) {fuel : Nat} (hf : s.length < fuel)
    (acc : List TemplatePart) :
    Template.parseFrom fuel acc s = .ok (acc.reverse ++ s.map .char) := by
  induction s generalizing fuel acc with
  | nil =>
    cases fuel with
    | zero => cases hf
    | succ fuel => simp [Template.parseFrom]
  | cons c s ih =>
    obtain ⟨hc, hs⟩ := not_or.1 (mem_cons.not.1 hs)
    cases fuel with
    | zero => cases hf
    | succ fuel =>
      rw [Template.parseFrom, ih hs (Nat.lt_of_succ_lt_succ hf)]
      · simp
      · rintro rfl -
        exact hc rfl
      · rintro _ _ rfl
        exact absurd rfl hc

theorem parse_of_not_mem (hs : '\\' ∉ s) : Template.parse s = .ok (s.map .char) :=
  parseFrom_of_not_mem hs (Nat.lt_succ_self _) []

theorem expand_map_char :
    Template.expand (s.map .char) whole = s := by
  induction s with
  | nil => rfl
  | cons c s ih => exact congrArg (c :: ·) ih

end Obscura.Text

namespace Obscura.Rename

open Text Json List

/-! ## What is asked for -/

def namesByTree (source : Chars) : Option String → Run Names
  | none => namesOf source none
  | some p => do
    if (← Run.files).exist p then
      match ← Run.attempt (namesInFile p) with
      | .ok names => return names
      | .error _ =>
        Run.say ("[WARN] Could not load pre-generated AST " ++ p ++ ": <detail>")
        namesOf source none
    else namesOf source none

/-- What a renamer is asked for: to rename by the tree of the source itself, or by the
tree in a file. -/
inductive Request where
  | own (path : Option String)
  | kept (path : Option String)

def Request.names (source : Chars) : Request → Run Names
  | .own path => namesOf source path
  | .kept path => namesByTree source path

def Request.run (cfg : Settings) (t : Table) (source : Chars) : Request → Run Outcome
  | .own path => rename cfg t source path
  | .kept path => renameByTree cfg t source path

variable {cfg : Settings} {order : List String} {path : Option String} {t : Table}
  {v x source : Chars} {w : String} {σ σ' : Session} {new : String → Chars}
  {names : Names} {r : Request}

/-! ## All names -/

theorem isWord_of_ascii {c : Char} (h : (c.isAlphanum || c == '_')) :
    isWord c ∧ c ≠ '\\' := by
  have hc : c.toNat < 128 := by
    rcases Bool.or_eq_true_iff.1 h with h | h
    · exact toNat_lt_of_isAlphanum h
    · rw [beq_iff_eq.1 h]
      decide
  refine ⟨(isWord_eq hc).trans h, ?_⟩
  rintro rfl
  cases h

theorem forall_of_looksLikeName {w : Chars} (h : looksLikeName w) :
    w ≠ [] ∧ ∀ c ∈ w, (c.isAlphanum || c == '_') := by
  cases w with
  | nil => cases h
  | cons c w =>
    obtain ⟨hc, hw⟩ := Bool.and_eq_true_iff.1 h
    refine ⟨cons_ne_nil c w, fun d hd => ?_⟩
    rcases mem_cons.1 hd with rfl | hd
    · rcases Bool.or_eq_true_iff.1 hc with hc | hc
      · simp [Char.isAlphanum, hc]
      · simp [hc]
    · exact all_eq_true.1 hw d hd

theorem isRun_of_looksLikeName {w : Chars} (h : looksLikeName w) : IsRun w :=
  ⟨(forall_of_looksLikeName h).1, fun c hc => (isWord_of_ascii ((forall_of_looksLikeName h).2 c hc)).1⟩

theorem not_mem_of_looksLikeName {w : Chars} (h : looksLikeName w) : '\\' ∉ w :=
  fun hmem => (isWord_of_ascii ((forall_of_looksLikeName h).2 _ hmem)).2 rfl

def renamed (names : List String) (new : String → Chars) : Chunk → Chunk
  | .word w => .word (if String.ofList w ∈ names then new (String.ofList w) else w)
  | .mark c => .mark c

theorem word_eq_iff : Chunk.word v = .word w.toList ↔ String.ofList v = w := by
  rw [Chunk.word.injEq]
  constructor
  · rintro rfl
    exact String.ofList_toList
  · rintro rfl
    exact String.toList_ofList.symm

def exchangedAll (new : String → Chars) (order : List String) (k : Chunk) : Chunk :=
  order.foldl (fun k w => k.exchanged w.toList (new w)) k

theorem exchangedAll_of_not_mem (new : String → Chars)
    (hv : String.ofList v ∉ order) : exchangedAll new order (.word v) = .word v := by
  unfold exchangedAll
  induction order with
  | nil => rfl
  | cons w order ih =>
    obtain ⟨hw, hrest⟩ := not_or.1 (mem_cons.not.1 hv)
    rw [foldl_cons, Chunk.exchanged, if_neg (word_eq_iff.not.2 hw), ih hrest]

/-- A new name is not exchanged again, so that the order of the names plays no part. -/
theorem exchangedAll_eq_renamed
    (h : ∀ w ∈ order, String.ofList (new w) ∉ order) (k : Chunk) :
    exchangedAll new order k = renamed order new k := by
  induction order with
  | nil => cases k <;> rfl
  | cons w order ih =>
    have hrest := ih fun u hu hmem => h u (.tail _ hu) (.tail _ hmem)
    rw [exchangedAll, foldl_cons, ← exchangedAll]
    cases k with
    | mark c =>
      rw [exchanged_mark]
      exact hrest
    | word v =>
      rw [Chunk.exchanged]
      by_cases hw : String.ofList v = w
      · have hnew : String.ofList (new w) ∉ order := fun hmem =>
          h w mem_cons_self (.tail _ hmem)
        rw [if_pos (word_eq_iff.2 hw), exchangedAll_of_not_mem new hnew]
        simp [renamed, hw]
      · rw [if_neg (word_eq_iff.not.2 hw), hrest]
        simp [renamed, hw]

theorem replaceName_ok (hfind : Assoc.find w t = some x)
    (hx : looksLikeName x) :
    replaceName t source w = .ok (replaceWord w.toList x none source) := by
  have hparse := parse_of_not_mem (not_mem_of_looksLikeName hx)
  unfold replaceName
  rw [hfind, Option.getD_some]
  dsimp only
  rw [hparse]
  dsimp only
  rw [expand_map_char]
  rfl

theorem foldlM_replaceName
    (hname : ∀ w ∈ order, looksLikeName w.toList)
    (hnew : ∀ w ∈ order, Assoc.find w t = some (new w) ∧ looksLikeName (new w))
    (source : Chars) :
    ∃ out, order.foldlM (replaceName t) source = .ok out ∧
      chunks out = (chunks source).map (exchangedAll new order) := by
  induction order generalizing source with
  | nil => exact ⟨source, rfl, (map_id _).symm⟩
  | cons w order ih =>
    obtain ⟨hfind, hx⟩ := hnew w mem_cons_self
    obtain ⟨out, hrun, hout⟩ := ih (fun u hu => hname u (.tail _ hu))
      (fun u hu => hnew u (.tail _ hu)) (replaceWord w.toList (new w) none source)
    refine ⟨out, ?_, ?_⟩
    · rw [foldlM_cons]
      exact bind_ok.2 ⟨_, replaceName_ok hfind hx, hrun⟩
    · rw [hout, chunks_replaceWord (isRun_of_looksLikeName (hname w mem_cons_self))
        (isRun_of_looksLikeName hx), map_map]
      rfl

/-! ## The table -/

/-- The word is among the names that were extracted. -/
def IsName (names : Names) (w : String) : Prop :=
  ∃ n ∈ names, n.2 = .str w

/-- What a part of the source becomes: a name its new name, and all else itself. -/
inductive RenamesTo (names : Names) (new : String → Chars) : Chunk → Chunk → Prop
  | name {w : Chars} (hw : IsName names (String.ofList w)) :
      RenamesTo names new (.word w) (.word (new (String.ofList w)))
  | other {w : Chars} (hw : ¬IsName names (String.ofList w)) : RenamesTo names new (.word w) (.word w)
  | mark (c : Char) : RenamesTo names new (.mark c) (.mark c)

theorem mem_longestFirst {w : String} :
    w ∈ longestFirst names ↔ IsName names w := by
  unfold longestFirst IsName
  rw [(mergeSort_perm _ _).mem_iff, mem_filterMap]
  constructor
  · rintro ⟨n, hn, hw⟩
    refine ⟨n, hn, ?_⟩
    split at hw
    · rename_i heq
      rw [heq, Option.some.inj hw]
    · cases hw
  · rintro ⟨n, hn, hw⟩
    exact ⟨n, hn, by rw [hw]⟩

theorem renamesTo_iff {k d : Chunk} :
    RenamesTo names new k d ↔ renamed (longestFirst names) new k = d := by
  constructor
  · intro h
    cases h with
    | name hw => rw [renamed, if_pos (mem_longestFirst.2 hw)]
    | other hw => rw [renamed, if_neg (mem_longestFirst.not.2 hw)]
    | mark c => rfl
  · rintro rfl
    cases k with
    | mark c => exact .mark c
    | word w =>
      rw [renamed]
      split
      · exact .name (mem_longestFirst.1 ‹_›)
      · exact .other (mem_longestFirst.not.1 ‹_›)

theorem forall₂_renamesTo_iff
    {l l' : List Chunk} :
    Forall₂ (RenamesTo names new) l l' ↔ l.map (renamed (longestFirst names) new) = l' := by
  rw [← forall₂_eq_eq_eq, forall₂_map_left_iff]
  exact ⟨.imp fun _ _ => renamesTo_iff.1, .imp fun _ _ => renamesTo_iff.2⟩

def mappedName (cfg : Settings) (t : Table) (w : String) : Except Fault Chars :=
  match Assoc.find w t with
  | some x => .ok x
  | none => newName cfg (.str w)

theorem find_append_singleton (v : String) :
    Assoc.find v (t ++ [(w, x)]) = (Assoc.find v t).or (if w = v then some x else none) := by
  induction t with
  | nil => rfl
  | cons e t ih =>
    rw [cons_append, Assoc.find, Assoc.find, ih]
    split <;> rfl

theorem mappedName_of_find (h : Assoc.find w t = some x) : mappedName cfg t w = .ok x := by
  rw [mappedName, h]

theorem mappedName_of_new (h : Assoc.find w t = none) : mappedName cfg t w = newName cfg (.str w) := by
  rw [mappedName, h]

/-- The table `t'` is `t` with names added under the new names that they were to get. -/
structure Grown (cfg : Settings) (t t' : Table) : Prop where
  keeps : ∀ {w x}, Assoc.find w t = some x → Assoc.find w t' = some x
  mapped : ∀ w, mappedName cfg t' w = mappedName cfg t w

theorem Grown.refl (cfg : Settings) (t : Table) : Grown cfg t t := ⟨fun h => h, fun _ => rfl⟩

theorem Grown.trans {t' t'' : Table} (h : Grown cfg t t') (h' : Grown cfg t' t'') : Grown cfg t t'' :=
  ⟨fun hx => h'.keeps (h.keeps hx), fun w => (h'.mapped w).trans (h.mapped w)⟩

theorem grown_append (hx : newName cfg (.str w) = .ok x) : Grown cfg t (t ++ [(w, x)]) where
  keeps := by
    intro v y hy
    rw [find_append_singleton, hy]
    rfl
  mapped := by
    intro v
    cases hv : Assoc.find v t with
    | some y =>
      have hkept : Assoc.find v (t ++ [(w, x)]) = some y := by
        rw [find_append_singleton, hv]
        rfl
      rw [mappedName_of_find hv, mappedName_of_find hkept]
    | none =>
      by_cases hwv : w = v
      · subst hwv
        have hadded : Assoc.find w (t ++ [(w, x)]) = some x := by
          rw [find_append_singleton, hv, if_pos rfl]
          rfl
        rw [mappedName_of_find hadded, mappedName_of_new hv, hx]
      · have hstill : Assoc.find v (t ++ [(w, x)]) = none := by
          rw [find_append_singleton, hv, if_neg hwv]
          rfl
        rw [mappedName_of_new hv, mappedName_of_new hstill]

theorem learn_cons {n : Key × Json} (hn : n.2 = .str w)
    (hx : mappedName cfg t w = .ok x) (names : Names) :
    ∃ t', learn cfg t (n :: names) = learn cfg t' names ∧ Assoc.find w t' = some x ∧
      Grown cfg t t' := by
  rw [learn, hn]
  dsimp only
  cases hfind : Assoc.find w t with
  | some y =>
    rw [mappedName_of_find hfind] at hx
    refine ⟨t, if_pos ?_, hfind.trans (congrArg some (Except.ok.inj hx)), .refl cfg t⟩
    rw [Assoc.has, hfind]
    rfl
  | none =>
    rw [mappedName_of_new hfind] at hx
    refine ⟨t ++ [(w, x)], ?_, ?_, grown_append hx⟩
    · rw [if_neg (by rw [Assoc.has, hfind]; simp), hx]
    · rw [find_append_singleton, hfind, if_pos rfl]
      rfl

theorem learn_ok
    (htext : ∀ n ∈ names, ∃ w, n.2 = .str w) {t : Table}
    (hnew : ∀ w, IsName names w → mappedName cfg t w = .ok (new w)) :
    ∃ t', learn cfg t names = (t', none) ∧ Grown cfg t t' ∧
      ∀ w, IsName names w → Assoc.find w t' = some (new w) := by
  induction names generalizing t with
  | nil =>
    refine ⟨t, rfl, .refl cfg t, ?_⟩
    rintro w ⟨n, hn, -⟩
    cases hn
  | cons n names ih =>
    obtain ⟨v, hv⟩ := htext n mem_cons_self
    obtain ⟨t₁, hstep, hfind, hgrown⟩ := learn_cons hv (hnew v ⟨n, mem_cons_self, hv⟩) names
    obtain ⟨t', hlearn, hgrown', hall⟩ := ih (fun m hm => htext m (.tail _ hm)) (t := t₁) (by
      rintro w ⟨m, hm, hw⟩
      rw [hgrown.mapped, hnew w ⟨m, .tail _ hm, hw⟩])
    refine ⟨t', hstep.trans hlearn, hgrown.trans hgrown', ?_⟩
    rintro w ⟨m, hm, hw⟩
    rcases mem_cons.1 hm with rfl | hm
    · rw [hv] at hw
      rw [← Json.str.inj hw]
      exact hgrown'.keeps hfind
    · exact hall w ⟨m, hm, hw⟩

/-- What comes of the given names, whatever the order in which they are replaced. -/
theorem renameNames_ok
    (hname : ∀ n ∈ names, ∃ w, n.2 = .str w ∧ looksLikeName w.toList)
    (hnew : ∀ w, IsName names w → mappedName cfg t w = .ok (new w) ∧
      looksLikeName (new w) ∧ ¬IsName names (String.ofList (new w)))
    (source : Chars) :
    ∃ t' out, renameNames cfg t names source = (t', .ok out) ∧
      chunks out = (chunks source).map (renamed (longestFirst names) new) ∧
      (∀ w, IsName names w → Assoc.find w t' = some (new w)) ∧
      ∀ order : List String, (∀ w, w ∈ order ↔ IsName names w) →
        order.foldlM (replaceName t') source = .ok out := by
  obtain ⟨t', hlearn, -, hfind⟩ := learn_ok (fun n hn => (hname n hn).imp fun w h => h.1)
    fun w hw => (hnew w hw).1
  have hrun (order : List String) (hmem : ∀ w, w ∈ order ↔ IsName names w) :
      ∃ out, order.foldlM (replaceName t') source = .ok out ∧
        chunks out = (chunks source).map (renamed (longestFirst names) new) := by
    have hlooks : ∀ w ∈ order, looksLikeName w.toList := by
      intro w hw
      obtain ⟨n, hn, hnw⟩ := (hmem _).1 hw
      obtain ⟨v, hv, hlook⟩ := hname n hn
      rw [hnw] at hv
      rwa [Json.str.inj hv]
    obtain ⟨out, hout, hchunks⟩ := foldlM_replaceName hlooks
      (fun w hw => ⟨hfind w ((hmem _).1 hw), (hnew w ((hmem _).1 hw)).2.1⟩) source
    refine ⟨out, hout, hchunks.trans (map_congr_left fun k _ => ?_)⟩
    rw [exchangedAll_eq_renamed fun w hw hw' => (hnew w ((hmem _).1 hw)).2.2 ((hmem _).1 hw')]
    cases k with
    | mark c => rfl
    | word v =>
      have hiff : String.ofList v ∈ order ↔ String.ofList v ∈ longestFirst names :=
        (hmem _).trans mem_longestFirst.symm
      simp only [renamed, hiff]
  obtain ⟨out, hout, hchunks⟩ := hrun _ fun _ => mem_longestFirst
  refine ⟨t', out, ?_, hchunks, hfind, fun order ho => ?_⟩
  · rw [renameNames, hlearn]
    dsimp only
    rw [hout]
  · obtain ⟨out', hout', hchunks'⟩ := hrun order ho
    have heq : out' = out := by
      rw [← flatMap_text_chunks out', ← flatMap_text_chunks out, hchunks', hchunks]
    rw [hout', heq]

/-! ## Where the names come from -/

/-- The names stand under their own keys, and none is protected. -/
def Allowed (names : Names) : Prop :=
  ∀ n ∈ names, n.2.key = .ok n.1 ∧ isProtected n.1 = false

theorem mem_of_mem_distinct {n : Key × Json} (h : n ∈ distinct names) :
    n ∈ names := by
  have hfold (acc : Names)
      (h : n ∈ names.foldl (fun acc n => if acc.any (·.1 = n.1) then acc else acc ++ [n]) acc) :
      n ∈ acc ∨ n ∈ names := by
    clear * - h
    induction names generalizing acc with
    | nil => exact .inl h
    | cons m names ih =>
      rcases ih _ h with hn | hn
      · dsimp only at hn
        split at hn
        · exact .inl hn
        · rcases mem_append.1 hn with hn | hn
          · exact .inl hn
          · exact .inr (mem_singleton.1 hn ▸ mem_cons_self)
      · exact .inr (.tail _ hn)
  simpa using hfold [] h

theorem allowed_renameable (h : ∀ n ∈ names, n.2.key = .ok n.1) :
    Allowed (renameable (distinct names)) := by
  intro n hn
  obtain ⟨hn, hfree⟩ := mem_filter.1 hn
  exact ⟨h n (mem_of_mem_distinct hn), by simpa using hfree⟩

theorem key_of_nameHere {ms : Members} {ns : Names}
    (h : nameHere ms = .ok ns) : ∀ n ∈ ns, n.2.key = .ok n.1 := by
  unfold nameHere at h
  split at h
  · dsimp only at h
    split at h
    · cases h
      simp
    · split at h
      · cases h
        simp
      · obtain ⟨k, hk, hns⟩ := bind_ok.1 h
        rw [pure_ok] at hns
        subst hns
        simpa using hk
  · cases h
    simp

theorem allowed_treeNames {tree : Json} (h : treeNames tree = .ok names) :
    Allowed (renameable names) := by
  obtain ⟨nss, hnss, hnames⟩ := bind_ok.1 h
  rw [pure_ok] at hnames
  subst hnames
  refine allowed_renameable fun n hn => ?_
  obtain ⟨ns, hns, hn⟩ := mem_flatten.1 hn
  obtain ⟨ms, -, hms⟩ := exists_of_mapM hnss ns hns
  exact key_of_nameHere hms n hn

theorem allowed_wordNames : Allowed (wordNames source) := by
  refine allowed_renameable fun n hn => ?_
  obtain ⟨w, -, rfl⟩ := mem_map.1 hn
  rfl

theorem Allowed.free (h : Allowed names) {w : String} (hw : IsName names w) :
    isReserved w = false ∧ w.isEmpty = false := by
  obtain ⟨n, hn, hnw⟩ := hw
  obtain ⟨hkey, hfree⟩ := h n hn
  rw [hnw] at hkey
  rw [← Except.ok.inj hkey] at hfree
  exact Bool.or_eq_false_iff.1 hfree

theorem Allowed.not_isName (h : Allowed names) {w : String}
    (hw : isReserved w) : ¬IsName names w := by
  intro hname
  rw [(h.free hname).1] at hw
  cases hw

/-! ## Requests -/

theorem renameNames_nil :
    renameNames cfg t [] source = (t, .ok source) := by
  simp [renameNames, learn, longestFirst]
  rfl

/-- What comes of the names of a source, or of the fault in the search for them. -/
def outcomeOf (cfg : Settings) (t : Table) (source : Chars) : Except Fault Names → Outcome
  | .ok names => renameNames cfg t names source
  | .error f => (t, .error f)

theorem rename_fst (cfg : Settings) (t : Table) (source : Chars) (path : Option String) (σ : Session) :
    (rename cfg t source path σ).1 = .ok (outcomeOf cfg t source (namesOf source path σ).1) := by
  unfold rename
  rw [Run.attempt_bind]
  rcases (namesOf source path σ).1 with f | _ | ⟨n, names⟩
  · rfl
  · rw [outcomeOf, renameNames_nil]
    rfl
  · rfl

theorem renameByTree_fst :
    (renameByTree cfg t source path σ).1 = .ok (outcomeOf cfg t source (namesByTree source path σ).1) := by
  cases path with
  | none => exact rename_fst cfg t source none σ
  | some p =>
    unfold renameByTree namesByTree
    dsimp only
    rw [Run.files_bind, Run.files_bind]
    cases σ.files.exist p with
    | false => exact rename_fst cfg t source none σ
    | true =>
      rw [if_neg (by simp), if_pos rfl, Run.attempt_bind, Run.attempt_bind]
      rcases (namesInFile p σ).1 with f | _ | ⟨n, names⟩
      · exact rename_fst cfg t source none _
      · dsimp only
        rw [show (pure [] : Run Names) _ = (.ok [], _) from rfl, outcomeOf, renameNames_nil]
        rfl
      · rfl

theorem allowed_namesOf
    (h : namesOf source path σ = (.ok names, σ')) : Allowed names := by
  unfold namesOf at h
  obtain ⟨tree, σ₁, -, h⟩ := Run.bind_ok.1 h
  split at h
  · obtain ⟨found, σ₂, hfound, h⟩ := Run.bind_ok.1 h
    cases h
    exact allowed_treeNames (Run.ofExcept_ok.1 hfound).1
  · cases h
    exact allowed_wordNames

theorem allowed_namesInFile {p : String}
    (h : namesInFile p σ = (.ok names, σ')) : Allowed names := by
  unfold namesInFile at h
  obtain ⟨text, σ₁, -, h⟩ := Run.bind_ok.1 h
  obtain ⟨tree, σ₂, -, h⟩ := Run.bind_ok.1 h
  obtain ⟨found, σ₃, hfound, h⟩ := Run.bind_ok.1 h
  cases h
  exact allowed_treeNames (Run.ofExcept_ok.1 hfound).1

theorem allowed_namesByTree
    (h : namesByTree source path σ = (.ok names, σ')) :
    Allowed names := by
  cases path with
  | none => exact allowed_namesOf h
  | some p =>
    unfold namesByTree at h
    dsimp only at h
    rw [Run.files_bind] at h
    split at h
    · rw [Run.attempt_bind] at h
      cases hread : namesInFile p σ with
      | mk r σ₁ =>
        rw [hread] at h
        cases r with
        | error e =>
          dsimp only at h
          rw [Run.say_bind] at h
          exact allowed_namesOf h
        | ok found =>
          cases h
          exact allowed_namesInFile hread
    · exact allowed_namesOf h

namespace Request

theorem run_fst (r : Request) (cfg : Settings) (t : Table) (source : Chars) (σ : Session) :
    (r.run cfg t source σ).1 = .ok (outcomeOf cfg t source (r.names source σ).1) := by
  cases r with
  | own path => exact rename_fst cfg t source path σ
  | kept path => exact renameByTree_fst

theorem run_of_names
    (h : r.names source σ = (.ok names, σ')) (cfg : Settings)
    (t : Table) : ∃ σ'', r.run cfg t source σ = (.ok (renameNames cfg t names source), σ'') :=
  ⟨_, Prod.ext (by rw [run_fst, h]; rfl) rfl⟩

theorem allowed_names
    (h : r.names source σ = (.ok names, σ')) : Allowed names := by
  cases r with
  | own path => exact allowed_namesOf h
  | kept path => exact allowed_namesByTree h

end Request

/-- **Renaming is one substitution of whole words.** Let the names of a source and their
new names look like names, and let no new name be a name. Then the words of the result
are those of the source, each extracted name under its new one, and the characters
between them stay. To replace the names in any order gives the same, and reserved words
stay. The table is arbitrary, so that the new names can come from any digest. -/
theorem rename_substitutes (r : Request) (cfg : Settings) (t : Table) (source : Chars)
    {σ σ' : Session} {names : Names} (hnames : r.names source σ = (.ok names, σ'))
    (hname : ∀ n ∈ names, ∃ w, n.2 = .str w ∧ looksLikeName w.toList = true)
    {new : String → Chars}
    (hnew : ∀ w, IsName names w → mappedName cfg t w = .ok (new w) ∧
      looksLikeName (new w) = true ∧ ¬IsName names (String.ofList (new w))) :
    ∃ t' out σ'', r.run cfg t source σ = (.ok (t', .ok out), σ'') ∧
      Forall₂ (RenamesTo names new) (chunks source) (chunks out) ∧
      (∀ w, IsName names w → Assoc.find w t' = some (new w)) ∧
      (∀ order : List String, (∀ w, w ∈ order ↔ IsName names w) →
        order.foldlM (replaceName t') source = .ok out) ∧
      ∀ w k, isReserved w = true → RenamesTo names new (.word w.toList) k → k = .word w.toList := by
  obtain ⟨t', out, hrename, hchunks, hfind, horder⟩ := renameNames_ok hname hnew source
  obtain ⟨σ'', hrun⟩ := Request.run_of_names hnames cfg t
  refine ⟨t', out, σ'', by rw [hrun, hrename], forall₂_renamesTo_iff.2 hchunks.symm, hfind, horder,
    fun w k hw hk => ?_⟩
  have hfree := (Request.allowed_names hnames).not_isName hw
  cases hk with
  | name hname =>
    rw [String.ofList_toList] at hname
    exact absurd hname hfree
  | other _ => rfl

/-- A source in which one name is the start of the other. -/
def assignment : Chars := "uint a=ab;".toList

def assignmentNew (w : String) : Chars :=
  if w = "a" then "OX86f7e437faa5a7fce15d1ddcb9eaeaea377667".toList
  else "OXda23614e02469a0d7c7bd1bdab5c9c474b1904".toList

theorem chunks_assignment : chunks assignment =
    [.word "uint".toList, .mark ' ', .word ['a'], .mark '=', .word ['a', 'b'], .mark ';'] := by
  decide +kernel

theorem wordNames_assignment :
    wordNames assignment = [(.text "a", .str "a"), (.text "ab", .str "ab")] := by
  rw [wordNames, chunks_assignment]
  rfl

theorem longestFirst_assignment : longestFirst (wordNames assignment) = ["ab", "a"] := by
  have hlength : "a".length < "ab".length := by decide
  rw [wordNames_assignment, longestFirst]
  simp [mergeSort, MergeSort.Internal.splitInTwo, hlength]

theorem isName_assignment (h : IsName (wordNames assignment) w) : w = "a" ∨ w = "ab" := by
  rw [wordNames_assignment] at h
  obtain ⟨n, hn, hw⟩ := h
  simp only [mem_cons, not_mem_nil, or_false] at hn
  rcases hn with rfl | rfl
  · exact .inl (Json.str.inj hw).symm
  · exact .inr (Json.str.inj hw).symm

/-- Without a tree all words of the source are taken that are not reserved. -/
theorem rename_substitutes_assignment :
    ∃ t' σ'', (Request.own none).run {} [] assignment {} = (.ok (t', .ok
      "uint OX86f7e437faa5a7fce15d1ddcb9eaeaea377667=OXda23614e02469a0d7c7bd1bdab5c9c474b1904;".toList),
      σ'') := by
  have hname : ∀ n ∈ wordNames assignment, ∃ w, n.2 = .str w ∧ looksLikeName w.toList = true := by
    rw [wordNames_assignment]
    simp only [List.forall_mem_cons]
    exact ⟨⟨"a", rfl, rfl⟩, ⟨"ab", rfl, rfl⟩, by simp⟩
  have hnew : ∀ w, IsName (wordNames assignment) w →
      mappedName {} [] w = .ok (assignmentNew w) ∧ looksLikeName (assignmentNew w) = true ∧
        ¬IsName (wordNames assignment) (String.ofList (assignmentNew w)) := by
    intro w hw
    rcases isName_assignment hw with rfl | rfl
    · refine ⟨by decide +kernel, rfl, fun h => ?_⟩
      rcases isName_assignment h with h | h <;> exact absurd h (by decide)
    · refine ⟨by decide +kernel, rfl, fun h => ?_⟩
      rcases isName_assignment h with h | h <;> exact absurd h (by decide)
  obtain ⟨σ', hnames⟩ : ∃ σ', (Request.own none).names assignment {} =
      (.ok (wordNames assignment), σ') := ⟨_, rfl⟩
  obtain ⟨t', out, σ'', hrun, hchunks, -⟩ :=
    rename_substitutes (.own none) {} [] assignment hnames hname hnew
  have hout := flatMap_text_chunks out
  rw [← forall₂_renamesTo_iff.1 hchunks, chunks_assignment, longestFirst_assignment] at hout
  refine ⟨t', σ'', ?_⟩
  rw [hrun, ← hout]
  rfl

end Obscura.Rename
