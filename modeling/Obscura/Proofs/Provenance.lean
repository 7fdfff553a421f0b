import Obscura.Proofs.Pipeline

/-
  Where the tree in use comes from. A text that is taken is compiled at once, but that
  may fail, and then the tree before stays in use. So a stage finds the tree of the
  latest text of the run that could be compiled (`InUse`). That is the text it works on
  just if the last compilation went well.
-/

namespace Obscura.Pipeline

open Text List

variable {m : Nat}

/-! ## Attempts -/

/-- A text that was taken, and the session in which its tree is to be made. -/
structure Attempt where
  text : Chars
  step : Nat
  version : String
  session : Session

namespace Attempt

def tree (a : Attempt) : Option Json :=
  keptTree a.text a.step a.version a.session

/-- The tree is what the compiler makes of the text. -/
def Gives (a : Attempt) (tree : Json) : Prop :=
  GeneratedFrom a.text a.step a.version a.session tree

theorem gives_of_tree {a : Attempt} {tree : Json} (h : a.tree = some tree) : a.Gives tree := by
  unfold Attempt.tree keptTree at h
  cases hmake : makeTree a.text (stepPath a.step) (stepTreePath a.step) a.version a.session with
  | mk r σ =>
    rw [hmake] at h
    cases r with
    | error f => cases h
    | ok t =>
      cases h
      exact (makeTree_ok hmake).1

end Attempt

/-- The attempt that a visit leads to, if the text of its pass is taken. -/
def Visit.attempt? (v : Visit) : Option Attempt :=
  match v.outcome with
  | .ok (text, n) =>
    if v.stage.always || decide (0 < n) then
      some ⟨text, v.progress.steps + 1, v.progress.version,
        (v.stage.pass v.progress (v.stage.opened v.session)).2⟩
    else none
  | .error _ => none

/-- The last attempt that came to a tree. -/
def latest (log : List Attempt) : Option (Attempt × Json) :=
  (log.filterMap fun a => a.tree.map (a, ·)).getLast?

theorem filterMap_cons_eq {α β : Type} (f : α → Option β) (x : α) (xs : List α) :
    (x :: xs).filterMap f = (f x).toList ++ xs.filterMap f := by
  cases h : f x with
  | none => rw [filterMap_cons_none h]; rfl
  | some y => rw [filterMap_cons_some h]; rfl

theorem latest_concat (log : List Attempt) (a : Attempt) :
    latest (log ++ [a]) = (a.tree.map (a, ·)).or (latest log) := by
  unfold latest
  rw [filterMap_append, getLast?_append, filterMap_cons_eq]
  cases a.tree with
  | none => rfl
  | some tree => rfl

theorem latest_of_tree {log : List Attempt} {a : Attempt} {tree : Json} (hlast : log.getLast? = some a)
    (htree : a.tree = some tree) : latest log = some (a, tree) := by
  obtain ⟨front, rfl⟩ := getLast?_eq_some_iff.1 hlast
  rw [latest_concat, htree]
  rfl

/-! ## The tree in use -/

/-- After the attempts of `log` the text is that of the last one. The tree in use was
given by the last one that came to a tree. Before there is any, it is what was in the
first file when the run began. -/
structure InUse (start : Session) (log : List Attempt) (p : Progress) (σ : Session) : Prop where
  current : log.getLast?.map Attempt.text = some p.source
  own : ∃ m ≤ p.steps, p.treePath = stepTreePath m
  made : ∀ a tree, latest log = some (a, tree) →
    a.Gives tree ∧ σ.files.read p.treePath = .ok (encode (Json.print .tree tree))
  old : latest log = none → p.treePath = stepTreePath 0 ∧
    ∀ b, σ.files.read (stepTreePath 0) = .ok b ↔ start.files.read (stepTreePath 0) = .ok b

theorem read_tree_of_untouched {written : List String} (h : Untouched written σ σ')
    (hm : treeName m ∉ written) (b : Bytes) :
    σ'.files.read (stepTreePath m) = .ok b ↔ σ.files.read (stepTreePath m) = .ok b := by
  rw [stepTreePath_eq]
  exact h.read _ isTestName_treeName hm b

theorem treeName_not_mem {n : Nat} (h : m < n) : treeName m ∉ [stepName n, treeName n] := by
  rw [mem_cons, mem_singleton, not_or]
  exact ⟨treeName_ne_stepName, fun heq => absurd (treeName_inj heq) h.ne⟩

namespace InUse

variable {start : Session} {log : List Attempt} {p p' : Progress} {σ σ' : Session}

/-- A stage that works on the text of a successful attempt finds the tree of that text. -/
theorem fresh (h : InUse start log p σ) {a : Attempt} {tree : Json} (hlast : log.getLast? = some a)
    (htree : a.tree = some tree) :
    a.text = p.source ∧ a.Gives tree ∧ σ.files.read p.treePath = .ok (encode (Json.print .tree tree)) := by
  refine ⟨?_, h.made a tree (latest_of_tree hlast htree)⟩
  have hcurrent := h.current
  rw [hlast] at hcurrent
  exact Option.some.inj hcurrent

theorem congr (h : InUse start log p σ) (hread : ∀ m ≤ p.steps, ∀ b,
      σ'.files.read (stepTreePath m) = .ok b ↔ σ.files.read (stepTreePath m) = .ok b) :
    InUse start log p σ' where
  current := h.current
  own := h.own
  made := by
    intro a tree hlatest
    obtain ⟨m, hm, hpath⟩ := h.own
    obtain ⟨hgives, htree⟩ := h.made a tree hlatest
    rw [hpath] at htree ⊢
    exact ⟨hgives, (hread m hm _).2 htree⟩
  old := by
    intro hlatest
    obtain ⟨hpath, hold⟩ := h.old hlatest
    exact ⟨hpath, fun b => (hread 0 (Nat.zero_le _) b).trans (hold b)⟩

theorem untouched (h : InUse start log p σ) (hσ : Untouched [] σ σ') : InUse start log p σ' :=
  h.congr fun _ _ b => read_tree_of_untouched hσ not_mem_nil b

theorem advance (h : InUse start log p σ) {text : Chars}
    (hmade : Regenerated (p.steps + 1) (keptTree text (p.steps + 1) p.version σ) σ σ') :
    InUse start (log ++ [⟨text, p.steps + 1, p.version, σ⟩]) { p with
      source := text
      treePath := if (keptTree text (p.steps + 1) p.version σ).isSome then stepTreePath (p.steps + 1)
        else p.treePath
      steps := p.steps + 1 } σ' := by
  let a : Attempt := ⟨text, p.steps + 1, p.version, σ⟩
  have hread (m : Nat) (hm : m ≤ p.steps) (b : Bytes) :
      σ'.files.read (stepTreePath m) = .ok b ↔ σ.files.read (stepTreePath m) = .ok b :=
    read_tree_of_untouched hmade.untouched (treeName_not_mem (Nat.lt_succ_of_le hm)) b
  have hbefore : InUse start log p σ' := h.congr hread
  have hcurrent : (log ++ [a]).getLast?.map Attempt.text = some text := by
    rw [getLast?_concat]
    rfl
  have hlatest : latest (log ++ [a]) = ((keptTree text (p.steps + 1) p.version σ).map (a, ·)).or (latest log) :=
    latest_concat log a
  cases hkept : keptTree text (p.steps + 1) p.version σ with
  | some tree =>
    rw [hkept] at hlatest hmade
    refine ⟨hcurrent, ⟨p.steps + 1, le_rfl, rfl⟩, ?_, ?_⟩
    · intro a' tree' h'
      rw [hlatest] at h'
      obtain ⟨rfl, rfl⟩ := Prod.mk.inj (Option.some.inj h')
      exact ⟨Attempt.gives_of_tree hkept, hmade.read tree rfl⟩
    · intro h'
      rw [hlatest] at h'
      cases h'
  | none =>
    -- The tree could not be made, and the one before stays.
    rw [hkept] at hlatest
    obtain ⟨m, hm, hpath⟩ := h.own
    refine ⟨hcurrent, ⟨m, Nat.le_succ_of_le hm, hpath⟩, ?_, ?_⟩
    · intro a' tree' h'
      exact hbefore.made a' tree' (hlatest.symm.trans h')
    · intro h'
      exact hbefore.old (hlatest.symm.trans h')

theorem visit (h : InUse start log p σ) {s : Stage} (hs : s.Calm) (hrun : s.run p σ = (.ok p', σ')) :
    InUse start (log ++ (Visit.attempt? ⟨s, p, σ⟩).toList) p' σ' := by
  have hpass : InUse start log p (s.pass p (s.opened σ)).2 :=
    (h.untouched (s.untouched_opened σ [])).untouched (hs p _)
  rcases Stage.run_cases hrun with ⟨text, n, σ₂, made, hout, htaken, rfl, rfl, hmade, hsaid⟩ |
    ⟨rfl, hsaid, hleft⟩
  · have hattempt : Visit.attempt? ⟨s, p, σ⟩ =
        some ⟨text, p.steps + 1, p.version, (s.pass p (s.opened σ)).2⟩ := by
      unfold Visit.attempt? Visit.outcome
      rw [hout]
      exact if_pos htaken
    rw [hattempt]
    exact (hpass.advance hmade).untouched hsaid
  · have hattempt : Visit.attempt? ⟨s, p', σ⟩ = none := by
      unfold Visit.attempt? Visit.outcome
      dsimp only
      split
      · rename_i text n hout
        exact if_neg (by rw [hleft text n hout]; exact Bool.false_ne_true)
      · rfl
    rw [hattempt]
    exact (append_nil log).symm ▸ hpass.untouched hsaid

end InUse

/-- Whichever stage of a run is looked at, it finds the latest tree, if all stages
before the last one write no files of their own. -/
theorem Runs.inUse {vs : List Visit} (h : Runs vs p σ p' σ')
    (hcalm : ∀ v ∈ vs.dropLast, v.stage.Calm) {start : Session} {log : List Attempt}
    (hstart : InUse start log p σ) {us : List Visit} {v : Visit} {ws : List Visit}
    (hvs : vs = us ++ v :: ws) :
    InUse start (log ++ us.filterMap Visit.attempt?) v.progress v.session := by
  induction h generalizing log us with
  | nil => exact absurd hvs (by simp)
  | said line _ ih => exact ih hcalm (hstart.untouched (untouched_said [] line _)) hvs
  | @visit s vs p p₁ _ σ _ _ run _ ih =>
    cases us with
    | nil =>
      obtain ⟨rfl, -⟩ := cons.inj hvs
      rw [filterMap_nil, append_nil]
      exact hstart
    | cons u us =>
      obtain ⟨rfl, hrest⟩ := cons.inj hvs
      have hne : vs ≠ [] := by
        rw [hrest]
        simp
      rw [dropLast_cons_of_ne_nil hne, forall_mem_cons] at hcalm
      have hnext := ih hcalm.2 (hstart.visit hcalm.1 run) hrest
      rwa [append_assoc, ← filterMap_cons_eq] at hnext

theorem calm_dropLast_enabled (switches : List (String × String)) :
    ∀ s ∈ (enabled switches).dropLast, s.Calm := by
  let staticOnly := isSet switches "STATIC_ONLY" "0"
  have hflow := calm_flowOn staticOnly switches
  have hdata := calm_dataOn staticOnly switches
  have hcalm : ∃ cs, (∀ s ∈ cs, s.Calm) ∧ (enabled switches = cs ∨ enabled switches = cs ++ [newNames]) := by
    unfold enabled layoutOn
    dsimp only
    split
    · refine ⟨_, ?_, .inl rfl⟩
      rw [append_nil]
      exact forall_mem_append.2 ⟨hflow, hdata⟩
    · refine ⟨flowOn staticOnly switches ++ (dataOn staticOnly switches ++ (uncommenting ::
        chosen (isSet switches "ENABLE_FORMATTING" "1") scrambling)), ?_, .inr ?_⟩
      · simp only [forall_mem_append, forall_mem_cons]
        exact ⟨hflow, hdata, calm_uncommenting, forall_chosen calm_scrambling _⟩
      · simp only [append_assoc, cons_append, staticOnly]
  obtain ⟨cs, hcs, heq | heq⟩ := hcalm
  · rw [heq]
    exact fun s hs => hcs s (dropLast_subset _ hs)
  · rw [heq, dropLast_concat]
    exact hcs

theorem inUse_ready {source : Chars} {asked : Option Chars}
    (hasked : askedVersion source = .ok asked) (input : String) (σ : Session) :
    InUse σ [⟨source, 0, usedVersion asked, begun input source asked σ⟩]
      (.initial source (usedVersion asked)) (ready input source asked σ) := by
  have hmade := regenerated_ready input source asked σ
  have hlatest : latest [⟨source, 0, usedVersion asked, begun input source asked σ⟩] =
      (keptTree source 0 (usedVersion asked) (begun input source asked σ)).map (_, ·) :=
    (latest_concat [] _).trans (Option.or_none)
  refine ⟨rfl, ⟨0, le_rfl, rfl⟩, ?_, ?_⟩
  · intro a tree h
    rw [hlatest] at h
    obtain ⟨t, hkept, heq⟩ := Option.map_eq_some_iff.1 h
    obtain ⟨rfl, rfl⟩ := Prod.mk.inj heq
    exact ⟨Attempt.gives_of_tree hkept, hmade.read _ hkept⟩
  · intro h
    rw [hlatest, Option.map_eq_none_iff] at h
    refine ⟨rfl, fun b => ?_⟩
    have hready : treeName 0 ∉ [stepName 0] := by
      rw [mem_singleton]
      exact treeName_ne_stepName
    exact (read_tree_of_untouched (hmade.old h) hready b).trans
      (read_tree_of_untouched (untouched_begun hasked input σ) not_mem_nil b)

/-! ## Whole runs -/

/-- The run ends before its first text is compiled. -/
inductive Halts (input : String) (σ : Session) : Prop
  | unreadable (f : Fault) (read : σ.files.readText input = .error f)
  | versionless (source : Chars) (f : Fault) (read : σ.files.readText input = .ok source)
      (asked : askedVersion source = .error f)
  | uninstalled (left : σ.compiler.installsLeft = some 0)

theorem install_of_zero (h : σ.compiler.installsLeft = some 0) :
    Run.install σ = (.error .installFailed, σ) := by
  unfold Run.install
  rw [Run.get_bind, h]
  rfl

theorem Halts.files_obfuscate {input : String} (h : Halts input σ) (output : String) :
    (obfuscate input output σ).2.files = σ.files := by
  unfold obfuscate
  rw [Run.files_bind]
  cases hexist : σ.files.exist input with
  | false => rfl
  | true =>
    rw [Bool.not_true, if_neg Bool.false_ne_true]
    have hsource : Run.readText input σ = (σ.files.readText input, σ) := rfl
    cases hread : σ.files.readText input with
    | error f =>
      rw [hread] at hsource
      rw [Run.bind_of_error hsource]
    | ok source =>
      rw [hread] at hsource
      rw [Run.bind_of_ok hsource, Run.say_bind]
      cases hasked : askedVersion source with
      | error f =>
        have hdetect (σ : Session) : detectVersion source σ = (.error f, σ) := by
          unfold detectVersion
          rw [hasked]
          rfl
        rw [Run.bind_of_error (hdetect _)]
        rfl
      | ok asked =>
        have hleft : σ.compiler.installsLeft = some 0 := by
          cases h with
          | unreadable f hread' => rw [hread] at hread'; cases hread'
          | versionless source' f hread' hasked' =>
            rw [hread] at hread'
            cases hread'
            rw [hasked] at hasked'
            cases hasked'
          | uninstalled hleft => exact hleft
        obtain ⟨line, hdetect⟩ := detectVersion_ok hasked
          (said "[INFO] Starting BiAn-style progressive obfuscation pipeline..." σ)
        rw [Run.bind_of_ok hdetect, Run.attempt_bind, install_of_zero (σ := said line (said _ σ)) hleft]
        rfl

/-- **Provenance of the tree in use.** A run that does not end before its first text is
compiled visits the stages that are on, whatever the compiler answers. Each of them finds
the tree that was generated from the latest text of the run that could be compiled. That
is the text which the stage works on if the compilation of that text went well; if no
text of the run could be compiled, it is what was in the first file before the run. -/
theorem obfuscate_uses_latest_tree (input output : String) (σ : Session) :
    Halts input σ ∧ (obfuscate input output σ).2.files = σ.files ∨
      ∃ source asked vs p σ₁, σ.files.readText input = .ok source ∧ askedVersion source = .ok asked ∧
        Runs vs (.initial source (usedVersion asked)) (ready input source asked σ) p σ₁ ∧
        vs.map Visit.stage = enabled σ.switches ∧ obfuscate input output σ = conclude output p σ₁ ∧
        ∀ us v ws, vs = us ++ v :: ws →
          let log := ⟨source, 0, usedVersion asked, begun input source asked σ⟩ :: us.filterMap Visit.attempt?
          InUse σ log v.progress v.session ∧
            ∀ a tree, log.getLast? = some a → a.tree = some tree →
              a.text = v.progress.source ∧ a.Gives tree ∧
                v.session.files.read v.progress.treePath = .ok (encode (Json.print .tree tree)) := by
  by_cases hhalts : Halts input σ
  · exact .inl ⟨hhalts, hhalts.files_obfuscate output⟩
  right
  cases hread : σ.files.readText input with
  | error f => exact absurd (.unreadable f hread) hhalts
  | ok source =>
    cases hasked : askedVersion source with
    | error f => exact absurd (.versionless source f hread hasked) hhalts
    | ok asked =>
      have hinstall : σ.compiler.installsLeft ≠ some 0 := fun h => hhalts (.uninstalled h)
      obtain ⟨vs, p, σ₁, hvs, hon, hrun⟩ := exists_runs hread hasked hinstall output
      have hcalm (v : Visit) (hv : v ∈ vs.dropLast) : v.stage.Calm := by
        refine calm_dropLast_enabled σ.switches v.stage ?_
        rw [← hon, ← List.map_dropLast]
        exact List.mem_map_of_mem hv
      refine ⟨source, asked, vs, p, σ₁, rfl, hasked, hvs, hon, hrun, ?_⟩
      intro us v ws hsplit log
      have hin : InUse σ log v.progress v.session := hvs.inUse hcalm (inUse_ready hasked input σ) hsplit
      exact ⟨hin, fun a tree hlast htree => hin.fresh hlast htree⟩

/-! ## A compiler that falters -/

/-- The stages before grouping, with whether the static mode and grouping are on. -/
def untilGrouping (p : Progress) : Run (Bool × Bool × Progress) := do
  let staticOnly ← isOn "STATIC_ONLY" "0"
  let p ← flowStages staticOnly p
  let p ← literalStages staticOnly p
  let group ← isOn "ENABLE_SCALAR" "1"
  return (staticOnly, group, p)

theorem allStages_of_untilGrouping
    (h : untilGrouping p σ = (.ok (false, true, p'), σ')) :
    allStages p σ = (grouping.run p' >>= layoutStages false) σ' := by
  have hall : allStages p = (untilGrouping p >>= fun r => orReason grouping
      ((unlessStatic r.1 "[INFO] Scalar splitting skipped (static-only mode).").or (unlessOff r.2.1
        "[INFO] Scalar splitting disabled (set BIAN_ENABLE_SCALAR=1 to enable).")) r.2.2 >>=
          layoutStages r.1) := by
    simp only [allStages, dataStages, untilGrouping, bind_assoc, pure_bind]
  rw [hall, Run.bind_of_ok h]
  rfl

def faltered : Chars :=
  "contract C\x7buint b=1;uint a;\x7d".toList

/-- The declaration of `a` stands at 20 in the text. -/
def falteredTree : Json :=
  .obj [("nodeType", .str "ContractDefinition"), ("id", .int 1), ("name", .str "C"), ("src", .str "0:28:0"),
    ("nodes", .arr [.obj [("nodeType", .str "VariableDeclaration"), ("id", .int 2), ("name", .str "a"),
      ("stateVariable", .bool true), ("typeDescriptions", .obj [("typeString", .str "uint256")]),
      ("src", .str "20:6:0")]])]

/-- The compiler answers once, and then no more. -/
def faltering : Session where
  files := { entries := [("test/test.sol", encode faltered)], directories := ["test"] }
  compiler := { answers := [some fun path => [(path ++ ":C", some falteredTree)]] }
  switches := [("ENABLE_PREPROCESSING", "0"), ("ENABLE_CPM", "0"), ("ENABLE_LOCAL_STATE", "0"),
    ("ENABLE_STATIC", "0"), ("ENABLE_FORMATTING", "0")]

theorem keptTree_faltering :
    keptTree faltered 0 "0.8.30" (begun "test/test.sol" faltered none faltering) = some falteredTree := by
  rfl

/-- What grouping finds in the run. -/
def foundByGrouping : Except Fault (Bool × Bool × Progress) × Session :=
  untilGrouping (.initial faltered "0.8.30") (ready "test/test.sol" faltered none faltering)

theorem foundByGrouping_eq :
    (foundByGrouping.1.map fun r => (r.1, r.2.1, r.2.2.treePath, r.2.2.source),
        foundByGrouping.2.files.read (stepTreePath 0)) =
      (.ok (false, true, stepTreePath 0, "contract C\x7buint b=(11 + 8 - 18);uint a;\x7d".toList),
        .ok (encode (Json.print .tree falteredTree))) := by
  decide +kernel

/-- The compiler fails after the integers were disguised. Grouping then works on the new
text with the tree of the old one, in which the declaration of `a` stood where the new
text has a part of the number. -/
theorem grouping_finds_tree_of_other_text :
    ∃ p σ₁, obfuscate "test/test.sol" "test/test_output.sol" faltering =
        (grouping.run p >>= layoutStages false >>= conclude "test/test_output.sol") σ₁ ∧
      foundByGrouping = (.ok (false, true, p), σ₁) ∧
      GeneratedFrom faltered 0 "0.8.30" (begun "test/test.sol" faltered none faltering) falteredTree ∧
      σ₁.files.read p.treePath = .ok (encode (Json.print .tree falteredTree)) ∧
      p.source = "contract C\x7buint b=(11 + 8 - 18);uint a;\x7d".toList ∧ p.source ≠ faltered := by
  have hread : faltering.files.readText "test/test.sol" = .ok faltered := by decide +kernel
  have hasked : askedVersion faltered = .ok none := by decide
  obtain ⟨hvalues, hfile⟩ := Prod.mk.inj foundByGrouping_eq
  cases hfound : foundByGrouping with
  | mk r σ₁ =>
    rw [hfound] at hvalues hfile
    cases r with
    | error f => cases hvalues
    | ok r =>
      obtain ⟨staticOnly, group, p⟩ := r
      obtain ⟨rfl, hvalues⟩ := Prod.mk.inj (Except.ok.inj hvalues)
      obtain ⟨rfl, hvalues⟩ := Prod.mk.inj hvalues
      obtain ⟨hpath, hsource⟩ := Prod.mk.inj hvalues
      refine ⟨p, σ₁, ?_, rfl, ?_, ?_, hsource, ?_⟩
      · rw [obfuscate_eq hread hasked nofun]
        exact Run.bind_congr (allStages_of_untilGrouping hfound) _
      · exact Attempt.gives_of_tree (a := ⟨_, _, _, _⟩) keptTree_faltering
      · exact hpath ▸ hfile
      · rw [hsource]
        decide

end Obscura.Pipeline
