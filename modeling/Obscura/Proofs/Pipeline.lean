import Obscura.Pipeline.Whole
import Obscura.Proofs.Frames
import Obscura.Proofs.Renaming
import Obscura.Proofs.Scrambling
import Obscura.Proofs.Truths
import Obscura.Proofs.Version

/-
  A run of the pipeline. Each stage that is switched on is visited once, in the
  order of the pipeline (`Runs`), and no stage ends the run: a pass that fails leaves
  the text as it is. So the text at the end is the composition of what the passes
  make of it, and that text is written.
-/

namespace Obscura.Pipeline

open Text Number Expression List Run

variable {n m : Nat} {s : Stage} {text source : Chars} {p : Progress} {σ : Session}
  {staticOnly : Bool} {input output : String}

/-! ## The files of the steps -/

def stepName (n : Nat) : String :=
  "test_step" ++ Nat.repr n ++ ".sol"

def treeName (n : Nat) : String :=
  "test_ast_step" ++ Nat.repr n ++ ".json"

theorem stepPath_eq : stepPath n = Files.inTest (stepName n) := by
  have hfront : "test/test_step" = "test/" ++ "test_step" := by decide
  unfold stepPath Files.inTest stepName
  rw [hfront, String.append_assoc, String.append_assoc, String.append_assoc]

theorem stepTreePath_eq : stepTreePath n = Files.inTest (treeName n) := by
  have hfront : "test/test_ast_step" = "test/" ++ "test_ast_step" := by decide
  unfold stepTreePath Files.inTest treeName
  rw [hfront, String.append_assoc, String.append_assoc, String.append_assoc]

theorem toList_repr : (Nat.repr n).toList = digits n := String.toList_ofList

theorem toList_append_append (a b c : String) :
    (a ++ b ++ c).toList = a.toList ++ (b.toList ++ c.toList) := by
  rw [String.toList_append, String.toList_append, append_assoc]

theorem toList_stepName :
    (stepName n).toList = "test_step".toList ++ (digits n ++ ".sol".toList) :=
  (toList_append_append _ _ _).trans
    (congrArg (fun d => "test_step".toList ++ (d ++ ".sol".toList)) toList_repr)

theorem toList_treeName :
    (treeName n).toList = "test_ast_step".toList ++ (digits n ++ ".json".toList) :=
  (toList_append_append _ _ _).trans
    (congrArg (fun d => "test_ast_step".toList ++ (d ++ ".json".toList)) toList_repr)

theorem slash_not_mem_digits : '/' ∉ digits n := by
  intro h
  have := isDigit_digits n _ h
  cases this

theorem slash_not_mem_stepName : '/' ∉ (stepName n).toList := by
  rw [toList_stepName, mem_append, mem_append, not_or, not_or]
  exact ⟨by decide, slash_not_mem_digits, by decide⟩

theorem getElem?_treeName : (treeName n).toList[5]? = some 'a' := by
  rw [toList_treeName, getElem?_append_left (by decide)]
  decide

theorem getElem?_stepName : (stepName n).toList[5]? = some 's' := by
  rw [toList_stepName, getElem?_append_left (by decide)]
  decide

theorem isTestName_treeName : Files.IsTestName (treeName n) := by
  have hlong {s : Chars} (hs : s[5]? = none) : (treeName n).toList ≠ s := by
    rintro rfl
    rw [getElem?_treeName] at hs
    cases hs
  refine ⟨?_, hlong rfl, hlong rfl, hlong rfl⟩
  rw [toList_treeName, mem_append, mem_append, not_or, not_or]
  exact ⟨by decide, slash_not_mem_digits, by decide⟩

theorem treeName_ne_stepName : treeName m ≠ stepName n := by
  intro h
  have := getElem?_stepName (n := n)
  rw [← h, getElem?_treeName] at this
  exact absurd this (by decide)

theorem treeName_inj {m : Nat} (h : treeName m = treeName n) : m = n := by
  have hlists := congrArg String.toList h
  rw [toList_treeName, toList_treeName] at hlists
  have hdigits := append_cancel_right (append_cancel_left hlists)
  rw [← numeral_digits m, hdigits, numeral_digits]

/-! ## Making a tree -/

/-- The tree that is kept for a step, if one is made. -/
def keptTree (text : Chars) (n : Nat) (version : String) (σ : Session) : Option Json :=
  (makeTree text (stepPath n) (stepTreePath n) version σ).1.toOption

theorem within_writeDown (version : String) :
    Run.Within [stepName n] (writeDown text (stepPath n) version) := by
  have hwrite : Run.Within [stepName n] (writeText (stepPath n) text) := by
    rw [stepPath_eq]
    exact within_writeText slash_not_mem_stepName mem_cons_self
  refine within_install.attempt.bind fun r => ?_
  cases r with
  | ok _ => exact within_makeDirectory.bind fun _ => hwrite
  | error _ => exact (within_say _).bind fun _ => within_makeDirectory.bind fun _ => hwrite

/-- Making a tree writes the two files of its step, and that of the tree only if all
goes well. -/
theorem untouched_makeTree (text : Chars) (n : Nat) (version : String) (σ : Session) :
    let σ' := (makeTree text (stepPath n) (stepTreePath n) version σ).2
    Untouched [stepName n, treeName n] σ σ' ∧
    (keptTree text n version σ = none → Untouched [stepName n] σ σ') := by
  have hsub : [stepName n] ⊆ [stepName n, treeName n] := by simp
  have hfront : Run.Within [stepName n] (compiled text (stepPath n) version) :=
    (within_writeDown version).bind fun _ => within_compile.bind fun _ => within_ofExcept _
  have hmade := hfront σ
  unfold keptTree
  unfold makeTree
  cases hrun : compiled text (stepPath n) version σ with
  | mk r σ₁ =>
    rw [hrun] at hmade
    cases r with
    | error f =>
      rw [bind_of_error hrun]
      exact ⟨hmade.mono hsub, fun _ => hmade⟩
    | ok tree =>
      rw [bind_of_ok hrun, bind_const]
      have hwrite : Untouched [stepName n, treeName n] σ₁
          (writeText (stepTreePath n) (Json.print .tree tree) σ₁).2 := by
        rw [stepTreePath_eq]
        exact within_writeText isTestName_treeName.1 (by simp) σ₁
      refine ⟨(hmade.mono hsub).trans hwrite, fun hnone => ?_⟩
      cases hfs : σ₁.files.writeText (stepTreePath n) (Json.print .tree tree) with
      | error f =>
        rw [writeText_of_error hfs]
        exact hmade
      | ok fs =>
        have hok : writeText (stepTreePath n) (Json.print .tree tree) σ₁ = (.ok (), _) :=
          writeText_ok.2 ⟨fs, hfs, rfl⟩
        rw [hok] at hnone
        cases hnone

theorem read_writeDown {version : String} {u : Unit}
    (h : writeDown text (stepPath n) version σ = (.ok u, σ')) :
    σ'.files.read (stepPath n) = .ok (encode text) := by
  obtain ⟨r, σ₁, -, h⟩ := Run.bind_ok.1 h
  have hlast {σ₁ : Session} (h : (Run.makeDirectory "test" >>= fun _ => Run.writeText (stepPath n) text) σ₁ =
      (.ok u, σ')) : σ'.files.read (stepPath n) = .ok (encode text) := by
    obtain ⟨_, σ₂, -, h⟩ := Run.bind_ok.1 h
    exact Run.read_writeText h
  cases r with
  | ok _ => exact hlast h
  | error _ =>
    obtain ⟨_, σ₂, -, h⟩ := Run.bind_ok.1 h
    exact hlast h

/-- The tree is what the compiler makes of a file, which holds the text at that time. -/
def GeneratedFrom (text : Chars) (n : Nat) (version : String) (σ : Session) (tree : Json) : Prop :=
  ∃ σ₁ units σ₂, writeDown text (stepPath n) version σ = (.ok (), σ₁) ∧
    σ₁.files.read (stepPath n) = .ok (encode text) ∧ compile (stepPath n) σ₁ = (.ok units, σ₂) ∧
    Units.firstTree units = .ok tree

theorem firstTree_of_treeAt {units : Units} {path : String} {tree : Json}
    (h : (units.ofSource path).treeAt path = .ok tree) : units.firstTree = .ok tree := by
  rcases units with _ | ⟨⟨name, _ | t⟩, units⟩
  · cases h
  · simp [Units.ofSource, Units.treeAt] at h
  · simpa [Units.ofSource, Units.treeAt, Units.firstTree] using h

theorem makeTree_ok {version : String} {tree : Json}
    (h : makeTree text (stepPath n) (stepTreePath n) version σ = (.ok tree, σ')) :
    GeneratedFrom text n version σ tree ∧
      σ'.files.read (stepTreePath n) = .ok (encode (Json.print .tree tree)) := by
  obtain ⟨tree', σ₃, hcompiled, h⟩ := Run.bind_ok.1 h
  obtain ⟨u, σ₁, hdown, hcompiled⟩ := Run.bind_ok.1 hcompiled
  obtain ⟨units, σ₂, hcompile, htree⟩ := Run.bind_ok.1 hcompiled
  obtain ⟨u', σ₄, hwrite, hend⟩ := Run.bind_ok.1 h
  cases hend
  exact ⟨⟨σ₁, units, σ₂, hdown, read_writeDown hdown, hcompile,
      firstTree_of_treeAt (Run.ofExcept_ok.1 htree).1⟩,
    Run.read_writeText hwrite⟩

/-- What a step leaves: its own two files may change. A tree that could be made is in
its file, and without one that file is the old one. -/
structure Regenerated (n : Nat) (made : Option Json) (σ σ' : Session) : Prop where
  untouched : Untouched [stepName n, treeName n] σ σ'
  read : ∀ tree, made = some tree → σ'.files.read (stepTreePath n) = .ok (encode (Json.print .tree tree))
  old : made = none → Untouched [stepName n] σ σ'

theorem Regenerated.said {made : Option Json} (h : Regenerated n made σ σ')
    (line : String) : Regenerated n made σ (said line σ') where
  untouched := h.untouched.trans (untouched_said _ line σ')
  read := h.read
  old := fun hmade => (h.old hmade).trans (untouched_said _ line σ')

/-- Making a tree does not fail; what comes of it is said as a value. -/
theorem regenerate_ok (text : Chars) (n : Nat) (version : String) (σ : Session) :
    ∃ σ', regenerate text (stepPath n) (stepTreePath n) version σ =
        (.ok (keptTree text n version σ).isSome, σ') ∧ Regenerated n (keptTree text n version σ) σ σ' := by
  obtain ⟨huntouched, hold⟩ := untouched_makeTree text n version σ
  unfold regenerate
  unfold keptTree at hold ⊢
  rw [attempt_bind]
  cases h : makeTree text (stepPath n) (stepTreePath n) version σ with
  | mk r σ₁ =>
    rw [h] at huntouched hold
    cases r with
    | ok tree =>
      refine ⟨σ₁, rfl, huntouched, ?_, nofun⟩
      rintro _ ⟨⟩
      exact (makeTree_ok h).2
    | error f =>
      have hmade : Regenerated n none σ σ₁ := ⟨huntouched, nofun, hold⟩
      exact ⟨_, rfl, hmade.said _⟩

/-- A new text is always taken, and its tree comes into use if it could be made. -/
theorem advance_ok (p : Progress) (text : Chars) (title : String) (σ : Session) :
    let made := keptTree text (p.steps + 1) p.version σ
    ∃ σ', advance p text title σ = (.ok { p with
          source := text
          treePath := if made.isSome then stepTreePath (p.steps + 1) else p.treePath
          steps := p.steps + 1 }, σ') ∧ Regenerated (p.steps + 1) made σ σ' := by
  intro made
  obtain ⟨σ₁, hrun, hmade⟩ := regenerate_ok text (p.steps + 1) p.version σ
  unfold advance
  cases hkept : made.isSome with
  | true =>
    rw [hkept] at hrun
    exact ⟨_, Run.bind_ok.2 ⟨true, σ₁, hrun, rfl⟩, hmade.said _⟩
  | false =>
    rw [hkept] at hrun
    exact ⟨_, Run.bind_ok.2 ⟨false, σ₁, hrun, rfl⟩, hmade.said _⟩

/-! ## Stages -/

def Stage.opened (s : Stage) (σ : Session) : Session :=
  match s.opening with
  | some line => said line σ
  | none => σ

theorem Stage.untouched_opened (s : Stage) (σ : Session) (written : List String) :
    Untouched written σ (s.opened σ) := by
  unfold opened
  split
  · exact untouched_said _ _ σ
  · exact .refl _ σ

/-- What a stage makes of the outcome of its pass. -/
def Stage.settle (s : Stage) (p : Progress) : Except Fault (Chars × Nat) → Run Progress
  | .ok (text, n) =>
    if s.always || decide (0 < n) then do
      let p' ← advance p text s.title
      say (s.done n)
      return p'
    else do
      say s.idle
      return p
  | .error f =>
    match s.failed with
    | some line => do
      say line
      return p
    | none => throw f

theorem Stage.run_eq :
    s.run p σ = s.settle p (s.pass p (s.opened σ)).1 (s.pass p (s.opened σ)).2 := by
  have hsettle (σ : Session) :
      (attempt (s.pass p) >>= s.settle p) σ = s.settle p (s.pass p σ).1 (s.pass p σ).2 :=
    attempt_bind _
  unfold run opened
  cases s.opening with
  | none =>
    dsimp only
    rw [← hsettle]
    refine congrFun (congrArg _ (funext fun r => ?_)) σ
    cases r <;> rfl
  | some line =>
    dsimp only
    rw [say_bind, ← hsettle]
    refine congrFun (congrArg _ (funext fun r => ?_)) _
    cases r <;> rfl

/-- A stage that does not end the run takes the text of its pass, or it leaves all as
it is. -/
theorem Stage.run_cases (h : s.run p σ = (.ok p', σ')) :
    (∃ text n σ₂ made, (s.pass p (s.opened σ)).1 = .ok (text, n) ∧ (s.always || decide (0 < n)) = true ∧
      made = keptTree text (p.steps + 1) p.version (s.pass p (s.opened σ)).2 ∧
      p' = { p with
        source := text
        treePath := if made.isSome then stepTreePath (p.steps + 1) else p.treePath
        steps := p.steps + 1 } ∧
      Regenerated (p.steps + 1) made (s.pass p (s.opened σ)).2 σ₂ ∧ Untouched [] σ₂ σ') ∨
      p' = p ∧ Untouched [] (s.pass p (s.opened σ)).2 σ' ∧
        ∀ text n, (s.pass p (s.opened σ)).1 = .ok (text, n) → (s.always || decide (0 < n)) = false := by
  rw [Stage.run_eq] at h
  generalize s.pass p (s.opened σ) = y at h ⊢
  obtain ⟨r, σ₁⟩ := y
  cases r with
  | ok x =>
    obtain ⟨text, n⟩ := x
    unfold settle at h
    dsimp only at h
    cases htaken : (s.always || decide (0 < n)) with
    | true =>
      rw [if_pos htaken] at h
      obtain ⟨σ₂, hadvance, hmade⟩ := advance_ok p text s.title σ₁
      rw [bind_of_ok hadvance] at h
      cases h
      exact .inl ⟨text, n, σ₂, _, rfl, htaken, rfl, rfl, hmade, .of_eq rfl rfl⟩
    | false =>
      rw [if_neg (by simp [htaken])] at h
      cases h
      refine .inr ⟨rfl, .of_eq rfl rfl, ?_⟩
      rintro _ _ ⟨⟩
      exact htaken
  | error f =>
    unfold settle at h
    cases hfailed : s.failed with
    | none =>
      rw [hfailed] at h
      cases h
    | some line =>
      rw [hfailed] at h
      cases h
      exact .inr ⟨rfl, .of_eq rfl rfl, nofun⟩

/-- The version can be put into a directive. -/
def Progress.Sound (p : Progress) : Prop :=
  '\\' ∉ p.version.toList

/-- The pass writes no files. -/
def Stage.Calm (s : Stage) : Prop :=
  ∀ p, Run.Within [] (s.pass p)

/-- The stage does not end the run. -/
def Stage.Contained (s : Stage) : Prop :=
  ∀ p σ, p.Sound → ∃ p' σ', s.run p σ = (.ok p', σ')

theorem Stage.version_run
    (h : s.run p σ = (.ok p', σ')) : p'.version = p.version := by
  rcases Stage.run_cases h with ⟨_, _, _, _, -, -, -, rfl, -⟩ | ⟨rfl, -⟩
  · rfl
  · rfl

theorem Stage.Calm.switches_run (hs : s.Calm)
    (h : s.run p σ = (.ok p', σ')) : σ'.switches = σ.switches := by
  have hpass : (s.pass p (s.opened σ)).2.switches = σ.switches :=
    (hs p _).switches.trans (s.untouched_opened σ []).switches
  rcases Stage.run_cases h with ⟨_, _, _, _, -, -, -, -, hmade, hsaid⟩ | ⟨-, hsaid, -⟩
  · rw [hsaid.switches, hmade.untouched.switches, hpass]
  · rw [hsaid.switches, hpass]

theorem Stage.settle_ok (s : Stage) (p : Progress) (x : Chars × Nat) (σ : Session) :
    ∃ p' σ', s.settle p (.ok x) σ = (.ok p', σ') := by
  obtain ⟨text, n⟩ := x
  unfold settle
  dsimp only
  split
  · obtain ⟨σ₁, hadvance, -⟩ := advance_ok p text s.title σ
    exact ⟨_, _, Run.bind_ok.2 ⟨_, σ₁, hadvance, rfl⟩⟩
  · exact ⟨_, _, rfl⟩

theorem Stage.contained_of_failed {line : String} (h : s.failed = some line) : s.Contained := by
  intro p σ _
  rw [Stage.run_eq]
  cases (s.pass p (s.opened σ)).1 with
  | ok x => exact s.settle_ok p x _
  | error f =>
    unfold settle
    rw [h]
    exact ⟨_, _, rfl⟩

theorem Stage.contained_of_ok (h : ∀ p σ, p.Sound → ∃ x, (s.pass p σ).1 = .ok x) : s.Contained := by
  intro p σ hp
  obtain ⟨x, hx⟩ := h p (s.opened σ) hp
  rw [Stage.run_eq, hx]
  exact s.settle_ok p x _

/-- Scrambling has no guard and needs none: it fails at a bad version only. -/
theorem contained_scrambling : scrambling.Contained := by
  refine Stage.contained_of_ok fun p σ hp => ?_
  let o : Layout.Options := { version := '^' :: p.version.toList, dropComments := false, oneLine := true }
  have htemplate : Layout.directiveTemplate o.version =
      .ok (("pragma solidity ".toList ++ o.version ++ [';']).map .char) := by
    refine parse_of_not_mem ?_
    simp only [mem_append, not_or]
    refine ⟨⟨by decide, ?_⟩, by decide⟩
    rw [mem_cons, not_or]
    exact ⟨by decide, hp⟩
  obtain ⟨text, htext⟩ : ∃ text, Layout.scramble o p.source = .ok text := by
    rcases Layout.mapM_scrambleSegment_cases o p.source with ⟨e, t, he, -⟩ | ⟨-, parts, hparts⟩
    · rw [htemplate] at he
      cases he
    · rw [Layout.scramble, hparts]
      exact ⟨_, rfl⟩
  refine ⟨(text, 0), ?_⟩
  show ((ofExcept ((Layout.scramble o p.source).mapError Fault.ofTemplate) >>=
    fun text => pure (text, 0)) σ).1 = _
  rw [htext]
  rfl

section Calm

theorem calm_inlining : inlining.Calm :=
  fun _ => Flow.within_setUp.bind fun _ => Flow.within_inlineAll

theorem calm_predicates : predicates.Calm :=
  fun _ => (within_sample _).bind fun c => Flow.within_obscureConditions c

theorem calm_flattening : flattening.Calm :=
  fun _ => Flow.within_setUp.bind fun _ => Flow.within_flatten

theorem calm_promotion : promotion.Calm := fun _ => Storage.within_editByFile _ _ _

theorem calm_tables : tables.Calm := fun _ => within_pure _

theorem calm_truths : truths.Calm := fun _ => (within_sample _).bind fun _ => within_pure _

theorem calm_integers : integers.Calm :=
  fun _ => (within_sample _).bind fun _ => within_pure _

theorem calm_grouping : grouping.Calm := fun _ => Storage.within_editByFile _ _ _

theorem calm_uncommenting : uncommenting.Calm :=
  fun _ => Layout.within_uncomment.bind fun _ => within_pure _

theorem calm_scrambling : scrambling.Calm :=
  fun _ => (within_ofExcept _).bind fun _ => within_pure _

end Calm

/-! ## Visits -/

/-- A stage that is run, with the progress and the session that it finds. -/
structure Visit where
  stage : Stage
  progress : Progress
  session : Session

/-- Stages are visited one after the other; between them only lines are reported. -/
inductive Runs : List Visit → Progress → Session → Progress → Session → Prop
  | nil (p : Progress) (σ : Session) : Runs [] p σ p σ
  | said (line : String) {vs : List Visit} {p p' : Progress} {σ σ' : Session}
      (rest : Runs vs p (said line σ) p' σ') : Runs vs p σ p' σ'
  | visit (s : Stage) {vs : List Visit} {p p₁ p' : Progress} {σ σ₁ σ' : Session}
      (run : s.run p σ = (.ok p₁, σ₁)) (rest : Runs vs p₁ σ₁ p' σ') : Runs (⟨s, p, σ⟩ :: vs) p σ p' σ'

namespace Runs

variable {vs ws : List Visit} {p p' p'' : Progress} {σ σ' σ'' : Session}

theorem append (h : Runs vs p σ p' σ') (h' : Runs ws p' σ' p'' σ'') : Runs (vs ++ ws) p σ p'' σ'' := by
  induction h with
  | nil => exact h'
  | said line _ ih => exact .said line (ih h')
  | visit s run _ ih => exact .visit s run (ih h')

theorem version (h : Runs vs p σ p' σ') : p'.version = p.version := by
  induction h with
  | nil => rfl
  | said _ _ ih => exact ih
  | visit s run _ ih => exact ih.trans (Stage.version_run run)

theorem switches (h : Runs vs p σ p' σ') (hcalm : ∀ v ∈ vs, v.stage.Calm) :
    σ'.switches = σ.switches := by
  induction h with
  | nil => rfl
  | said _ _ ih => exact ih hcalm
  | visit s run _ ih =>
    rw [ih fun v hv => hcalm v (.tail _ hv)]
    exact Stage.Calm.switches_run (hcalm _ mem_cons_self) run

end Runs

/-! ## The stages that are on -/

def isSet (switches : List (String × String)) (name default : String) : Bool :=
  ((switches.find? (·.1 = name)).map (·.2)).getD default == "1"

def chosen (on : Bool) (s : Stage) : List Stage :=
  if on then [s] else []

def flowOn (staticOnly : Bool) (switches : List (String × String)) : List Stage :=
  chosen (!staticOnly && isSet switches "ENABLE_PREPROCESSING" "1") inlining ++
    (chosen (!staticOnly && isSet switches "ENABLE_CPM" "1") predicates ++
      chosen (!staticOnly) flattening)

def literalOn (staticOnly : Bool) (switches : List (String × String)) : List Stage :=
  chosen (isSet switches "ENABLE_LOCAL_STATE" "1") promotion ++
    (chosen (isSet switches "ENABLE_STATIC" "1") tables ++
      (chosen (!staticOnly) truths ++ chosen (!staticOnly) integers))

def dataOn (staticOnly : Bool) (switches : List (String × String)) : List Stage :=
  literalOn staticOnly switches ++ chosen (!staticOnly && isSet switches "ENABLE_SCALAR" "1") grouping

def layoutOn (staticOnly : Bool) (switches : List (String × String)) : List Stage :=
  if staticOnly then []
  else uncommenting :: (chosen (isSet switches "ENABLE_FORMATTING" "1") scrambling ++ [newNames])

/-- The stages that the switches leave on, in their order. -/
def enabled (switches : List (String × String)) : List Stage :=
  let staticOnly := isSet switches "STATIC_ONLY" "0"
  flowOn staticOnly switches ++ (dataOn staticOnly switches ++ layoutOn staticOnly switches)

theorem forall_chosen {P : Stage → Prop} (h : P s) (on : Bool) : ∀ t ∈ chosen on s, P t := by
  intro t ht
  unfold chosen at ht
  split at ht
  · rwa [mem_singleton.1 ht]
  · cases ht

theorem calm_flowOn (staticOnly : Bool) (switches : List (String × String)) :
    ∀ s ∈ flowOn staticOnly switches, s.Calm := by
  simp only [flowOn, forall_mem_append]
  exact ⟨forall_chosen calm_inlining _, forall_chosen calm_predicates _, forall_chosen calm_flattening _⟩

theorem calm_literalOn (staticOnly : Bool) (switches : List (String × String)) :
    ∀ s ∈ literalOn staticOnly switches, s.Calm := by
  simp only [literalOn, forall_mem_append]
  exact ⟨forall_chosen calm_promotion _, forall_chosen calm_tables _, forall_chosen calm_truths _,
    forall_chosen calm_integers _⟩

theorem calm_dataOn (staticOnly : Bool) (switches : List (String × String)) :
    ∀ s ∈ dataOn staticOnly switches, s.Calm :=
  forall_mem_append.2 ⟨calm_literalOn staticOnly switches, forall_chosen calm_grouping _⟩

/-! ## Steps that pass through stages -/

/-- The step visits the stages that the switches leave on, and does not fail. -/
def Passes (on : List (String × String) → List Stage) (x : Progress → Run Progress) : Prop :=
  ∀ p σ, p.Sound → ∃ p' σ' vs, x p σ = (.ok p', σ') ∧ vs.map Visit.stage = on σ.switches ∧
    Runs vs p σ p' σ'

section Passes

variable {on on' : List (String × String) → List Stage} {x y : Progress → Run Progress}

theorem passes_pure : Passes (fun _ => []) pure := fun p σ _ => ⟨p, σ, [], rfl, rfl, .nil p σ⟩

theorem passes_run (hs : s.Contained) : Passes (fun _ => [s]) s.run := by
  intro p σ hp
  obtain ⟨p', σ', hrun⟩ := hs p σ hp
  exact ⟨p', σ', [⟨s, p, σ⟩], hrun, rfl, .visit s hrun (.nil p' σ')⟩

theorem Passes.say (hx : Passes on x) (line : String) :
    Passes on fun p => say line >>= fun _ => x p := by
  intro p σ hp
  obtain ⟨p', σ', vs, hrun, hon, hvs⟩ := hx p (said line σ) hp
  exact ⟨p', σ', vs, hrun, hon, .said line hvs⟩

theorem Passes.bind (hx : Passes on x) (hy : Passes on' y) (hcalm : ∀ sw, ∀ s ∈ on sw, s.Calm) :
    Passes (fun sw => on sw ++ on' sw) fun p => x p >>= y := by
  intro p σ hp
  obtain ⟨p₁, σ₁, vs, hrun, hon, hvs⟩ := hx p σ hp
  have hswitches : σ₁.switches = σ.switches := by
    refine hvs.switches fun v hv => hcalm σ.switches v.stage ?_
    rw [← hon]
    exact mem_map_of_mem hv
  have hp₁ : p₁.Sound := by
    rw [Progress.Sound, hvs.version]
    exact hp
  obtain ⟨p', σ', ws, hrun', hon', hws⟩ := hy p₁ σ₁ hp₁
  refine ⟨p', σ', vs ++ ws, Run.bind_ok.2 ⟨p₁, σ₁, hrun, hrun'⟩, ?_, hvs.append hws⟩
  rw [map_append, hon, hon', hswitches]

theorem passes_isOn {on : Bool → List (String × String) → List Stage} {x : Bool → Progress → Run Progress}
    (name default : String) (hx : ∀ b, Passes (on b) (x b)) :
    Passes (fun sw => on (isSet sw name default) sw) fun p => isOn name default >>= fun b => x b p :=
  fun p σ hp => hx (isSet σ.switches name default) p σ hp

theorem passes_orReason (hs : s.Contained) {reason : Option String} {b : Bool}
    (h : reason.isNone = b) : Passes (fun _ => chosen b s) (orReason s reason) := by
  subst h
  cases reason with
  | none => exact passes_run hs
  | some line => exact passes_pure.say line

theorem isNone_unless (staticOnly on : Bool) (a b : String) :
    ((unlessStatic staticOnly a).or (unlessOff on b)).isNone = (!staticOnly && on) := by
  cases staticOnly <;> cases on <;> rfl

theorem isNone_unlessOff (on : Bool) (a : String) : (unlessOff on a).isNone = on := by
  cases on <;> rfl

theorem isNone_unlessStatic (staticOnly : Bool) (a : String) :
    (unlessStatic staticOnly a).isNone = !staticOnly := by
  cases staticOnly <;> rfl

end Passes

theorem passes_flowStages : Passes (flowOn staticOnly) (flowStages staticOnly) := by
  have hflatten : Passes (fun _ => chosen (!staticOnly) flattening)
      fun p => if staticOnly then pure p else flattening.run p := by
    cases staticOnly with
    | true => exact passes_pure
    | false => exact passes_run (Stage.contained_of_failed rfl)
  have hpredicates (opaq : Bool) (a b : String) := passes_orReason
    (Stage.contained_of_failed (s := predicates) rfl) (isNone_unless staticOnly opaq a b)
  have hinlining (inline : Bool) (a b : String) := passes_orReason
    (Stage.contained_of_failed (s := inlining) rfl) (isNone_unless staticOnly inline a b)
  exact passes_isOn _ _ fun inline => (hinlining inline _ _).bind
    (passes_isOn _ _ fun opaq => (hpredicates opaq _ _).bind (hflatten.say _)
      fun _ => forall_chosen calm_predicates _)
    fun _ => forall_chosen calm_inlining _

theorem passes_literalStages (staticOnly : Bool) :
    Passes (literalOn staticOnly) (literalStages staticOnly) := by
  have hstage {s : Stage} {line : String} (h : s.failed = some line) {reason : Option String} {b : Bool}
      (hb : reason.isNone = b) := passes_orReason (Stage.contained_of_failed h) hb
  exact passes_isOn _ _ fun on => (hstage (s := promotion) rfl (isNone_unlessOff on _)).bind
    (passes_isOn _ _ fun on => (hstage (s := tables) rfl (isNone_unlessOff on _)).bind
      ((hstage (s := truths) rfl (isNone_unlessStatic staticOnly _)).bind
        (hstage (s := integers) rfl (isNone_unlessStatic staticOnly _)) fun _ => forall_chosen calm_truths _)
      fun _ => forall_chosen calm_tables _)
    fun _ => forall_chosen calm_promotion _

theorem passes_dataStages (staticOnly : Bool) : Passes (dataOn staticOnly) (dataStages staticOnly) :=
  (passes_literalStages staticOnly).bind
    (passes_isOn _ _ fun group => passes_orReason (Stage.contained_of_failed (s := grouping) rfl)
      (isNone_unless staticOnly group _ _)) (calm_literalOn staticOnly)

theorem passes_layoutStages :
    Passes (layoutOn staticOnly) (layoutStages staticOnly) := by
  cases staticOnly with
  | true => exact passes_pure.say _
  | false =>
    have huncommenting := passes_run (Stage.contained_of_failed (s := uncommenting) rfl)
    have hnewNames := passes_run (Stage.contained_of_failed (s := newNames) rfl)
    exact huncommenting.bind
      (passes_isOn _ _ fun on => (passes_orReason contained_scrambling (isNone_unlessOff on _)).bind hnewNames
        fun _ => forall_chosen calm_scrambling _)
      fun _ => forall_mem_singleton.2 calm_uncommenting

theorem passes_allStages : Passes enabled allStages :=
  passes_isOn "STATIC_ONLY" "0" fun staticOnly => passes_flowStages.bind
    ((passes_dataStages staticOnly).bind passes_layoutStages (calm_dataOn staticOnly))
    (calm_flowOn staticOnly)

theorem prepare_ok (input : String) (source : Chars) (version : String) (σ : Session) :
    let σ₀ := said ("[INFO] Generating initial AST for " ++ input ++ "...")
      (said ("[INFO] Using Solidity Version: " ++ version) σ)
    ∃ σ', prepare input source version σ = (.ok (), σ') ∧
    Regenerated 0 (keptTree source 0 version σ₀) σ₀ σ' := by
  intro σ₀
  obtain ⟨σ₁, hrun, hmade⟩ := regenerate_ok source 0 version σ₀
  unfold prepare
  rw [Run.say_bind, Run.say_bind]
  cases hkept : (keptTree source 0 version σ₀).isSome with
  | true =>
    rw [hkept] at hrun
    exact ⟨σ₁, Run.bind_ok.2 ⟨true, σ₁, hrun, rfl⟩, hmade⟩
  | false =>
    rw [hkept] at hrun
    exact ⟨_, Run.bind_ok.2 ⟨false, σ₁, hrun, rfl⟩, hmade.said _⟩

/-- The version that is asked for, or else the default one. -/
def usedVersion (asked : Option Chars) : String :=
  (asked.map String.ofList).getD defaultVersion

/-- The session in which a version of the compiler is at hand. -/
def installed (source : Chars) (σ : Session) : Session :=
  (install (detectVersion source
    (said "[INFO] Starting BiAn-style progressive obfuscation pipeline..." σ)).2).2

/-- The session in which the first text is written down and compiled. -/
def begun (input : String) (source : Chars) (asked : Option Chars) (σ : Session) : Session :=
  said ("[INFO] Generating initial AST for " ++ input ++ "...")
    (said ("[INFO] Using Solidity Version: " ++ usedVersion asked) (installed source σ))

/-- The session in which the first stage is run. -/
def ready (input : String) (source : Chars) (asked : Option Chars) (σ : Session) : Session :=
  (prepare input source (usedVersion asked) (installed source σ)).2

theorem backslash_not_mem_of_isVersion {w : Chars} (h : isVersion w) : '\\' ∉ w := by
  obtain ⟨a, b, c, rfl, hdigits⟩ := isVersion_iff.1 h
  have hout {l : Chars} (hl : l ∈ [a, b, c]) : '\\' ∉ l :=
    fun hmem => absurd ((hdigits l hl).2 _ hmem) (by decide)
  simp [hout (l := a), hout (l := b), hout (l := c)]

theorem sound_initial {source : Chars} {asked : Option Chars}
    (h : askedVersion source = .ok asked) :
    (Progress.initial text (usedVersion asked)).Sound := by
  show '\\' ∉ (usedVersion asked).toList
  cases asked with
  | none => decide
  | some v =>
    unfold askedVersion at h
    split at h
    · cases h
    · split at h
      · cases h
      · have hv := Except.ok.inj h
        split at hv
        · rename_i hversion
          obtain rfl := Option.some.inj hv
          show '\\' ∉ (String.ofList _).toList
          rw [String.toList_ofList]
          exact backslash_not_mem_of_isVersion hversion
        · cases hv

theorem exist_of_readText {fs : Files} {path : String} (h : fs.readText path = .ok text) :
    fs.exist path := by
  obtain ⟨b, hb, -⟩ := bind_ok.1 h
  obtain ⟨n, hn, -⟩ := bind_ok.1 hb
  rw [Files.exist, hn]

theorem install_ok (h : σ.compiler.installsLeft ≠ some 0) :
    ∃ u σ', install σ = (.ok u, σ') := by
  unfold install
  rw [get_bind]
  cases hleft : σ.compiler.installsLeft with
  | none => exact ⟨(), σ, rfl⟩
  | some n =>
    cases n with
    | zero => exact absurd hleft h
    | succ n => exact ⟨(), _, rfl⟩

section Begin

variable {input output : String} {source : Chars} {asked : Option Chars} {σ : Session}

theorem detectVersion_ok (h : askedVersion source = .ok asked) (σ : Session) :
    ∃ line, detectVersion source σ = (.ok (usedVersion asked), said line σ) := by
  unfold detectVersion
  rw [h]
  cases asked with
  | none => exact ⟨_, rfl⟩
  | some v => exact ⟨_, rfl⟩

theorem untouched_begun (h : askedVersion source = .ok asked) (input : String) (σ : Session) :
    Untouched [] σ (begun input source asked σ) := by
  obtain ⟨line, hdetect⟩ := detectVersion_ok h
    (said "[INFO] Starting BiAn-style progressive obfuscation pipeline..." σ)
  unfold begun installed
  rw [hdetect]
  have hsaid (line : String) (σ : Session) := untouched_said [] line σ
  exact (hsaid _ σ).trans ((hsaid line _).trans ((within_install _).trans ((hsaid _ _).trans (hsaid _ _))))

theorem regenerated_ready (input : String) (source : Chars) (asked : Option Chars) (σ : Session) :
    Regenerated 0 (keptTree source 0 (usedVersion asked) (begun input source asked σ))
      (begun input source asked σ) (ready input source asked σ) := by
  obtain ⟨σ₀, hprepare, hmade⟩ := prepare_ok input source (usedVersion asked) (installed source σ)
  rw [ready, hprepare]
  exact hmade

theorem switches_ready (h : askedVersion source = .ok asked) :
    (ready input source asked σ).switches = σ.switches :=
  (regenerated_ready input source asked σ).untouched.switches.trans (untouched_begun h input σ).switches

/-- With a readable input, a version and a compiler, the stages are run. -/
theorem obfuscate_eq (hread : σ.files.readText input = .ok source)
    (hasked : askedVersion source = .ok asked) (hinstall : σ.compiler.installsLeft ≠ some 0) :
    obfuscate input output σ =
      (allStages (.initial source (usedVersion asked)) >>= conclude output) (ready input source asked σ) := by
  let σ₁ := said "[INFO] Starting BiAn-style progressive obfuscation pipeline..." σ
  obtain ⟨line, hdetect⟩ := detectVersion_ok hasked σ₁
  obtain ⟨u, σ₂, hinstalled⟩ := install_ok (σ := said line σ₁) hinstall
  have hat : installed source σ = σ₂ := by
    unfold installed
    rw [hdetect, hinstalled]
  obtain ⟨σ₀, hprepare, -⟩ := prepare_ok input source (usedVersion asked) σ₂
  have hstart : obfuscate input output σ = runStages input output source (usedVersion asked) σ₂ := by
    have hsource : readText input σ = (.ok source, σ) := by
      unfold readText
      rw [files_bind, hread]
      rfl
    unfold obfuscate
    rw [files_bind, exist_of_readText hread]
    refine (bind_of_ok hsource).trans ?_
    rw [say_bind]
    refine (bind_of_ok hdetect).trans ?_
    rw [attempt_bind, hinstalled]
  rw [hstart, runStages, bind_of_ok hprepare, ready, hat, hprepare]

/-- **The stages are visited.** -/
theorem exists_runs (hread : σ.files.readText input = .ok source)
    (hasked : askedVersion source = .ok asked) (hinstall : σ.compiler.installsLeft ≠ some 0)
    (output : String) :
    ∃ vs p σ₁, Runs vs (.initial source (usedVersion asked)) (ready input source asked σ) p σ₁ ∧
      vs.map Visit.stage = enabled σ.switches ∧ obfuscate input output σ = conclude output p σ₁ := by
  obtain ⟨p, σ₁, vs, hrun, hon, hvs⟩ := passes_allStages _ (ready input source asked σ)
    (sound_initial hasked)
  rw [switches_ready hasked] at hon
  refine ⟨vs, p, σ₁, hvs, hon, ?_⟩
  rw [obfuscate_eq hread hasked hinstall, bind_of_ok hrun]

end Begin

/-! ## What the passes contribute -/

/-- The pass says how much it changed. -/
def Stage.counts (s : Stage) : Bool :=
  ["preprocessing", "opaque predicates", "control flow flattening", "local-to-state promotion",
    "boolean obfuscation", "scalar splitting"].contains s.title

/-- What the pass of a visit gives. -/
def Visit.outcome (v : Visit) : Except Fault (Chars × Nat) :=
  (v.stage.pass v.progress (v.stage.opened v.session)).1

end Obscura.Pipeline
