import Obscura.Flow.Call
import Obscura.Flow.Flatten
import Obscura.Flow.Opaque
import Obscura.Layout.Uncomment
import Obscura.Proofs.Files
import Obscura.Proofs.Session
import Obscura.Storage.Promotion

/-
  What a step of a session leaves alone. A pass on a text may draw, compile, read
  and report, but it writes no file and sets no switch; so the files in the directory
  of the tests are after it what they were before.
-/

namespace Obscura

variable {path : String} {t source : Chars} {u : Unit}

/-- The switches are as before, and so is each file in the directory of the tests,
unless it has one of the names `written`. -/
structure Untouched (written : List String) (σ σ' : Session) : Prop where
  switches : σ'.switches = σ.switches
  read : ∀ n, Files.IsTestName n → n ∉ written →
    ∀ b, σ'.files.read (Files.inTest n) = .ok b ↔ σ.files.read (Files.inTest n) = .ok b

namespace Untouched

variable {written : List String} {σ σ' σ'' : Session}

theorem of_eq (hfiles : σ'.files = σ.files) (hswitches : σ'.switches = σ.switches) :
    Untouched written σ σ' :=
  ⟨hswitches, fun n _ _ b => by rw [hfiles]⟩

theorem refl (written : List String) (σ : Session) : Untouched written σ σ :=
  of_eq rfl rfl

theorem trans (h : Untouched written σ σ') (h' : Untouched written σ' σ'') :
    Untouched written σ σ'' where
  switches := h'.switches.trans h.switches
  read := fun n hn hfree b => (h'.read n hn hfree b).trans (h.read n hn hfree b)

theorem mono {more : List String} (h : Untouched written σ σ') (hsub : written ⊆ more) :
    Untouched more σ σ' :=
  ⟨h.switches, fun n hn hfree => h.read n hn fun hmem => hfree (hsub hmem)⟩

end Untouched

theorem untouched_said (written : List String) (line : String) (σ : Session) :
    Untouched written σ (said line σ) :=
  .of_eq rfl rfl

namespace Run

variable {α β : Type} {written : List String} {version : String}

/-- Whatever comes of the step, it writes no other files of the tests than these. -/
def Within (written : List String) (x : Run α) : Prop :=
  ∀ σ, Untouched written σ (x σ).2

theorem within_of_eq {x : Run α}
    (h : ∀ σ, (x σ).2.files = σ.files ∧ (x σ).2.switches = σ.switches) : Within written x :=
  fun σ => .of_eq (h σ).1 (h σ).2

theorem Within.bind {x : Run α} {f : α → Run β} (hx : Within written x)
    (hf : ∀ a, Within written (f a)) : Within written (x >>= f) := by
  intro σ
  have hbind : (x >>= f) σ = (ExceptT.bindCont f (x σ).1) (x σ).2 := rfl
  have hstep := hx σ
  rw [hbind]
  generalize x σ = y at hstep
  obtain ⟨a | a, σ₁⟩ := y
  · exact hstep
  · exact hstep.trans (hf a σ₁)

theorem Within.attempt {x : Run α} (hx : Within written x) : Within written (Run.attempt x) :=
  fun σ => hx σ

theorem within_pure (a : α) : Within written (pure a : Run α) :=
  within_of_eq fun _ => ⟨rfl, rfl⟩

theorem within_throw (f : Fault) : Within written (throw f : Run α) :=
  within_of_eq fun _ => ⟨rfl, rfl⟩

theorem within_ofExcept (x : Except Fault α) : Within written (ofExcept x) :=
  within_of_eq fun _ => ⟨rfl, rfl⟩

theorem within_get : Within written (getThe Session : Run Session) :=
  within_of_eq fun _ => ⟨rfl, rfl⟩

theorem within_ite {p : Prop} [Decidable p] {x y : Run α} (hx : Within written x) (hy : Within written y) :
    Within written (if p then x else y) := by
  split
  · exact hx
  · exact hy

theorem within_files : Within written files :=
  within_of_eq fun _ => ⟨rfl, rfl⟩

theorem within_readText : Within written (readText path) :=
  within_files.bind fun _ => within_ofExcept _

theorem within_sample (x : Sampled α) : Within written (sample x) :=
  within_of_eq fun _ => ⟨rfl, rfl⟩

theorem within_say (line : String) : Within written (say line) :=
  within_of_eq fun _ => ⟨rfl, rfl⟩

theorem within_forIn {γ : Type} (xs : List γ) (b : β) {f : γ → β → Run (ForInStep β)}
    (hf : ∀ x b, Within written (f x b)) : Within written (forIn xs b f) := by
  induction xs generalizing b with
  | nil => exact within_pure b
  | cons x xs ih =>
    rw [List.forIn_cons]
    refine (hf x b).bind fun r => ?_
    cases r with
    | done b => exact within_pure b
    | yield b => exact ih b

theorem within_compile : Within written (compile path) := by
  refine within_of_eq fun σ => ?_
  unfold compile
  rw [get_bind]
  cases hr : σ.compiler.reachable with
  | false => exact ⟨rfl, rfl⟩
  | true =>
    cases ha : σ.compiler.answers with
    | nil => exact ⟨rfl, rfl⟩
    | cons a rest =>
      cases a with
      | none => exact ⟨rfl, rfl⟩
      | some f => exact ⟨rfl, rfl⟩

theorem within_install : Within written install := by
  refine within_of_eq fun σ => ?_
  unfold install
  rw [get_bind]
  cases hi : σ.compiler.installsLeft with
  | none => exact ⟨rfl, rfl⟩
  | some n =>
    cases n with
    | zero => exact ⟨rfl, rfl⟩
    | succ n => exact ⟨rfl, rfl⟩

theorem within_requireVersion : Within written (requireVersion version) := by
  refine within_get.bind fun s => ?_
  dsimp only
  split
  · exact (within_throw _).bind fun _ => within_ite (within_pure ()) within_install
  · exact within_ite (within_pure ()) within_install

theorem within_ensureVersion : Within written (ensureVersion version) := by
  refine within_get.bind fun s => ?_
  split
  · refine within_requireVersion.attempt.bind fun r => ?_
    cases r with
    | ok _ => exact within_pure true
    | error _ => exact within_pure false
  · exact within_pure false

theorem writeText_ok : writeText path t σ = (.ok u, σ') ↔
      ∃ fs, σ.files.writeText path t = .ok fs ∧ σ' = { σ with files := fs } := by
  unfold writeText
  rw [files_bind, bind_ok]
  constructor
  · rintro ⟨fs, σ₁, hfs, h⟩
    obtain ⟨hwrite, rfl⟩ := ofExcept_ok.1 hfs
    cases h
    exact ⟨fs, hwrite, rfl⟩
  · rintro ⟨fs, hwrite, rfl⟩
    exact ⟨fs, σ, ofExcept_ok.2 ⟨hwrite, rfl⟩, rfl⟩

theorem writeText_of_error {f : Fault}
    (h : σ.files.writeText path t = .error f) : writeText path t σ = (.error f, σ) := by
  unfold writeText
  rw [files_bind, h]
  rfl

theorem read_writeText
    (h : writeText path t σ = (.ok u, σ')) : σ'.files.read path = .ok (Text.encode t) := by
  obtain ⟨fs, hwrite, rfl⟩ := writeText_ok.1 h
  exact Files.read_write hwrite

theorem within_writeText {n : String} (hn : '/' ∉ n.toList) (hmem : n ∈ written) :
    Within written (writeText (Files.inTest n) t) := by
  intro σ
  unfold writeText
  rw [files_bind]
  cases h : σ.files.writeText (Files.inTest n) t with
  | error f => exact .refl _ σ
  | ok fs =>
    refine ⟨rfl, fun m hm hfree b => ?_⟩
    refine Files.read_write_inTest hm hn ?_ h
    rintro rfl
    exact hfree hmem

theorem within_makeDirectory : Within written (makeDirectory "test") := by
  intro σ
  unfold makeDirectory
  rw [files_bind]
  cases h : σ.files.makeDirectory "test" with
  | error f => exact .refl _ σ
  | ok fs => exact ⟨rfl, fun m hm _ b => Files.read_makeDirectory hm h⟩

end Run

/-! ## The passes -/

open Run

namespace Flow

variable {written : List String} {version : String} {source : Chars}

theorem within_treeOfText : Within written treeOfText := by
  refine within_compile.attempt.bind fun r => ?_
  cases r with
  | ok units => exact within_pure _
  | error f => exact (within_say _).bind fun _ => within_pure _

theorem within_setUp : Within written (setUp version) := by
  refine within_requireVersion.attempt.bind fun r => ?_
  split
  · exact within_pure ()
  · exact within_say _
  · exact within_say _

theorem within_inlineModifiers : Within written (inlineModifiers source) := by
  refine within_treeOfText.bind fun tree => ?_
  cases tree with
  | none => exact within_pure source
  | some tree =>
    dsimp only
    split
    · refine (within_forIn _ _ fun r _ => (within_say r).bind fun _ => within_pure _).bind fun _ => ?_
      exact within_pure _
    · refine (within_forIn _ _ fun r _ => (within_say r).bind fun _ => within_pure _).bind fun _ => ?_
      exact within_throw _

theorem within_inlineAll : Within written (inlineAll source) := by
  refine within_inlineModifiers.bind fun mid => ?_
  refine Within.bind ?_ fun out => within_pure _
  refine within_treeOfText.bind fun tree => ?_
  cases tree with
  | none => exact within_pure mid
  | some tree => exact within_ofExcept _

theorem within_flattenBodies (s : Text.Bytes) (bs : List Body) (out : Text.Bytes × Nat) :
    Within written (flattenBodies s bs out) := by
  induction bs generalizing out with
  | nil => exact within_pure out
  | cons b bs ih =>
    refine (within_ofExcept _).bind fun found => ?_
    cases found with
    | none => exact ih out
    | some statements =>
      refine (within_ofExcept _).bind fun chart => ?_
      exact (within_sample _).bind fun text => ih _

theorem within_flatten : Within written (flatten source) := by
  refine within_treeOfText.bind fun tree => ?_
  cases tree with
  | none => exact within_pure _
  | some tree =>
    refine Within.bind ?_ fun out => within_pure _
    refine (within_ofExcept _).bind fun found => ?_
    refine (within_flattenBodies _ _ _).bind fun out => ?_
    exact (within_say _).bind fun _ => within_ofExcept _

theorem within_opaqueTree :
    Within written (opaqueTree version source none) := by
  refine within_get.bind fun s => ?_
  dsimp only
  split
  · exact within_pure none
  · refine within_ensureVersion.bind fun _ => ?_
    split
    · exact within_treeOfText
    · exact within_pure none

theorem within_obscureConditions (c : Chaotic) :
    Within written (obscureConditions c version source) := by
  refine Within.bind ?_ fun out => within_pure _
  refine within_opaqueTree.bind fun tree => ?_
  cases tree with
  | none => exact (within_say _).bind fun _ => within_pure source
  | some tree =>
    refine (within_ofExcept _).bind fun cs => ?_
    dsimp only
    split
    · exact (within_say _).bind fun _ => within_pure source
    · refine (within_ofExcept _).bind fun out => ?_
      split
      · exact within_pure source
      · split
        · exact (within_say _).bind fun _ => within_pure _
        · exact (within_say _).bind fun _ => within_pure _

end Flow

namespace Storage

variable {written : List String} {source : Chars}

theorem within_treeOfFile (path : Option String) (complaint : String) :
    Within written (treeOfFile path complaint) := by
  cases path with
  | none => exact within_pure none
  | some p =>
    refine within_files.bind fun fs => ?_
    split
    · exact within_pure none
    · refine (within_readText.bind fun text => within_ofExcept _).attempt.bind fun r => ?_
      cases r with
      | ok tree => exact within_pure _
      | error f => exact (within_say complaint).bind fun _ => within_pure none

theorem within_editByFile (edit : Chars → Json → Except Fault (Chars × Nat)) (complaint : String)
    (path : Option String) : Within written (editByFile edit complaint source path) := by
  refine (within_treeOfFile path _).bind fun tree => ?_
  cases tree with
  | none => exact within_pure _
  | some tree => exact within_ofExcept _

end Storage

namespace Layout

theorem within_uncomment {written : List String} :
    Within written (uncomment (some source) none) := by
  unfold uncomment
  exact within_ite ((within_throw _).bind fun _ => within_pure _) (within_pure _)

end Layout

end Obscura
