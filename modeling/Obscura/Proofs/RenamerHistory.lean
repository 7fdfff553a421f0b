import Obscura.Proofs.Renaming

/-
  Renamers with a history. Each call of a renamer may add to its table, also one that
  fails. A name is only ever added under the new name that the settings give it, so a
  table holds nothing that a fresh renamer would not come to (`Reached.sound`), and what
  a call returns depends on its source and its names alone (`renameNames_snd`).
-/

namespace Obscura

open List

/-! ## Steps that only see files and the compiler -/

/-- The sessions have the same files, and the compiler answers alike in both. -/
structure Session.Alike (σ σ' : Session) : Prop where
  files : σ.files = σ'.files
  reachable : σ.compiler.reachable = σ'.compiler.reachable
  answers : σ.compiler.answers = σ'.compiler.answers

namespace Run

variable {α β : Type} {f : α → Run β} {x : Run α} {path : String}

/-- In sessions that are alike the step comes to the same, and they stay so. -/
def Blind (x : Run α) : Prop :=
  ∀ σ σ', σ.Alike σ' → (x σ).1 = (x σ').1 ∧ (x σ).2.Alike (x σ').2

theorem blind_pure (a : α) : Blind (pure a) := fun _ _ h => ⟨rfl, h⟩

theorem blind_ofExcept (e : Except Fault α) : Blind (ofExcept e) := fun _ _ h => ⟨rfl, h⟩

theorem Blind.bind (hx : Blind x) (hf : ∀ a, Blind (f a)) : Blind (x >>= f) := by
  intro σ σ' h
  obtain ⟨hsame, halike⟩ := hx σ σ' h
  have hbind (σ : Session) : (x >>= f) σ = (ExceptT.bindCont f (x σ).1) (x σ).2 := rfl
  rw [hbind, hbind, ← hsame]
  cases (x σ).1 with
  | error e => exact ⟨rfl, halike⟩
  | ok a => exact hf a _ _ halike

theorem Blind.attempt (hx : Blind x) : Blind (attempt x) :=
  fun σ σ' h => ⟨congrArg Except.ok (hx σ σ' h).1, (hx σ σ' h).2⟩

theorem blind_say (line : String) : Blind (say line) :=
  fun _ _ h => ⟨rfl, h.files, h.reachable, h.answers⟩

theorem blind_files : Blind files := fun _ _ h => ⟨congrArg Except.ok h.files, h⟩

theorem blind_readText : Blind (readText path) :=
  blind_files.bind fun _ => blind_ofExcept _

theorem blind_writeText (t : Chars) : Blind (writeText path t) :=
  blind_files.bind fun _ => (blind_ofExcept _).bind fun _ => fun _ _ h => ⟨rfl, rfl, h.reachable, h.answers⟩

theorem blind_compile : Blind (compile path) := by
  intro σ σ' h
  simp only [compile, get_bind]
  rw [← h.reachable, ← h.answers]
  cases σ.compiler.reachable with
  | false => exact ⟨rfl, h⟩
  | true =>
    cases σ.compiler.answers with
    | nil => exact ⟨rfl, h⟩
    | cons a rest => cases a <;> exact ⟨rfl, h.files, rfl, rfl⟩

end Run

namespace Rename

open Text Json Run

variable {cfg : Settings} {names : Names} {t : Table} {σ : Session} {source : Chars}

theorem blind_compileTree (source : Option Chars) (path : Option String) :
    Blind (compileTree source path) := by
  have hrest (x : Run Units) (hx : Blind x) : Blind (do
      let tree ← Run.ofExcept (Units.firstTree (← x))
      writeText (treePath path) (Json.print .tree tree)
      return tree) :=
    hx.bind fun _ => (blind_ofExcept _).bind fun tree => (blind_writeText _).bind fun _ => blind_pure tree
  have hthrow := hrest (throw .nothingToRead) (blind_ofExcept (.error .nothingToRead))
  unfold compileTree
  dsimp only
  split
  · exact hrest _ blind_compile
  · cases path with
    | none => exact hthrow
    | some p =>
      refine blind_files.bind fun fs => ?_
      split
      · exact hrest _ blind_compile
      · exact hthrow

theorem blind_namesOf (path : Option String) : Blind (namesOf source path) := by
  have htree : Blind (treeOf (some source) path) := by
    refine (blind_compileTree _ path).attempt.bind fun r => ?_
    split
    · exact blind_pure _
    · exact (blind_say _).bind fun _ => blind_pure _
  refine htree.bind fun tree => ?_
  split
  · exact (blind_ofExcept _).bind fun _ => blind_pure _
  · exact (blind_say _).bind fun _ => blind_pure _

theorem blind_names (r : Request) : Blind (r.names source) := by
  rcases r with path | _ | p
  · exact blind_namesOf path
  · exact blind_namesOf none
  · refine blind_files.bind fun fs => ?_
    split
    · have hfile : Blind (namesInFile p) := blind_readText.bind fun _ => (blind_ofExcept _).bind fun _ =>
        (blind_ofExcept _).bind fun _ => blind_pure _
      refine hfile.attempt.bind fun e => ?_
      split
      · exact blind_pure _
      · exact (blind_say _).bind fun _ => blind_namesOf none
    · exact blind_namesOf none

theorem alike_setUp (version : String) (σ : Session) :
    ∃ σ', setUp version σ = (.ok (), σ') ∧ σ.Alike σ' := by
  have hinstall (σ : Session) : σ.Alike (install σ).2 := by
    simp only [install, get_bind]
    rcases σ.compiler.installsLeft with _ | _ | n <;> exact ⟨rfl, rfl, rfl⟩
  unfold setUp
  rw [get_bind]
  split
  · exact ⟨σ, rfl, rfl, rfl, rfl⟩
  · rw [say_bind, attempt_bind]
    obtain ⟨hfiles, hreachable, hanswers⟩ :=
      hinstall (said ("Installing Solidity compiler " ++ version ++ "...") σ)
    cases (install (said ("Installing Solidity compiler " ++ version ++ "...") σ)).1 <;>
      exact ⟨_, rfl, hfiles, hreachable, hanswers⟩

/-! ## Tables -/

/-- What the first name that gets no new one fails with. -/
def firstFault (cfg : Settings) : Names → Option Fault
  | [] => none
  | n :: ns =>
    match newName cfg n.2 with
    | .ok _ => firstFault cfg ns
    | .error f => some f

/-- Each name in the table stands there with the new name that the settings give it, and
is neither reserved nor empty. -/
def Sound (cfg : Settings) (t : Table) : Prop :=
  ∀ e ∈ t, newName cfg (.str e.1) = .ok e.2 ∧ isReserved e.1 = false ∧ e.1.isEmpty = false

theorem sound_nil (cfg : Settings) : Sound cfg [] := forall_mem_nil _

theorem learn_spec (hallowed : Allowed names) (hs : Sound cfg t) :
    Sound cfg (learn cfg t names).1 ∧ t <+: (learn cfg t names).1 ∧
      (learn cfg t names).2 = firstFault cfg names := by
  fun_induction learn cfg t names with
  | case1 t => exact ⟨hs, prefix_rfl, rfl⟩
  | case2 t n ns s hn hhas ih =>
    -- a name that is known did get a new name, so it is not the first to fail
    obtain ⟨x, hx⟩ := Option.isSome_iff_exists.1 hhas
    rw [firstFault, hn, (hs _ (Assoc.mem_of_find hx)).1]
    exact ih (forall_mem_cons.1 hallowed).2 hs
  | case3 t n ns s hn hhas x hx ih =>
    have hs' : Sound cfg (t ++ [(s, x)]) :=
      forall_mem_append.2
        ⟨hs, forall_mem_singleton.2 ⟨hx, Allowed.free hallowed ⟨n, mem_cons_self, hn⟩⟩⟩
    obtain ⟨hsound, hgrown, hfault⟩ := ih (forall_mem_cons.1 hallowed).2 hs'
    refine ⟨hsound, (prefix_append t _).trans hgrown, ?_⟩
    rw [firstFault, hn, hx]
    exact hfault
  | case4 t n ns s hn hhas f hf =>
    rw [firstFault, hn, hf]
    exact ⟨hs, prefix_rfl, rfl⟩
  | case5 t n ns x hn hx ih =>
    rw [firstFault, hx]
    exact ih (forall_mem_cons.1 hallowed).2 hs
  | case6 t n ns f hn hf =>
    rw [firstFault, hf]
    exact ⟨hs, prefix_rfl, rfl⟩

theorem newName_of_firstFault (h : firstFault cfg names = none) :
    ∀ n ∈ names, ∃ w x, n.2 = .str w ∧ newName cfg (.str w) = .ok x := by
  induction names with
  | nil => exact nofun
  | cons n ns ih =>
    rw [firstFault] at h
    split at h
    · rename_i x hx
      refine forall_mem_cons.2 ⟨?_, ih h⟩
      obtain ⟨digest, -, hdigest⟩ := bind_ok.1 hx
      obtain ⟨b, hb, -⟩ := bind_ok.1 hdigest
      obtain ⟨k, v⟩ := n
      cases v with
      | str w => exact ⟨w, x, rfl, hx⟩
      | _ => cases hb
    · cases h

theorem mappedName_eq (hs : Sound cfg t) (w : String) : mappedName cfg t w = newName cfg (.str w) := by
  cases h : Assoc.find w t with
  | none => exact mappedName_of_new h
  | some x => rw [mappedName_of_find h, (hs _ (Assoc.mem_of_find h)).1]

theorem foldlM_replaceName_congr {t' : Table} {order : List String}
    (h : ∀ w ∈ order, Assoc.find w t = Assoc.find w t') (source : Chars) :
    order.foldlM (replaceName t) source = order.foldlM (replaceName t') source := by
  induction order generalizing source with
  | nil => rfl
  | cons w order ih =>
    obtain ⟨hw, horder⟩ := forall_mem_cons.1 h
    have hstep : replaceName t source w = replaceName t' source w := by
      rw [replaceName, hw]
      rfl
    rw [foldlM_cons, foldlM_cons, hstep]
    exact bind_congr fun s => ih horder s

/-- What a call returns does not depend on the table. -/
theorem renameNames_snd (hallowed : Allowed names) (hs : Sound cfg t) :
    (renameNames cfg t names source).2 = (renameNames cfg [] names source).2 := by
  cases hfault : firstFault cfg names with
  | some f =>
    have hfail {t : Table} (hs : Sound cfg t) : (renameNames cfg t names source).2 = .error f := by
      have hlearn := (learn_spec hallowed hs).2.2
      rw [renameNames]
      cases h : learn cfg t names with
      | mk t' o =>
        rw [h, hfault] at hlearn
        cases hlearn
        rfl
    rw [hfail hs, hfail (sound_nil cfg)]
  | none =>
    have hnew := newName_of_firstFault hfault
    let new (w : String) := (newName cfg (.str w)).toOption.getD []
    -- either table comes to hold what the settings give, and nothing else is looked up
    have hlearn {t : Table} (hs : Sound cfg t) : ∃ t', learn cfg t names = (t', none) ∧
        ∀ w, IsName names w → Assoc.find w t' = some (new w) := by
      have hmapped (w : String) (hw : IsName names w) : mappedName cfg t w = .ok (new w) := by
        obtain ⟨n, hn, hnw⟩ := hw
        obtain ⟨v, x, hv, hx⟩ := hnew n hn
        obtain rfl := Json.str.inj (hv.symm.trans hnw)
        simp [mappedName_eq hs, new, hx, Except.toOption]
      obtain ⟨t', h, -, hfind⟩ := learn_ok (fun n hn => (hnew n hn).imp fun _ h => h.choose_spec.1) hmapped
      exact ⟨t', h, hfind⟩
    obtain ⟨t₁, h₁, hfind₁⟩ := hlearn hs
    obtain ⟨t₂, h₂, hfind₂⟩ := hlearn (sound_nil cfg)
    rw [renameNames, h₁, renameNames, h₂]
    refine foldlM_replaceName_congr (fun w hw => ?_) source
    rw [hfind₁ w (mem_longestFirst.1 hw), hfind₂ w (mem_longestFirst.1 hw)]

/-- The names of a call can be gone through in any order. -/
theorem renameNames_of_perm {order : Names} (hallowed : Allowed names) (horder : order.Perm names)
    (hs : Sound cfg t) (source : Chars) : Sound cfg (renameNames cfg t order source).1 ∧
      t <+: (renameNames cfg t order source).1 ∧
      (renameNames cfg t order source).2 = (renameNames cfg [] order source).2 := by
  have hall : Allowed order := fun n hn => hallowed n (horder.subset hn)
  have htable : (renameNames cfg t order source).1 = (learn cfg t order).1 := by
    rw [renameNames]
    split <;> simp [*]
  obtain ⟨hsound, hgrown, -⟩ := learn_spec hall hs
  rw [htable]
  exact ⟨hsound, hgrown, renameNames_snd hall hs⟩

/-! ## Calls -/

/-- What is asked of a renamer: to rename a text, or to save its table. -/
inductive Call where
  | rename (r : Request) (source : Chars)
  | save (path : String)

/-- A call leaves a table behind and returns a text, if it does not fail. Saving returns
no text. -/
def Call.run (cfg : Settings) (t : Table) : Call → Run Outcome
  | rename r source => r.run cfg t source
  | save path => do
    return (t, (← attempt (saveTable t path)).map fun _ => [])

/-- The tables that calls can lead to, each in a session of its own and with its names in
any order. -/
inductive Reached (cfg : Settings) : Table → Prop where
  | fresh : Reached cfg []
  | call {t t' : Table} {x : Except Fault Chars} (h : Reached cfg t) (c : Call) (σ : Session)
      (hrun : (c.run cfg t σ).1 = .ok (t', x)) : Reached cfg t'
  | ordered {t : Table} {r : Request} {source : Chars} {σ : Session} {names order : Names}
      (h : Reached cfg t) (hnames : (r.names source σ).1 = .ok names) (horder : order.Perm names) :
      Reached cfg (renameNames cfg t order source).1

/-- What a call returns, by the files and the answers it finds. -/
def Call.result (cfg : Settings) (σ : Session) : Call → Except Fault Chars
  | rename r source => (outcomeOf cfg [] source (r.names source σ).1).2
  | save path => (σ.files.writeText path []).map fun _ => []

theorem result_of_alike {σ' : Session} (c : Call) (h : σ.Alike σ') : c.result cfg σ = c.result cfg σ' := by
  cases c with
  | rename r source => rw [Call.result, Call.result, (blind_names r σ σ' h).1]
  | save path => rw [Call.result, Call.result, h.files]

/-- A call comes to its result whatever the renamer was used for before. -/
theorem run_of_sound (hs : Sound cfg t) (c : Call) (σ : Session) :
    ∃ t', (c.run cfg t σ).1 = .ok (t', c.result cfg σ) ∧ t <+: t' ∧ Sound cfg t' := by
  cases c with
  | rename r source =>
    rw [Call.run, r.run_fst, Call.result]
    cases hnames : (r.names source σ).1 with
    | error f => exact ⟨t, rfl, prefix_rfl, hs⟩
    | ok names =>
      have hallowed := Request.allowed_names (r := r) (Prod.ext hnames rfl)
      obtain ⟨hsound, hgrown, hsame⟩ := renameNames_of_perm hallowed (.refl names) hs source
      exact ⟨_, congrArg Except.ok (Prod.ext rfl hsame), hgrown, hsound⟩
  | save path =>
    refine ⟨t, ?_, prefix_rfl, hs⟩
    -- whether a file can be written is a matter of its path
    rw [Call.run, attempt_bind, saveTable, writeText, bind_assoc, files_bind, Call.result]
    unfold Files.writeText Files.write
    cases σ.files.target path <;> rfl

theorem Reached.sound (h : Reached cfg t) : Sound cfg t := by
  induction h with
  | fresh => exact sound_nil cfg
  | call _ c σ hrun ih =>
    obtain ⟨t', hrun', -, hsound⟩ := run_of_sound ih c σ
    cases hrun.symm.trans hrun'
    exact hsound
  | ordered _ hnames horder ih =>
    exact (renameNames_of_perm (Request.allowed_names (Prod.ext hnames rfl)) horder ih _).1

/-- **A renamer's history does not matter**: its table only holds names that may be
renamed, under the new names that the settings give them. No call changes or drops an
entry, and each returns what it would have returned as the first call of a renamer. This
holds for every order in which the names of a call are gone through. -/
theorem calls_forget_history (h : Reached cfg t) :
    Sound cfg t ∧ ∀ (c : Call) (σ : Session), ∃ t' x σ', c.run cfg t σ = (.ok (t', x), σ') ∧ t <+: t' ∧
      (∀ σ₁, σ.Alike σ₁ → ∃ t₁ σ₂, (do setUp cfg.version; c.run cfg []) σ₁ = (.ok (t₁, x), σ₂)) ∧
      ∀ r source names order, c = .rename r source → (r.names source σ).1 = .ok names → order.Perm names →
        t <+: (renameNames cfg t order source).1 ∧
          (renameNames cfg t order source).2 = (renameNames cfg [] order source).2 := by
  refine ⟨h.sound, fun c σ => ?_⟩
  obtain ⟨t', hrun, hgrown, -⟩ := run_of_sound h.sound c σ
  refine ⟨t', c.result cfg σ, _, Prod.ext hrun rfl, hgrown, fun σ₁ halike => ?_,
    fun r source names order _ hnames horder =>
      (renameNames_of_perm (Request.allowed_names (Prod.ext hnames rfl)) horder h.sound source).2⟩
  obtain ⟨σ₂, hsetUp, halike'⟩ := alike_setUp cfg.version σ₁
  obtain ⟨t₁, hfresh, -⟩ := run_of_sound (sound_nil cfg) c σ₂
  rw [← result_of_alike c halike', ← result_of_alike c halike] at hfresh
  exact ⟨t₁, _, Run.bind_ok.2 ⟨(), σ₂, hsetUp, Prod.ext hfresh rfl⟩⟩

def bareLead : Settings := { length := some 0 }

/-- The name of a node is a name, and that of the node below it a number. -/
def oddTree : Json :=
  .obj [("nodeType", .str "Identifier"), ("name", .str "a"),
    ("below", .obj [("nodeType", .str "Identifier"), ("name", .int 5)])]

def oddSession : Session := { compiler.answers := [some fun _ => [("", some oddTree)]] }

/-- A call that fails leaves the names behind that it has met. -/
theorem calls_forget_history_odd :
    ((Call.rename (.own none) ['a']).run bareLead [] oddSession).1 =
        .ok ([("a", ['O', 'X'])], .error .notObject) ∧
      Sound bareLead [("a", ['O', 'X'])] := by
  have hrun : ((Call.rename (.own none) ['a']).run bareLead [] oddSession).1 =
      .ok ([("a", ['O', 'X'])], .error .notObject) :=
    rfl
  exact ⟨hrun, (calls_forget_history (.call .fresh _ _ hrun)).1⟩

end Rename

end Obscura
