import Mathlib.Data.List.Induction
import Obscura.Files
import Obscura.Proofs.Characters
import Obscura.Proofs.Except

/-
  What writing does to the other files. A file that was written is read back at its
  path, whatever the path (`read_write`); and a file in the same directory under
  another name is read as before (`read_write_sibling`).
-/

namespace Obscura.Text

open List

theorem splitAt_of_not_mem {sep : Char} {s : Chars} (h : sep ∉ s) : splitAt sep s = [s] := by
  induction s with
  | nil => rfl
  | cons c s ih =>
    obtain ⟨hc, hs⟩ := not_or.1 (mem_cons.not.1 h)
    rw [splitAt, if_neg (by simpa using Ne.symm hc), ih hs]

theorem splitAt_append {sep : Char} {a : Chars} (h : sep ∉ a) (s : Chars) :
    splitAt sep (a ++ sep :: s) = a :: splitAt sep s := by
  induction a with
  | nil => simp [splitAt]
  | cons c a ih =>
    obtain ⟨hc, ha⟩ := not_or.1 (mem_cons.not.1 h)
    rw [cons_append, splitAt, if_neg (by simpa using Ne.symm hc), ih ha]

end Obscura.Text

namespace Obscura.Files

open Text List

variable {ms ns : List Chars}

/-! ## Entries -/

theorem find?_setEntry (p q : String) (b : Bytes) (es : List (String × Bytes)) :
    (setEntry p b es).find? (·.1 == q) = if p = q then some (p, b) else es.find? (·.1 == q) := by
  induction es with
  | nil =>
    by_cases h : p = q
    · simp [setEntry, h]
    · simp [setEntry, h]
  | cons e es ih =>
    rw [setEntry]
    by_cases he : e.1 = p
    · rw [if_pos he]
      by_cases h : p = q
      · simp [h]
      · simp [he, h]
    · rw [if_neg he, find?_cons, find?_cons, ih]
      by_cases hq : e.1 = q
      · have hpq : p ≠ q := fun h => he (hq.trans h.symm)
        simp [beq_iff_eq.2 hq, hpq]
      · simp [beq_eq_false_iff_ne.2 hq]

theorem any_setEntry {P : String → Bool} {p : String} {b : Bytes} {es : List (String × Bytes)}
    (h : es.any (P ·.1)) : (setEntry p b es).any (P ·.1) := by
  induction es with
  | nil => cases h
  | cons e es ih =>
    rw [any_cons, Bool.or_eq_true] at h
    rw [setEntry]
    split
    · rename_i he
      rw [any_cons, Bool.or_eq_true]
      exact h.imp_left fun h => he ▸ h
    · rw [any_cons, Bool.or_eq_true]
      exact h.imp_right ih

/-! ## Places -/

/-- The route is that of the working directory, one above it or the root. -/
def IsTop (r : Route) : Prop :=
  (r.isUpward || decide (r = .root)) = true

section Node

variable {fs : Files} {r q : Route} {b c : Bytes}

theorem node?_of_isTop (h : IsTop r) : fs.node? r = some .directory := by
  rw [node?]
  exact if_pos h

theorem node?_of_not_isTop (h : ¬IsTop r) :
    fs.node? r = match fs.entries.find? (·.1 == r.spell) with
      | some e => some (.file e.2)
      | none =>
        if fs.directories.contains r.spell || fs.directories.any (isAbove r.spell)
            || fs.entries.any (isAbove r.spell ·.1) then some .directory
        else none := by
  rw [node?]
  exact if_neg h

theorem node?_eq_file_iff :
    fs.node? r = some (.file b) ↔
      ¬IsTop r ∧ (fs.entries.find? (·.1 == r.spell)).map (·.2) = some b := by
  by_cases ht : IsTop r
  · rw [node?_of_isTop ht]
    simp [ht]
  · rw [node?_of_not_isTop ht]
    cases fs.entries.find? (·.1 == r.spell) with
    | some e => simp [ht]
    | none =>
      dsimp only
      split <;> simp

theorem node?_eq_directory_iff (ht : ¬IsTop r) :
    fs.node? r = some .directory ↔
      fs.entries.find? (·.1 == r.spell) = none ∧
        (fs.directories.contains r.spell || fs.directories.any (isAbove r.spell)
          || fs.entries.any (isAbove r.spell ·.1)) := by
  rw [node?_of_not_isTop ht]
  cases fs.entries.find? (·.1 == r.spell) with
  | some e => simp
  | none =>
    dsimp only
    split
    · rename_i h
      exact iff_of_true rfl ⟨rfl, h⟩
    · rename_i h
      exact iff_of_false nofun fun h' => h h'.2

theorem node?_congr_spell (hr : ¬IsTop r) (hq : ¬IsTop q) (h : r.spell = q.spell) :
    fs.node? r = fs.node? q := by
  rw [node?_of_not_isTop hr, node?_of_not_isTop hq, h]

theorem node?_file_congr {gs : Files} (h : gs.entries = fs.entries) :
    gs.node? r = some (.file b) ↔ fs.node? r = some (.file b) := by
  rw [node?_eq_file_iff, node?_eq_file_iff, h]

def withEntry (fs : Files) (r : Route) (b : Bytes) : Files :=
  { fs with entries := setEntry r.spell b fs.entries }

theorem node?_withEntry (hr : ¬IsTop r) : (fs.withEntry r b).node? r = some (.file b) := by
  rw [node?_eq_file_iff, withEntry, find?_setEntry, if_pos rfl]
  exact ⟨hr, rfl⟩

theorem node?_withEntry_file (h : r.spell ≠ q.spell) :
    (fs.withEntry r b).node? q = some (.file c) ↔ fs.node? q = some (.file c) := by
  rw [node?_eq_file_iff, node?_eq_file_iff, withEntry, find?_setEntry, if_neg h]

theorem node?_withEntry_directory (hr : ¬IsTop r) (hfree : fs.node? r ≠ some .directory)
    (h : fs.node? q = some .directory) : (fs.withEntry r b).node? q = some .directory := by
  by_cases hq : IsTop q
  · exact node?_of_isTop hq
  · have hne : r.spell ≠ q.spell := by
      intro heq
      rw [node?_congr_spell hr hq heq] at hfree
      exact hfree h
    obtain ⟨hnone, hsome⟩ := (node?_eq_directory_iff hq).1 h
    rw [node?_eq_directory_iff hq, withEntry, find?_setEntry, if_neg hne]
    refine ⟨hnone, ?_⟩
    rw [Bool.or_eq_true] at hsome ⊢
    exact hsome.imp_right any_setEntry

end Node

/-! ## Following names -/

section Follow

variable {fs fs' : Files} {r q : Route}

theorem directoryAt_ok : fs.directoryAt r = .ok q ↔ fs.node? r = some .directory ∧ q = r := by
  rw [directoryAt]
  cases h : fs.node? r with
  | none => simp
  | some n =>
    cases n with
    | file b => simp
    | directory => simp [eq_comm]

theorem follow_cons {n : Chars} : fs.follow r (n :: ns) = .ok q ↔
      fs.node? r = some .directory ∧ ∃ r', step r n = .ok r' ∧ fs.follow r' ns = .ok q := by
  rw [follow, bind_ok]
  constructor
  · rintro ⟨a, ha, h⟩
    obtain ⟨hdir, rfl⟩ := directoryAt_ok.1 ha
    exact ⟨hdir, bind_ok.1 h⟩
  · rintro ⟨hdir, h⟩
    exact ⟨r, directoryAt_ok.2 ⟨hdir, rfl⟩, bind_ok.2 h⟩

theorem follow_append :
    fs.follow r (ms ++ ns) = .ok q ↔ ∃ r', fs.follow r ms = .ok r' ∧ fs.follow r' ns = .ok q := by
  induction ms generalizing r with
  | nil =>
    constructor
    · intro h
      exact ⟨r, rfl, h⟩
    · rintro ⟨r', h, h'⟩
      cases h
      exact h'
  | cons n ms ih =>
    rw [cons_append, follow_cons]
    simp only [ih, follow_cons]
    constructor
    · rintro ⟨hdir, a, ha, r', h, h'⟩
      exact ⟨r', ⟨hdir, a, ha, h⟩, h'⟩
    · rintro ⟨r', ⟨hdir, a, ha, h⟩, h'⟩
      exact ⟨hdir, a, ha, r', h, h'⟩

theorem node?_of_follow (h : fs.follow r ns = .ok q)
    (hq : fs.node? q = some .directory) : fs.node? r = some .directory := by
  cases ns with
  | nil =>
    cases h
    exact hq
  | cons n ns => exact (follow_cons.1 h).1

theorem follow_mono (hdir : ∀ q, fs.node? q = some .directory → fs'.node? q = some .directory)
    (h : fs.follow r ns = .ok q) : fs'.follow r ns = .ok q := by
  induction ns generalizing r with
  | nil => exact h
  | cons n ns ih =>
    obtain ⟨hr, r', hstep, hrest⟩ := follow_cons.1 h
    exact follow_cons.2 ⟨hdir r hr, r', hstep, ih hrest⟩

theorem follow_of_filter (h : fs.follow r (ns.filter (· ≠ [])) = .ok q)
    (hq : fs.node? q = some .directory) : fs.follow r ns = .ok q := by
  induction ns generalizing r with
  | nil => exact h
  | cons n ns ih =>
    by_cases hn : n = []
    · subst hn
      have hrest : fs.follow r (ns.filter (· ≠ [])) = .ok q := h
      exact follow_cons.2 ⟨node?_of_follow hrest hq, r, rfl, ih hrest⟩
    · rw [filter_cons_of_pos (by simpa using hn)] at h
      obtain ⟨hr, r', hstep, hrest⟩ := follow_cons.1 h
      exact follow_cons.2 ⟨hr, r', hstep, ih hrest⟩

end Follow

/-! ## Reading and writing -/

/-- A name that does not lead elsewhere. -/
def IsPlain (n : Chars) : Prop :=
  n ≠ [] ∧ n ≠ ['.'] ∧ n ≠ ['.', '.']

theorem step_ok {r q : Route} {n : Chars} (hn : IsPlain n) (h : step r n = .ok q) : q = r ++ [n] := by
  rw [step] at h
  split at h
  · cases h
  · rw [← Except.ok.inj h, Route.enter, if_neg, if_neg hn.2.2]
    rintro (h | h)
    · exact hn.1 h
    · exact hn.2.1 h

theorem not_isTop_append {r : Route} {n : Chars} (hn : IsPlain n) : ¬IsTop (r ++ [n]) := by
  rw [IsTop, Bool.or_eq_true, not_or, decide_eq_true_iff]
  constructor
  · rw [Route.isUpward, all_append]
    simp [hn.2.2]
  · intro h
    have hlast : (r ++ [n]).getLast? = Route.root.getLast? := by rw [h]
    rw [getLast?_concat] at hlast
    exact hn.1 (Option.some.inj hlast)

section Write

variable {fs fs' : Files} {path : String} {b c : Bytes} {r dir : Route}

theorem find_ok {n : Node} :
    fs.find path = .ok n ↔ checkPath path = .ok () ∧
      ∃ r, fs.follow (fs.names path).1 (fs.names path).2 = .ok r ∧ fs.node? r = some n := by
  unfold find
  rw [bind_ok]
  constructor
  · rintro ⟨u, hcheck, h⟩
    obtain ⟨r, hr, h⟩ := bind_ok.1 h
    refine ⟨hcheck, r, hr, ?_⟩
    cases hnode : fs.node? r with
    | none =>
      rw [hnode] at h
      cases h
    | some m =>
      rw [hnode] at h
      cases h
      rfl
  · rintro ⟨hcheck, r, hr, hnode⟩
    refine ⟨(), hcheck, bind_ok.2 ⟨r, hr, ?_⟩⟩
    rw [hnode]
    rfl

theorem read_ok :
    fs.read path = .ok c ↔ checkPath path = .ok () ∧
      ∃ r, fs.follow (fs.names path).1 (fs.names path).2 = .ok r ∧ fs.node? r = some (.file c) := by
  rw [← find_ok, read, bind_ok]
  constructor
  · rintro ⟨n, hn, h⟩
    cases n with
    | file d =>
      cases h
      exact hn
    | directory => cases h
  · intro h
    exact ⟨.file c, h, rfl⟩

/-- A last name that is not empty keeps its place when the empty ones are left out. -/
theorem exists_concat_of_filter {all : List Chars} {n : Chars}
    (hlast : (all.filter (· ≠ [])).getLast? = some n) (hend : all.getLast? ≠ some []) :
    n ≠ [] ∧ ∃ ms, all = ms ++ [n] ∧ (all.filter (· ≠ [])).dropLast = ms.filter (· ≠ []) := by
  have hne : n ≠ [] := by
    have hmem := mem_of_getLast? hlast
    simpa using (mem_filter.1 hmem).2
  refine ⟨hne, ?_⟩
  cases all using reverseRecOn with
  | nil => cases hlast
  | append_singleton ms m =>
    have hm : m ≠ [] := fun h => hend (by rw [getLast?_concat, h])
    rw [filter_append, filter_cons_of_pos (by simpa using hm), filter_nil] at hlast ⊢
    rw [getLast?_concat] at hlast
    exact ⟨ms, by rw [Option.some.inj hlast], dropLast_concat⟩

/-- Where a file is written: under a plain name in a directory, and not in the place of
another directory. -/
theorem target_ok (h : fs.target path = .ok r) :
    checkPath path = .ok () ∧ ∃ ms n dir, (fs.names path).2 = ms ++ [n] ∧ IsPlain n ∧
      fs.follow (fs.names path).1 ms = .ok dir ∧ fs.node? dir = some .directory ∧
      step dir n = .ok r ∧ fs.node? r ≠ some .directory := by
  unfold target at h
  obtain ⟨u, hcheck, h⟩ := bind_ok.1 h
  refine ⟨hcheck, ?_⟩
  generalize fs.names path = route at h ⊢
  obtain ⟨start, all⟩ := route
  dsimp only at h ⊢
  split at h
  · cases h
  · rename_i n hlast
    obtain ⟨dir, hd, hdir⟩ := bind_ok.1 h
    obtain ⟨_, hat, hname⟩ := bind_ok.1 hdir
    obtain ⟨hnode, rfl⟩ := directoryAt_ok.1 hat
    by_cases hplain : all.getLast? = some [] ∨ n = ['.'] ∨ n = ['.', '.']
    · rw [if_pos hplain] at hname
      cases hname
    rw [if_neg hplain] at hname
    obtain ⟨hend, hdot, hdots⟩ : all.getLast? ≠ some [] ∧ n ≠ ['.'] ∧ n ≠ ['.', '.'] := by
      simpa only [not_or] using hplain
    obtain ⟨hne, ms, hall, hfilter⟩ := exists_concat_of_filter hlast hend
    rw [hfilter] at hd
    obtain ⟨r', hstep, hfound⟩ := bind_ok.1 hname
    refine ⟨ms, n, _, hall, ⟨hne, hdot, hdots⟩, follow_of_filter hd hnode, hnode, ?_⟩
    cases hfree : fs.node? r' with
    | none =>
      rw [hfree] at hfound
      cases hfound
      exact ⟨hstep, by simp [hfree]⟩
    | some found =>
      rw [hfree] at hfound
      cases found with
      | directory => cases hfound
      | file b =>
        cases hfound
        exact ⟨hstep, by simp [hfree]⟩

/-- What writing does: one entry is set, under a plain name in a directory, and all
directories stay. -/
theorem write_ok (h : fs.write path b = .ok fs') :
    checkPath path = .ok () ∧ ∃ ms n dir, (fs.names path).2 = ms ++ [n] ∧ IsPlain n ∧
      fs.follow (fs.names path).1 ms = .ok dir ∧ fs.node? dir = some .directory ∧
      step dir n = .ok (dir ++ [n]) ∧ fs' = fs.withEntry (dir ++ [n]) b ∧
      ∀ q, fs.node? q = some .directory → fs'.node? q = some .directory := by
  rw [write] at h
  obtain ⟨r, htarget, hfs'⟩ := bind_ok.1 h
  cases hfs'
  obtain ⟨hcheck, ms, n, dir, hnames, hn, hfollow, hdir, hstep, hfree⟩ := target_ok htarget
  obtain rfl := step_ok hn hstep
  exact ⟨hcheck, ms, n, dir, hnames, hn, hfollow, hdir, hstep, rfl,
    fun q => node?_withEntry_directory (not_isTop_append hn) hfree⟩

/-- **What was written is read back.** -/
theorem read_write (h : fs.write path b = .ok fs') : fs'.read path = .ok b := by
  obtain ⟨hcheck, ms, n, dir, hnames, hn, hfollow, hdir, hstep, rfl, hmono⟩ := write_ok h
  rw [read_ok]
  refine ⟨hcheck, dir ++ [n], ?_, node?_withEntry (not_isTop_append hn)⟩
  show (fs.withEntry (dir ++ [n]) b).follow (fs.names path).1 (fs.names path).2 = _
  rw [hnames, follow_append]
  exact ⟨dir, follow_mono hmono hfollow, follow_cons.2 ⟨hmono dir hdir, _, hstep, rfl⟩⟩

/-- To read a file in a directory is to find it there under its name. -/
theorem read_in_directory {start dir : Route} {n : Chars}
    (hnames : fs.names path = (start, ms ++ [n])) (hfollow : fs.follow start ms = .ok dir)
    (hdir : fs.node? dir = some .directory) :
    fs.read path = .ok c ↔ checkPath path = .ok () ∧ ∃ q, step dir n = .ok q ∧
      fs.node? q = some (.file c) := by
  rw [read_ok, hnames]
  refine and_congr_right fun _ => exists_congr fun q => and_congr_left fun _ => ?_
  rw [follow_append]
  constructor
  · rintro ⟨d, hd, h⟩
    rw [hfollow] at hd
    cases hd
    obtain ⟨-, q', hq', h⟩ := follow_cons.1 h
    cases h
    exact hq'
  · intro hq
    exact ⟨dir, hfollow, follow_cons.2 ⟨hdir, q, hq, rfl⟩⟩

theorem spell_concat_ne {m n : Chars} (h : m ≠ n) :
    Route.spell (dir ++ [n]) ≠ Route.spell (dir ++ [m]) := by
  rw [Route.spell, Route.spell, joinWith_append _ _ (cons_ne_nil _ _), joinWith_append _ _ (cons_ne_nil _ _)]
  intro heq
  have hlists := congrArg String.toList heq
  rw [String.toList_ofList, String.toList_ofList] at hlists
  exact h (append_cancel_left hlists).symm

/-- **A file beside the one that was written is read as before.** -/
theorem read_write_sibling {beside : String} {start : Route} {m n : Chars}
    (hpath : fs.names path = (start, ms ++ [n])) (hbeside : fs.names beside = (start, ms ++ [m]))
    (hm : IsPlain m) (hmn : m ≠ n) (h : fs.write path b = .ok fs') :
    fs'.read beside = .ok c ↔ fs.read beside = .ok c := by
  obtain ⟨-, ms', n', dir, hnames, -, hfollow, hdir, -, rfl, hmono⟩ := write_ok h
  rw [hpath] at hnames hfollow
  obtain ⟨rfl, hn'⟩ := append_inj' hnames rfl
  obtain rfl := (cons.inj hn').1
  have hbeside' : (fs.withEntry (dir ++ [n]) b).names beside = (start, ms ++ [m]) := hbeside
  rw [read_in_directory hbeside' (follow_mono hmono hfollow) (hmono dir hdir),
    read_in_directory hbeside hfollow hdir]
  refine and_congr_right fun _ => exists_congr fun q => and_congr_right fun hq => ?_
  obtain rfl := step_ok hm hq
  exact node?_withEntry_file (spell_concat_ne hmn)

end Write

/-! ## One directory -/

/-- The file under a name in the directory of the tests. -/
def inTest (n : String) : String :=
  "test/" ++ n

theorem toList_inTest (n : String) : (inTest n).toList = "test".toList ++ '/' :: n.toList := by
  rw [inTest, String.toList_append]
  rfl

/-- A name that a file in the directory can have. -/
def IsTestName (n : String) : Prop :=
  '/' ∉ n.toList ∧ IsPlain n.toList

/-- All its files are reached over the same names, which are those of the directory,
unless the working directory is spelled like it. -/
theorem names_inTest (fs : Files) :
    ∃ ms, (ms = [] ∨ ms = ["test".toList]) ∧
      ∀ n : String, '/' ∉ n.toList → fs.names (inTest n) = ([], ms ++ [n.toList]) := by
  by_cases hhome : fs.home.toList = "test".toList
  · refine ⟨[], .inl rfl, fun n hn => ?_⟩
    have hstrip : stripFront? (fs.home.toList ++ ['/']) (inTest n).toList = some n.toList := by
      rw [stripFront?_eq_some_iff, toList_inTest, hhome, append_assoc]
      rfl
    rw [names, hstrip]
    show (([] : Route), splitAt '/' n.toList) = _
    rw [splitAt_of_not_mem hn]
    rfl
  · refine ⟨["test".toList], .inr rfl, fun n hn => ?_⟩
    have hstrip : stripFront? (fs.home.toList ++ ['/']) (inTest n).toList = none := by
      rw [Option.eq_none_iff_forall_ne_some]
      intro r hr
      rw [stripFront?_eq_some_iff, toList_inTest, append_assoc] at hr
      -- the name holds no slash, so that the first one is that behind the directory
      rcases append_eq_append_iff.1 hr with ⟨u, hu, hrest⟩ | ⟨u, hu, hrest⟩
      · cases u with
        | nil => exact hhome (by rw [hu, append_nil])
        | cons c u =>
          rw [cons_append, cons.injEq] at hrest
          exact hn (by rw [hrest.2]; simp)
      · cases u with
        | nil => exact hhome (by rw [hu, append_nil])
        | cons c u =>
          obtain ⟨hc, -⟩ := cons.inj hrest
          have hslash : '/' ∈ "test".toList := by
            rw [hu, ← hc]
            simp
          exact absurd hslash (by decide)
    have htest : '/' ∉ "test".toList := by decide
    rw [names, hstrip, toList_inTest]
    show (([] : Route), splitAt '/' ("test".toList ++ '/' :: n.toList)) = _
    rw [splitAt_append htest, splitAt_of_not_mem hn]
    rfl

section Test

variable {fs fs' : Files} {m n : String} {b c : Bytes}

theorem read_write_inTest (hm : IsTestName m) (hn : '/' ∉ n.toList) (hmn : m ≠ n)
    (h : fs.write (inTest n) b = .ok fs') : fs'.read (inTest m) = .ok c ↔ fs.read (inTest m) = .ok c := by
  obtain ⟨ms, -, hnames⟩ := fs.names_inTest
  exact read_write_sibling (hnames n hn) (hnames m hm.1) hm.2 (fun heq => hmn (String.toList_inj.1 heq)) h

theorem makeDirectory_ok (h : fs.makeDirectory "test" = .ok fs') :
    fs' = fs ∨ fs.node? ["test".toList] = none ∧
      fs' = { fs with directories := fs.directories ++ [Route.spell ["test".toList]] } := by
  have hnames : fs.names "test" = ([], ["test".toList]) := by
    have hstrip : stripFront? (fs.home.toList ++ ['/']) "test".toList = none := by
      rw [Option.eq_none_iff_forall_ne_some]
      intro r hr
      rw [stripFront?_eq_some_iff] at hr
      have hslash : '/' ∈ "test".toList := by
        rw [hr]
        simp
      exact absurd hslash (by decide)
    rw [names, hstrip]
    rfl
  unfold makeDirectory at h
  obtain ⟨u, -, h⟩ := bind_ok.1 h
  rw [hnames] at h
  obtain ⟨r, hstep, h⟩ := bind_ok.1 h
  have hr : r = ["test".toList] := step_ok ⟨by decide, by decide, by decide⟩ hstep
  subst hr
  cases hnode : fs.node? ["test".toList] with
  | none =>
    rw [hnode] at h
    cases h
    exact .inr ⟨rfl, rfl⟩
  | some found =>
    rw [hnode] at h
    cases found with
    | file b => cases h
    | directory =>
      cases h
      exact .inl rfl

theorem node?_test_ne_none {n : Chars} (h : fs.node? ["test".toList, n] = some (.file c)) :
    fs.node? ["test".toList] ≠ none := by
  obtain ⟨-, hfound⟩ := node?_eq_file_iff.1 h
  obtain ⟨e, he, -⟩ := Option.map_eq_some_iff.1 hfound
  have hspell : e.1 = Route.spell ["test".toList, n] := by
    simpa using find?_some he
  have hstrip : stripFront? ((Route.spell ["test".toList]).toList ++ ['/']) e.1.toList = some n := by
    rw [stripFront?_eq_some_iff, hspell, Route.spell, Route.spell, String.toList_ofList, String.toList_ofList]
    simp [joinWith]
  have habove : fs.entries.any (isAbove (Route.spell ["test".toList]) ·.1) := by
    refine any_eq_true.2 ⟨e, mem_of_find?_eq_some he, ?_⟩
    rw [isAbove, startsWith, hstrip]
    rfl
  have htop : ¬IsTop ["test".toList] := by
    unfold IsTop
    decide
  rw [node?_of_not_isTop htop, habove, Bool.or_true]
  split <;> simp

theorem follow_test {n : Chars} {r : Route} (hn : IsPlain n)
    (h : fs.follow [] ["test".toList, n] = .ok r) : r = ["test".toList, n] := by
  obtain ⟨-, d, hd, h⟩ := follow_cons.1 h
  obtain rfl := step_ok ⟨by decide, by decide, by decide⟩ hd
  obtain ⟨-, r', hr', h⟩ := follow_cons.1 h
  cases h
  exact step_ok hn hr'

theorem read_makeDirectory (hn : IsTestName n) (h : fs.makeDirectory "test" = .ok fs') :
    fs'.read (inTest n) = .ok c ↔ fs.read (inTest n) = .ok c := by
  rcases makeDirectory_ok h with rfl | ⟨hnone, hmade⟩
  · rfl
  have hentries : fs'.entries = fs.entries := by rw [hmade]
  obtain ⟨ms, hms, hnames⟩ := fs.names_inTest
  have hnames' : fs'.names (inTest n) = ([], ms ++ [n.toList]) := by
    rw [hmade]
    exact hnames n hn.1
  rw [read_ok, read_ok, hnames', hnames n hn.1]
  refine and_congr_right fun _ => ?_
  rcases hms with rfl | rfl
  · refine exists_congr fun r => ?_
    rw [node?_file_congr hentries]
    refine and_congr_left fun _ => ?_
    show fs'.follow [] [n.toList] = _ ↔ fs.follow [] [n.toList] = _
    rw [follow_cons, follow_cons]
    exact and_congr_left fun _ => iff_of_true rfl rfl
  · -- there was no directory, so that there was no file in it either
    have hno : fs.node? ["test".toList, n.toList] ≠ some (.file c) := fun hc => node?_test_ne_none hc hnone
    refine iff_of_false ?_ ?_
    · rintro ⟨r, hr, hfound⟩
      obtain rfl := follow_test hn.2 hr
      exact hno ((node?_file_congr hentries).1 hfound)
    · rintro ⟨r, hr, hfound⟩
      obtain rfl := follow_test hn.2 hr
      exact hno hfound

end Test

end Obscura.Files
