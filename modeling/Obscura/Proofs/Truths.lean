import Obscura.Proofs.Chunks
import Obscura.Proofs.Formula
import Obscura.Proofs.Patch
import Obscura.Proofs.Shield

/-
  The truth-value pass on a text. The text is cut into words and the characters
  between them, and the pass keeps or exchanges each of these parts; what it has
  written follows from the list of parts alone. A second pass finds the words that
  the first one kept where it kept them, and none in what the first one put in.
-/

namespace Obscura.Literal

open Text Number Expression List

variable {m shield : List Bool} {o : Swap} {p : Nat} {w : Chars}

/-! ## Texts of formulas -/

/-- The text is plain and holds no letter. -/
structure Drab (s : Chars) : Prop where
  plain : isPlain s = true
  letterless : ∀ c ∈ s, c.isAlpha = false

theorem Drab.append {t : Chars} (hs : Drab s) (ht : Drab t) : Drab (s ++ t) where
  plain := isPlain_append hs.plain ht.plain
  letterless c hc := (mem_append.1 hc).elim (hs.letterless c) (ht.letterless c)

theorem drab_digits (n : Nat) : Drab (digits n) := by
  have hd : ∀ c ∈ digits n, (isQuiet c ∧ c ≠ '/' ∧ c ≠ '*') ∧ c.isAlpha = false := by
    intro c hc
    have hdigit := isDigit_digits n c hc
    exact forall_ascii
      (P := fun c => c.isDigit = true → (isQuiet c = true ∧ c ≠ '/' ∧ c ≠ '*') ∧ c.isAlpha = false)
      (by decide) (toNat_lt_of_isDigit hdigit) hdigit
  exact ⟨isPlain_of_forall fun c hc => (hd c hc).1, fun c hc => (hd c hc).2⟩

theorem Drab.group (hs : Drab s) : Drab ('(' :: (s ++ [')'])) :=
  (Drab.append (s := ['(']) ⟨by decide, forall_mem_of_all rfl⟩ hs).append
    ⟨by decide, forall_mem_of_all rfl⟩

theorem Operation.drab_sign (o : Operation) : Drab o.sign := by
  cases o <;> exact ⟨by decide, forall_mem_of_all rfl⟩

theorem Comparison.drab_sign (o : Comparison) : Drab o.sign := by
  cases o <;> exact ⟨by decide, forall_mem_of_all rfl⟩

theorem Term.drab_text (t : Term) : Drab t.text := by
  induction t with
  | num i =>
    rw [Term.text, render]
    split
    · exact Drab.append (s := ['-']) ⟨by decide, forall_mem_of_all rfl⟩ (drab_digits _)
    · exact drab_digits _
  | op o a b iha ihb => exact (iha.append o.drab_sign).append ihb
  | group a ih => exact ih.group
  | padded a ih => exact Drab.append (s := [' ']) ⟨by decide, forall_mem_of_all rfl⟩ ih

theorem Formula.drab_text (f : Formula) : Drab f.text := by
  induction f with
  | compare o a b => exact (a.drab_text.append o.drab_sign).append b.drab_text
  | both a b iha ihb => exact (iha.append ⟨by decide, forall_mem_of_all rfl⟩).append ihb
  | either a b iha ihb => exact (iha.append ⟨by decide, forall_mem_of_all rfl⟩).append ihb
  | group a ih => exact ih.group

/-! ## Parts of a text -/

/-- A chunk that stays, or a word and the text that is put in its place. -/
inductive Part where
  | keep (k : Chunk)
  | swap (w f : Chars)

variable {qs : List Part}

namespace Part

def chunk : Part → Chunk
  | keep k => k
  | swap w _ => .word w

def text : Part → Chars
  | keep k => k.text
  | swap _ f => f

end Part

def oldText (ps : List Part) : Chars :=
  ps.flatMap fun p => p.chunk.text

def newText (ps : List Part) : Chars :=
  ps.flatMap Part.text

def swapsOf (p : Nat) : List Part → List Swap
  | [] => []
  | .keep k :: ps => swapsOf (p + k.text.length) ps
  | .swap w f :: ps => ⟨p, p + w.length, w, f, .text⟩ :: swapsOf (p + w.length) ps

def isTouched (shield : List Bool) (w : Chars) : Bool :=
  (shield.take w.length).any id

/-- The part is what the pass makes of its chunk: only a truth value that the shield
does not touch is exchanged, and for a formula of that value. -/
def Part.Right (shield : List Bool) : Part → Prop
  | .keep (.mark _) => True
  | .keep (.word w) => truthWord? w = none ∨ isTouched shield w = true
  | .swap w f => isTouched shield w = false ∧
      ∃ t g, truthWord? w = some t ∧ Sound t g ∧ f = g.text

/-- All parts are what the pass makes of their chunks. -/
def Chosen : List Bool → List Part → Prop
  | _, [] => True
  | shield, p :: ps => p.Right shield ∧ Chosen (shield.drop p.chunk.text.length) ps

theorem Chosen.right (ps : List Part)
    (h : Chosen shield (ps ++ qs)) : Chosen (shield.drop (oldText ps).length) qs := by
  induction ps generalizing shield with
  | nil => exact h
  | cons p ps ih =>
    have := ih h.2
    rwa [drop_drop, ← length_append] at this

theorem exists_parts (ks : List Chunk) (p : Nat) (shield : List Bool) (d : Draws) :
    ∃ ps, ps.map Part.chunk = ks ∧ Chosen shield ps ∧ (drawTruths p shield ks d).1 = swapsOf p ps := by
  induction ks generalizing p shield d with
  | nil => exact ⟨[], rfl, trivial, rfl⟩
  | cons k ks ih =>
    cases k with
    | mark c =>
      obtain ⟨ps, hchunk, hchosen, hrun⟩ := ih (p + 1) (shield.drop 1) d
      exact ⟨.keep (.mark c) :: ps, congrArg _ hchunk, ⟨trivial, hchosen⟩, hrun⟩
    | word w =>
      have hkeep (hright : (Part.keep (.word w)).Right shield)
          (hrest : drawTruths p shield (.word w :: ks) =
            drawTruths (p + w.length) (shield.drop w.length) ks) :
          ∃ ps, ps.map Part.chunk = .word w :: ks ∧ Chosen shield ps ∧
            (drawTruths p shield (.word w :: ks) d).1 = swapsOf p ps := by
        obtain ⟨ps, hchunk, hchosen, hrun⟩ := ih (p + w.length) (shield.drop w.length) d
        exact ⟨.keep (.word w) :: ps, congrArg _ hchunk, ⟨hright, hchosen⟩, by rw [hrest]; exact hrun⟩
      cases ht : truthWord? w with
      | none => exact hkeep (.inl ht) (by rw [drawTruths, ht])
      | some t =>
        cases hshield : isTouched shield w with
        | true => exact hkeep (.inr hshield) (by rw [drawTruths, ht]; exact if_pos hshield)
        | false =>
          obtain ⟨ps, hchunk, hchosen, hrun⟩ :=
            ih (p + w.length) (shield.drop w.length) (truthFormula t d).2
          refine ⟨.swap w (truthFormula t d).1.text :: ps, congrArg _ hchunk,
            ⟨⟨hshield, t, _, ht, yields_truthFormula t d, rfl⟩, hchosen⟩, ?_⟩
          rw [drawTruths, ht, ← isTouched, hshield, swapsOf, ← hrun]
          rfl

/-! ## Positions -/

def Swap.patch (o : Swap) : Patch Char :=
  ⟨o.start, o.stop, o.replacement⟩

/-- The swap of a word behind the text `as`. -/
def swapAt (p : Nat) (w f : Chars) : Swap :=
  ⟨p, p + w.length, w, f, .text⟩

theorem length_oldText_cons (q : Part) (ps : List Part) :
    (oldText (q :: ps)).length = q.chunk.text.length + (oldText ps).length := by
  rw [oldText, flatMap_cons, length_append, oldText]

theorem mem_swapsOf (p : Nat) (as : List Part) (w f : Chars) (bs : List Part) :
    swapAt (p + (oldText as).length) w f ∈ swapsOf p (as ++ .swap w f :: bs) := by
  induction as generalizing p with
  | nil => exact mem_cons_self
  | cons q as ih =>
    have := ih (p + q.chunk.text.length)
    rw [Nat.add_assoc, ← length_oldText_cons] at this
    cases q with
    | keep k => exact this
    | swap v g => exact .tail _ this

variable {ps : List Part}

theorem exists_of_mem_swapsOf (h : o ∈ swapsOf p ps) :
    ∃ as w f bs, ps = as ++ .swap w f :: bs ∧ o = swapAt (p + (oldText as).length) w f := by
  induction ps generalizing p with
  | nil => cases h
  | cons q ps ih =>
    have hlater (h : o ∈ swapsOf (p + q.chunk.text.length) ps) :
        ∃ as w f bs, q :: ps = as ++ .swap w f :: bs ∧ o = swapAt (p + (oldText as).length) w f := by
      obtain ⟨as, w, f, bs, rfl, rfl⟩ := ih h
      refine ⟨q :: as, w, f, bs, rfl, ?_⟩
      rw [length_oldText_cons, Nat.add_assoc]
    cases q with
    | keep k => exact hlater h
    | swap w f =>
      rcases mem_cons.1 h with rfl | h
      · exact ⟨[], w, f, ps, rfl, rfl⟩
      · exact hlater h

theorem le_start_of_mem (h : o ∈ swapsOf p ps) :
    p ≤ o.start ∧ o.stop = o.start + o.literal.length := by
  obtain ⟨as, w, f, bs, -, rfl⟩ := exists_of_mem_swapsOf h
  exact ⟨Nat.le_add_right _ _, rfl⟩

theorem pairwise_swapsOf (p : Nat) (ps : List Part) :
    (swapsOf p ps).Pairwise fun o o' => o.stop ≤ o'.start := by
  induction ps generalizing p with
  | nil => exact .nil
  | cons q ps ih =>
    cases q with
    | keep k => exact ih _
    | swap w f => exact .cons (fun o ho => (le_start_of_mem ho).1) (ih _)

/-- The text of a part, and what is put in its place. -/
def Part.hole (q : Part) : Chars × Option Chars :=
  (q.chunk.text, match q with
    | .keep _ => none
    | .swap _ f => some f)

theorem patch_swapsOf (ps : List Part) :
    (swapsOf p ps).map Swap.patch = (holesFrom p (ps.map Part.hole)).map (Hole.patch id) := by
  induction ps generalizing p with
  | nil => rfl
  | cons q ps ih =>
    cases q with
    | keep k => exact ih
    | swap w f => exact congrArg _ (ih)

theorem patched_oldText (p : Nat) (ps : List Part) :
    patched p (oldText ps) ((swapsOf p ps).map Swap.patch) = newText ps := by
  have hold : joined (ps.map Part.hole) = oldText ps := flatMap_map ..
  have hnew : replaced id (ps.map Part.hole) = newText ps := by
    rw [replaced, flatMap_map, newText]
    refine flatMap_congr fun q _ => ?_
    cases q <;> rfl
  rw [patch_swapsOf, ← hold, patched_holesFrom, hnew]

/-! ## Whole words -/

/-- The word stands at position `p` between two boundaries, and no part of it is
shielded. -/
def StandsFree (s : Chars) (p : Nat) (w : Chars) : Prop :=
  ∃ a b, s = a ++ w ++ b ∧ a.length = p ∧ isWordAt a.getLast? = false ∧
    isWordAt b.head? = false ∧ true ∉ ((shielded s).drop p).take w.length

theorem isTouched_eq_false :
    isTouched shield w = false ↔ true ∉ shield.take w.length := by
  simp [isTouched]

section Passed

variable {s : Chars} {ps : List Part}

theorem oldText_eq (hchunk : ps.map Part.chunk = chunks s) : oldText ps = s := by
  have := flatMap_text_chunks s
  rwa [← hchunk, flatMap_map] at this

/-- The swaps, put in from the last to the first, exchange their parts. -/
theorem exists_swapTruths (s : Chars) (d : Draws) :
    ∃ ps, ps.map Part.chunk = chunks s ∧ Chosen (shielded s) ps ∧
      (swapTruths s d).1 = (newText ps, swapsOf 0 ps) := by
  obtain ⟨ps, hchunk, hchosen, hrun⟩ := exists_parts (chunks s) 0 (shielded s) d
  refine ⟨ps, hchunk, hchosen, ?_⟩
  have horder := inOrder_holesFrom id 0 (ps.map Part.hole)
  rw [← patch_swapsOf, joined, flatMap_map, Nat.zero_add] at horder
  have hput := foldl_reverse_eq_patched (fun t e => bracket_eq_put) horder
  rw [← map_reverse, foldl_map] at hput
  have htext := hput.trans (patched_oldText 0 ps)
  rw [← hrun] at htext ⊢
  rw [← htext, ← oldText_eq hchunk]
  rfl

theorem standsFree_of_mem (hchunk : ps.map Part.chunk = chunks s) (hchosen : Chosen (shielded s) ps)
    {o : Swap} (h : o ∈ swapsOf 0 ps) :
    StandsFree s o.start o.literal ∧
      ∃ t g, truthWord? o.literal = some t ∧ Sound t g ∧ o.replacement = g.text := by
  obtain ⟨as, w, f, bs, rfl, rfl⟩ := exists_of_mem_swapsOf h
  obtain ⟨⟨htouch, hvalue⟩, -⟩ := hchosen.right as
  have hsep := separated_chunks s
  rw [← hchunk, map_append] at hsep
  obtain ⟨hbefore, hbehind⟩ := word_between hsep
  rw [flatMap_map] at hbefore hbehind
  refine ⟨⟨oldText as, oldText bs, ?_, (Nat.zero_add _).symm, hbefore, hbehind, ?_⟩, hvalue⟩
  · rw [← oldText_eq hchunk, oldText, flatMap_append, flatMap_cons, append_assoc]
    rfl
  · rw [swapAt, Nat.zero_add]
    exact isTouched_eq_false.1 htouch

theorem mem_of_standsFree (hchunk : ps.map Part.chunk = chunks s) (hchosen : Chosen (shielded s) ps)
    {p : Nat} (hw : (truthWord? w).isSome) (h : StandsFree s p w) :
    ∃ o ∈ swapsOf 0 ps, o.start = p ∧ o.literal = w := by
  obtain ⟨a, b, hs, rfl, hbefore, hbehind, hfree⟩ := h
  have hword : w ≠ [] ∧ ∀ c ∈ w, isWord c := by
    rcases truthWord_cases hw with rfl | rfl <;>
      exact ⟨cons_ne_nil _ _, forall_mem_of_all (by decide)⟩
  have hcut : chunks s = chunks a ++ .word w :: chunks b := by
    rw [hs, append_assoc, chunks_append (.inl hbefore), chunks_word hword.1 hword.2 hbehind]
  rw [hcut] at hchunk
  obtain ⟨as, qs, rfl, has, hqs⟩ := map_eq_append_iff.1 hchunk
  obtain ⟨q, bs, rfl, hq, hbs⟩ := map_eq_cons_iff.1 hqs
  have hlen : (oldText as).length = a.length := by rw [oldText_eq has]
  obtain ⟨hright, -⟩ := hchosen.right as
  cases q with
  | keep k =>
    obtain rfl : k = .word w := hq
    rcases hright with h | h
    · rw [h] at hw
      cases hw
    · rw [hlen, isTouched_eq_false.2 hfree] at h
      cases h
  | swap v f =>
    obtain rfl : v = w := by cases hq; rfl
    exact ⟨_, mem_swapsOf 0 as v f bs, (Nat.zero_add _).trans hlen, rfl⟩

end Passed

/-! ## The second pass -/

namespace Part

def segs : Part → List Seg
  | keep k => k.text.map .char
  | swap w f => [.swap w f]

def newChunks : Part → List Chunk
  | keep k => [k]
  | swap _ f => chunks f

end Part

def segsOf (ps : List Part) : List Seg :=
  ps.flatMap Part.segs

theorem oldOf_append (ss ts : List Seg) : oldOf (ss ++ ts) = oldOf ss ++ oldOf ts := flatMap_append

theorem newOf_append (ss ts : List Seg) : newOf (ss ++ ts) = newOf ss ++ newOf ts := flatMap_append

theorem oldOf_segsOf (ps : List Part) : oldOf (segsOf ps) = oldText ps := by
  induction ps with
  | nil => rfl
  | cons p ps ih =>
    have hp : oldOf p.segs = p.chunk.text := by
      cases p with
      | keep k => simp [Part.segs, Part.chunk, oldOf, flatMap_map, Seg.old]
      | swap w f => simp [Part.segs, Part.chunk, oldOf, Seg.old, Chunk.text]
    rw [segsOf, flatMap_cons, oldOf_append, hp]
    exact congrArg _ ih

theorem newOf_segsOf (ps : List Part) : newOf (segsOf ps) = newText ps := by
  induction ps with
  | nil => rfl
  | cons p ps ih =>
    have hp : newOf p.segs = p.text := by
      cases p with
      | keep k => simp [Part.segs, Part.text, newOf, flatMap_map, Seg.new]
      | swap w f => simp [Part.segs, Part.text, newOf, Seg.new]
    rw [segsOf, flatMap_cons, newOf_append, hp]
    exact congrArg _ ih

theorem Sound.text_eq {t : Bool} {g : Formula} (h : Sound t g) :
    ∃ f : Formula, g.text = '(' :: (f.text ++ [')']) := by
  obtain ⟨f, rfl⟩ := h.bracketed
  exact ⟨f, rfl⟩

theorem tame_segsOf (h : Chosen shield ps) : ∀ s ∈ segsOf ps, s.Tame := by
  induction ps generalizing shield with
  | nil => exact fun s hs => nomatch hs
  | cons p ps ih =>
    intro s hs
    rcases mem_append.1 hs with hs | hs
    · cases p with
      | keep k =>
        obtain ⟨c, -, rfl⟩ := mem_map.1 hs
        trivial
      | swap w f =>
        obtain rfl := mem_singleton.1 hs
        obtain ⟨⟨-, t, g, hw, hg, rfl⟩, -⟩ := h
        obtain ⟨f, hf⟩ := hg.text_eq
        exact ⟨by rw [hw]; rfl, g.drab_text.plain, _, hf⟩
    · exact ih h.2 s hs

theorem free_chars (u : Chars) {ss : List Seg} (h : Free (m.drop u.length) ss) :
    Free m (u.map .char ++ ss) := by
  induction u generalizing m with
  | nil => exact h
  | cons c u ih =>
    refine ⟨nofun, ih ?_⟩
    rwa [Seg.old, drop_drop, Nat.add_comm]

theorem free_segsOf (h : Chosen shield ps) : Free shield (segsOf ps) := by
  induction ps generalizing shield with
  | nil => trivial
  | cons p ps ih =>
    cases p with
    | keep k => exact free_chars k.text (ih h.2)
    | swap w f =>
      refine ⟨?_, ih h.2⟩
      rintro w f ⟨⟩
      exact isTouched_eq_false.1 h.1.1

theorem carried_map_char (u : Chars) (m : List Bool) (ss : List Seg) :
    carried m (u.map .char ++ ss) = m.take u.length ++ carried (m.drop u.length) ss := by
  induction u generalizing m with
  | nil => rfl
  | cons c u ih =>
    rw [map_cons, cons_append, carried, ih, ← append_assoc, drop_drop,
      length_cons, Nat.add_comm u.length 1, take_add]

theorem separated_newChunks (h : Chosen shield ps)
    (hsep : Separated (ps.map Part.chunk)) :
    Separated (ps.flatMap Part.newChunks) ∧
      (ps.flatMap Part.newChunks).flatMap Chunk.text = newText ps := by
  induction ps generalizing shield with
  | nil => exact ⟨trivial, rfl⟩
  | cons p ps ih =>
    have hrest : Separated (ps.map Part.chunk) := hsep.right [p.chunk]
    obtain ⟨hnew, htext⟩ := ih h.2 hrest
    rw [flatMap_cons, flatMap_append, htext]
    cases p with
    | keep k =>
      refine ⟨?_, by simp [Part.newChunks, newText, Part.text]⟩
      cases k with
      | mark c => exact ⟨hsep.1, hnew⟩
      | word w =>
        refine ⟨hsep.1, ?_, hnew⟩
        show isWordAt ((ps.flatMap Part.newChunks).flatMap Chunk.text).head? = false
        have hold := hsep.2.1
        rw [htext, ← newOf_segsOf]
        rw [flatMap_map] at hold
        rcases head?_newOf (tame_segsOf h.2) with hhead | ⟨-, hhead⟩
        · rw [hhead, oldOf_segsOf]
          exact hold
        · rw [hhead]
          decide +kernel
    | swap w f =>
      refine ⟨(separated_chunks f).append hnew (.inl ?_), ?_⟩
      · obtain ⟨⟨-, t, g, -, hg, rfl⟩, -⟩ := h
        obtain ⟨f, hf⟩ := hg.text_eq
        rw [flatMap_text_chunks, hf, ← cons_append, getLast?_concat]
        decide +kernel
      · rw [Part.newChunks, flatMap_text_chunks]
        rfl

theorem eq_keep (h : Chosen shield ps)
    (hkeep : Chosen shield ((ps.map Part.chunk).map .keep)) :
    ps = (ps.map Part.chunk).map .keep := by
  induction ps generalizing shield with
  | nil => rfl
  | cons p ps ih =>
    have hrest := ih h.2 hkeep.2
    cases p with
    | keep k => exact congrArg _ hrest
    | swap w f =>
      obtain ⟨⟨htouch, t, g, ht, -⟩, -⟩ := h
      rcases hkeep.1 with h | h
      · rw [ht] at h
        cases h
      · rw [htouch] at h
        cases h

theorem chosen_letterless {ks : List Chunk} (hks : ∀ c ∈ ks.flatMap Chunk.text, c.isAlpha = false)
    (h : Chosen (m.drop (ks.flatMap Chunk.text).length) qs) :
    Chosen m (ks.map .keep ++ qs) := by
  induction ks generalizing m with
  | nil => exact h
  | cons k ks ih =>
    rw [flatMap_cons] at hks h
    rw [length_append, ← drop_drop] at h
    refine ⟨?_, ih (fun c hc => hks c (mem_append_right _ hc)) h⟩
    cases k with
    | mark c => trivial
    | word w =>
      refine .inl (Option.not_isSome_iff_eq_none.1 fun hw => ?_)
      have hmem : ∀ c ∈ w, c.isAlpha = false := fun c hc => hks c (mem_append_left _ hc)
      rcases truthWord_cases hw with rfl | rfl <;> exact absurd (hmem 'e' (by decide)) (by decide)

/-- What was kept is kept again, and in what was put in there is nothing to find. -/
theorem chosen_newChunks (h : Chosen shield ps)
    (hlen : shield.length = (oldText ps).length) :
    Chosen (carried shield (segsOf ps)) ((ps.flatMap Part.newChunks).map .keep) := by
  induction ps generalizing shield with
  | nil => trivial
  | cons p ps ih =>
    rw [length_oldText_cons] at hlen
    have hrest := ih h.2 (by rw [length_drop, hlen, Nat.add_sub_cancel_left])
    rw [flatMap_cons, map_append, segsOf, flatMap_cons]
    cases p with
    | keep k =>
      have hk : k.text.length ≤ shield.length := by
        rw [hlen]
        exact Nat.le_add_right _ _
      have htake : (shield.take k.text.length).length = k.text.length :=
        length_take_of_le hk
      rw [Part.segs, carried_map_char]
      refine ⟨?_, by rw [Part.chunk, drop_left' htake]; exact hrest⟩
      cases k with
      | mark c => trivial
      | word w =>
        refine h.1.imp_right fun htouch => ?_
        rw [Chunk.text] at htake ⊢
        rw [isTouched, take_left' htake]
        exact htouch
    | swap w f =>
      obtain ⟨⟨-, t, g, -, hg, rfl⟩, -⟩ := h
      rw [Part.newChunks]
      refine chosen_letterless ?_ ?_
      · rw [flatMap_text_chunks]
        exact g.drab_text.letterless
      · rw [flatMap_text_chunks, Part.segs, singleton_append, carried,
          drop_left' length_replicate]
        exact hrest

theorem length_shielded (s : Chars) : (shielded s).length = s.length := by
  simp [shielded, orMarks, length_marks]

theorem swapTruths_newText
    (hchunk : ps.map Part.chunk = chunks s) (hchosen : Chosen (shielded s) ps) (d : Draws) :
    (swapTruths (newText ps) d).1 = (newText ps, []) := by
  have hold : oldOf (segsOf ps) = s := (oldOf_segsOf ps).trans (oldText_eq hchunk)
  obtain ⟨hsep, htext⟩ := separated_newChunks hchosen (hchunk ▸ separated_chunks s)
  have hcut : chunks (newText ps) = ps.flatMap Part.newChunks := by
    rw [← htext, chunks_of_separated hsep]
  have hshield : shielded (newText ps) = carried (shielded s) (segsOf ps) := by
    rw [← newOf_segsOf, shielded_newOf (tame_segsOf hchosen) (hold.symm ▸ free_segsOf hchosen), hold]
  have hkeep := chosen_newChunks hchosen (by rw [length_shielded, oldText_eq hchunk])
  obtain ⟨qs, hq, hqchosen, hrun⟩ := exists_swapTruths (newText ps) d
  rw [hshield] at hqchosen
  have hqs : qs = (ps.flatMap Part.newChunks).map .keep := by
    have := eq_keep hqchosen (by rw [hq, hcut]; exact hkeep)
    rwa [hq, hcut] at this
  have hnone : ∀ (ks : List Chunk) (p : Nat), swapsOf p (ks.map .keep) = [] := by
    intro ks
    induction ks with
    | nil => exact fun p => rfl
    | cons k ks ih => exact fun p => ih _
  rw [hrun, hqs, hnone, newText, flatMap_map]
  exact congrArg (·, []) htext

/-- **The truth-value pass is a correct and complete substitution.** The text is the
old one with the swaps put in. The swaps are those of the truth values that stand
free, from left to right; each puts in a bracket that is read as a closed expression
of the same truth value and holds no letter. A second pass finds nothing to do. -/
theorem swapTruths_replaces_exactly (s : Chars) (d : Draws) :
    let r := (swapTruths s d).1
    r.1 = patched 0 s (r.2.map Swap.patch) ∧
      r.2.Pairwise (fun o o' => o.stop ≤ o'.start) ∧
      (∀ o ∈ r.2, o.stop = o.start + o.literal.length ∧
        ∃ t, truthWord? o.literal = some t ∧
          ∃ e, read? o.replacement = some (.group e) ∧ e.names = [] ∧
            (∀ env, e.value arithmetic env = some (.truth t)) ∧
            ∀ c ∈ o.replacement, c.isAlpha = false) ∧
      (∀ p w, (∃ o ∈ r.2, o.start = p ∧ o.literal = w) ↔
        (truthWord? w).isSome = true ∧ StandsFree s p w) ∧
      ∀ d', (swapTruths r.1 d').1 = (r.1, []) := by
  intro r
  obtain ⟨ps, hchunk, hchosen, hrun⟩ := exists_swapTruths s d
  have hr : r = (newText ps, swapsOf 0 ps) := hrun
  rw [hr]
  refine ⟨?_, pairwise_swapsOf 0 ps, ?_, ?_, swapTruths_newText hchunk hchosen⟩
  · rw [← oldText_eq hchunk]
    exact (patched_oldText 0 ps).symm
  · intro o ho
    obtain ⟨-, t, g, ht, hg, htext⟩ := standsFree_of_mem hchunk hchosen ho
    obtain ⟨f, rfl⟩ := hg.bracketed
    refine ⟨(le_start_of_mem ho).2, t, ht, f.tree, ?_, f.names_tree, hg.value, ?_⟩
    · rw [htext]
      exact Formula.read?_text hg.fits
    · rw [htext]
      exact (Formula.drab_text _).letterless
  · intro p w
    constructor
    · rintro ⟨o, ho, rfl, rfl⟩
      obtain ⟨hfree, t, g, ht, -⟩ := standsFree_of_mem hchunk hchosen ho
      exact ⟨by rw [ht]; rfl, hfree⟩
    · rintro ⟨hw, hfree⟩
      exact mem_of_standsFree hchunk hchosen hw hfree

end Obscura.Literal
