import Obscura.Proofs.Expression.Syntax

/-
  The reader of tokens against the trees. `parse?_eq_some_iff` says that a list of
  tokens is read as a tree exactly if it is what the tree is written with and the
  tree needs no further brackets; so no list of tokens has two readings.

  Reading a tree puts its right edge on the stack (`spine`), and the next operator
  closes it again (`reduce_spine`). The other direction carries one invariant: what
  stands on the stack is leveled (`Stack.Sound`) and writes down what has been read.
-/

namespace Obscura.Expression

open List

variable {K : Stack} {S S' : State} {e : Expr} {f : Frame} {k l l' : Nat} {m : Sign} {t : Item}
  {ts : List Item} {b : Bracket}

/-! ## Levels -/

theorem Expr.Leveled.mono {j : Nat} (hjk : j ≤ k) (h : e.Leveled k) : e.Leveled j := by
  cases e with
  | number ds => trivial
  | name w => trivial
  | group e => exact h
  | before m e => exact ⟨h.1, Nat.le_trans hjk h.2.1, h.2.2⟩
  | behind e t => exact h
  | apply b f i => exact h
  | binary m a b =>
    obtain ⟨l, hm, hk, ha, hb⟩ := h
    exact ⟨l, hm, Nat.le_trans hjk hk, ha, hb⟩
  | choice c a b => exact ⟨Nat.le_trans hjk h.1, h.2⟩

theorem level?_le (h : m.level? = some l) : l ≤ 12 := by
  cases m <;> simp [Sign.level?] at h <;> omega

theorem le_leftNeed : l ≤ leftNeed l := by
  unfold leftNeed
  split <;> omega

theorem le_rightNeed : l ≤ rightNeed l := by
  unfold rightNeed
  split <;> omega

/-- An operator that may follow an operand of another one does not bind tighter
to the left than this one does to the right. -/
theorem lt_leftNeed (h : rightNeed l' ≤ l) : l' < leftNeed l := by
  unfold rightNeed at h
  unfold leftNeed
  split at h <;> split
  · omega
  · -- equal levels group the same way
    rename_i hr hl
    have : l' ≠ l := fun e => hl (e ▸ hr)
    omega
  · omega
  · omega

theorem rightNeed_le (h : l' < leftNeed l) : rightNeed l' ≤ l := by
  unfold leftNeed at h
  unfold rightNeed
  split at h <;> split
  · omega
  · rename_i hl hr
    have : l' ≠ l := fun e => hr (e ▸ hl)
    omega
  · omega
  · omega

theorem leftNeed_le (h : l ≤ 12) : leftNeed l ≤ prefixLevel := by
  unfold leftNeed prefixLevel
  split <;> omega

/-- The level that the next operand has to have. -/
def Stack.need : Stack → Nat
  | [] => 0
  | f :: _ => f.need

/-- The frame on top waits for an operand of a higher level than `k`, or for a
bracket. -/
def Stack.Holds (k : Nat) : Stack → Prop
  | [] => True
  | f :: _ => ∀ l, f.level? = some l → l < k

theorem reduce_of_holds (h : Stack.Holds k K) : reduce k K e = (K, e) := by
  cases K with
  | nil => rfl
  | cons f K =>
    rw [reduce]
    split
    · rfl
    · rename_i l hl
      rw [if_neg (Nat.not_le.2 (h l hl))]

theorem holds_leftNeed (hl : l ≤ 12) (h : Stack.need K ≤ l) : Stack.Holds (leftNeed l) K := by
  cases K with
  | nil => trivial
  | cons f K =>
    intro j hj
    cases f with
    | group => cases hj
    | before m =>
      have : prefixLevel ≤ l := h
      unfold prefixLevel at this
      omega
    | apply b f => cases hj
    | binary m l' a =>
      cases hj
      exact lt_leftNeed h
    | thenPart c => cases hj
    | elsePart c a =>
      cases hj
      exact lt_leftNeed (show rightNeed 1 ≤ l from h)

theorem holds_of_need_le_one (h : Stack.need K ≤ 1) : Stack.Holds 2 K :=
  holds_leftNeed (l := 1) (by decide) h

/-! ## Reading what a tree is written with -/

/-- What a tree leaves behind on a stack: its right edge stays open. -/
def spine : Expr → Stack → Stack × Expr
  | .before m e, K => spine e (.before m :: K)
  | .binary m a b, K => spine b (.binary m (m.level?.getD 0) a :: K)
  | .choice c a b, K => spine b (.elsePart c a :: K)
  | e, K => (K, e)

theorem reduce_cons (hf : f.level? = some l) (hk : k ≤ l) : reduce k (f :: K) e = reduce k K (f.fill e) := by
  rw [reduce, hf]
  exact if_pos hk

theorem reduce_spine (h : e.Leveled k) (K : Stack) :
    reduce k (spine e K).1 (spine e K).2 = reduce k K e := by
  induction e generalizing k K with
  | number ds => rfl
  | name w => rfl
  | group e _ => rfl
  | before m e ih =>
    rw [spine, ih (h.2.2.mono h.2.1), reduce_cons rfl h.2.1]
    rfl
  | behind e t _ => rfl
  | apply b f i _ _ => rfl
  | binary m a b _ ih =>
    obtain ⟨l, hm, hk, -, hb⟩ := h
    rw [spine, hm, ih (hb.mono (Nat.le_trans hk le_rightNeed)), reduce_cons rfl hk]
    rfl
  | choice c a b _ _ ih =>
    rw [spine, ih (h.2.2.2.mono h.1), reduce_cons rfl h.1]
    rfl

theorem spine_whole (h : e.Leveled wholeLevel) : spine e K = (K, e) := by
  cases e with
  | number ds => rfl
  | name w => rfl
  | group e => rfl
  | before m e =>
    have := h.2.1
    unfold wholeLevel prefixLevel at this
    omega
  | behind e t => rfl
  | apply b f i => rfl
  | binary m a b =>
    obtain ⟨l, hm, hk, -⟩ := h
    have := level?_le hm
    unfold wholeLevel at hk
    omega
  | choice c a b =>
    have := h.1
    unfold wholeLevel at this
    omega

def behind (e : Expr) (K : Stack) : State :=
  ((spine e K).1, some (spine e K).2)

theorem behind_whole (h : e.Leveled wholeLevel) : behind e K = (K, some e) := by
  rw [behind, spine_whole h]

theorem stepSign_of_level? (hm : m.level? = some l) : stepSign K e m =
      some (.binary m l (reduce (leftNeed l) K e).2 :: (reduce (leftNeed l) K e).1, none) := by
  cases m <;> cases hm <;> rfl

theorem stepOperand_of_isPrefix (hm : m.isPrefix) :
    stepOperand K (.sign m) = some (.before m :: K, none) := by
  cases m <;> cases hm <;> rfl

theorem step_operator (hm : m.level? = some l)
    (he : e.Leveled (leftNeed l)) {K : Stack} (hK : K.need ≤ l) :
    step (behind e K) (.sign m) = some (.binary m l e :: K, none) := by
  have hred := (reduce_spine he K).trans (reduce_of_holds (holds_leftNeed (level?_le hm) hK))
  show stepSign (spine e K).1 (spine e K).2 m = _
  rw [stepSign_of_level? hm, hred]

theorem step_question (he : e.Leveled 2) (hK : K.need ≤ 1) :
    step (behind e K) (.sign .question) = some (.thenPart e :: K, none) := by
  have hred := (reduce_spine he K).trans (reduce_of_holds (holds_of_need_le_one hK))
  show some (Frame.thenPart (reduce 2 (spine e K).1 (spine e K).2).2 ::
    (reduce 2 (spine e K).1 (spine e K).2).1, none) = _
  rw [hred]

theorem step_colon {c a : Expr} (ha : a.Leveled 0) (K : Stack) :
    step (behind a (.thenPart c :: K)) (.sign .colon) = some (.elsePart c a :: K, none) := by
  have hred := reduce_spine ha (.thenPart c :: K)
  show stepSign (spine a (.thenPart c :: K)).1 (spine a (.thenPart c :: K)).2 .colon = _
  simp only [stepSign, hred]
  rfl

theorem step_closeRound (he : e.Leveled 0) (K : Stack) :
    step (behind e (.group :: K)) (.sign .closeRound) = some (K, some (.group e)) := by
  have hred := reduce_spine he (.group :: K)
  show close .round (spine e (.group :: K)).1 (spine e (.group :: K)).2 = _
  rw [close, hred]
  rfl

theorem step_closing {f i : Expr} (hi : i.Leveled 0) (b : Bracket) (K : Stack) :
    step (behind i (.apply b f :: K)) (.sign b.closing) = some (K, some (.apply b f i)) := by
  have hred := reduce_spine hi (.apply b f :: K)
  have hclose : step (behind i (.apply b f :: K)) (.sign b.closing) =
      close b (spine i (.apply b f :: K)).1 (spine i (.apply b f :: K)).2 := by
    cases b <;> rfl
  rw [hclose, close, hred]
  exact if_pos rfl

theorem step_opening :
    step (K, some e) (.sign b.opening) = some (.apply b e :: K, none) := by
  cases b <;> rfl

theorem foldlM_step_cons (h : step S t = some S') :
    (t :: ts).foldlM step S = ts.foldlM step S' := by
  rw [foldlM_cons, h]
  rfl

theorem foldlM_step_append {us : List Item} (h : us.foldlM step S = some S') :
    (us ++ ts).foldlM step S = ts.foldlM step S' := by
  rw [foldlM_append, h]
  rfl

theorem foldlM_tokens (h : e.Leveled K.need) (hK : K.need ≤ wholeLevel) :
    e.tokens.foldlM step (K, none) = some (behind e K) := by
  induction e generalizing K with
  | number ds => rfl
  | name w => rfl
  | group e ih =>
    rw [Expr.tokens, foldlM_step_cons rfl, foldlM_step_append (ih (K := .group :: K) h (Nat.zero_le _)),
      foldlM_step_cons (step_closeRound h K)]
    rfl
  | before m e ih =>
    have hstep : step (K, none) (.sign m) = some (.before m :: K, none) :=
      stepOperand_of_isPrefix h.1
    rw [Expr.tokens, foldlM_step_cons hstep]
    exact ih (K := .before m :: K) h.2.2 (show prefixLevel ≤ wholeLevel by decide)
  | behind e t ih =>
    rw [Expr.tokens, foldlM_step_append (ih (h.2.mono hK) hK), behind_whole h.2]
    cases t with
    | step m =>
      have hstep : step (K, some e) (.sign m) = some (K, some (.behind e (.step m))) :=
        if_pos (h.1 m rfl)
      exact foldlM_step_cons hstep
    | member w => rfl
    | call => rfl
  | apply b f i ihf ihi =>
    rw [Expr.tokens, foldlM_step_append (ihf (h.1.mono hK) hK), behind_whole h.1,
      foldlM_step_cons step_opening,
      foldlM_step_append (ihi (K := .apply b f :: K) h.2 (Nat.zero_le _)),
      foldlM_step_cons (step_closing h.2 b K)]
    rfl
  | binary m a b iha ihb =>
    obtain ⟨l, hm, hk, ha, hb⟩ := h
    have hl := level?_le hm
    have hneed : rightNeed l ≤ wholeLevel := by
      unfold rightNeed wholeLevel
      split <;> omega
    rw [Expr.tokens, foldlM_step_append (iha (ha.mono (Nat.le_trans hk le_leftNeed)) hK),
      foldlM_step_cons (step_operator hm ha hk), ihb (K := .binary m l a :: K) hb hneed]
    rw [behind, behind, spine, hm]
    rfl
  | choice c a b ihc iha ihb =>
    obtain ⟨hk, hc, ha, hb⟩ := h
    rw [Expr.tokens, foldlM_step_append (ihc (hc.mono (Nat.le_succ_of_le hk)) hK),
      foldlM_step_cons (step_question hc hk),
      foldlM_step_append (iha (K := .thenPart c :: K) ha (Nat.zero_le _)),
      foldlM_step_cons (step_colon ha K)]
    exact ihb (K := .elsePart c a :: K) hb (show 1 ≤ wholeLevel by decide)

theorem parse?_tokens (h : e.Leveled 0) : parse? e.tokens = some e := by
  have hrun := foldlM_tokens (K := []) h (by decide)
  have hred := reduce_spine h []
  rw [parse?, hrun, behind]
  dsimp only
  rw [hred]
  rfl

/-! ## What has been read -/

def Frame.tokens : Frame → List Item
  | .group => [.sign .openRound]
  | .before m => [.sign m]
  | .apply b f => f.tokens ++ [.sign b.opening]
  | .binary m _ a => a.tokens ++ [.sign m]
  | .thenPart c => c.tokens ++ [.sign .question]
  | .elsePart c a => c.tokens ++ .sign .question :: (a.tokens ++ [.sign .colon])

/-- What the frames of a stack were read from, the lowest first. -/
def Stack.tokens : Stack → List Item
  | [] => []
  | f :: K => Stack.tokens K ++ f.tokens

/-- The operands in a frame are leveled, and the frame itself stands where level
`k` is asked for. -/
def Frame.Sound (k : Nat) : Frame → Prop
  | .group => True
  | .before m => m.isPrefix = true ∧ k ≤ prefixLevel
  | .apply _ f => f.Leveled wholeLevel
  | .binary m l a => m.level? = some l ∧ k ≤ l ∧ a.Leveled (leftNeed l)
  | .thenPart c => k ≤ 1 ∧ c.Leveled 2
  | .elsePart c a => k ≤ 1 ∧ c.Leveled 2 ∧ a.Leveled 0

def Stack.Sound : Stack → Prop
  | [] => True
  | f :: K => f.Sound (Stack.need K) ∧ Stack.Sound K

theorem leveled_fill (hf : f.Sound k) (hl : f.level? = some l)
    (he : e.Leveled f.need) : (f.fill e).Leveled l ∧ k ≤ l := by
  cases f with
  | group => cases hl
  | before m =>
    cases hl
    exact ⟨⟨hf.1, Nat.le_refl _, he⟩, hf.2⟩
  | apply b f => cases hl
  | binary m l' a =>
    cases hl
    exact ⟨⟨l, hf.1, Nat.le_refl _, hf.2.2, he⟩, hf.2.1⟩
  | thenPart c => cases hl
  | elsePart c a =>
    cases hl
    exact ⟨⟨Nat.le_refl _, hf.2.1, hf.2.2, he⟩, hf.1⟩

theorem tokens_fill (hl : f.level? = some l) : (f.fill e).tokens = f.tokens ++ e.tokens := by
  cases f with
  | group => cases hl
  | before m => rfl
  | apply b f => cases hl
  | binary m l' a => exact (append_assoc ..).symm ▸ rfl
  | thenPart c => cases hl
  | elsePart c a => simp [Frame.fill, Frame.tokens, Expr.tokens]

/-- What a reduction leaves: the stack is still sound, the operand is as tight as
both the stack and the next operator ask for, and nothing read is lost. -/
structure Reduced (k : Nat) (K : Stack) (e : Expr) (R : Stack × Expr) : Prop where
  sound : R.1.Sound
  leveled : R.2.Leveled k
  fits : R.2.Leveled R.1.need
  holds : R.1.Holds k
  tokens : R.1.tokens ++ R.2.tokens = K.tokens ++ e.tokens

theorem reduced_reduce (hK : K.Sound) (hk : e.Leveled k)
    (he : e.Leveled K.need) : Reduced k K e (reduce k K e) := by
  induction K generalizing e with
  | nil => exact ⟨hK, hk, he, trivial, rfl⟩
  | cons f K ih =>
    rw [reduce]
    split
    · rename_i hf
      exact ⟨hK, hk, he, fun l hl => (by rw [hf] at hl; cases hl), rfl⟩
    · rename_i l hf
      obtain ⟨hfill, hneed⟩ := leveled_fill hK.1 hf he
      split
      · rename_i hkl
        have h := ih hK.2 (hfill.mono hkl) (hfill.mono hneed)
        refine ⟨h.sound, h.leveled, h.fits, h.holds, ?_⟩
        rw [h.tokens, tokens_fill hf, Stack.tokens, append_assoc]
      · rename_i hkl
        refine ⟨hK, hk, he, fun j hj => ?_, rfl⟩
        rw [hf] at hj
        cases hj
        exact Nat.not_le.1 hkl

/-- What has been read: the stack, and the operand behind it. -/
def State.tokens (S : State) : List Item :=
  S.1.tokens ++ (S.2.map Expr.tokens).getD []

def State.Sound (S : State) : Prop :=
  S.1.Sound ∧ ∀ e, S.2 = some e → e.Leveled wholeLevel

theorem Stack.Sound.need_le (h : K.Sound) : K.need ≤ prefixLevel := by
  cases K with
  | nil => exact Nat.zero_le _
  | cons f K =>
    cases f with
    | group => exact Nat.zero_le _
    | before m => exact Nat.le_refl _
    | apply b f => exact Nat.zero_le _
    | binary m l a =>
      have := level?_le h.1.1
      show rightNeed l ≤ prefixLevel
      unfold rightNeed prefixLevel
      split <;> omega
    | thenPart c => exact Nat.zero_le _
    | elsePart c a => exact (by decide : 1 ≤ prefixLevel)

theorem Stack.Holds.need_le (hl : l ≤ 12) (h : K.Holds (leftNeed l)) : K.need ≤ l := by
  cases K with
  | nil => exact Nat.zero_le _
  | cons f K =>
    cases f with
    | group => exact Nat.zero_le _
    | before m =>
      have := h _ rfl
      have := leftNeed_le hl
      omega
    | apply b f => exact Nat.zero_le _
    | binary m l' a => exact rightNeed_le (h _ rfl)
    | thenPart c => exact Nat.zero_le _
    | elsePart c a => exact rightNeed_le (h _ rfl)

theorem State.Sound.opened (h : K.Sound) : State.Sound (K, none) := ⟨h, fun _ h' => nomatch h'⟩

theorem State.Sound.operand (h : K.Sound) (he : e.Leveled wholeLevel) : State.Sound (K, some e) := by
  refine ⟨h, fun e' h' => ?_⟩
  cases h'
  exact he

theorem stepOperand_sound (hK : K.Sound)
    (h : stepOperand K t = some S) : S.Sound ∧ S.tokens = K.tokens ++ [t] := by
  cases t with
  | blank c => cases h
  | number ds =>
    cases h
    exact ⟨.operand hK trivial, rfl⟩
  | name w =>
    cases h
    exact ⟨.operand hK trivial, rfl⟩
  | member w => cases h
  | sign m =>
    simp only [stepOperand] at h
    split at h
    · rename_i hm
      cases h
      subst hm
      exact ⟨.opened ⟨trivial, hK⟩, append_nil _⟩
    split at h
    · rename_i hm
      subst hm
      split at h
      · rename_i f K'
        cases h
        have hf : (Expr.behind f .call).Leveled wholeLevel := ⟨fun _ h' => (nomatch h'), hK.1⟩
        refine ⟨.operand hK.2 hf, ?_⟩
        simp [State.tokens, Stack.tokens, Frame.tokens, Expr.tokens, Tail.tokens, Bracket.opening]
      · cases h
    split at h
    · rename_i hm
      cases h
      exact ⟨.opened ⟨⟨hm, hK.need_le⟩, hK⟩, append_nil _⟩
    · cases h

theorem close_sound {b : Bracket} (hK : K.Sound) (he : e.Leveled wholeLevel) (h : close b K e = some S) :
    S.Sound ∧ S.tokens = K.tokens ++ e.tokens ++ [.sign b.closing] := by
  have hred := reduced_reduce hK (he.mono (Nat.zero_le _))
    (he.mono (Nat.le_succ_of_le hK.need_le))
  rw [close] at h
  split at h
  · rename_i K' e' hr
    rw [hr] at hred
    split at h
    · rename_i hb
      cases h
      subst hb
      refine ⟨.operand hred.sound.2 hred.leveled, ?_⟩
      rw [← hred.tokens]
      simp [State.tokens, Stack.tokens, Frame.tokens, Expr.tokens, Bracket.closing]
    · cases h
  · rename_i b' f K' e' hr
    rw [hr] at hred
    split at h
    · rename_i hb
      cases h
      subst hb
      refine ⟨.operand hred.sound.2 ⟨hred.sound.1, hred.leveled⟩, ?_⟩
      rw [← hred.tokens]
      simp [State.tokens, Stack.tokens, Frame.tokens, Expr.tokens]
    · cases h
  · cases h

theorem stepSign_sound (hK : K.Sound) (he : e.Leveled wholeLevel) (h : stepSign K e m = some S) :
    S.Sound ∧ S.tokens = K.tokens ++ e.tokens ++ [.sign m] := by
  have hreduce (k : Nat) (hk : k ≤ wholeLevel) := reduced_reduce hK (he.mono hk)
    (he.mono (Nat.le_succ_of_le hK.need_le))
  rw [stepSign] at h
  split at h
  · rename_i hm
    cases h
    refine ⟨.operand hK ⟨fun m' h' => ?_, he⟩, ?_⟩
    · cases h'
      exact hm
    · simp [State.tokens, Expr.tokens, Tail.tokens]
  split at h
  · rename_i hm
    cases h
    subst hm
    exact ⟨.opened ⟨he, hK⟩, by simp [State.tokens, Stack.tokens, Frame.tokens, Bracket.opening]⟩
  split at h
  · rename_i hm
    cases h
    subst hm
    exact ⟨.opened ⟨he, hK⟩, by simp [State.tokens, Stack.tokens, Frame.tokens, Bracket.opening]⟩
  split at h
  · rename_i hm
    subst hm
    exact close_sound hK he h
  split at h
  · rename_i hm
    subst hm
    exact close_sound hK he h
  split at h
  · rename_i hm
    cases h
    subst hm
    have hred := hreduce 2 (by decide)
    refine ⟨.opened ⟨⟨hred.holds.need_le (l := 1) (by decide), hred.leveled⟩, hred.sound⟩, ?_⟩
    rw [← hred.tokens]
    simp [State.tokens, Stack.tokens, Frame.tokens]
  split at h
  · rename_i hm
    subst hm
    have hred := hreduce 0 (Nat.zero_le _)
    split at h
    · rename_i c K' a hr
      cases h
      rw [hr] at hred
      obtain ⟨⟨hneed, hc⟩, hK'⟩ := hred.sound
      refine ⟨.opened ⟨⟨hneed, hc, hred.leveled⟩, hK'⟩, ?_⟩
      rw [← hred.tokens]
      simp [State.tokens, Stack.tokens, Frame.tokens]
    · cases h
  split at h
  · cases h
  · rename_i l hm
    cases h
    have hl := level?_le hm
    have hred := hreduce (leftNeed l) (Nat.le_succ_of_le (leftNeed_le hl))
    refine ⟨.opened ⟨⟨hm, hred.holds.need_le hl, hred.leveled⟩, hred.sound⟩, ?_⟩
    rw [← hred.tokens]
    simp [State.tokens, Stack.tokens, Frame.tokens]

/-- Reading one item keeps the state sound and adds the item to what has been
read. -/
theorem step_sound (hS : S.Sound) (h : step S t = some S') : S'.Sound ∧ S'.tokens = S.tokens ++ [t] := by
  obtain ⟨K, o⟩ := S
  cases o with
  | none =>
    obtain ⟨hs, ht⟩ := stepOperand_sound hS.1 h
    exact ⟨hs, by rw [ht]; simp [State.tokens]⟩
  | some e =>
    have he := hS.2 e rfl
    cases t with
    | blank c => cases h
    | number ds => cases h
    | name w => cases h
    | member w =>
      cases h
      refine ⟨.operand hS.1 ⟨fun _ h' => (nomatch h'), he⟩, ?_⟩
      simp [State.tokens, Expr.tokens, Tail.tokens]
    | sign m => exact stepSign_sound hS.1 he h

theorem foldlM_step_sound (hS : S.Sound)
    (h : ts.foldlM step S = some S') : S'.Sound ∧ S'.tokens = S.tokens ++ ts := by
  induction ts generalizing S with
  | nil =>
    cases h
    exact ⟨hS, (append_nil _).symm⟩
  | cons t ts ih =>
    rw [foldlM_cons] at h
    obtain ⟨S₁, hstep, hrest⟩ := Option.bind_eq_some_iff.1 h
    obtain ⟨hS₁, ht⟩ := step_sound hS hstep
    obtain ⟨hS', hts⟩ := ih hS₁ hrest
    exact ⟨hS', by rw [hts, ht, append_assoc]; rfl⟩

/-- **A list of tokens has one reading.** It is read as a tree exactly if the tree
is written with these tokens and needs no brackets beyond its own. -/
theorem parse?_eq_some_iff : parse? ts = some e ↔ e.Leveled 0 ∧ e.tokens = ts := by
  constructor
  · intro h
    rw [parse?] at h
    split at h
    · rename_i K e₀ hrun
      obtain ⟨hS, ht⟩ := foldlM_step_sound (.opened (K := []) trivial) hrun
      have he₀ := hS.2 e₀ rfl
      have hred := reduced_reduce hS.1 (he₀.mono (Nat.zero_le _))
        (he₀.mono (Nat.le_succ_of_le hS.1.need_le))
      split at h
      · rename_i e' hr
        cases h
        rw [hr] at hred
        exact ⟨hred.leveled, hred.tokens.trans ht⟩
      · cases h
    · cases h
  · rintro ⟨he, rfl⟩
    exact parse?_tokens he

end Obscura.Expression
