import Obscura.Proofs.Numbers

/-
  Directives as they stand in the text itself. The second round looks at a text
  that holds placeholders, so that it can find other directives than a scan of the
  text itself (`matchesOf`). Where no licence comment starts in a version directive
  of the text, both find the same, and no comment is taken out twice
  (`Masks.matchesOf_eq`).
-/

namespace Obscura.Literal

open Text List

variable {c : Char} {n : Nat} {r s u v w : Chars} {lineStart : Bool} {kept : List Chars}

/-! ## What a scan finds -/

section Scan

variable {find? : Chars → Option Chars}

/-- The directives that a scan of a text finds where a line starts, each with its
place; the text has the place `p`, and `lineStart` says that it starts a line. -/
def matchesOf (find? : Chars → Option Chars) (lineStart : Bool) (p : Nat) (s : Chars) :
    List (Nat × Chars) :=
  match s with
  | [] => []
  | c :: t =>
    match (if lineStart then find? (c :: t) else none) with
    | some r =>
      if r.length < (c :: t).length then
        let n := (c :: t).length - r.length
        (p, (c :: t).take n) :: matchesOf find? false (p + n) r
      else matchesOf find? (c == '\n') (p + 1) t
    | none => matchesOf find? (c == '\n') (p + 1) t
termination_by s.length
decreasing_by all_goals first | assumption | simp

theorem matchesOf_cons
    (h : lineStart → find? (c :: t) = none) :
    matchesOf find? lineStart p (c :: t) = matchesOf find? (c == '\n') (p + 1) t := by
  have hnone : (if lineStart then find? (c :: t) else none) = none := by
    cases lineStart with
    | true => exact h rfl
    | false => rfl
  rw [matchesOf, hnone]

theorem matchesOf_found (hu : u ≠ []) (h : find? (u ++ r) = some r) :
    matchesOf find? true p (u ++ r) = (p, u) :: matchesOf find? false (p + u.length) r := by
  obtain ⟨c, v, rfl⟩ := exists_cons_of_ne_nil hu
  obtain ⟨hlt, hlen⟩ := length_found r hu
  rw [cons_append] at h hlt hlen ⊢
  rw [matchesOf, if_pos rfl, h]
  dsimp only
  rw [if_pos hlt, hlen, ← cons_append, take_left]

theorem matchesOf_append (hu : '\n' ∉ u) :
    matchesOf find? false p (u ++ v) = matchesOf find? false (p + u.length) v := by
  induction u generalizing p with
  | nil => rfl
  | cons c u ih =>
    rw [mem_cons, not_or] at hu
    have hnone : false → find? (c :: (u ++ v)) = none := nofun
    rw [cons_append, matchesOf_cons hnone, beq_eq_false_iff_ne.2 (Ne.symm hu.1), ih hu.2, length_cons]
    congr 1
    omega

/-- The licence comments of a text, each with its place. -/
def licencesOf (s : Chars) : List (Nat × Chars) :=
  matchesOf licence? true 0 s

/-- The version directives of a text, each with its place. -/
def versionsOf (s : Chars) : List (Nat × Chars) :=
  matchesOf version? true 0 s

/-- The stretches among pieces that placeholders stand for, each with its place. -/
def takens (p : Nat) : List Piece → List (Nat × Chars)
  | [] => []
  | .stays _ :: ps => takens (p + 1) ps
  | .taken _ t :: ps => (p, t) :: takens (p + t.length) ps

theorem takens_map_stays_append (p : Nat) (ps : List Piece) :
    takens p (u.map .stays ++ ps) = takens (p + u.length) ps := by
  induction u generalizing p with
  | nil => rfl
  | cons c u ih =>
    rw [map_cons, cons_append, takens, ih, length_cons]
    congr 1
    omega

theorem Masks.matchesOf_eq (h : Masks find? n lineStart (s.map .stays) ps kept) :
    matchesOf find? lineStart p s = takens p ps := by
  generalize hX : s.map Piece.stays = X at h
  induction h generalizing s p with
  | nil =>
    rw [map_eq_nil_iff.1 hX, matchesOf]
    rfl
  | stays hnone _ ih =>
    obtain ⟨c, t, rfl, hc, rfl⟩ := map_eq_cons_iff.1 hX
    cases hc
    rw [maskedText_map_stays] at hnone
    rw [matchesOf_cons hnone, ih rfl]
    rfl
  | passes _ => exact absurd (hX ▸ mem_cons_self) Masked.taken_not_mem_stays
  | takes hfound hne _ ih =>
    obtain ⟨u, r, rfl, rfl, rfl⟩ := map_eq_append_iff.1 hX
    rw [maskedText_map_stays, maskedText_map_stays] at hfound
    rw [matchesOf_found (by simpa using hne) hfound, ih rfl, takens, sourceText_map_stays]

end Scan

/-! ## Licence comments and version directives -/

/-- A licence comment: blanks, two slashes, blanks, the words in any case and the
rest of the line. -/
def IsLicence (t : Chars) : Prop :=
  ∃ u v w x, t = u ++ '/' :: '/' :: (v ++ (w ++ x)) ∧ (∀ c ∈ u, isBlank c = true) ∧
    (∀ c ∈ v, isBlank c = true) ∧
    stripCaseless? "spdx-license-identifier:".toList w = some [] ∧ '\n' ∉ x

theorem exists_isLicence (h : licence? s = some r) :
    ∃ t, s = t ++ r ∧ IsLicence t ∧ ∀ c, r.head? = some c → c = '\n' ∨ c = '\r' := by
  unfold licence? at h
  split at h
  · rename_i v hv
    obtain ⟨y, hy, rfl⟩ := Option.map_eq_some_iff.1 h
    obtain ⟨w, hw, hword⟩ := stripCaseless?_iff.1 hy
    refine ⟨s.takeWhile isBlank ++ '/' :: '/' :: (v.takeWhile isBlank ++ (w ++
      y.takeWhile fun c => c != '\n' && c != '\r')), ?_, ⟨_, _, w, _, rfl, ?_, ?_, hword, ?_⟩, ?_⟩
    · have hline := takeWhile_append_dropWhile (p := fun c => c != '\n' && c != '\r') (l := y)
      have hblanks := takeWhile_append_dropWhile (p := isBlank) (l := v)
      have hall := takeWhile_append_dropWhile (p := isBlank) (l := s)
      simp only [append_assoc, cons_append]
      rw [hline, ← hw, hblanks, ← hv, hall]
    · exact fun c hc => mem_takeWhile_imp hc
    · exact fun c hc => mem_takeWhile_imp hc
    · intro hmem
      have := mem_takeWhile_imp hmem
      simp at this
    · intro c hc
      have := dropWhile_stops hc
      by_cases hn : c = '\n'
      · exact .inl hn
      · exact .inr (by simpa [hn] using this)
  · cases h

namespace IsLicence

variable {t : Chars}

theorem getLast? (h : IsLicence t) : ∃ c, t.getLast? = some c ∧ c ≠ '\n' := by
  obtain ⟨u, v, w, x, rfl, -, -, hw, hx⟩ := h
  have hline : '\n' ∉ w ++ x := by
    rw [mem_append, not_or]
    exact ⟨not_mem_of_stripCaseless? (forall_mem_of_all rfl) hw, hx⟩
  have hne : w ++ x ≠ [] := by
    obtain ⟨c, q, rfl, -⟩ := exists_head_of_stripCaseless? hw
    exact cons_ne_nil _ _
  obtain ⟨y, c, hy⟩ : ∃ y c, w ++ x = y ++ [c] := ⟨_, _, (dropLast_append_getLast hne).symm⟩
  refine ⟨c, ?_, ?_⟩
  · rw [hy]
    simp [getLast?_append, getLast?_cons]
  · rintro rfl
    exact hline (hy ▸ by simp)

theorem exists_head (h : IsLicence t) : ∃ c r, t = c :: r ∧ c ≠ ';' := by
  obtain ⟨u, v, w, x, rfl, hu, -⟩ := h
  cases u with
  | nil => exact ⟨'/', _, rfl, by decide⟩
  | cons c u =>
    refine ⟨c, _, rfl, ?_⟩
    rintro rfl
    exact absurd (hu ';' mem_cons_self) (by decide)

end IsLicence

/-! ## Nothing is found in a licence comment -/

/-- Behind its blanks the text does not start with a `p`. -/
def StartsOther (s : Chars) : Prop :=
  ∀ c r, s.dropWhile isBlank = c :: r → sameLetter 'p' c = false

theorem StartsOther.version?_eq_none (h : StartsOther s) : version? s = none := by
  by_contra hne
  obtain ⟨r, hr⟩ := Option.ne_none_iff_exists'.1 hne
  obtain ⟨t, rfl, ht⟩ := version?_iff.1 hr
  obtain ⟨c, v, hv, hc⟩ := ht.head r
  have hp : sameLetter 'p' c := by rcases hc with rfl | rfl <;> decide
  rw [h c v hv] at hp
  cases hp

theorem startsOther_cons (hc : isBlank c = false) (hp : sameLetter 'p' c = false) :
    StartsOther (c :: s) := by
  intro d r hd
  rw [dropWhile_cons, hc] at hd
  cases hd
  exact hp

theorem matchesOf_other (hs : StartsOther (c :: s)) :
    matchesOf version? lineStart p (c :: s) = matchesOf version? (c == '\n') (p + 1) s :=
  matchesOf_cons fun _ => hs.version?_eq_none

theorem exists_matchesOf_blanks (hu : ∀ c ∈ u, isBlank c = true) (hs : StartsOther s)
    (lineStart : Bool) (p : Nat) :
    ∃ b, matchesOf version? lineStart p (u ++ s) = matchesOf version? b (p + u.length) s := by
  induction u generalizing lineStart p with
  | nil => exact ⟨lineStart, rfl⟩
  | cons c u ih =>
    have hother : StartsOther (c :: (u ++ s)) := by
      intro d r hd
      rw [← cons_append, dropWhile_append_of_pos hu] at hd
      exact hs d r hd
    obtain ⟨b, hb⟩ := ih (fun x hx => hu x (.tail _ hx)) (c == '\n') (p + 1)
    refine ⟨b, ?_⟩
    rw [cons_append, matchesOf_other hother, hb, length_cons]
    congr 1
    omega

theorem IsLicence.matchesOf_append (h : IsLicence t) (lineStart : Bool) (p : Nat) (r : Chars) :
    matchesOf version? lineStart p (t ++ r) = matchesOf version? false (p + t.length) r := by
  obtain ⟨u, v, w, x, rfl, hu, hv, hw, hx⟩ := h
  have hslash : isBlank '/' = false ∧ sameLetter 'p' '/' = false := by decide
  have hline : '\n' ∉ w ++ x := by
    rw [mem_append, not_or]
    exact ⟨not_mem_of_stripCaseless? (forall_mem_of_all rfl) hw, hx⟩
  obtain ⟨c, q, rfl, hc⟩ := exists_head_of_stripCaseless? hw
  have hletter : isBlank c = false ∧ sameLetter 'p' c = false := by
    rcases sameLetter_s hc with rfl | rfl | rfl <;> decide
  rw [cons_append, mem_cons, not_or] at hline
  obtain ⟨b, hb⟩ := exists_matchesOf_blanks hu (startsOther_cons hslash.1 hslash.2)
    lineStart p
  obtain ⟨b', hb'⟩ := exists_matchesOf_blanks hv (startsOther_cons hletter.1 hletter.2)
    ('/' == '\n') (p + u.length + 1 + 1)
  simp only [append_assoc, cons_append] at hb hb' ⊢
  rw [hb, matchesOf_other (startsOther_cons hslash.1 hslash.2),
    matchesOf_other (startsOther_cons hslash.1 hslash.2),
    hb', matchesOf_other (startsOther_cons hletter.1 hletter.2), beq_eq_false_iff_ne.2 (Ne.symm hline.1),
    ← append_assoc, Literal.matchesOf_append hline.2]
  congr 1
  simp only [length_append, length_cons]
  omega

/-! ## Two views of one text -/

/-- Where a version directive is found among placeholders, one is found in the text
itself. -/
theorem exists_version?_sourceText (hps : ∀ k t, .taken k t ∈ ps → IsLicence t)
    (h : version? (maskedText ps) = some r) : ∃ r', version? (sourceText ps) = some r' := by
  obtain ⟨t, ht, u, p, v, q, c, w, rfl, hu, hp, hv, hvblank, hq, hc, hw, hsemi⟩ := version?_iff.1 h
  have hfront : '_' ∉ u ++ (p ++ (v ++ (q ++ [c]))) := by
    have hblank (x : Chars) (hx : ∀ c ∈ x, isBlank c = true) : '_' ∉ x := fun hmem =>
      absurd (hx '_' hmem) (by decide)
    simp only [mem_append, not_or]
    exact ⟨hblank u hu, not_mem_of_stripCaseless? (forall_mem_of_all rfl) hp, hblank v hvblank,
      not_mem_of_stripCaseless? (forall_mem_of_all rfl) hq,
      hblank [c] fun x hx => mem_singleton.1 hx ▸ hc⟩
  have hcut : maskedText ps = (u ++ (p ++ (v ++ (q ++ [c])))) ++ (w ++ ';' :: r) := by
    rw [ht]
    simp
  obtain ⟨xs, rfl, hxs⟩ := exists_map_stays hfront hcut
  -- the text behind the front has a semicolon and does not start with it
  have hmem : ';' ∈ sourceText xs := by
    obtain ⟨as, bs, rfl, -, -⟩ := exists_cut (isWord_of_symbol (by decide) rfl) hxs
    simp
  have hhead : (sourceText xs).head? ≠ some ';' := by
    cases xs with
    | nil => exact nofun
    | cons x xs =>
      cases x with
      | stays d =>
        obtain ⟨e, w', rfl⟩ := exists_cons_of_ne_nil hw
        obtain ⟨rfl, -⟩ := cons.inj hxs
        rintro ⟨⟩
        exact hsemi mem_cons_self
      | taken k t =>
        obtain ⟨d, t', rfl, hd⟩ := (hps k t (mem_append_right _ mem_cons_self)).exists_head
        rintro ⟨⟩
        exact hd rfl
  obtain ⟨w', r', hw', hsemi'⟩ := eq_append_cons_of_mem hmem
  have hne : w' ≠ [] := by
    rintro rfl
    rw [hw'] at hhead
    exact hhead rfl
  have hdirective : IsDirective (u ++ (p ++ (v ++ (q ++ (c :: (w' ++ [';'])))))) :=
    ⟨u, p, v, q, c, w', rfl, hu, hp, hv, hvblank, hq, hc, hne, hsemi'⟩
  refine ⟨r', ?_⟩
  rw [sourceText_append, sourceText_map_stays, hw', ← hdirective.version? r']
  simp

/-- A stretch that no placeholder starts in is made of characters that stay. -/
theorem exists_map_stays_of_takens (h : sourceText ps = v ++ r)
    (hfree : ∀ x ∈ takens p ps, p + v.length ≤ x.1) : ∃ bs, ps = v.map .stays ++ bs := by
  induction v generalizing ps p with
  | nil => exact ⟨ps, rfl⟩
  | cons c v ih =>
    cases ps with
    | nil => cases h
    | cons x ps =>
      cases x with
      | stays d =>
        obtain ⟨rfl, hrest⟩ := cons.inj h
        obtain ⟨bs, rfl⟩ := ih hrest fun x hx => by
          have := hfree x hx
          rw [length_cons] at this
          omega
        exact ⟨bs, rfl⟩
      | taken k t =>
        have := hfree (p, t) mem_cons_self
        rw [length_cons] at this
        omega

/-- The stretch `y` starts in the stretch `x`. -/
def StartsIn (y x : Nat × Chars) : Prop :=
  x.1 ≤ y.1 ∧ y.1 < x.1 + x.2.length

instance (y x : Nat × Chars) : Decidable (StartsIn y x) :=
  inferInstanceAs (Decidable (_ ∧ _))

theorem le_of_mem_takens {x : Nat × Chars} (h : x ∈ takens p ps) : p ≤ x.1 := by
  induction ps generalizing p with
  | nil => cases h
  | cons q ps ih =>
    cases q with
    | stays c => exact Nat.le_of_succ_le (ih h)
    | taken k t =>
      rcases mem_cons.1 h with rfl | h
      · exact Nat.le_refl p
      · exact (Nat.le_add_right _ _).trans (ih h)

section Apart

variable {p : Nat} {ps : List Piece}

/-- A version directive at the front of a text that no licence comment starts in is
made of characters that stay. -/
theorem exists_directive_stays (hr : version? (sourceText ps) = some r)
    (hapart : ∀ x ∈ matchesOf version? true p (sourceText ps), ∀ y ∈ takens p ps, ¬StartsIn y x) :
    ∃ v bs, ps = v.map .stays ++ bs ∧ IsDirective v ∧ v ≠ [] := by
  obtain ⟨v, hv, hdirective⟩ := version?_iff.1 hr
  have hne : v ≠ [] := by
    obtain ⟨u, rfl, -⟩ := hdirective.exists_eq_concat
    simp
  have hmatch : (p, v) ∈ matchesOf version? true p (sourceText ps) := by
    rw [hv, matchesOf_found hne (hdirective.version? r)]
    exact mem_cons_self
  have hfree : ∀ x ∈ takens p ps, p + v.length ≤ x.1 := fun x hx => by
    have hin := hapart (p, v) hmatch x hx
    have hle := le_of_mem_takens hx
    simp only [StartsIn] at hin
    omega
  obtain ⟨bs, hbs⟩ := exists_map_stays_of_takens hv hfree
  exact ⟨v, bs, hbs, hdirective, hne⟩

theorem eq_of_maskedText_eq {as bs cs ds : List Piece} (h : as ++ bs = cs ++ ds)
    (hmasked : maskedText bs = maskedText ds) : as = cs ∧ bs = ds := by
  have hnil {a b : List Piece} (h : maskedText (a ++ b) = maskedText b) : a = [] := by
    by_contra hne
    rw [maskedText_append, append_left_eq_self] at h
    exact maskedText_ne_nil hne h
  rcases append_eq_append_iff.1 h with ⟨a, rfl, rfl⟩ | ⟨a, rfl, rfl⟩
  · obtain rfl := hnil hmasked
    simp
  · obtain rfl := hnil hmasked.symm
    simp

/-- **The second round takes out what a scan of the text finds**, and leaves what the
first round took out, if no licence comment starts in a version directive. -/
theorem Masks.mem_takens {qs : List Piece}
    (h : Masks version? n lineStart ps qs kept) (hps : ∀ k t, .taken k t ∈ ps → IsLicence t)
    (hapart : ∀ x ∈ matchesOf version? lineStart p (sourceText ps), ∀ y ∈ takens p ps, ¬StartsIn y x) :
    (∀ x, x ∈ matchesOf version? lineStart p (sourceText ps) ∨ x ∈ takens p ps → x ∈ takens p qs) ∧
      ∀ t ∈ kept, t <:+: sourceText ps := by
  induction h generalizing p with
  | nil => exact ⟨fun x hx => hx.elim (fun hx => by rwa [sourceText_nil, matchesOf] at hx) id, nofun⟩
  | @stays n lineStart c ps qs kept hnone _ ih =>
    have hsource : lineStart → version? (c :: sourceText ps) = none := by
      rintro rfl
      by_contra hsome
      obtain ⟨r, hr⟩ := Option.ne_none_iff_exists'.1 hsome
      rw [← sourceText_stays] at hr
      obtain ⟨v, bs, heq, hdirective, -⟩ := exists_directive_stays hr hapart
      have hfound := hnone rfl
      rw [← maskedText_stays, heq, maskedText_append, maskedText_map_stays, hdirective.version?] at hfound
      cases hfound
    rw [sourceText_stays, matchesOf_cons hsource] at hapart ⊢
    obtain ⟨hmem, hkept⟩ := ih (fun k t ht => hps k t (.tail _ ht)) hapart
    exact ⟨hmem, fun t ht => (hkept t ht).trans (suffix_cons c _).isInfix⟩
  | @passes n lineStart k t ps qs kept _ ih =>
    rw [sourceText_taken, (hps k t mem_cons_self).matchesOf_append] at hapart ⊢
    obtain ⟨hmem, hkept⟩ := ih (fun k t ht => hps k t (.tail _ ht)) fun x hx y hy => hapart x hx y (.tail _ hy)
    refine ⟨fun x hx => ?_, fun d hd => (hkept d hd).trans (suffix_append t _).isInfix⟩
    rw [takens, mem_cons]
    rw [takens, mem_cons] at hx
    rcases hx with hx | rfl | hx
    · exact .inr (hmem x (.inl hx))
    · exact .inl rfl
    · exact .inr (hmem x (.inr hx))
  | @takes n cs rest qs kept hfound _ _ ih =>
    rw [← maskedText_append] at hfound
    obtain ⟨r, hr⟩ := exists_version?_sourceText hps hfound
    obtain ⟨v, bs, heq, hdirective, hne⟩ := exists_directive_stays hr hapart
    rw [heq, maskedText_append, maskedText_map_stays, hdirective.version?] at hfound
    obtain ⟨rfl, rfl⟩ := eq_of_maskedText_eq heq (Option.some.inj hfound).symm
    have hmatches := matchesOf_found (p := p) hne (hdirective.version? (sourceText rest))
    rw [sourceText_append, sourceText_map_stays, takens_map_stays_append, hmatches] at hapart ⊢
    obtain ⟨hmem, hkept⟩ := ih (fun k t ht => hps k t (mem_append_right _ ht))
      fun x hx y hy => hapart x (.tail _ hx) y hy
    rw [takens, maskedText_map_stays]
    refine ⟨fun x hx => ?_, forall_mem_cons.2 ⟨(prefix_append v _).isInfix, fun t ht =>
      (hkept t ht).trans (suffix_append v _).isInfix⟩⟩
    rw [mem_cons] at hx ⊢
    rcases hx with (rfl | hx) | hx
    · exact .inl rfl
    · exact .inr (hmem x (.inl hx))
    · exact .inr (hmem x (.inr hx))

end Apart

end Obscura.Literal
