import Obscura.Proofs.Integers

/-
  Directives that are taken out of a text. The text is a list of pieces, characters
  that stay and stretches that a placeholder stands for, and each of the two rounds
  takes further pieces together (`Masks`). No round splits a placeholder of the round
  before it, so that the pieces behind both rounds still make up the text
  (`exists_pieces`).
-/

namespace Obscura.Literal

open Text Number Expression List

variable {a b p r u v w x y : Chars} {k : Nat} {α : Type}

/-- A part of a text: a character that stays, or a stretch that the `n`-th placeholder
stands for. -/
inductive Piece where
  | stays (c : Char)
  | taken (n : Nat) (text : Chars)

variable {as bs : List Piece}

namespace Piece

def text : Piece → Chars
  | stays c => [c]
  | taken _ t => t

def masked : Piece → Chars
  | stays c => [c]
  | taken n _ => placeholder n

end Piece

def sourceText (ps : List Piece) : Chars :=
  ps.flatMap Piece.text

def maskedText (ps : List Piece) : Chars :=
  ps.flatMap Piece.masked

section Texts

variable (ps qs : List Piece) (c : Char) (n : Nat) (t : Chars)

@[simp] theorem sourceText_nil : sourceText [] = [] := rfl

@[simp] theorem maskedText_nil : maskedText [] = [] := rfl

@[simp] theorem sourceText_stays : sourceText (.stays c :: ps) = c :: sourceText ps := rfl

@[simp] theorem maskedText_stays : maskedText (.stays c :: ps) = c :: maskedText ps := rfl

@[simp] theorem sourceText_taken : sourceText (.taken n t :: ps) = t ++ sourceText ps := rfl

@[simp] theorem maskedText_taken : maskedText (.taken n t :: ps) = placeholder n ++ maskedText ps := rfl

@[simp] theorem sourceText_append : sourceText (ps ++ qs) = sourceText ps ++ sourceText qs :=
  flatMap_append

@[simp] theorem maskedText_append : maskedText (ps ++ qs) = maskedText ps ++ maskedText qs :=
  flatMap_append

@[simp] theorem sourceText_map_stays : sourceText (t.map .stays) = t := by
  induction t with
  | nil => rfl
  | cons c t ih => rw [map_cons, sourceText_stays, ih]

@[simp] theorem maskedText_map_stays : maskedText (t.map .stays) = t := by
  induction t with
  | nil => rfl
  | cons c t ih => rw [map_cons, maskedText_stays, ih]

end Texts

/-! ## Placeholders -/

variable {c : Char}

theorem isWord_of_isAlphanum (h : c.isAlphanum ∨ c = '_') : isWord c := by
  rcases h with hc | rfl
  · rw [isWord_eq (toNat_lt_of_isAlphanum hc), hc, Bool.true_or]
  · rw [isWord_eq (by decide)]
    rfl

theorem isWord_of_mem_placeholder {n : Nat} (h : c ∈ placeholder n) : isWord c := by
  have hfixed : ∀ d ∈ "__PRAGMA_".toList, d.isAlphanum ∨ d = '_' := forall_mem_of_all rfl
  refine isWord_of_isAlphanum ?_
  simp only [placeholder, mem_cons, mem_append] at h
  rcases h with rfl | (h | h) | h
  · exact .inr rfl
  · exact hfixed c (.tail _ h)
  · exact .inl (by simp [Char.isAlphanum, isDigit_digits n c h])
  · exact .inr (eq_of_mem_replicate (n := 2) h)

theorem not_mem_placeholder {n : Nat} (hc : isWord c = false) : c ∉ placeholder n := by
  intro h
  rw [isWord_of_mem_placeholder h] at hc
  cases hc

theorem eq_of_append_cons {x y r s : List α} {a : α} (hx : a ∉ x) (hy : a ∉ y)
    (h : x ++ a :: r = y ++ a :: s) : x = y := by
  induction x generalizing y with
  | nil =>
    cases y with
    | nil => rfl
    | cons b y => exact absurd ((cons.inj h).1 ▸ mem_cons_self) hy
  | cons b x ih =>
    cases y with
    | nil => exact absurd ((cons.inj h).1 ▸ mem_cons_self) hx
    | cons c y =>
      obtain ⟨rfl, hrest⟩ := cons.inj h
      rw [ih (fun hmem => hx (.tail _ hmem)) (fun hmem => hy (.tail _ hmem)) hrest]

theorem exists_cut {ps : List Piece} (hc : isWord c = false)
    (h : maskedText ps = u ++ c :: r) :
    ∃ as bs, ps = as ++ .stays c :: bs ∧ maskedText as = u ∧ maskedText bs = r := by
  induction ps generalizing u with
  | nil => simp at h
  | cons p ps ih =>
    cases p with
    | stays d =>
      rw [maskedText_stays] at h
      cases u with
      | nil =>
        obtain ⟨rfl, rfl⟩ := cons.inj h
        exact ⟨[], ps, rfl, rfl, rfl⟩
      | cons x u =>
        obtain ⟨rfl, hm⟩ := cons.inj h
        obtain ⟨as, bs, rfl, rfl, hr⟩ := ih hm
        exact ⟨.stays d :: as, bs, rfl, rfl, hr⟩
    | taken n t =>
      rw [maskedText_taken] at h
      have hrest : ∃ v, u = placeholder n ++ v ∧ maskedText ps = v ++ c :: r := by
        rcases append_eq_append_iff.1 h with ⟨v, hu, hm⟩ | ⟨v, hp, hm⟩
        · exact ⟨v, hu, hm⟩
        · cases v with
          | nil => exact ⟨[], by rw [append_nil] at hp ⊢; exact hp.symm, hm.symm⟩
          | cons x v =>
            have hx : c ∈ placeholder n := by
              rw [hp, (cons.inj hm).1]
              exact mem_append_right u mem_cons_self
            exact absurd hx (not_mem_placeholder hc)
      obtain ⟨v, rfl, hm⟩ := hrest
      obtain ⟨as, bs, rfl, rfl, hr⟩ := ih hm
      exact ⟨.taken n t :: as, bs, rfl, rfl, hr⟩

/-! ## A round -/

section Round

variable {find? : Chars → Option Chars}

variable {t : Chars}

theorem maskWith_cons {n : Nat} {lineStart : Bool}
    (h : lineStart → find? (c :: t) = none) :
    maskWith find? n lineStart (c :: t) =
      (c :: (maskWith find? n (c == '\n') t).1, (maskWith find? n (c == '\n') t).2) := by
  have hnone : (if lineStart then find? (c :: t) else none) = none := by
    cases lineStart with
    | true => exact h rfl
    | false => rfl
  rw [maskWith, hnone]

theorem length_found (r : Chars) (hu : u ≠ []) :
    r.length < (u ++ r).length ∧ (u ++ r).length - r.length = u.length := by
  have := length_pos_of_ne_nil hu
  rw [length_append]
  omega

theorem maskWith_found {n : Nat} (hu : u ≠ []) (h : find? (u ++ r) = some r) :
    maskWith find? n true (u ++ r) =
      (placeholder n ++ (maskWith find? (n + 1) false r).1, u :: (maskWith find? (n + 1) false r).2) := by
  obtain ⟨c, v, rfl⟩ := exists_cons_of_ne_nil hu
  obtain ⟨hlt, hlen⟩ := length_found r hu
  rw [cons_append] at h hlt hlen ⊢
  rw [maskWith, if_pos rfl, h]
  dsimp only
  rw [if_pos hlt, hlen, ← cons_append, take_left]

theorem maskWith_append {n : Nat} (hu : '\n' ∉ u) : maskWith find? n false (u ++ v) =
      (u ++ (maskWith find? n false v).1, (maskWith find? n false v).2) := by
  induction u with
  | nil => rfl
  | cons c u ih =>
    rw [mem_cons, not_or] at hu
    have hnone : false → find? (c :: (u ++ v)) = none := nofun
    rw [cons_append, maskWith_cons hnone, beq_eq_false_iff_ne.2 (Ne.symm hu.1), ih hu.2]
    rfl

/-- How a round over the pieces `ps` goes that finds directives where a line starts, and
the pieces behind it; the last list holds the texts that were taken out. -/
inductive Masks (find? : Chars → Option Chars) :
    Nat → Bool → List Piece → List Piece → List Chars → Prop
  | nil {n lineStart} : Masks find? n lineStart [] [] []
  | stays {n lineStart c ps qs kept} (hnone : lineStart = true → find? (c :: maskedText ps) = none)
      (h : Masks find? n (c == '\n') ps qs kept) :
      Masks find? n lineStart (.stays c :: ps) (.stays c :: qs) kept
  | passes {n lineStart k t ps qs kept} (h : Masks find? n false ps qs kept) :
      Masks find? n lineStart (.taken k t :: ps) (.taken k t :: qs) kept
  | takes {n ps rest qs kept} (hfound : find? (maskedText ps ++ maskedText rest) = some (maskedText rest))
      (hne : ps ≠ []) (h : Masks find? (n + 1) false rest qs kept) :
      Masks find? n true (ps ++ rest) (.taken n (sourceText ps) :: qs) (maskedText ps :: kept)

theorem maskWith_placeholder (hplace : ∀ k t, find? (placeholder k ++ t) = none) (n k : Nat) (lineStart : Bool)
    (v : Chars) : maskWith find? n lineStart (placeholder k ++ v) =
      (placeholder k ++ (maskWith find? n false v).1, (maskWith find? n false v).2) := by
  have hline : '\n' ∉ placeholder k := not_mem_placeholder (isWord_of_symbol (by decide) rfl)
  obtain ⟨u, hu⟩ : ∃ u, placeholder k = '_' :: u := ⟨_, rfl⟩
  have hnone : lineStart = true → find? ('_' :: (u ++ v)) = none := fun _ => by
    rw [← cons_append, ← hu]
    exact hplace k v
  rw [hu, mem_cons, not_or] at hline
  rw [hu, cons_append, maskWith_cons hnone, show ('_' == '\n') = false from rfl, maskWith_append hline.2]
  rfl

/-- Wherever something is found, it ends between two pieces. -/
def CutsPieces (find? : Chars → Option Chars) (ps : List Piece) : Prop :=
  ∀ as bs r, ps = as ++ bs → find? (maskedText bs) = some r →
    ∃ cs ds, cs ≠ [] ∧ bs = cs ++ ds ∧ maskedText ds = r

theorem maskedText_ne_nil {ps : List Piece} (h : ps ≠ []) : maskedText ps ≠ [] := by
  obtain ⟨p, qs, rfl⟩ := exists_cons_of_ne_nil h
  cases p with
  | stays c => exact cons_ne_nil _ _
  | taken n t => exact append_ne_nil_of_left_ne_nil (placeholder_ne_nil n) _

/-- **A round goes over pieces**, if it ends what it finds between two of them. -/
theorem exists_masks (hplace : ∀ k t, find? (placeholder k ++ t) = none) (n : Nat) (lineStart : Bool)
    {ps : List Piece} (hcut : CutsPieces find? ps) :
    ∃ qs, Masks find? n lineStart ps qs (maskWith find? n lineStart (maskedText ps)).2 ∧
      maskedText qs = (maskWith find? n lineStart (maskedText ps)).1 := by
  induction hlen : ps.length using Nat.strong_induction_on generalizing ps n lineStart with
  | _ l ih =>
    subst hlen
    by_cases hfound : lineStart ∧ ∃ r, find? (maskedText ps) = some r
    · obtain ⟨rfl, r, hr⟩ := hfound
      obtain ⟨cs, ds, hne, rfl, rfl⟩ := hcut [] ps r rfl hr
      have hshort : ds.length < (cs ++ ds).length := by
        have := length_pos_of_ne_nil hne
        rw [length_append]
        omega
      obtain ⟨qs, hqs, hmasked⟩ := ih _ hshort (n + 1) false (fun as bs r hbs hr =>
        hcut (cs ++ as) bs r (by rw [hbs, append_assoc]) hr) rfl
      rw [maskedText_append] at hr ⊢
      rw [maskWith_found (maskedText_ne_nil hne) hr]
      exact ⟨_, .takes hr hne hqs, by rw [maskedText_taken, hmasked]⟩
    · have hnone : lineStart = true → find? (maskedText ps) = none := fun hline => by
        by_contra hsome
        exact hfound ⟨hline, Option.ne_none_iff_exists'.1 hsome⟩
      cases ps with
      | nil => exact ⟨[], by rw [maskedText_nil, maskWith]; exact .nil, by rw [maskedText_nil, maskWith]⟩
      | cons p ps =>
        have hrest : CutsPieces find? ps := fun as bs r hbs hr => hcut (p :: as) bs r (by rw [hbs]; rfl) hr
        cases p with
        | stays c =>
          obtain ⟨qs, hqs, hmasked⟩ := ih _ (Nat.lt_succ_self _) n (c == '\n') hrest rfl
          rw [maskedText_stays] at hnone ⊢
          rw [maskWith_cons hnone]
          exact ⟨_, .stays hnone hqs, by rw [maskedText_stays, hmasked]⟩
        | taken k t =>
          obtain ⟨qs, hqs, hmasked⟩ := ih _ (Nat.lt_succ_self _) n false hrest rfl
          rw [maskedText_taken, maskWith_placeholder hplace]
          exact ⟨_, .passes hqs, by rw [maskedText_taken, hmasked]⟩

/-! ## What a round leaves -/

def EndsLine (a : Chars) : Prop :=
  a = [] ∨ a.getLast? = some '\n'

theorem getLast?_cons_cases {a b : α} {l : List α} (h : (a :: l).getLast? = some b) :
    l = [] ∧ a = b ∨ l.getLast? = some b := by
  cases l with
  | nil => exact .inl ⟨rfl, Option.some.inj h⟩
  | cons c l => exact .inr (by rwa [getLast?_cons_cons] at h)

theorem EndsLine.of_cons (h : EndsLine (c :: a)) :
    a = [] ∧ c = '\n' ∨ a.getLast? = some '\n' :=
  getLast?_cons_cases (h.resolve_left (cons_ne_nil c a))

namespace Masks

variable {n : Nat} {lineStart : Bool} {ps qs : List Piece} {kept : List Chars}

theorem sourceText_eq (h : Masks find? n lineStart ps qs kept) : sourceText qs = sourceText ps := by
  induction h with
  | nil => rfl
  | stays _ _ ih => rw [sourceText_stays, sourceText_stays, ih]
  | passes _ ih => rw [sourceText_taken, sourceText_taken, ih]
  | takes _ _ _ ih => rw [sourceText_taken, sourceText_append, ih]

/-- A character that is in no text taken out is in no stretch that a placeholder stands for. -/
theorem not_mem_taken (h : Masks find? n lineStart ps qs kept)
    (hps : ∀ k t, .taken k t ∈ ps → c ∉ t) (hkept : ∀ d ∈ kept, c ∉ d)
    (ht : .taken k t ∈ qs) : c ∉ t := by
  induction h with
  | nil => cases ht
  | stays _ _ ih =>
    rcases mem_cons.1 ht with hne | ht
    · cases hne
    · exact ih (fun k t hk => hps k t (.tail _ hk)) hkept ht
  | passes _ ih =>
    rcases mem_cons.1 ht with heq | ht
    · cases heq
      exact hps k t mem_cons_self
    · exact ih (fun k t hk => hps k t (.tail _ hk)) hkept ht
  | @takes n ps rest qs kept _ _ _ ih =>
    rcases mem_cons.1 ht with heq | ht
    · cases heq
      intro hc
      obtain ⟨p, hp, hc⟩ := mem_flatMap.1 hc
      cases p with
      | stays d =>
        exact hkept _ mem_cons_self (mem_flatMap.2 ⟨_, hp, hc⟩)
      | taken j u => exact hps j u (mem_append_left _ hp) hc
    · exact ih (fun k t hk => hps k t (mem_append_right _ hk)) (fun d hd => hkept d (.tail _ hd)) ht

theorem endsLine (h : Masks find? n lineStart ps qs kept) {pre : Chars} (hpre : lineStart → EndsLine pre)
    (hps : ∀ as k t bs, ps = as ++ .taken k t :: bs → EndsLine (pre ++ sourceText as)) {as bs : List Piece}
    (hqs : qs = as ++ .taken k t :: bs) : EndsLine (pre ++ sourceText as) := by
  induction h generalizing pre as with
  | nil => simp at hqs
  | @stays n lineStart c ps qs kept _ _ ih =>
    cases as with
    | nil => cases hqs
    | cons a as =>
      obtain ⟨rfl, hrest⟩ := cons.inj hqs
      rw [sourceText_stays, append_cons]
      refine ih (fun hline => .inr ?_) (fun as k t bs heq => ?_) hrest
      · rw [getLast?_concat, beq_iff_eq.1 hline]
      · have := hps (.stays c :: as) k t bs (by rw [heq]; rfl)
        rwa [sourceText_stays, append_cons] at this
  | @passes n lineStart k' t' ps qs kept _ ih =>
    cases as with
    | nil => exact hps [] k' t' ps rfl
    | cons a as =>
      obtain ⟨rfl, hrest⟩ := cons.inj hqs
      rw [sourceText_taken, ← append_assoc]
      refine ih nofun (fun as k t bs heq => ?_) hrest
      have := hps (.taken k' t' :: as) k t bs (by rw [heq]; rfl)
      rwa [sourceText_taken, ← append_assoc] at this
  | @takes n cs ds qs kept _ _ _ ih =>
    cases as with
    | nil =>
      rw [sourceText_nil, append_nil]
      exact hpre rfl
    | cons a as =>
      obtain ⟨rfl, hrest⟩ := cons.inj hqs
      rw [sourceText_taken, ← append_assoc]
      refine ih nofun (fun as k t bs heq => ?_) hrest
      have := hps (cs ++ as) k t bs (by rw [heq, append_assoc])
      rwa [sourceText_append, ← append_assoc] at this

end Masks

end Round

/-! ## Licence comments and version directives -/

theorem suffix_of_licence? {s : Chars} (h : licence? s = some r) : r <:+ s ∧ r.length < s.length := by
  unfold licence? at h
  split at h
  · rename_i v hv
    obtain ⟨w, hw, rfl⟩ := Option.map_eq_some_iff.1 h
    have hsuffix : w.dropWhile (fun c => c != '\n' && c != '\r') <:+ v :=
      (dropWhile_suffix _).trans ((suffix_of_stripCaseless? hw).trans (dropWhile_suffix _))
    have hall : '/' :: '/' :: v <:+ s := hv ▸ dropWhile_suffix isBlank
    have hlen := hall.length_le
    have := hsuffix.length_le
    rw [length_cons, length_cons] at hlen
    exact ⟨hsuffix.trans ((suffix_cons _ _).trans ((suffix_cons _ _).trans hall)), by omega⟩
  · cases h

theorem cutsPieces_licence? (s : Chars) : CutsPieces licence? (s.map .stays) := by
  intro as bs r hbs hr
  obtain ⟨u, t, rfl, rfl, rfl⟩ := map_eq_append_iff.1 hbs
  rw [maskedText_map_stays] at hr
  obtain ⟨⟨v, rfl⟩, hlen⟩ := suffix_of_licence? hr
  refine ⟨v.map .stays, r.map .stays, ?_, map_append, maskedText_map_stays r⟩
  rintro hnil
  rw [map_eq_nil_iff.1 hnil, nil_append] at hlen
  omega

theorem cutsPieces_version? (ps : List Piece) : CutsPieces version? ps := by
  intro as bs r _ hr
  obtain ⟨u, hu, -⟩ := exists_eq_append_semicolon hr
  obtain ⟨cs, ds, rfl, -, hds⟩ := exists_cut (isWord_of_symbol (by decide) rfl) hu
  exact ⟨cs ++ [.stays ';'], ds, by simp, by simp, hds⟩

/-! ## Both rounds -/

/-- The two rounds over a text: first the licence comments are taken out, then the
version directives. -/
structure Masked (s : Chars) (ps qs : List Piece) : Prop where
  licences : Masks licence? 0 true (s.map .stays) ps (maskWith licence? 0 true s).2
  versions : Masks version? (maskWith licence? 0 true s).2.length true ps qs
    (maskWith version? (maskWith licence? 0 true s).2.length true (maskWith licence? 0 true s).1).2
  masked : maskedText qs = (maskDirectives s).1

theorem exists_masked (s : Chars) : ∃ ps qs, Masked s ps qs := by
  have hlicence (k : Nat) (t : Chars) : licence? (placeholder k ++ t) = none := rfl
  have hversion (k : Nat) (t : Chars) : version? (placeholder k ++ t) = none := rfl
  obtain ⟨ps, hps, hfirst⟩ := exists_masks hlicence 0 true (cutsPieces_licence? s)
  obtain ⟨qs, hqs, hsecond⟩ :=
    exists_masks hversion (maskWith licence? 0 true s).2.length true (cutsPieces_version? ps)
  rw [maskedText_map_stays] at hps hfirst
  rw [hfirst] at hqs hsecond
  exact ⟨ps, qs, hps, hqs, hsecond⟩

namespace Masked

variable {s : Chars} {ps qs : List Piece}

theorem source (h : Masked s ps qs) : sourceText qs = s := by
  rw [h.versions.sourceText_eq, h.licences.sourceText_eq, sourceText_map_stays]

theorem taken_not_mem_stays : Piece.taken k t ∉ s.map .stays := by
  simp

theorem endsLine (h : Masked s ps qs)
    (hqs : qs = as ++ .taken k t :: bs) : EndsLine (sourceText as) := by
  have hfirst (as : List Piece) (k : Nat) (t : Chars) (bs : List Piece) (hps : ps = as ++ .taken k t :: bs) :
      EndsLine ([] ++ sourceText as) :=
    h.licences.endsLine (fun _ => .inl rfl) (fun as k t bs heq =>
      absurd (heq ▸ mem_append_right as mem_cons_self) taken_not_mem_stays) hps
  exact h.versions.endsLine (fun _ => .inl rfl) hfirst hqs

theorem not_mem_taken (h : Masked s ps qs) (hc : ∀ d ∈ (maskDirectives s).2, c ∉ d)
    (ht : .taken k t ∈ qs) : c ∉ t := by
  refine h.versions.not_mem_taken (fun k t hk => ?_) (fun d hd => hc d (mem_append_right _ hd)) ht
  exact h.licences.not_mem_taken (fun k t hk => absurd hk taken_not_mem_stays)
    (fun d hd => hc d (mem_append_left _ hd)) hk

end Masked

/-! ## Directives that start a line -/

/-- A licence comment that starts before a line ends before it, if the line starts with
neither a slash nor an `s`. -/
theorem exists_of_licence?
    (hx : ∀ c v, x.dropWhile isBlank = c :: v → c ≠ '/' ∧ sameLetter 's' c = false)
    (h : licence? (a ++ '\n' :: x) = some r) : ∃ b, r = b ++ '\n' :: x := by
  unfold licence? at h
  split at h
  · rename_i v hv
    obtain ⟨w, hw, rfl⟩ := Option.map_eq_some_iff.1 h
    -- the two slashes stand before the line feed
    have hslashes : ∃ b, v = b ++ '\n' :: x := by
      rw [dropWhile_append] at hv
      split at hv
      · exact absurd rfl (hx _ _ hv).1
      · rename_i hne
        cases hd : a.dropWhile isBlank with
        | nil => simp [hd] at hne
        | cons d u =>
          rw [hd] at hv
          cases u with
          | nil => cases hv
          | cons e u =>
            cases hv
            exact ⟨u, rfl⟩
    obtain ⟨b, rfl⟩ := hslashes
    -- and so do the words behind them
    have hwords : ∃ b, w = b ++ '\n' :: x := by
      rw [dropWhile_append] at hw
      split at hw
      · obtain ⟨c, u, hu, hc⟩ := exists_head_of_stripCaseless? (l := 's') hw
        rw [(hx c u hu).2] at hc
        cases hc
      · exact exists_of_stripCaseless? (forall_mem_of_all rfl) hw
    obtain ⟨b, rfl⟩ := hwords
    rw [dropWhile_append]
    split
    · exact ⟨[], rfl⟩
    · exact ⟨_, rfl⟩
  · cases h

namespace IsDirective

variable {t : Chars}

theorem not_licence (h : IsDirective t) (b : Chars)
    (hv : (t ++ b).dropWhile isBlank = c :: v) : c ≠ '/' ∧ sameLetter 's' c = false := by
  obtain ⟨d, r, hr, hd⟩ := h.head b
  cases hr.symm.trans hv
  rcases hd with rfl | rfl <;> decide

/-- No licence comment starts in a directive that holds no comment. -/
theorem licence?_eq_none (h : IsDirective t) (hplain : ¬['/', '/'] <:+: t) {x : Chars} (hy : t = x ++ y)
    (hne : y ≠ []) (b : Chars) : licence? (y ++ b) = none := by
  obtain ⟨u, hu, -⟩ := h.exists_eq_concat
  obtain ⟨z, rfl⟩ : ∃ z, y = z ++ [';'] := by
    have hlast : y.getLast? = some ';' := by
      rw [← getLast?_append_of_ne_nil x hne, ← hy, hu, getLast?_concat]
    exact ⟨y.dropLast, (dropLast_append_getLast? ';' hlast).symm⟩
  have hdrop := trimLeft_append (a := z) (u := ';' :: b) (fun c hc => by cases hc; decide)
  unfold licence?
  rw [append_assoc, singleton_append, ← trimLeft, hdrop]
  split
  · rename_i v hv
    cases hz : trimLeft z with
    | nil => rw [hz] at hv; cases hv
    | cons d z' =>
      rw [hz] at hv
      cases z' with
      | nil => cases hv
      | cons e z' =>
        cases hv
        have hsuffix : '/' :: '/' :: z' <:+ z := hz ▸ dropWhile_suffix isBlank
        obtain ⟨w, rfl⟩ := hsuffix
        exact absurd ⟨x ++ w, z' ++ [';'], by rw [hy]; simp⟩ hplain
  · rfl

end IsDirective

namespace Masks

variable {find? : Chars → Option Chars} {n : Nat} {lineStart : Bool}
  {kept : List Chars} {ps qs : List Piece}

/-- What becomes of a text that starts with `c`: the character stays, or a stretch is taken out. -/
theorem of_stays (h : Masks find? n lineStart (.stays c :: ps) qs kept) :
    (∃ rs, qs = .stays c :: rs ∧ Masks find? n (c == '\n') ps rs kept) ∨
      ∃ r, find? (c :: maskedText ps) = some r := by
  generalize hX : Piece.stays c :: ps = X at h
  cases h with
  | nil => cases hX
  | stays _ h =>
    cases hX
    exact .inl ⟨_, rfl, h⟩
  | passes _ => cases hX
  | takes hfound _ _ =>
    rw [← maskedText_append, ← hX] at hfound
    exact .inr ⟨_, hfound⟩

theorem exists_eq_append (h : Masks find? n lineStart (y.map .stays ++ ps) qs kept)
    (hnone : ∀ x z, y = x ++ z → z ≠ [] → find? (z ++ maskedText ps) = none) :
    ∃ rs, qs = y.map .stays ++ rs := by
  induction y generalizing n lineStart qs with
  | nil => exact ⟨qs, rfl⟩
  | cons c y ih =>
    rw [map_cons, cons_append] at h
    rcases h.of_stays with ⟨rs, rfl, hrest⟩ | ⟨r, hr⟩
    · obtain ⟨ss, rfl⟩ := ih hrest fun x z hy hz => hnone (c :: x) z (by rw [hy]; rfl) hz
      exact ⟨ss, rfl⟩
    · rw [maskedText_append, maskedText_map_stays, ← cons_append,
        hnone [] (c :: y) rfl (cons_ne_nil c y)] at hr
      cases hr

theorem exists_directive (ht : IsDirective t) (hplain : ¬['/', '/'] <:+: t)
    (h : Masks licence? n lineStart ((a ++ (t ++ b)).map .stays) qs kept) (ha : EndsLine a) :
    ∃ as bs, qs = as ++ (t.map .stays ++ bs) ∧ sourceText as = a ∧
      (as = [] ∨ as.getLast? = some (.stays '\n')) := by
  have hnone (x z : Chars) (hz : t = x ++ z) (hne : z ≠ []) : licence? (z ++ b) = none :=
    ht.licence?_eq_none hplain hz hne b
  have hne : t ≠ [] := by
    obtain ⟨u, rfl, -⟩ := ht.exists_eq_concat
    simp
  generalize hX : (a ++ (t ++ b)).map Piece.stays = X at h
  induction h generalizing a with
  | nil =>
    rw [map_eq_nil_iff, append_eq_nil_iff, append_eq_nil_iff] at hX
    exact absurd hX.2.1 hne
  | @stays n lineStart c ps qs kept hfree h ih =>
    cases a with
    | nil =>
      rw [nil_append, map_append] at hX
      have hall := hX ▸ Masks.stays hfree h
      obtain ⟨bs, hbs⟩ := hall.exists_eq_append fun x z hz hne => by
        rw [maskedText_map_stays]
        exact hnone x z hz hne
      exact ⟨[], bs, hbs, rfl, .inl rfl⟩
    | cons d a =>
      obtain ⟨hd, hrest⟩ := cons.inj hX
      cases hd
      have hline := ha.of_cons
      obtain ⟨as, bs, rfl, rfl, hlast⟩ := ih (hline.imp_left And.left) hrest
      refine ⟨.stays c :: as, bs, rfl, rfl, .inr ?_⟩
      rcases hlast with rfl | hlast
      · rcases hline with ⟨-, rfl⟩ | hnil
        · rfl
        · cases hnil
      · rw [getLast?_cons, hlast]
        rfl
  | passes h =>
    exact absurd (hX ▸ mem_cons_self) Masked.taken_not_mem_stays
  | @takes n cs ds qs kept hfound _ h ih =>
    obtain ⟨u, r, hur, rfl, rfl⟩ := map_eq_append_iff.1 hX
    rw [maskedText_map_stays, maskedText_map_stays, ← hur] at hfound
    rcases ha with rfl | hlast
    · rw [nil_append, hnone [] t rfl hne] at hfound
      cases hfound
    · -- the comment ends before the line of the directive
      obtain ⟨a, rfl⟩ : ∃ a', a = a' ++ ['\n'] := ⟨a.dropLast, (dropLast_append_getLast? '\n' hlast).symm⟩
      rw [append_assoc, singleton_append] at hfound
      obtain ⟨r, rfl⟩ := exists_of_licence? (fun c v hv => ht.not_licence b hv) hfound
      have hsplit : u ++ (r ++ ['\n']) = a ++ ['\n'] := by
        have hboth : u ++ (r ++ ['\n']) ++ (t ++ b) = a ++ ['\n'] ++ (t ++ b) := by
          rw [hur]
          simp
        exact append_cancel_right hboth
      obtain ⟨as, bs, rfl, hsource, hline⟩ := ih (a := r ++ ['\n']) (.inr getLast?_concat) (by simp)
      refine ⟨.taken n (sourceText (u.map .stays)) :: as, bs, rfl, ?_, .inr ?_⟩
      · rw [sourceText_taken, sourceText_map_stays, hsource, hsplit]
      · rcases hline with rfl | hline
        · simp at hsource
        · rw [getLast?_cons, hline]
          rfl

theorem exists_eq_concat_of_version? {ps rest : List Piece}
    (h : version? (maskedText ps ++ maskedText rest) = some (maskedText rest)) :
    ∃ ms, ps = ms ++ [.stays ';'] ∧ .stays ';' ∉ ms := by
  obtain ⟨m, hm, hsemi⟩ := exists_eq_append_semicolon h
  have hps : maskedText ps = m ++ [';'] := by
    rw [append_cons] at hm
    exact append_cancel_right hm
  obtain ⟨ms, ns, rfl, rfl, hns⟩ := exists_cut (isWord_of_symbol (by decide) rfl) hps
  obtain rfl : ns = [] := by
    by_contra hne
    exact maskedText_ne_nil hne hns
  exact ⟨ms, rfl, fun hmem => hsemi (mem_flatMap.2 ⟨_, hmem, mem_singleton_self _⟩)⟩

/-- The round for version directives takes a directive out, alone or with what stands before it. -/
theorem exists_taken (ht : IsDirective t)
    (h : Masks version? n lineStart (as ++ (t.map .stays ++ bs)) qs kept)
    (has : as = [] ∧ lineStart ∨ as.getLast? = some (.stays '\n')) :
    ∃ cs k x ds, qs = cs ++ .taken k (x ++ t) :: ds ∧ sourceText as = sourceText cs ++ x := by
  obtain ⟨u, hu, hsemi⟩ := ht.exists_eq_concat
  have hmap : t.map Piece.stays ++ bs = u.map .stays ++ .stays ';' :: bs := by simp [hu]
  generalize hX : as ++ (t.map Piece.stays ++ bs) = X at h
  induction h generalizing as with
  | nil => simp [hu] at hX
  | @stays n lineStart d ps qs kept hnone h ih =>
    cases as with
    | nil =>
      have hline := (has.resolve_right nofun).2
      have hmasked : d :: maskedText ps = t ++ maskedText bs := by
        rw [← maskedText_stays, ← hX]
        simp
      rw [hmasked, ht.version?] at hnone
      cases hnone hline
    | cons a as =>
      obtain ⟨rfl, hrest⟩ := cons.inj hX
      have has' : as = [] ∧ (d == '\n') ∨ as.getLast? = some (.stays '\n') :=
        (getLast?_cons_cases (has.resolve_left nofun)).imp_left fun h => ⟨h.1, by cases h.2; rfl⟩
      obtain ⟨cs, k, x, ds, rfl, hsource⟩ := ih has' hrest
      exact ⟨.stays d :: cs, k, x, ds, rfl, by rw [sourceText_stays, hsource]; rfl⟩
  | @passes n lineStart k w ps qs kept h ih =>
    cases as with
    | nil =>
      obtain ⟨c, v, rfl⟩ := exists_cons_of_ne_nil (l := t) (by simp [hu])
      cases hX
    | cons a as =>
      obtain ⟨rfl, hrest⟩ := cons.inj hX
      have hlast := (getLast?_cons_cases (has.resolve_left nofun)).resolve_left fun h => nomatch h.2
      obtain ⟨cs, j, x, ds, rfl, hsource⟩ := ih (.inr hlast) hrest
      exact ⟨.taken k w :: cs, j, x, ds, rfl, by rw [sourceText_taken, hsource, sourceText_taken, append_assoc]⟩
  | @takes n ps rest qs kept hfound hne h ih =>
    obtain ⟨ms, rfl, hms⟩ := exists_eq_concat_of_version? hfound
    have hline : (ms ++ [Piece.stays ';']).getLast? ≠ some (.stays '\n') := by
      rw [getLast?_concat]
      exact fun heq => nomatch heq
    rcases append_eq_append_iff.1 hX with ⟨w, hw, hrest⟩ | ⟨w, rfl, rfl⟩
    · -- what is found goes on behind `as`; its semicolon is that of the directive
      rcases eq_nil_or_concat w with rfl | ⟨w, z, rfl⟩
      · rw [append_nil] at hw
        exact absurd (hw ▸ has.resolve_left fun h => hne (hw.trans h.1)) hline
      rw [concat_eq_append, ← append_assoc] at hw
      obtain ⟨rfl, hz⟩ := append_inj' hw rfl
      cases hz
      have hsame : u.map .stays = w := by
        rw [hmap, concat_eq_append, append_assoc] at hrest
        refine eq_of_append_cons ?_ (fun hmem => hms (mem_append_right as hmem)) hrest
        rw [mem_map]
        rintro ⟨c, hc, heq⟩
        cases heq
        exact hsemi hc
      subst hsame
      refine ⟨[], n, sourceText as, qs, ?_, rfl⟩
      rw [hu, sourceText_append, sourceText_append, sourceText_map_stays, append_assoc]
      rfl
    · have hw : w ≠ [] := by
        rintro rfl
        rw [append_nil] at has
        exact hline (has.resolve_left fun h => hne h.1)
      rw [getLast?_append_of_ne_nil _ hw] at has
      have hlast := has.resolve_left fun h => hne (append_eq_nil_iff.1 h.1).1
      obtain ⟨cs, k, x, ds, rfl, hsource⟩ := ih (.inr hlast) rfl
      refine ⟨.taken n (sourceText (ms ++ [.stays ';'])) :: cs, k, x, ds, rfl, ?_⟩
      rw [sourceText_append, hsource, sourceText_taken, append_assoc]

end Masks

/-- **A version directive that starts a line and holds no comment is taken out**, alone or
with what stands before it. -/
theorem Masked.exists_taken {ps qs : List Piece} (h : Masked (a ++ (t ++ b)) ps qs)
    (ht : IsDirective t) (hplain : ¬['/', '/'] <:+: t) (ha : EndsLine a) :
    ∃ as k x bs, qs = as ++ .taken k (x ++ t) :: bs ∧ a = sourceText as ++ x := by
  obtain ⟨as, bs, rfl, rfl, hlast⟩ := h.licences.exists_directive ht hplain ha
  obtain ⟨cs, k, x, ds, hqs, hsource⟩ := h.versions.exists_taken ht (hlast.imp_left fun hnil => ⟨hnil, rfl⟩)
  exact ⟨cs, k, x, ds, hqs, hsource⟩

end Obscura.Literal
