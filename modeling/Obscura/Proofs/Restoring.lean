import Mathlib.Data.List.Sort
import Obscura.Proofs.Placeholders

/-
  Directives behind the integer pass. The pass exchanges numbers in the text with the
  placeholders (`exists_exchanged`), and the two rounds leave pieces that are seated,
  so that each directive comes back in its place (`exists_rendered`). It comes back as
  it was unless a licence comment was taken out inside of it.
-/

namespace Obscura.Literal

open Text Layout Number Expression List

variable {as bs rs : List Piece} {c : Char} {d u : Chars} {g : Disguise} {held : Nat → Chars}
  {i : Int}

/-! ## Numbers that are exchanged -/

theorem Disguise.mem_apply (g : Disguise) (i : Int) :
    ∀ c ∈ g.apply i, c.isDigit ∨ c ∈ " +-*()".toList := by
  have hdigits (n : Nat) : ∀ c ∈ digits n, c.isDigit ∨ c ∈ " +-*()".toList :=
    fun c hc => .inl (isDigit_digits n c hc)
  have htext : ∀ c ∈ g.text, c.isDigit ∨ c ∈ " +-*()".toList := by
    cases g with
    | sum a b =>
      simp only [text, forall_mem_append]
      exact ⟨⟨hdigits _, forall_mem_of_all rfl⟩, hdigits _⟩
    | product a b =>
      simp only [text, forall_mem_append]
      exact ⟨⟨hdigits _, forall_mem_of_all rfl⟩, hdigits _⟩
    | mixed a b e =>
      simp only [text, forall_mem_append]
      exact ⟨⟨⟨⟨⟨hdigits _, forall_mem_of_all rfl⟩, hdigits _⟩, forall_mem_of_all rfl⟩, hdigits _⟩,
        forall_mem_of_all rfl⟩
  simp only [apply, forall_mem_append]
  refine ⟨⟨⟨⟨forall_mem_of_all rfl, htext⟩, ?_⟩, hdigits _⟩, forall_mem_of_all rfl⟩
  split
  · exact forall_mem_of_all rfl
  · exact forall_mem_of_all rfl

/-- Pieces in which some runs of digits that stay are exchanged for disguises. -/
inductive Exchanged : List Piece → List Piece → Prop
  | nil : Exchanged [] []
  | same {ps qs} (q : Piece) (h : Exchanged ps qs) : Exchanged (q :: ps) (q :: qs)
  | swap {ps qs} {w : Chars} (hw : IsDigits w) (g : Disguise) (i : Int) (h : Exchanged ps qs) :
      Exchanged (w.map .stays ++ ps) ((g.apply i).map .stays ++ qs)

theorem lexemes_word (v : Chars) (before : Option Char) (hu : ∀ c ∈ u, isWord c)
    (hlast : ∀ c, u.getLast? = some c → isDecimal c = false) :
    lexemes before (u ++ v) = u.map .char ++ lexemes (lastOr before u) v := by
  induction u generalizing before with
  | nil => rfl
  | cons c u ih =>
    have hc := hu c mem_cons_self
    have hquote : ¬(c = '"' ∨ c = '\'') :=
      not_or.2 ⟨ne_of_isWord hc (isWord_of_symbol (by decide) rfl),
        ne_of_isWord hc (isWord_of_symbol (by decide) rfl)⟩
    have hdot : isWord '.' = false := isWord_of_symbol (by decide) rfl
    have hlexeme : lexeme before c (u ++ v) = (.char c, u ++ v) := by
      rw [lexeme.eq_def, if_neg hquote]
      by_cases hdecimal : isDecimal c
      · rw [if_pos hdecimal]
        -- the digits go on to a letter of the word
        obtain ⟨x, hx, hxdecimal⟩ : ∃ x ∈ u, isDecimal x = false := by
          cases hend : u.getLast? with
          | none =>
            rw [getLast?_eq_none_iff.1 hend] at hlast
            rw [hlast c rfl] at hdecimal
            cases hdecimal
          | some x => exact ⟨x, mem_of_getLast? hend, hlast x (by rw [getLast?_cons, hend]; rfl)⟩
        obtain ⟨y, r, hr⟩ : ∃ y r, u.dropWhile isDecimal = y :: r := by
          cases hdrop : u.dropWhile isDecimal with
          | nil => rw [dropWhile_eq_nil_iff.1 hdrop x hx] at hxdecimal; cases hxdecimal
          | cons y r => exact ⟨y, r, rfl⟩
        have hy : isWord y := hu y (.tail _ ((dropWhile_suffix isDecimal).subset (hr ▸ mem_cons_self)))
        have hdrop : (u ++ v).dropWhile isDecimal = y :: (r ++ v) := by
          rw [dropWhile_append, hr]
          rfl
        dsimp only
        rw [hdrop]
        split
        · rename_i heq
          exact absurd (cons.inj heq).1 (ne_of_isWord hy hdot)
        · rename_i heq
          rw [head?_cons, isWordAt_some, hy, Bool.or_true, if_pos rfl]
      · rw [if_neg hdecimal, if_neg (ne_of_isWord hc hdot)]
    have hrest := ih (lastOr before [c]) (fun x hx => hu x (.tail _ hx)) fun x hx =>
      hlast x (by rw [getLast?_cons, hx]; rfl)
    rw [cons_append, lexemes, hlexeme]
    dsimp only
    rw [Lexeme.text, hrest, ← lastOr_append]
    rfl

theorem Disguise.exists_cons (g : Disguise) (i : Int) : ∃ u, g.apply i = '(' :: u := ⟨_, rfl⟩

theorem Exchanged.append (h : Exchanged ps qs) (as : List Piece) :
    Exchanged (as ++ ps) (as ++ qs) := by
  induction as with
  | nil => exact h
  | cons q as ih => exact .same q ih

/-- Lexemes end between two pieces, and numbers are made of characters that stay. -/
theorem exists_pieces_of_lexeme (before : Option Char) (c : Char) (ps : List Piece) :
    ∃ as bs, .stays c :: ps = as ++ bs ∧ maskedText as = (lexeme before c (maskedText ps)).1.text ∧
      maskedText bs = (lexeme before c (maskedText ps)).2 ∧
      ∀ w, (lexeme before c (maskedText ps)).1 = .whole w → IsDigits w ∧ as = w.map .stays := by
  have htext := lexeme_append before c (maskedText ps)
  rw [← maskedText_stays] at htext
  have hplain (x : Chars) (hx : ∀ y ∈ x, isDecimal y = true ∨ y = '.') : '_' ∉ x := fun hmem => by
    rcases hx '_' hmem with hdecimal | hpoint
    · rw [isDecimal_eq_isDigit (by decide)] at hdecimal
      cases hdecimal
    · exact absurd hpoint (by decide)
  rcases lexeme_cases before c (maskedText ps) with
    ⟨u, r, hl, hlast, hquote⟩ | ⟨u, v, r, hl, hu, hv, -⟩ | ⟨w, r, hl, hw, -⟩ | ⟨hl, -⟩
  · rw [hl] at htext ⊢
    obtain ⟨u', rfl⟩ : ∃ u', u = u' ++ [c] := ⟨_, (dropLast_append_getLast? c hlast).symm⟩
    have hword : isWord c = false := by
      rcases hquote with rfl | rfl <;> exact isWord_of_symbol (by decide) rfl
    rw [Lexeme.text, append_assoc, singleton_append] at htext
    obtain ⟨as, bs, hps, rfl, rfl⟩ := exists_cut hword htext.symm
    refine ⟨as ++ [.stays c], bs, by rw [hps]; simp, by simp [Lexeme.text], rfl, fun w h => by cases h⟩
  · rw [hl] at htext ⊢
    have hfraction : ∀ y ∈ u ++ '.' :: v, isDecimal y ∨ y = '.' := by
      simp only [mem_append, mem_cons]
      rintro y (hy | rfl | hy)
      · exact .inl (hu y hy)
      · exact .inr rfl
      · exact .inl (hv y hy)
    obtain ⟨bs, hps, rfl⟩ := exists_map_stays (hplain _ hfraction) htext.symm
    exact ⟨_, bs, hps, maskedText_map_stays _, rfl, fun w h => by cases h⟩
  · rw [hl] at htext ⊢
    obtain ⟨bs, hps, rfl⟩ := exists_map_stays (hplain w fun y hy => .inl (hw.2 y hy)) htext.symm
    refine ⟨_, bs, hps, maskedText_map_stays _, rfl, fun x h => ?_⟩
    cases h
    exact ⟨hw, rfl⟩
  · rw [hl]
    exact ⟨[.stays c], ps, rfl, rfl, rfl, fun w h => by cases h⟩

/-- **The integer pass exchanges runs of digits that stay**, and nothing else. -/
theorem exists_exchanged (before : Option Char) (ps : List Piece) (d : Draws) :
    ∃ qs, Exchanged ps qs ∧ maskedText qs = (disguiseLexemes (lexemes before (maskedText ps)) d).1 := by
  induction hlen : ps.length using Nat.strong_induction_on generalizing before ps d with
  | _ n ih =>
    subst hlen
    cases ps with
    | nil => exact ⟨[], .nil, by rw [maskedText_nil, lexemes]; rfl⟩
    | cons q ps =>
      cases q with
      | taken k t =>
        have hlast : ∀ c, (placeholder k).getLast? = some c → isDecimal c = false := by
          rw [getLast?_placeholder]
          rintro c ⟨⟩
          rw [isDecimal_eq_isDigit (by decide)]
          rfl
        obtain ⟨qs, hqs, hmasked⟩ := ih _ (Nat.lt_succ_self _) (lastOr before (placeholder k)) ps d rfl
        refine ⟨.taken k t :: qs, .same _ hqs, ?_⟩
        rw [maskedText_taken, maskedText_taken,
          lexemes_word _ _ (fun c hc => isWord_of_mem_placeholder hc) hlast,
          disguiseLexemes_chars, hmasked]
      | stays c =>
        obtain ⟨as, bs, hps, has, hbs, hwhole⟩ := exists_pieces_of_lexeme before c ps
        have hne : as ≠ [] := by
          rintro rfl
          exact Lexeme.text_ne_nil before c (maskedText ps) has.symm
        have hshort : bs.length < (.stays c :: ps).length := by
          have := length_pos_of_ne_nil hne
          rw [hps, length_append]
          omega
        rw [maskedText_stays, lexemes, disguiseLexemes_cons, hps, ← hbs]
        generalize (lexeme before c (maskedText ps)).1 = l at has hwhole ⊢
        obtain ⟨qs, hqs, hmasked⟩ := ih _ hshort (lastOr before l.text) bs (disguiseLexeme l d).2 rfl
        rcases disguiseLexeme_cases l with ⟨w, rfl, hread⟩ | ⟨hkeep, -⟩
        · obtain ⟨hw, rfl⟩ := hwhole w rfl
          obtain ⟨i, hi⟩ := Option.ne_none_iff_exists'.1 hread
          have hdisguise : (disguiseLexeme (.whole w) d).1 = (Disguise.drawn d).1.apply i := by
            rw [disguiseLexeme, hi]
            rfl
          exact ⟨_, .swap hw (Disguise.drawn d).1 i hqs, by
            rw [maskedText_append, maskedText_map_stays, hmasked, hdisguise]⟩
        · exact ⟨as ++ qs, hqs.append as, by rw [maskedText_append, has, hmasked, hkeep]⟩

namespace Exchanged

variable {ps qs : List Piece}

theorem mem_taken_iff (h : Exchanged ps qs) : .taken k t ∈ qs ↔ .taken k t ∈ ps := by
  induction h with
  | nil => rfl
  | same q _ ih => rw [mem_cons, mem_cons, ih]
  | swap _ _ _ _ ih => simp [ih]

theorem head (h : Exchanged ps qs) (hqs : qs = .stays c :: rs) :
    (∃ rs', ps = .stays c :: rs') ∨ c = '(' := by
  cases h with
  | nil => cases hqs
  | same q _ =>
    cases hqs
    exact .inl ⟨_, rfl⟩
  | swap _ g i _ =>
    obtain ⟨u, hu⟩ := g.exists_cons i
    rw [hu] at hqs
    cases hqs
    exact .inr rfl

theorem map_takens (h : Exchanged ps qs) (p r : Nat) :
    (takens p qs).map Prod.snd = (takens r ps).map Prod.snd := by
  induction h generalizing p r with
  | nil => rfl
  | same q _ ih =>
    cases q with
    | stays c => exact ih _ _
    | taken k t => exact congrArg (t :: ·) (ih _ _)
  | swap _ _ _ _ ih =>
    rw [takens_map_stays_append, takens_map_stays_append]
    exact ih _ _

end Exchanged

theorem seated_map_stays_append (hne : u ≠ [])
    (hu : '\n' ∉ u) : Seated lineStart (u.map .stays ++ ps) ↔ Seated false ps := by
  induction u generalizing lineStart with
  | nil => exact absurd rfl hne
  | cons c u ih =>
    rw [mem_cons, not_or] at hu
    rw [map_cons, cons_append, Seated, beq_eq_false_iff_ne.2 (Ne.symm hu.1)]
    cases u with
    | nil => rfl
    | cons d u => exact ih (cons_ne_nil d u) hu.2

theorem Exchanged.seated (h : Exchanged ps qs) (hps : Seated lineStart ps) :
    Seated lineStart qs := by
  induction h generalizing lineStart with
  | nil => trivial
  | @same ps qs q h ih =>
    cases q with
    | stays c => exact ih hps
    | taken k t =>
      obtain ⟨hline, hbehind, hps⟩ := hps
      refine ⟨hline, hbehind.imp_right fun hword c rs hqs => ?_, ih hps⟩
      rcases h.head hqs with ⟨rs', hrs⟩ | rfl
      · exact hword c rs' hrs
      · exact isWord_of_symbol (by decide) rfl
  | @swap ps qs w hw g i h ih =>
    have hplain : '\n' ∉ w := fun hmem => absurd (hw.2 '\n' hmem)
      (by rw [isDecimal_eq_isDigit (by decide)]; decide)
    have hdisguise : '\n' ∉ g.apply i := fun hmem => by
      rcases Disguise.mem_apply _ _ _ hmem with hc | hc
      · cases hc
      · exact absurd hc (by decide)
    rw [seated_map_stays_append hw.1 hplain] at hps
    have hne : g.apply i ≠ [] := by
      obtain ⟨u, hu⟩ := g.exists_cons i
      rw [hu]
      exact cons_ne_nil _ _
    rw [seated_map_stays_append hne hdisguise]
    exact ih hps

section Pattern

variable {p : Chars}

theorem prefix_append_of_prefix {v r r' : Chars} (h : p <+: v ++ r)
    (hr : ∀ q, q <:+ p → q <+: r → q <+: r') : p <+: v ++ r' := by
  obtain ⟨t, ht⟩ := h
  rcases append_eq_append_iff.1 ht with ⟨x, rfl, -⟩ | ⟨x, rfl, hx⟩
  · exact (prefix_append p x).trans (prefix_append _ r')
  · exact (prefix_append_right_inj v).2 (hr x (suffix_append v x) ⟨t, hx.symm⟩)

/-- No disguise has a character of the pattern. -/
def Unlike (p : Chars) : Prop :=
  ∀ c ∈ p, c.isDigit = false ∧ c ∉ " +-*()".toList

theorem Unlike.not_mem (h : Unlike p) (hc : c ∈ p) : c ∉ g.apply i := by
  intro hmem
  obtain ⟨hdigit, hsign⟩ := h c hc
  rcases Disguise.mem_apply _ _ _ hmem with hd | hs
  · rw [hdigit] at hd
    cases hd
  · exact hsign hs

variable {ps qs : List Piece}

theorem Exchanged.prefix_sourceText (h : Exchanged ps qs) (hp : Unlike p) (hpre : p <+: sourceText qs) :
    p <+: sourceText ps := by
  induction h generalizing p with
  | nil => exact hpre
  | same q _ ih => exact prefix_append_of_prefix hpre fun r hr => ih fun c hc => hp c (hr.subset hc)
  | swap _ g i _ _ =>
    cases p with
    | nil => exact nil_prefix
    | cons c p =>
      obtain ⟨u, hu⟩ := g.exists_cons i
      have hmem : c ∈ g.apply i := by
        rw [sourceText_append, sourceText_map_stays, hu, cons_append, cons_prefix_cons] at hpre
        rw [hu, hpre.1]
        exact mem_cons_self
      exact absurd hmem (hp.not_mem mem_cons_self)

theorem Exchanged.infix_sourceText (h : Exchanged ps qs) (hp : Unlike p) (hne : p ≠ [])
    (hin : p <:+: sourceText qs) :
    p <:+: sourceText ps := by
  induction h with
  | nil => exact hin
  | @same ps qs q h ih =>
    rcases infix_append_cases hin with ⟨u, w, hq, -, hpre⟩ | hin
    · have hstart := prefix_append_of_prefix hpre fun r hr hrq =>
        h.prefix_sourceText (fun c hc => hp c (hr.subset hc)) hrq
      obtain ⟨t, ht⟩ := hstart
      refine ⟨u, t, ?_⟩
      change _ = q.text ++ sourceText ps
      rw [hq, append_assoc, ht, append_assoc]
    · exact (ih hin).trans (suffix_append q.text _).isInfix
  | @swap ps qs w _ g i _ ih =>
    rw [sourceText_append, sourceText_map_stays] at hin ⊢
    rcases infix_append_cases hin with ⟨u, v, hg, hv, hpre⟩ | hin
    · obtain ⟨c, p, rfl⟩ := exists_cons_of_ne_nil hne
      obtain ⟨d, v, rfl⟩ := exists_cons_of_ne_nil hv
      obtain ⟨rfl, -⟩ := cons_prefix_cons.1 hpre
      exact absurd (hg ▸ by simp) (hp.not_mem (g := g) (i := i) mem_cons_self)
    · exact (ih hin).trans (suffix_append w _).isInfix

theorem Exchanged.clean (h : Exchanged ps qs) (hps : Clean (sourceText ps)) : Clean (sourceText qs) where
  front hin := hps.front (h.infix_sourceText (forall_mem_of_all rfl) (by decide) hin)
  word hin := hps.word (h.infix_sourceText (forall_mem_of_all rfl) (by decide) hin)
  line hin := hps.line (h.infix_sourceText (forall_mem_of_all rfl) (by decide) hin)

end Pattern

/-! ## What the rounds leave -/

section Rounds

variable {find? : Chars → Option Chars} {n : Nat} {lineStart : Bool} {ps qs : List Piece}
  {kept : List Chars}

namespace Masks

/-- A stretch that a placeholder stands for behind the round was there before, or the
round has found it. -/
theorem exists_kept (h : Masks find? n lineStart ps qs kept) (ht : .taken k t ∈ qs) :
    .taken k t ∈ ps ∨ ∃ i cs rest, k = n + i ∧ kept[i]? = some (maskedText cs) ∧ t = sourceText cs ∧
      cs ++ rest <:+ ps ∧ find? (maskedText cs ++ maskedText rest) = some (maskedText rest) := by
  induction h with
  | nil => cases ht
  | @stays n lineStart c ps qs kept _ _ ih =>
    rcases mem_cons.1 ht with heq | ht
    · cases heq
    rcases ih ht with ht | ⟨i, cs, rest, hk, hi, htext, hsuffix, hfound⟩
    · exact .inl (.tail _ ht)
    · exact .inr ⟨i, cs, rest, hk, hi, htext, hsuffix.trans (suffix_cons _ _), hfound⟩
  | @passes n lineStart j u ps qs kept _ ih =>
    rcases mem_cons.1 ht with heq | ht
    · cases heq
      exact .inl mem_cons_self
    rcases ih ht with ht | ⟨i, cs, rest, hk, hi, htext, hsuffix, hfound⟩
    · exact .inl (.tail _ ht)
    · exact .inr ⟨i, cs, rest, hk, hi, htext, hsuffix.trans (suffix_cons _ _), hfound⟩
  | @takes n bs ds qs kept hfound _ _ ih =>
    rcases mem_cons.1 ht with heq | ht
    · cases heq
      exact .inr ⟨0, bs, ds, rfl, rfl, rfl, suffix_refl _, hfound⟩
    rcases ih ht with ht | ⟨i, cs, rest, rfl, hi, htext, hsuffix, hfound⟩
    · exact .inl (mem_append_right bs ht)
    · exact .inr ⟨i + 1, cs, rest, by omega, hi, htext, hsuffix.trans (suffix_append _ _), hfound⟩

theorem exists_taken_of_kept (h : Masks find? n lineStart ps qs kept) {i : Nat}
    (hd : kept[i]? = some d) : ∃ t, .taken (n + i) t ∈ qs := by
  induction h generalizing i with
  | nil => cases hd
  | stays _ _ ih =>
    obtain ⟨t, ht⟩ := ih hd
    exact ⟨t, .tail _ ht⟩
  | passes _ ih =>
    obtain ⟨t, ht⟩ := ih hd
    exact ⟨t, .tail _ ht⟩
  | takes _ _ _ ih =>
    cases i with
    | zero => exact ⟨_, mem_cons_self⟩
    | succ i =>
      obtain ⟨t, ht⟩ := ih hd
      exact ⟨t, .tail _ (by rwa [Nat.add_right_comm, Nat.add_assoc] at ht)⟩

theorem exists_stays (h : Masks find? n lineStart ps qs kept) (hqs : qs = .stays c :: rs) :
    ∃ rs', ps = .stays c :: rs' := by
  cases h with
  | nil => cases hqs
  | stays _ _ =>
    cases hqs
    exact ⟨_, rfl⟩
  | passes _ => cases hqs
  | takes _ _ _ => cases hqs

theorem seated_licence? {s : Chars} (h : Masks licence? n lineStart (s.map .stays) qs kept) :
    Seated lineStart qs := by
  generalize hX : s.map Piece.stays = X at h
  induction h generalizing s with
  | nil => trivial
  | stays _ _ ih =>
    obtain ⟨c, t, rfl, hc, rfl⟩ := map_eq_cons_iff.1 hX
    cases hc
    exact ih rfl
  | passes _ => exact absurd (hX ▸ mem_cons_self) Masked.taken_not_mem_stays
  | takes hfound _ h ih =>
    obtain ⟨u, r, rfl, rfl, rfl⟩ := map_eq_append_iff.1 hX
    refine ⟨rfl, .inr fun c rs hqs => ?_, ih rfl⟩
    rw [maskedText_map_stays, maskedText_map_stays] at hfound
    obtain ⟨t, -, -, hend⟩ := exists_isLicence hfound
    obtain ⟨rs', hrs⟩ := h.exists_stays hqs
    obtain ⟨d, r, rfl, hd, -⟩ := map_eq_cons_iff.1 hrs
    cases hd
    rcases hend c rfl with rfl | rfl <;> exact isWord_of_symbol (by decide) rfl

end Masks

theorem Seated.left (h : Seated lineStart (as ++ bs)) : Seated lineStart as := by
  induction as generalizing lineStart with
  | nil => trivial
  | cons q as ih =>
    cases q with
    | stays c => exact ih h
    | taken k t =>
      obtain ⟨hline, hbehind, h⟩ := h
      exact ⟨hline, hbehind.imp_right fun hword c rs has => hword c (rs ++ bs) (by rw [has]; rfl), ih h⟩

theorem Seated.of_suffix (h : Seated lineStart ps) (hsuffix : qs <:+ ps) : ∃ b, Seated b qs := by
  obtain ⟨as, rfl⟩ := hsuffix
  induction as generalizing lineStart with
  | nil => exact ⟨lineStart, h⟩
  | cons q as ih =>
    obtain ⟨b, hb⟩ := h.tail
    exact ih hb

theorem Seated.behind (h : Seated lineStart (as ++ .stays c :: bs)) : Seated (c == '\n') bs := by
  obtain ⟨b, hb⟩ := h.of_suffix (suffix_append as _)
  exact hb

theorem Masks.seated_version? (h : Masks version? n lineStart ps qs kept) (hps : Seated lineStart ps) :
    Seated lineStart qs := by
  induction h with
  | nil => trivial
  | stays _ _ ih => exact ih hps
  | passes h ih =>
    obtain ⟨hline, hbehind, hps⟩ := hps
    refine ⟨hline, hbehind.imp_right fun hword c rs hqs => ?_, ih hps⟩
    obtain ⟨rs', hrs⟩ := h.exists_stays hqs
    exact hword c rs' hrs
  | takes hfound _ _ ih =>
    obtain ⟨ms, rfl, -⟩ := exists_eq_concat_of_version? hfound
    rw [append_assoc, singleton_append] at hps
    exact ⟨rfl, .inl (by simp), ih hps.behind⟩

end Rounds

theorem infix_sourceText_of_mem (h : .taken k t ∈ ps) :
    t <:+: sourceText ps := by
  obtain ⟨as, bs, rfl⟩ := append_of_mem h
  exact ⟨sourceText as, sourceText bs, by simp⟩

/-- The directive with the number `k` that was taken out of a text. -/
def heldOf (s : Chars) (k : Nat) : Chars :=
  (maskDirectives s).2.getD k []

theorem heldOf_eq {s : Chars} (h : (maskDirectives s).2[k]? = some d) : heldOf s k = d := by
  rw [heldOf, getD_eq_getElem?_getD, h]
  rfl

namespace Masked

variable {s : Chars} {ps qs : List Piece} {k : Nat} {t : Chars}

theorem getElem?_licence (h : Masked s ps qs) (ht : .taken k t ∈ ps) :
    IsLicence t ∧ (maskWith licence? 0 true s).2[k]? = some t := by
  rcases h.licences.exists_kept ht with hstays | ⟨i, cs, rest, rfl, hi, rfl, ⟨as, hps⟩, hfound⟩
  · exact absurd hstays taken_not_mem_stays
  · obtain ⟨-, v, -, -, hv⟩ := map_eq_append_iff.1 hps.symm
    obtain ⟨u, r, -, rfl, rfl⟩ := map_eq_append_iff.1 hv
    rw [maskedText_map_stays] at hi hfound
    rw [maskedText_map_stays] at hfound
    rw [sourceText_map_stays, Nat.zero_add]
    obtain ⟨t, heq, ht, -⟩ := exists_isLicence hfound
    obtain rfl := append_cancel_right heq
    exact ⟨ht, hi⟩

theorem heldOf_licence (h : Masked s ps qs) (ht : .taken k t ∈ ps) : heldOf s k = t := by
  obtain ⟨-, hget⟩ := h.getElem?_licence ht
  refine heldOf_eq ?_
  rw [maskDirectives, List.getElem?_append_left (List.getElem?_eq_some_iff.1 hget).1, hget]

theorem lt_of_licence (h : Masked s ps qs) (ht : .taken k t ∈ ps) : k < (maskWith licence? 0 true s).2.length :=
  (List.getElem?_eq_some_iff.1 (h.getElem?_licence ht).2).1

/-- A stretch that a placeholder stands for is a licence comment, or a version
directive that is held with the placeholders in it. -/
theorem taken_cases (h : Masked s ps qs) (ht : .taken k t ∈ qs) : .taken k t ∈ ps ∨
    (maskWith licence? 0 true s).2.length ≤ k ∧
    ∃ ms rest, (maskDirectives s).2[k]? = some (maskedText (ms ++ [.stays ';'])) ∧
      t = sourceText (ms ++ [.stays ';']) ∧ (ms ++ [.stays ';']) ++ rest <:+ ps := by
  rcases h.versions.exists_kept ht with hps | ⟨i, cs, rest, rfl, hi, rfl, hsuffix, hfound⟩
  · exact .inl hps
  · obtain ⟨ms, rfl, -⟩ := Masks.exists_eq_concat_of_version? hfound
    refine .inr ⟨Nat.le_add_right _ _, ms, rest, ?_, rfl, hsuffix⟩
    rw [maskDirectives, getElem?_append_right (Nat.le_add_right _ _), Nat.add_sub_cancel_left]
    exact hi

theorem seated (h : Masked s ps qs) : Seated true ps ∧ Seated true qs :=
  ⟨h.licences.seated_licence?, h.versions.seated_version? h.licences.seated_licence?⟩

theorem source_ps (h : Masked s ps qs) : sourceText ps = s := by
  rw [h.licences.sourceText_eq, sourceText_map_stays]

/-- A directive that is held has no placeholder of a later number in it. -/
theorem heldOf_spec (h : Masked s ps qs) (hclean : Clean s) (ht : .taken k t ∈ qs) :
    k < (maskDirectives s).2.length ∧ (heldOf s k).getLast? = t.getLast? ∧
      ∀ m, k < m → ¬placeholder m <:+: heldOf s k := by
  rcases h.taken_cases ht with hps | ⟨hle, ms, rest, hget, rfl, hsuffix⟩
  · have hlt := h.lt_of_licence hps
    have htext : t <:+: s := h.source_ps ▸ infix_sourceText_of_mem hps
    rw [h.heldOf_licence hps]
    refine ⟨?_, rfl, fun m _ => (hclean.of_infix htext).not_placeholder m⟩
    rw [maskDirectives, length_append]
    omega
  · refine ⟨(List.getElem?_eq_some_iff.1 hget).1, ?_, fun m hm hin => ?_⟩
    · rw [heldOf_eq hget]
      simp
    · obtain ⟨as, hps⟩ := hsuffix
      obtain ⟨b, hseated⟩ := h.seated.1.of_suffix ⟨as, hps⟩
      have htext : sourceText (ms ++ [.stays ';']) <:+: s :=
        ⟨sourceText as, sourceText rest, by rw [← h.source_ps, ← hps]; simp⟩
      rw [heldOf_eq hget, ← rendered_zero (heldOf s)] at hin
      rcases hseated.left.infix_rendered (hclean.of_infix htext)
        (fun _ _ _ hk => absurd hk (Nat.not_lt_zero _)) hin with
        ⟨u, hu, -⟩ | ⟨_, _, _, hk, -⟩
      · have hmem : .taken m u ∈ ps := hps ▸ mem_append_right as (mem_append_left rest hu)
        have := h.lt_of_licence hmem
        omega
      · exact absurd hk (Nat.not_lt_zero _)

end Masked

/-! ## Directives behind the integer pass -/

/-- The text behind the integer pass is made of the characters that stay, some
numbers exchanged, and of the directives in their places. -/
theorem exists_rendered {s : Chars} (hclean : Clean s) (d : Draws) :
    ∃ ps qs rs, Masked s ps qs ∧ Exchanged qs rs ∧
    Seated true rs ∧ Clean (sourceText rs) ∧
    (disguiseIntegers s d).1 = rendered (heldOf s) (maskDirectives s).2.length rs := by
  obtain ⟨ps, qs, h⟩ := exists_masked s
  obtain ⟨rs, hrs, hmasked⟩ := exists_exchanged none qs d
  have hsource : Clean (sourceText qs) := by rwa [h.source]
  refine ⟨ps, qs, rs, h, hrs, hrs.seated h.seated.2, hrs.clean hsource, ?_⟩
  have hheld (k : Nat) (t : Chars) (ht : .taken k t ∈ rs) := h.heldOf_spec hclean (hrs.mem_taken_iff.1 ht)
  have hunmask : unmask 0 (rendered (heldOf s) 0 rs) (maskDirectives s).2 =
      rendered (heldOf s) (0 + (maskDirectives s).2.length) rs :=
    (hrs.seated h.seated.2).unmask_rendered (hrs.clean hsource) (fun k t ht => (hheld k t ht).2.1)
      (fun k t ht => (hheld k t ht).2.2) fun i d hd => by rw [Nat.zero_add]; exact heldOf_eq hd
  rw [rendered_zero, hmasked, h.masked, Nat.zero_add] at hunmask
  exact hunmask

theorem infix_rendered_of_mem
    (h : .taken k t ∈ ps) (hk : k < n) : held k <:+: rendered held n ps := by
  obtain ⟨as, bs, rfl⟩ := append_of_mem h
  refine ⟨rendered held n as, rendered held n bs, ?_⟩
  simp [rendered, Piece.shown, hk]

theorem occurInOrder_rendered {p : Nat}
    (h : ∀ k t, .taken k t ∈ ps → k < n ∧ held k = t) :
    OccurInOrder ((takens p ps).map Prod.snd) (rendered held n ps) := by
  induction ps generalizing p with
  | nil => trivial
  | cons q ps ih =>
    have hrest := fun k t ht => h k t (.tail _ ht)
    cases q with
    | stays c => exact (ih hrest).append [c]
    | taken k t =>
      obtain ⟨hk, hheld⟩ := h k t mem_cons_self
      refine ⟨[], rendered held n ps, ?_, ih hrest⟩
      rw [rendered_cons, Piece.shown, if_pos hk, hheld]
      rfl

theorem pairwise_takens (h : ∀ k t, .taken k t ∈ ps → t ≠ []) (p : Nat) :
    (takens p ps).Pairwise fun x y => x.1 < y.1 := by
  induction ps generalizing p with
  | nil => exact .nil
  | cons q ps ih =>
    have hrest := ih fun k t ht => h k t (.tail _ ht)
    cases q with
    | stays c => exact hrest _
    | taken k t =>
      refine .cons (fun x hx => ?_) (hrest _)
      have hle := le_of_mem_takens hx
      have hpos := length_pos_of_ne_nil (h k t mem_cons_self)
      dsimp only
      omega

/-- Stretches in the order of their places, picked from others in this order. -/
theorem sublist_of_places {xs ys : List (Nat × Chars)} (hxs : xs.Pairwise fun x y => x.1 < y.1)
    (hys : ys.Pairwise fun x y => x.1 < y.1) (h : xs ⊆ ys) : xs.Sublist ys := by
  have hirrefl : Std.Irrefl fun x y : Nat × Chars => x.1 < y.1 := ⟨fun x => Nat.lt_irrefl x.1⟩
  have hasymm : Std.Antisymm fun x y : Nat × Chars => x.1 < y.1 :=
    ⟨fun x y hxy hyx => absurd hxy (Nat.lt_asymm hyx)⟩
  exact sublist_of_subperm_of_pairwise (subperm_of_subset hxs.nodup h) hxs hys

namespace Masked

variable {s : Chars} {ps qs : List Piece} {k : Nat} {t : Chars}

theorem ne_nil_of_taken (h : Masked s ps qs) (ht : .taken k t ∈ qs) : t ≠ [] := by
  rcases h.taken_cases ht with hps | ⟨-, ms, rest, -, rfl, -⟩
  · obtain ⟨c, hc, -⟩ := (h.getElem?_licence hps).1.getLast?
    rintro rfl
    cases hc
  · simp

theorem infix_of_licence (h : Masked s ps qs) (hd : d ∈ (maskWith licence? 0 true s).2) : d <:+: s := by
  obtain ⟨i, hi⟩ := mem_iff_getElem?.1 hd
  obtain ⟨t, ht⟩ := h.licences.exists_taken_of_kept hi
  have hget := (h.getElem?_licence ht).2
  rw [Nat.zero_add, hi, Option.some.injEq] at hget
  rw [hget, ← h.source_ps]
  exact infix_sourceText_of_mem ht

/-- A directive that is held with a placeholder in it has its own place in the text. -/
theorem exists_taken_of_placeholder (h : Masked s ps qs) (hclean : Clean s)
    (hd : d ∈ (maskDirectives s).2) {m : Nat} (hin : placeholder m <:+: d) :
    ∃ k t, .taken k t ∈ qs ∧ heldOf s k = d := by
  rcases mem_append.1 hd with hd | hd
  · exact absurd hin ((hclean.of_infix (h.infix_of_licence hd)).not_placeholder m)
  · obtain ⟨i, hi⟩ := mem_iff_getElem?.1 hd
    obtain ⟨t, ht⟩ := h.versions.exists_taken_of_kept hi
    refine ⟨_, t, ht, heldOf_eq ?_⟩
    rw [maskDirectives, getElem?_append_right (Nat.le_add_right _ _), Nat.add_sub_cancel_left]
    exact hi

/-- If no directive was taken out inside of another, each is held as it stands in the
text. -/
theorem heldOf_eq_of_not_placeholder (h : Masked s ps qs)
    (hkept : ∀ d ∈ (maskDirectives s).2, ∀ k, ¬placeholder k <:+: d)
    (ht : .taken k t ∈ qs) : heldOf s k = t := by
  rcases h.taken_cases ht with hps | ⟨-, ms, rest, hget, rfl, -⟩
  · exact h.heldOf_licence hps
  · have hstays : ∀ q ∈ ms ++ [.stays ';'], q.masked = q.text := by
      intro q hq
      cases q with
      | stays c => rfl
      | taken j u =>
        obtain ⟨as, bs, hcut⟩ := append_of_mem hq
        refine absurd ⟨maskedText as, maskedText bs, ?_⟩ (hkept _ (mem_of_getElem? hget) j)
        rw [hcut]
        simp
    rw [heldOf_eq hget, maskedText, sourceText, flatMap_congr hstays]

/-- Where no licence comment starts in a version directive, no directive was taken out
inside of another, and what a scan of the text finds was taken out. -/
theorem mem_takens (h : Masked s ps qs) (hclean : Clean s)
    (hapart : ∀ v ∈ versionsOf s, ∀ l ∈ licencesOf s, ¬StartsIn l v) :
    (∀ d ∈ (maskDirectives s).2, ∀ k, ¬placeholder k <:+: d) ∧
      ∀ x, x ∈ licencesOf s ∨ x ∈ versionsOf s → x ∈ takens 0 qs := by
  have hlicences : licencesOf s = takens 0 ps := h.licences.matchesOf_eq
  rw [hlicences, versionsOf, ← h.source_ps] at hapart
  obtain ⟨hmem, hkept⟩ := h.versions.mem_takens (fun k t ht => (h.getElem?_licence ht).1) hapart
  rw [h.source_ps] at hmem hkept
  refine ⟨fun d hd => ?_, fun x hx => hmem x (by rwa [or_comm, ← hlicences])⟩
  have htext : d <:+: s := by
    rcases mem_append.1 hd with hd | hd
    · exact h.infix_of_licence hd
    · exact hkept d hd
  exact fun k => (hclean.of_infix htext).not_placeholder k

end Masked

/-- The integer pass leaves a placeholder exactly if a directive was held with one in
it. If no licence comment starts in a version directive of the text, then it leaves
none, and the directives that are found in the text stand in the result as they are and
in the same order. The text itself is to have no part of a placeholder. -/
theorem disguiseIntegers_restores_directives {s : Chars} (hclean : Clean s) (d : Draws) :
    ((∃ k, placeholder k <:+: (disguiseIntegers s d).1) ↔
      ∃ t ∈ (maskDirectives s).2, ∃ k, placeholder k <:+: t) ∧
    ((∀ v ∈ versionsOf s, ∀ l ∈ licencesOf s, ¬StartsIn l v) →
      (∀ k, ¬placeholder k <:+: (disguiseIntegers s d).1) ∧
      ∀ ms : List (Nat × Chars), ms.Pairwise (fun x y => x.1 < y.1) →
        (∀ x ∈ ms, x ∈ licencesOf s ∨ x ∈ versionsOf s) →
        OccurInOrder (ms.map Prod.snd) (disguiseIntegers s d).1) := by
  obtain ⟨ps, qs, rs, h, hrs, hseated, hsource, hout⟩ := exists_rendered hclean d
  have hheld (k : Nat) (t : Chars) (ht : .taken k t ∈ rs) := h.heldOf_spec hclean (hrs.mem_taken_iff.1 ht)
  have hleft : (∃ k, placeholder k <:+: (disguiseIntegers s d).1) ↔
      ∃ t ∈ (maskDirectives s).2, ∃ k, placeholder k <:+: t := by
    rw [hout]
    constructor
    · rintro ⟨m, hin⟩
      rcases hseated.infix_rendered hsource (fun k t ht _ => (hheld k t ht).2.1) hin with
        ⟨t, ht, hle⟩ | ⟨k, t, -, hk, hin⟩
      · exact absurd (hheld m t ht).1 (Nat.not_lt.2 hle)
      · have hget := List.getElem?_eq_getElem hk
        exact ⟨_, List.mem_of_getElem? hget, m, heldOf_eq hget ▸ hin⟩
    · rintro ⟨t, ht, m, hin⟩
      obtain ⟨k, u, hu, rfl⟩ := h.exists_taken_of_placeholder hclean ht hin
      have hu' := hrs.mem_taken_iff.2 hu
      exact ⟨m, hin.trans (infix_rendered_of_mem hu' (hheld k u hu').1)⟩
  refine ⟨hleft, fun hapart => ?_⟩
  obtain ⟨hkept, hmem⟩ := h.mem_takens hclean hapart
  refine ⟨fun k hin => ?_, fun ms hms hfound => ?_⟩
  · obtain ⟨t, ht, m, hm⟩ := hleft.1 ⟨k, hin⟩
    exact hkept t ht m hm
  · have hall : OccurInOrder ((takens 0 qs).map Prod.snd) (disguiseIntegers s d).1 := by
      rw [hout, ← hrs.map_takens 0 0]
      refine occurInOrder_rendered fun k t ht => ⟨(hheld k t ht).1, ?_⟩
      exact h.heldOf_eq_of_not_placeholder hkept (hrs.mem_taken_iff.1 ht)
    have hsorted := pairwise_takens (fun k t ht => h.ne_nil_of_taken ht) 0
    exact hall.of_sublist ((sublist_of_places hms hsorted fun x hx => hmem x (hfound x hx)).map Prod.snd)

def licensedContract : Chars :=
  "// SPDX-License-Identifier: MIT\n\npragma solidity ^0.8.0;uint256 a=7;\npragma solidity >=0.7 ;".toList

/-- A comment and two directives, one of them with a number behind it. -/
theorem licensedContract_keeps_directives : Clean licensedContract ∧
    (∀ k, ¬placeholder k <:+: (disguiseIntegers licensedContract (.stream [] 0)).1) ∧
    OccurInOrder ["// SPDX-License-Identifier: MIT".toList, "\npragma solidity ^0.8.0;".toList,
      "pragma solidity >=0.7 ;".toList] (disguiseIntegers licensedContract (.stream [] 0)).1 := by
  have hclean : Clean licensedContract := .of_not_mem (by decide)
  have hlicences : licencesOf licensedContract =
      [(0, "// SPDX-License-Identifier: MIT".toList)] := by decide +kernel
  have hversions : versionsOf licensedContract =
      [(32, "\npragma solidity ^0.8.0;".toList), (69, "pragma solidity >=0.7 ;".toList)] := by decide +kernel
  obtain ⟨-, hrestored⟩ := disguiseIntegers_restores_directives hclean (.stream [] 0)
  rw [hlicences, hversions] at hrestored
  obtain ⟨hnone, horder⟩ := hrestored (by decide)
  exact ⟨hclean, hnone, horder [(0, _), (32, _), (69, _)] (by decide) (by decide)⟩

/-- A licence comment in a version directive comes back as its placeholder, and a
directive is lost if what follows it reads like the end of a placeholder. -/
theorem nested_directive_leaves_placeholder :
    ¬"__PRAGMA_".toList <:+: "pragma solidity ^0.8.0\n// SPDX-License-Identifier: MIT\n;".toList ∧
      (disguiseIntegers "pragma solidity ^0.8.0\n// SPDX-License-Identifier: MIT\n;".toList (.stream [] 0)).1 =
        "pragma solidity ^0.8.0\n__PRAGMA_0__\n;".toList ∧
      ¬"__PRAGMA_".toList <:+: "pragma solidity 8;PRAGMA_0__\n// SPDX-License-Identifier: X".toList ∧
      (disguiseIntegers "pragma solidity 8;PRAGMA_0__\n// SPDX-License-Identifier: X".toList (.stream [] 0)).1 =
        "__PRAGMA_1// SPDX-License-Identifier: X\n// SPDX-License-Identifier: X".toList := by
  decide +kernel

end Obscura.Literal
