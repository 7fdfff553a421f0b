import Obscura.Proofs.Literals
import Obscura.Proofs.Matching

/-
  Placeholders that are replaced one after the other. A placeholder occurs where its
  directive was taken out and nowhere else, as long as the text has no part of a
  placeholder itself and the pieces are seated (`Seated.infix_rendered`). So each
  step puts one directive into its place (`Seated.replaceAll_rendered`), and the
  whole run all of them (`Seated.unmask_rendered`).
-/

namespace Obscura.Literal

open Text Layout Number Expression List

variable {p r s u w : Chars} {q : Piece}

/-! ## Placeholders in a text -/

section Placeholder

variable {m k : Nat}

theorem eq_of_placeholder_prefix (h : placeholder m <+: placeholder k ++ r) : m = k := by
  obtain ⟨t, ht⟩ := h
  have hdigits : digits m ++ ('_' :: '_' :: t) = digits k ++ ('_' :: '_' :: r) := by
    simpa [placeholder] using ht
  have hdecimal (n : Nat) : ∀ c ∈ digits n, isDecimal c = true := fun c hc =>
    isDecimal_of_isDigit (isDigit_digits n c hc)
  have hline (x : Chars) : ∀ c, ('_' :: x).head? = some c → isDecimal c = false := by
    rintro c ⟨⟩
    rw [isDecimal_eq_isDigit (by decide)]
    rfl
  obtain ⟨hsame, -⟩ := eq_of_digits (hdecimal m) (hline _) (hdecimal k) (hline _) hdigits
  rw [← numeral_digits m, hsame, numeral_digits]

/-- A placeholder that starts inside of another one goes on with the same letters
behind it. -/
theorem prefix_of_placeholder (hk : placeholder k = u ++ w) (hw : w ≠ [])
    (h : placeholder m <+: w ++ r) :
    u = [] ∧ m = k ∨ "PRAGMA_".toList <+: r ∨ "_PRAGMA_".toList <+: r := by
  obtain ⟨x, hx⟩ : ∃ x, placeholder m = '_' :: '_' :: ("PRAGMA_".toList ++ x) := ⟨_, rfl⟩
  rcases w with _ | ⟨a, _ | ⟨b, _ | ⟨c, w⟩⟩⟩
  · exact absurd rfl hw
  · rw [hx, singleton_append, cons_prefix_cons] at h
    exact .inr (.inr ((prefix_append ('_' :: "PRAGMA_".toList) x).trans h.2))
  · rw [hx, cons_append, singleton_append, cons_prefix_cons, cons_prefix_cons] at h
    exact .inr (.inl ((prefix_append _ x).trans h.2.2))
  · -- the word starts only once in a placeholder, so both start together
    have hfirst : '_' = a ∧ '_' = b ∧ 'P' = c := by
      rw [hx, cons_append, cons_append, cons_append, cons_prefix_cons, cons_prefix_cons] at h
      exact ⟨h.1, h.2.1, (cons_prefix_cons.1 h.2.2).1⟩
    obtain ⟨rfl, rfl, rfl⟩ := hfirst
    have hnil : u = [] := by
      have hcount : (placeholder k).count 'P' = 1 := by
        have hdigits : (digits k).count 'P' = 0 :=
          count_eq_zero.2 fun hmem => absurd (isDigit_digits k 'P' hmem) (by decide)
        simp [placeholder, count_append, hdigits]
      have hout : 'P' ∉ u := by
        rw [hk, count_append] at hcount
        simp at hcount
        exact count_eq_zero.1 (by omega)
      have hcut : (u ++ ['_', '_']) ++ 'P' :: w =
          ['_', '_'] ++ 'P' :: ("RAGMA_".toList ++ (digits k ++ "__".toList)) := by
        simpa [placeholder] using hk.symm
      exact append_left_eq_self.1 (eq_of_append_cons (by simp [hout]) (by decide) hcut)
    subst hnil
    rw [nil_append] at hk
    rw [← hk] at h
    exact .inl ⟨rfl, eq_of_placeholder_prefix h⟩

end Placeholder

theorem infix_append_cases {α : Type} {p v r : List α} (h : p <:+: v ++ r) :
    (∃ u w, v = u ++ w ∧ w ≠ [] ∧ p <+: w ++ r) ∨ p <:+: r := by
  obtain ⟨a, b, hab⟩ := h
  rw [append_assoc] at hab
  rcases append_eq_append_iff.1 hab with ⟨w, rfl, hw⟩ | ⟨w, rfl, hr⟩
  · rcases eq_nil_or_concat w with rfl | ⟨w', x, rfl⟩
    · exact .inr ⟨[], b, by simpa using hw⟩
    · exact .inl ⟨a, _, rfl, by simp, b, hw⟩
  · exact .inr ⟨w, b, by rw [hr, append_assoc]⟩

theorem replaceAll_skip {x v : Chars} (hp : p ≠ []) (h : ∀ u w, v = u ++ w → w ≠ [] → ¬p <+: w ++ r) :
    replaceAll p x hp (v ++ r) = v ++ replaceAll p x hp r := by
  induction v with
  | nil => rfl
  | cons c v ih =>
    have hfirst := h [] (c :: v) rfl (cons_ne_nil c v)
    rw [cons_append] at hfirst ⊢
    rw [replaceAll_cons hp hfirst, ih fun u w hv hw => h (c :: u) w (by rw [hv]; rfl) hw]
    rfl

/-- The text has no part of a placeholder: neither its front nor, behind a
semicolon, what goes on in one that starts at the end of another. -/
structure Clean (s : Chars) : Prop where
  front : ¬"__PRAGMA_".toList <:+: s
  word : ¬";PRAGMA_".toList <:+: s
  line : ¬";_PRAGMA_".toList <:+: s

theorem Clean.of_infix {t : Chars} (h : Clean s) (ht : t <:+: s) : Clean t where
  front hin := h.front (hin.trans ht)
  word hin := h.word (hin.trans ht)
  line hin := h.line (hin.trans ht)

theorem Clean.of_not_mem (h : '_' ∉ s) : Clean s where
  front hin := h (hin.subset (by decide))
  word hin := h (hin.subset (by decide))
  line hin := h (hin.subset (by decide))

theorem Clean.not_placeholder (h : Clean s) (k : Nat) : ¬placeholder k <:+: s := by
  intro hin
  have hfront : "__PRAGMA_".toList <+: placeholder k := ⟨digits k ++ "__".toList, by simp [placeholder]⟩
  exact h.front (hfront.isInfix.trans hin)

/-! ## Directives that are back in their places -/

/-- The pieces stand so that placeholders start lines, and behind one that ends
with no semicolon no word goes on; `lineStart` says that they start a line. -/
def Seated : Bool → List Piece → Prop
  | _, [] => True
  | _, .stays c :: ps => Seated (c == '\n') ps
  | lineStart, .taken _ t :: ps => lineStart = true ∧
      (t.getLast? = some ';' ∨ ∀ c qs, ps = .stays c :: qs → isWord c = false) ∧ Seated false ps

/-- What a piece looks like when the first `n` directives are back. -/
def Piece.shown (held : Nat → Chars) (n : Nat) : Piece → Chars
  | .stays c => [c]
  | .taken k _ => if k < n then held k else placeholder k

/-- The text with the first `n` directives back in their places. -/
def rendered (held : Nat → Chars) (n : Nat) (ps : List Piece) : Chars :=
  ps.flatMap (Piece.shown held n)

section Rendered

variable {held : Nat → Chars} {n m k : Nat} {lineStart : Bool} {ps : List Piece}

@[simp] theorem rendered_nil : rendered held n [] = [] := rfl

@[simp] theorem rendered_cons : rendered held n (q :: ps) = q.shown held n ++ rendered held n ps := rfl

theorem rendered_zero (held : Nat → Chars) (ps : List Piece) : rendered held 0 ps = maskedText ps := by
  refine congrArg (flatMap · ps) (funext fun q => ?_)
  cases q <;> rfl

theorem Seated.tail (h : Seated lineStart (q :: ps)) : ∃ b, Seated b ps := by
  cases q with
  | stays c => exact ⟨_, h⟩
  | taken k t => exact ⟨_, h.2.2⟩

/-- Inside of a line a text without line feeds is made of characters that stay. -/
theorem Seated.exists_map_stays (h : Seated false ps) (hp : '\n' ∉ p)
    (hpre : p <+: rendered held n ps) : ∃ qs, ps = p.map .stays ++ qs := by
  induction p generalizing ps with
  | nil => exact ⟨ps, rfl⟩
  | cons c p ih =>
    rw [mem_cons, not_or] at hp
    cases ps with
    | nil => simp at hpre
    | cons q ps =>
      cases q with
      | stays d =>
        obtain ⟨rfl, hrest⟩ := cons_prefix_cons.1 hpre
        rw [Seated, beq_eq_false_iff_ne.2 (Ne.symm hp.1)] at h
        obtain ⟨qs, rfl⟩ := ih h hp.2 hrest
        exact ⟨qs, rfl⟩
      | taken k t => exact absurd h.1 Bool.false_ne_true

theorem not_newline_mem_placeholder : '\n' ∉ placeholder k :=
  not_mem_placeholder (isWord_of_symbol (by decide) rfl)

/-- **Where a placeholder starts in the text**: at a piece that it stands for, or in a
directive that is back and holds it. -/
theorem Seated.starts (h : Seated lineStart (q :: ps)) (hclean : Clean (sourceText (q :: ps)))
    (hheld : ∀ k t, q = .taken k t → k < n → (held k).getLast? = t.getLast?)
    (hq : q.shown held n = u ++ w) (hw : w ≠ []) (hpre : placeholder m <+: w ++ rendered held n ps) :
    (∃ t, q = .taken m t ∧ n ≤ m) ∨ ∃ k t, q = .taken k t ∧ k < n ∧ placeholder m <:+: held k := by
  cases q with
  | stays c =>
    -- the whole placeholder would be in the text
    obtain ⟨rfl, rfl⟩ : u = [] ∧ w = [c] := by
      rcases append_eq_singleton_iff.1 hq.symm with ⟨hu, hw⟩ | ⟨-, hnil⟩
      · exact ⟨hu, hw⟩
      · exact absurd hnil hw
    obtain ⟨x, hx⟩ : ∃ x, placeholder m = '_' :: x := ⟨_, rfl⟩
    have hline := not_newline_mem_placeholder (k := m)
    rw [hx, mem_cons, not_or] at hline
    rw [hx, singleton_append, cons_prefix_cons] at hpre
    obtain ⟨rfl, hrest⟩ := hpre
    obtain ⟨qs, rfl⟩ := Seated.exists_map_stays (show Seated false ps from h) hline.2 hrest
    refine absurd ?_ (hclean.not_placeholder m)
    rw [hx]
    exact ⟨[], sourceText qs, by simp⟩
  | taken k t =>
    obtain ⟨-, hbehind, hps⟩ := h
    by_cases hk : k < n
    · rw [Piece.shown, if_pos hk] at hq
      refine .inr ⟨k, t, rfl, hk, ?_⟩
      obtain ⟨r, hr⟩ := hpre
      rcases append_eq_append_iff.1 hr with ⟨x, rfl, -⟩ | ⟨x, hx, hrest⟩
      · rw [hq]
        exact ⟨u, x, by simp⟩
      cases x with
      | nil =>
        rw [hq, hx, append_nil]
        exact (suffix_append u w).isInfix
      | cons d x =>
        -- it would go on over the end of the directive
        have hline : '\n' ∉ d :: x := fun hmem => not_newline_mem_placeholder (hx ▸ mem_append_right w hmem)
        obtain ⟨qs, rfl⟩ := hps.exists_map_stays hline ⟨r, hrest.symm⟩
        rcases hbehind with hsemi | hnext
        · rw [← hheld k t rfl hk, hq, getLast?_append_of_ne_nil u hw] at hsemi
          have hmem : ';' ∈ placeholder m := hx ▸ mem_append_left _ (mem_of_getLast? hsemi)
          exact absurd hmem (not_mem_placeholder (isWord_of_symbol (by decide) rfl))
        · have hword : isWord d := isWord_of_mem_placeholder (n := m) (hx ▸ by simp)
          rw [hnext d _ rfl] at hword
          cases hword
    · rw [Piece.shown, if_neg hk] at hq
      have hgoesOn (c : Char) (p : Chars) (hc : isWord c) (hline : '\n' ∉ c :: p)
          (hp : c :: p <+: rendered held n ps) : ';' :: c :: p <:+: sourceText (.taken k t :: ps) := by
        obtain ⟨qs, rfl⟩ := hps.exists_map_stays hline hp
        rcases hbehind with hsemi | hnext
        · obtain ⟨t', rfl⟩ : ∃ t', t = t' ++ [';'] := ⟨_, (dropLast_append_getLast? ';' hsemi).symm⟩
          exact ⟨t', sourceText qs, by simp⟩
        · rw [hnext c _ rfl] at hc
          cases hc
      rcases prefix_of_placeholder hq hw hpre with ⟨-, rfl⟩ | hword | hline
      · exact .inl ⟨t, rfl, Nat.le_of_not_lt hk⟩
      · exact absurd (hgoesOn 'P' _ (isWord_of_isAlphanum (.inl rfl)) (by decide) hword) hclean.word
      · exact absurd (hgoesOn '_' _ (isWord_of_isAlphanum (.inr rfl)) (by decide) hline) hclean.line

/-- A placeholder in the text stands for a piece, or it is in a directive that is
back. -/
theorem Seated.infix_rendered (h : Seated lineStart ps) (hclean : Clean (sourceText ps))
    (hheld : ∀ k t, .taken k t ∈ ps → k < n → (held k).getLast? = t.getLast?)
    (hin : placeholder m <:+: rendered held n ps) :
    (∃ t, .taken m t ∈ ps ∧ n ≤ m) ∨ ∃ k t, .taken k t ∈ ps ∧ k < n ∧ placeholder m <:+: held k := by
  induction ps generalizing lineStart with
  | nil => exact absurd (eq_nil_of_infix_nil hin) (placeholder_ne_nil m)
  | cons q ps ih =>
    rcases infix_append_cases hin with ⟨u, w, hq, hw, hpre⟩ | hin
    · rcases h.starts hclean (fun k t hk => hheld k t (hk ▸ mem_cons_self)) hq hw hpre with
        ⟨t, rfl, hm⟩ | ⟨k, t, rfl, hk, hin⟩
      · exact .inl ⟨t, mem_cons_self, hm⟩
      · exact .inr ⟨k, t, mem_cons_self, hk, hin⟩
    · obtain ⟨b, hps⟩ := h.tail
      have hrest : Clean (sourceText ps) := hclean.of_infix (suffix_append q.text _).isInfix
      rcases ih hps hrest (fun k t hk => hheld k t (.tail _ hk)) hin with ⟨t, ht, hm⟩ | ⟨k, t, ht, hk, hin⟩
      · exact .inl ⟨t, .tail _ ht, hm⟩
      · exact .inr ⟨k, t, .tail _ ht, hk, hin⟩

/-- **One step**: replacing a placeholder puts its directive into its place. -/
theorem Seated.replaceAll_rendered (h : Seated lineStart ps) (hclean : Clean (sourceText ps))
    (hheld : ∀ k t, .taken k t ∈ ps → k < n → (held k).getLast? = t.getLast? ∧ ¬placeholder n <:+: held k) :
    replaceAll (placeholder n) (held n) (placeholder_ne_nil n) (rendered held n ps) =
    rendered held (n + 1) ps := by
  induction ps generalizing lineStart with
  | nil => rw [rendered_nil, rendered_nil, replaceAll]
  | cons q ps ih =>
    obtain ⟨b, hps⟩ := h.tail
    have hrest : Clean (sourceText ps) := hclean.of_infix (suffix_append q.text _).isInfix
    have hstep := ih hps hrest fun k t hk => hheld k t (.tail _ hk)
    by_cases hq : ∃ t, q = .taken n t
    · obtain ⟨t, rfl⟩ := hq
      rw [rendered_cons, rendered_cons, Piece.shown, Piece.shown, if_neg (Nat.lt_irrefl n),
        if_pos (Nat.lt_succ_self n),
        replaceAll_append, hstep]
    · have hsame : q.shown held (n + 1) = q.shown held n := by
        cases q with
        | stays c => rfl
        | taken k t =>
          have hne : k ≠ n := fun heq => hq ⟨t, by rw [heq]⟩
          simp only [Piece.shown]
          split <;> split <;> first | rfl | omega
      rw [rendered_cons, rendered_cons, hsame, ← hstep]
      refine replaceAll_skip _ fun u w hshown hw hpre => ?_
      rcases h.starts hclean (fun k t hk hlt => (hheld k t (hk ▸ mem_cons_self) hlt).1) hshown hw hpre with
        ⟨t, ht, -⟩ | ⟨k, t, rfl, hk, hin⟩
      · exact hq ⟨t, ht⟩
      · exact (hheld k t mem_cons_self hk).2 hin

/-- **The whole run** puts all directives into their places. -/
theorem Seated.unmask_rendered {ds : List Chars} (h : Seated lineStart ps) (hclean : Clean (sourceText ps))
    (hlast : ∀ k t, .taken k t ∈ ps → (held k).getLast? = t.getLast?)
    (hnone : ∀ k t, .taken k t ∈ ps → ∀ m, k < m → ¬placeholder m <:+: held k)
    (hds : ∀ i d, ds[i]? = some d → held (n + i) = d) :
    unmask n (rendered held n ps) ds = rendered held (n + ds.length) ps := by
  induction ds generalizing n with
  | nil => rfl
  | cons d ds ih =>
    have hd : held n = d := hds 0 d rfl
    rw [unmask, ← hd, h.replaceAll_rendered hclean fun k t ht hk => ⟨hlast k t ht, hnone k t ht n hk⟩,
      ih fun i e he => by rw [Nat.add_assoc, Nat.add_comm 1]; exact hds (i + 1) e he, length_cons]
    congr 1
    omega

end Rendered

end Obscura.Literal
