import Obscura.Proofs.Spots

/-
  What spacing does to the lexemes of a text. Its tokens are not the lexemes of the
  language: a number literal with a separator or an exponent is two tokens, and a
  space is written between them (`torn_iff`). So the lexemes are kept exactly where
  no space falls into one of them and no point is joined to a digit
  (`respace_keeps_lexemes_iff`).
-/

namespace Obscura.Layout

open Text List NumberState

variable {a zs : List Spot} {b : Bool} {c d e : Char} {ds gap l s u : Chars} {n : Nat}
  {p : Char → Bool} {z : Spot}

/-! ## Shapes of number literals -/

/-- A number literal without separators and exponent: hexadecimal digits behind `0x`, or digits
and a point. -/
def isPlain : Chars → Bool
  | '0' :: 'x' :: h => h.all isHexDigit
  | l => l.all fun c => c.isDigit || c == '.'

/-- A text that starts with a separator or with the letter of an exponent. -/
def StartsOdd (t : Chars) : Prop :=
  ∃ o u, t = o :: u ∧ o ∈ ['_', 'e', 'E']

namespace NumberState

variable {q r : NumberState} {t : Chars}

theorem read_run (hrun : ∀ c, p c → q.step c = some q) (h : q.read t = some r) :
    ∃ ds u, t = ds ++ u ∧ (∀ c ∈ ds, p c) ∧
      (u = [] ∨ ∃ c v q', u = c :: v ∧ p c = false ∧ q.step c = some q' ∧ q'.read v = some r) := by
  induction t with
  | nil => exact ⟨[], [], rfl, by simp, .inl rfl⟩
  | cons c t ih =>
    rw [read_cons, Option.bind_eq_some_iff] at h
    obtain ⟨q', hstep, hread⟩ := h
    by_cases hc : p c
    · rw [hrun c hc, Option.some.injEq] at hstep
      subst hstep
      obtain ⟨ds, u, rfl, hds, hu⟩ := ih hread
      exact ⟨c :: ds, u, rfl, forall_mem_cons.2 ⟨hc, hds⟩, hu⟩
    · exact ⟨[], c :: t, rfl, by simp, .inr ⟨c, t, q', rfl, by simpa using hc, hstep, hread⟩⟩

theorem read_part (h : part.read t = some r) :
    ∃ ds u, t = ds ++ u ∧ (∀ c ∈ ds, c.isDigit) ∧ (u = [] ∨ StartsOdd u) := by
  obtain ⟨ds, u, rfl, hds, hu⟩ := read_run (p := Char.isDigit) (fun c hc => by simp [step, hc]) h
  refine ⟨ds, u, rfl, hds, hu.imp_right ?_⟩
  rintro ⟨c, v, q', rfl, hc, hstep, -⟩
  refine ⟨c, v, rfl, ?_⟩
  simp only [step, hc] at hstep
  grind

theorem read_whole (h : whole.read t = some r) :
    ∃ ds u, t = ds ++ u ∧ (∀ c ∈ ds, c.isDigit) ∧
      (u = [] ∨ StartsOdd u ∨ ∃ v, u = '.' :: v ∧ point.read v = some r) := by
  obtain ⟨ds, u, rfl, hds, hu⟩ :=
    read_run (p := Char.isDigit) (fun c hc => by simp [step, stepWhole, hc]) h
  refine ⟨ds, u, rfl, hds, hu.imp_right ?_⟩
  rintro ⟨c, v, q', rfl, hc, hstep, hread⟩
  by_cases hpoint : c = '.'
  · subst hpoint
    obtain rfl := Option.some.inj hstep
    exact .inr ⟨v, rfl, hread⟩
  · refine .inl ⟨c, v, rfl, ?_⟩
    simp only [step, stepWhole, hc] at hstep
    grind

theorem read_hex (h : hex.read t = some r) :
    ∃ ds u, t = ds ++ u ∧ (∀ c ∈ ds, isHexDigit c) ∧ (u = [] ∨ ∃ v, u = '_' :: v) := by
  obtain ⟨ds, u, rfl, hds, hu⟩ := read_run (p := isHexDigit) (fun c hc => by simp [step, hc]) h
  refine ⟨ds, u, rfl, hds, hu.imp_right ?_⟩
  rintro ⟨c, v, q', rfl, hc, hstep, -⟩
  simp only [step, hc] at hstep
  grind

theorem exists_digit (hq : q.ends = false)
    (hdigit : ∀ c q', q.step c = some q' → p c ∧ q' = r) {r' : NumberState} (h : q.read t = some r')
    (hr : r'.ends) : ∃ d u, t = d :: u ∧ p d ∧ r.read u = some r' := by
  cases t with
  | nil =>
    obtain rfl := Option.some.inj h
    rw [hq] at hr
    cases hr
  | cons d t =>
    rw [read_cons, Option.bind_eq_some_iff] at h
    obtain ⟨q', hstep, hread⟩ := h
    obtain ⟨hd, rfl⟩ := hdigit d q' hstep
    exact ⟨d, t, rfl, hd, hread⟩

theorem read_point (h : point.read t = some r) (hr : r.ends) :
    ∃ d ds u, t = d :: ds ++ u ∧ (∀ c ∈ d :: ds, c.isDigit) ∧ (u = [] ∨ StartsOdd u) := by
  obtain ⟨d, u, rfl, hd, hread⟩ := exists_digit rfl (p := Char.isDigit) (r := part)
    (fun c q' hstep => by simp only [step] at hstep; grind) h hr
  obtain ⟨ds, u, rfl, hds, hu⟩ := read_part hread
  exact ⟨d, ds, u, rfl, forall_mem_cons.2 ⟨hd, hds⟩, hu⟩

theorem read_mark (h : mark.read t = some r) (hr : r.ends) :
    ∃ d ds u, t = d :: ds ++ u ∧ (∀ c ∈ d :: ds, isHexDigit c) ∧ (u = [] ∨ ∃ v, u = '_' :: v) := by
  obtain ⟨d, u, rfl, hd, hread⟩ := exists_digit rfl (p := isHexDigit) (r := hex)
    (fun c q' hstep => by simp only [step] at hstep; grind) h hr
  obtain ⟨ds, u, rfl, hds, hu⟩ := read_hex hread
  exact ⟨d, ds, u, rfl, forall_mem_cons.2 ⟨hd, hds⟩, hu⟩

end NumberState

/-- The digits at the front of a number literal, and what may stand behind them. -/
inductive NumberShape : Chars → Prop
  | hex {d : Char} {ds u : Chars} (digits : ∀ c ∈ d :: ds, isHexDigit c = true)
      (rest : u = [] ∨ ∃ v, u = '_' :: v) : NumberShape ('0' :: 'x' :: (d :: ds ++ u))
  | whole {d : Char} {ds u : Chars} (digits : ∀ c ∈ d :: ds, c.isDigit = true)
      (rest : u = [] ∨ StartsOdd u) : NumberShape (d :: ds ++ u)
  | point {ds : Chars} {e : Char} {es u : Chars} (digits : ∀ c ∈ ds, c.isDigit = true)
      (fraction : ∀ c ∈ e :: es, c.isDigit = true) (rest : u = [] ∨ StartsOdd u) :
      NumberShape (ds ++ '.' :: (e :: es ++ u))

theorem numberShape_of_whole (hc : c.isDigit) {q : NumberState}
    (h : whole.read t = some q) (hq : q.ends) : NumberShape (c :: t) := by
  obtain ⟨ds, u, rfl, hds, hu⟩ := read_whole h
  have hdigits : ∀ d ∈ c :: ds, d.isDigit := forall_mem_cons.2 ⟨hc, hds⟩
  rcases hu with rfl | hu | ⟨v, rfl, hv⟩
  · exact .whole hdigits (.inl rfl)
  · exact .whole hdigits (.inr hu)
  · obtain ⟨e, es, u, rfl, hes, hu⟩ := read_point hv hq
    exact .point hdigits hes hu

theorem numberShape (h : isNumberLiteral l) : NumberShape l := by
  obtain ⟨q, hread, hq⟩ := isNumberLiteral_iff.1 h
  cases l with
  | nil =>
    obtain rfl := Option.some.inj hread
    cases hq
  | cons c t =>
    rw [read_cons, step] at hread
    split at hread
    next hc =>
      subst hc
      -- a zero goes on as any digit does, unless `x` is behind it
      cases t with
      | nil =>
        have hdigits : ∀ c ∈ ['0'], c.isDigit := forall_mem_of_all rfl
        exact .whole hdigits (.inl rfl)
      | cons x t =>
        by_cases hx : x = 'x'
        · subst hx
          obtain ⟨d, ds, u, rfl, hds, hu⟩ := read_mark hread hq
          exact .hex hds hu
        · have hzero : zero.step x = whole.step x := by
            rw [step, if_neg hx, step]
          refine numberShape_of_whole (by decide) (q := q) ?_ hq
          rw [read_cons, ← hzero]
          exact hread
    split at hread
    next hc => exact numberShape_of_whole hc hread hq
    split at hread
    next hc =>
      subst hc
      obtain ⟨e, es, u, rfl, hes, hu⟩ := read_point hread hq
      have hnone : ∀ c ∈ ([] : Chars), c.isDigit := by simp
      exact .point hnone hes hu
    cases hread

/-! ## Spaces in a number literal -/

/-- A space is written inside of the first `n` characters. -/
def Torn (n : Nat) (zs : List Spot) : Prop :=
  ∃ z ∈ (zs.take n).dropLast, z.spaced = true

theorem torn_append {xs ys : List Spot} (hx : ∀ z ∈ xs, z.spaced = false) (hy : ys ≠ [])
    (hn : 1 ≤ n) : Torn (xs.length + n) (xs ++ ys) ↔ Torn n ys := by
  have hne : ys.take n ≠ [] := by
    rw [Ne, take_eq_nil_iff]
    simp [hy, Nat.ne_of_gt hn]
  rw [Torn, take_length_add_append, dropLast_append_of_ne_nil hne]
  constructor
  · rintro ⟨z, hz, hspaced⟩
    rcases mem_append.1 hz with hz | hz
    · rw [hx z hz] at hspaced
      cases hspaced
    · exact ⟨z, hz, hspaced⟩
  · rintro ⟨z, hz, hspaced⟩
    exact ⟨z, mem_append_right _ hz, hspaced⟩

theorem spaced_dropLast_marked : ∀ z ∈ (marked c u gap b).dropLast, z.spaced = false := by
  induction u generalizing c with
  | nil => simp [marked]
  | cons d u ih =>
    have hne : marked d u gap b ≠ [] := by
      rw [← length_pos_iff, length_marked]
      exact Nat.succ_pos _
    rw [marked, dropLast_cons_of_ne_nil hne]
    exact forall_mem_cons.2 ⟨rfl, ih⟩

theorem not_torn_token (hn : n ≤ u.length + 1) : ¬ Torn n (marked c u gap b ++ zs) := by
  rintro ⟨z, hz, hspaced⟩
  rw [← length_marked c u gap b] at hn
  rw [take_append_of_le_length hn, dropLast_eq_take, length_take_of_le hn,
    take_take] at hz
  have hmem : z ∈ (marked c u gap b).dropLast := by
    rw [dropLast_eq_take]
    exact take_subset_take_left _ (by omega) hz
  rw [spaced_dropLast_marked z hmem] at hspaced
  cases hspaced

theorem exists_spaced (c : Char) (u gap : Chars) : ∃ z ∈ marked c u gap true, z.spaced := by
  induction u generalizing c with
  | nil => exact ⟨_, mem_cons_self, rfl⟩
  | cons d u ih =>
    obtain ⟨z, hz, hspaced⟩ := ih d
    exact ⟨z, mem_cons_of_mem _ hz, hspaced⟩

/-- A space behind a token is inside of what is longer than the token. -/
theorem torn_behind (hzs : zs ≠ [])
    (hn : u.length + 1 < n) : Torn n (marked c u gap true ++ zs) := by
  obtain ⟨k, rfl⟩ := Nat.exists_eq_add_of_lt hn
  have hne : zs.take (k + 1) ≠ [] := by
    rw [Ne, take_eq_nil_iff]
    simp [hzs]
  rw [Torn, Nat.add_assoc, ← length_marked c u gap true, take_length_add_append,
    dropLast_append_of_ne_nil hne]
  obtain ⟨z, hz, hspaced⟩ := exists_spaced c u gap
  exact ⟨z, mem_append_left _ hz, hspaced⟩

theorem withoutFinalNewline_eq {t : Token} (h : '\n' ∉ t) : withoutFinalNewline t = t := by
  rw [withoutFinalNewline, if_neg]
  intro hlast
  exact h (mem_of_getLast? hlast)

theorem isWordToken_digits (h : ∀ c ∈ d :: ds, c.isDigit) : isWordToken (d :: ds) := by
  have hline : '\n' ∉ d :: ds := fun hmem => by cases h _ hmem
  have hall : (d :: ds).all isDecimal :=
    all_eq_true.2 fun c hc => isDecimal_of_isDigit (h c hc)
  rw [isWordToken, isNumber, withoutFinalNewline_eq hline, Bool.or_eq_true]
  right
  split
  next heq => cases heq
  next heq =>
    rw [heq] at h
    cases h 'x' (by simp)
  next => exact hall

theorem isWordToken_hex (h : ∀ c ∈ d :: ds, isHexDigit c) :
    isWordToken ('0' :: 'x' :: d :: ds) := by
  have hline : '\n' ∉ '0' :: 'x' :: d :: ds := by
    intro hmem
    rw [mem_cons, mem_cons] at hmem
    rcases hmem with hmem | hmem | hmem
    · cases hmem
    · cases hmem
    · cases h _ hmem
  rw [isWordToken, isNumber, withoutFinalNewline_eq hline, Bool.or_eq_true]
  right
  simpa using h

/-- The token that starts with a separator or the letter of an exponent is a name. -/
theorem isWordToken_odd {o : Char} (ho : o ∈ ['_', 'e', 'E'])
    (hs : ∀ c ∈ s, c.toNat < 128) : isWordToken (takeToken o s).1 := by
  have hall : ∀ o ∈ ['_', 'e', 'E'], isBlank o = false ∧ o ≠ '\n' ∧ (o.isAlpha || o == '_') :=
    forall_mem_of_all rfl
  obtain ⟨hblank, hline, hname⟩ := hall o ho
  have hstart : (isLetter o || o == '_') := by
    rw [Bool.or_eq_true] at hname ⊢
    exact hname.imp_left isLetter_of_isAlpha
  have hrest : ∀ c ∈ s.takeWhile continuesName, isAsciiWord c := by
    intro c hc
    have hword := mem_takeWhile_imp hc
    rwa [continuesName, ← isWord, isWord_eq (hs c (takeWhile_subset _ hc)), ← isAsciiWord]
      at hword
  have hfree : '\n' ∉ o :: s.takeWhile continuesName := by
    intro hmem
    rcases mem_cons.1 hmem with hmem | hmem
    · exact hline hmem.symm
    · cases hrest _ hmem
  rw [takeToken_name hblank hstart, isWordToken, isIdentifier, withoutFinalNewline_eq hfree,
    Bool.or_eq_true, Bool.and_eq_true]
  exact .inl ⟨hname, all_eq_true.2 hrest⟩

theorem isWordToken_point : isWordToken ['.'] = false := by
  decide

theorem not_letter_of_isDigit (h : c.isDigit) : (isLetter c || c == '_') = false := by
  have hascii := toNat_lt_of_isDigit h
  rw [isLetter_eq_isAlpha hascii]
  exact forall_ascii (P := fun c => c.isDigit = true → (c.isAlpha || c == '_') = false)
    (by decide) hascii h

theorem isBlank_of_isDigit (h : c.isDigit) : isBlank c = false :=
  isBlank_of_isAsciiWord (isAsciiWord_of_isDigit h)

theorem isFigure_of_isDigit (h : c.isDigit) : isFigure c :=
  isFigure_of_isDecimal (isDecimal_of_isDigit h)

theorem exists_takeToken_digits (h : ∀ c ∈ d :: ds, c.isDigit)
    (r : Chars) : ∃ u r', takeToken d (ds ++ r) = (d :: ds ++ u, r') := by
  obtain ⟨hd, hds⟩ := forall_mem_cons.1 h
  by_cases hx : d = '0' ∧ ((ds ++ r).head? = some 'x' ∨ (ds ++ r).head? = some 'X')
  · obtain ⟨rfl, hhead⟩ := hx
    cases ds with
    | nil =>
      obtain ⟨x, t, rfl, hx⟩ := exists_hexMark hhead
      exact ⟨_, _, takeToken_hex hx⟩
    | cons e ds =>
      have he := hds e mem_cons_self
      rcases hhead with hhead | hhead <;>
      · obtain rfl := Option.some.inj hhead
        cases he
  · rw [takeToken_figures (isBlank_of_isDigit hd) (not_letter_of_isDigit hd) (isFigure_of_isDigit hd) hx,
      takeWhile_append_of_pos fun c hc => isFigure_of_isDigit (hds c hc)]
    exact ⟨_, _, rfl⟩

theorem takeToken_digits (h : ∀ c ∈ d :: ds, c.isDigit)
    (he : isFigure e = false ∧ e ≠ 'x' ∧ e ≠ 'X') (r : Chars) :
    takeToken d (ds ++ e :: r) = (d :: ds, e :: r) := by
  obtain ⟨hd, hds⟩ := forall_mem_cons.1 h
  have hfig : ∀ c ∈ ds, isFigure c = true := fun c hc => isFigure_of_isDigit (hds c hc)
  have hstop : ∀ c, (e :: r).head? = some c → isFigure c = false := by
    rintro c ⟨⟩
    exact he.1
  rw [takeToken_figures (isBlank_of_isDigit hd) (not_letter_of_isDigit hd) (isFigure_of_isDigit hd),
    takeWhile_run hfig hstop, dropWhile_run hfig hstop]
  rintro ⟨-, hhead⟩
  cases ds with
  | nil => simp [he.2] at hhead
  | cons c ds =>
    have hc := hds c mem_cons_self
    rcases hhead with hhead | hhead <;>
    · obtain rfl := Option.some.inj hhead
      cases hc

/-- A run of digits is not torn; what has a separator or an exponent behind them is. -/
theorem torn_digits {r : Chars} (h : ∀ c ∈ d :: ds, c.isDigit)
    (hu : u = [] ∨ StartsOdd u) (hascii : ∀ c ∈ u ++ r, c.toNat < 128) :
    Torn (d :: ds ++ u).length (spots (d :: ds ++ u ++ r)) ↔ u ≠ [] := by
  have hd := isBlank_of_isDigit (h d mem_cons_self)
  rcases hu with rfl | ⟨o, u, rfl, ho⟩
  · obtain ⟨v, r', htoken⟩ := exists_takeToken_digits h r
    rw [append_nil, cons_append, spots_token hd htoken]
    simp only [ne_eq, not_true_eq_false, iff_false]
    exact not_torn_token (by simp)
  · have hall : ∀ o ∈ ['_', 'e', 'E'], o.toNat < 128 ∧ o.isDigit = false ∧ o ≠ 'x' ∧ o ≠ 'X' ∧
        isBlank o = false :=
      forall_mem_of_all rfl
    obtain ⟨hlt, hdigit, hx, hX, hblank⟩ := hall o ho
    rw [← isFigure_eq_isDigit hlt] at hdigit
    have htoken := takeToken_digits h ⟨hdigit, hx, hX⟩ (u ++ r)
    have hodd : isWordToken (takeToken o (u ++ r)).1 :=
      isWordToken_odd ho fun c hc => hascii c (mem_cons_of_mem o hc)
    have hspace : needsSpace (d :: ds) (takeToken o (u ++ r)).1 := by
      rw [needsSpace, hodd, isWordToken_digits h]
      rfl
    rw [append_assoc, cons_append, cons_append, cons_append,
      spots_touching hd hblank htoken, hspace]
    simp only [ne_eq, reduceCtorEq, not_false_eq_true, iff_true]
    exact torn_behind (spots_ne_nil hblank _) (by simp)

theorem torn_hex {r : Chars} (h : ∀ c ∈ d :: ds, isHexDigit c)
    (hu : u = [] ∨ ∃ v, u = '_' :: v) (hascii : ∀ c ∈ u ++ r, c.toNat < 128) :
    Torn ('0' :: 'x' :: (d :: ds ++ u)).length (spots ('0' :: 'x' :: (d :: ds ++ u ++ r))) ↔ u ≠ [] := by
  have hread : takeToken '0' ('x' :: (d :: ds ++ u ++ r)) =
      ('0' :: 'x' :: (d :: ds ++ (u ++ r).takeWhile isHexDigit), (u ++ r).dropWhile isHexDigit) := by
    rw [takeToken_hex (.inl rfl), append_assoc, takeWhile_append_of_pos h,
      dropWhile_append_of_pos h]
  rcases hu with rfl | ⟨u, rfl⟩
  · rw [spots_token (by decide) hread]
    simp only [ne_eq, not_true_eq_false, iff_false]
    exact not_torn_token (by simp)
  · have hodd : isWordToken (takeToken '_' (u ++ r)).1 :=
      isWordToken_odd (by decide) fun c hc => hascii c (mem_cons_of_mem _ hc)
    have hspace : needsSpace ('0' :: 'x' :: d :: ds) (takeToken '_' (u ++ r)).1 := by
      rw [needsSpace, hodd, isWordToken_hex h]
      rfl
    have htoken : takeToken '0' ('x' :: (d :: ds ++ '_' :: u ++ r)) =
        ('0' :: 'x' :: d :: ds, '_' :: (u ++ r)) := by
      rw [hread]
      simp [isHexDigit]
    rw [spots_touching (by decide) (by decide) htoken, hspace]
    simp only [ne_eq, reduceCtorEq, not_false_eq_true, iff_true]
    exact torn_behind (spots_ne_nil (by decide) _) (by simp)

theorem takeToken_point (s : Chars) : takeToken '.' s = (['.'], s) :=
  takeToken_of_tight (c := '.') (u := []) (by decide)

theorem spaceBetween_point (apart : Bool) (t : Token) : spaceBetween apart ['.'] t = false := by
  have hcloser : closers.contains ['.'] = false := by decide
  cases apart with
  | true =>
    change (!tight.contains ['.']) = false
    decide
  | false =>
    change needsSpace ['.'] t = false
    rw [needsSpace, isWordToken_point, hcloser, Bool.or_false, Bool.and_false]

theorem spots_point (he : e.isDigit) (s : Chars) :
    spots ('.' :: e :: s) = ⟨'.', [], false⟩ :: spots (e :: s) := by
  have hspace : needsSpace ['.'] (takeToken e s).1 = false := spaceBetween_point false _
  rw [spots_touching (by decide) (isBlank_of_isDigit he) (takeToken_point (e :: s)), hspace]
  rfl

/-- The digits before a point are not torn from it, nor the point from the digits behind it. -/
theorem torn_point (h : ∀ c ∈ ds, c.isDigit) (he : e.isDigit)
    (s : Chars) (hn : 1 ≤ n) :
    Torn (ds.length + 1 + n) (spots (ds ++ '.' :: e :: s)) ↔ Torn n (spots (e :: s)) := by
  have hne := spots_ne_nil (isBlank_of_isDigit he) s
  have hfirst : Torn (1 + n) (spots ('.' :: e :: s)) ↔ Torn n (spots (e :: s)) := by
    have hpoint : ∀ z ∈ [(⟨'.', [], false⟩ : Spot)], z.spaced = false := by simp
    rw [spots_point he]
    exact torn_append hpoint hne hn
  cases ds with
  | nil => rwa [length_nil, Nat.zero_add]
  | cons d ds =>
    have hfigure : isFigure '.' = false := isFigure_eq_isDigit (by decide)
    have htoken := takeToken_digits h ⟨hfigure, by decide, by decide⟩ (e :: s)
    have hspace : needsSpace (d :: ds) (takeToken '.' (e :: s)).1 = false := by
      rw [takeToken_point, needsSpace, isWordToken_point, Bool.false_and]
    have hunspaced : ∀ z ∈ marked d ds [] false, z.spaced = false := fun z hz =>
      (mem_marked hz).elim And.right And.right
    rw [cons_append, spots_touching (isBlank_of_isDigit (h d mem_cons_self)) (by decide) htoken,
      hspace, Nat.add_assoc, length_cons, ← length_marked d ds [] false,
      torn_append hunspaced (spots_ne_nil (by decide) _) (Nat.le_add_right 1 n), hfirst]

theorem isPlain_append (h : ∀ c ∈ ds, c.isDigit)
    (hu : u = [] ∨ ∃ o v, u = o :: v ∧ o ≠ '0' ∧ o ≠ 'x') :
    isPlain (ds ++ u) = u.all fun c => c.isDigit || c == '.' := by
  have hdigits : ds.all (fun c => c.isDigit || c == '.') = true :=
    all_eq_true.2 fun c hc => by simp [h c hc]
  rw [isPlain, all_append, hdigits, Bool.true_and]
  intro t heq
  rcases ds with _ | ⟨d, _ | ⟨e, ds⟩⟩
  · obtain ⟨o, v, rfl, hzero, -⟩ := hu.resolve_left (by rintro rfl; cases heq)
    exact hzero (cons.inj heq).1
  · obtain ⟨o, v, rfl, -, hx⟩ := hu.resolve_left (by rintro rfl; cases heq)
    exact hx (cons.inj (cons.inj heq).2).1
  · obtain rfl := (cons.inj (cons.inj heq).2).1
    cases h 'x' (by simp)

theorem StartsOdd.not_plain (h : StartsOdd u) : (u.all fun c => c.isDigit || c == '.') = false := by
  obtain ⟨o, v, rfl, ho⟩ := h
  have hall : ∀ o ∈ ['_', 'e', 'E'], (o.isDigit || o == '.') = false := forall_mem_of_all rfl
  rw [all_cons, hall o ho, Bool.false_and]

theorem StartsOdd.head (h : StartsOdd u) : ∃ o v, u = o :: v ∧ o ≠ '0' ∧ o ≠ 'x' := by
  obtain ⟨o, v, rfl, ho⟩ := h
  have hall : ∀ o ∈ ['_', 'e', 'E'], o ≠ '0' ∧ o ≠ 'x' := forall_mem_of_all rfl
  exact ⟨o, v, rfl, hall o ho⟩

theorem ne_nil_iff_not_plain (h : u = [] ∨ StartsOdd u) :
    u ≠ [] ↔ (u.all fun c => c.isDigit || c == '.') = false := by
  rcases h with rfl | h
  · simp
  · obtain ⟨o, v, rfl, -⟩ := h.head
    exact ⟨fun _ => h.not_plain, fun _ => cons_ne_nil o v⟩

/-- **A space is written inside of a number literal if and only if it has a separator or an
exponent.** -/
theorem torn_iff (hl : isNumberLiteral l) {r : Chars}
    (hascii : ∀ c ∈ l ++ r, c.toNat < 128) : Torn l.length (spots (l ++ r)) ↔ isPlain l = false := by
  cases numberShape hl with
  | @hex d ds u digits rest =>
    have hrest : ∀ c ∈ u ++ r, c.toNat < 128 := by
      intro c hc
      have hmem := mem_append_right ('0' :: 'x' :: d :: ds) hc
      exact hascii c (by simpa using hmem)
    refine (torn_hex digits rest hrest).trans ?_
    rcases rest with rfl | ⟨v, rfl⟩
    · simpa [isPlain] using digits
    · simp [isPlain, isHexDigit]
  | @whole d ds u digits rest =>
    have hrest : ∀ c ∈ u ++ r, c.toNat < 128 := fun c hc =>
      hascii c (by rw [append_assoc]; exact mem_append_right _ hc)
    rw [torn_digits digits rest hrest, isPlain_append digits (rest.imp_right StartsOdd.head),
      ne_nil_iff_not_plain rest]
  | @point ds e es u digits fraction rest =>
    have hrest : ∀ c ∈ u ++ r, c.toNat < 128 := by
      intro c hc
      have hmem := mem_append_right (ds ++ '.' :: e :: es) hc
      exact hascii c (by simpa using hmem)
    have hlength : (ds ++ '.' :: (e :: es ++ u)).length = ds.length + 1 + (e :: es ++ u).length := by
      simp only [length_append, length_cons]
      omega
    have hfraction : ((e :: es ++ u).all fun c => c.isDigit || c == '.') =
        u.all fun c => c.isDigit || c == '.' := by
      rw [all_append, all_eq_true.2 fun c hc => by simp [fraction c hc], Bool.true_and]
    rw [hlength, append_assoc, cons_append, cons_append, cons_append,
      torn_point digits (fraction e mem_cons_self) _ (by simp),
      isPlain_append digits (.inr ⟨'.', _, rfl, by decide, by decide⟩), all_cons]
    exact (torn_digits fraction rest hrest).trans
      ((ne_nil_iff_not_plain rest).trans (by rw [← hfraction]; simp))

/-! ## Where number literals start -/

theorem isLexeme_of_continuesIdentifier (h : continuesIdentifier c) : isLexeme [c] := by
  rw [isLexeme_iff]
  by_cases hd : c.isDigit
  · refine .inr (.inl (isNumberLiteral_iff.2 ?_))
    by_cases hzero : c = '0'
    · exact ⟨.zero, by simp [NumberState.read, NumberState.step, hzero], rfl⟩
    · exact ⟨.whole, by simp [NumberState.read, NumberState.step, hzero, hd], rfl⟩
  · exact .inl (by simp [isNameLexeme, h, hd])

/-- A lexeme that ends with a character of a name goes on with a digit. -/
theorem isLexeme_concat (h : isLexeme (t ++ [c]))
    (hc : continuesIdentifier c) (hd : d.isDigit) : isLexeme (t ++ [c] ++ [d]) := by
  have hdword : continuesIdentifier d := by
    rw [continuesIdentifier, isAsciiWord_of_isDigit hd, Bool.true_or]
  rw [isLexeme_iff] at h ⊢
  rcases h with h | h | h
  · left
    obtain ⟨x, u, hx⟩ := exists_cons_of_ne_nil (append_ne_nil_of_right_ne_nil t (cons_ne_nil c []))
    rw [hx] at h ⊢
    simp only [isNameLexeme, Bool.and_eq_true, cons_append, all_append] at h ⊢
    exact ⟨h.1, h.2, by simp [hdword]⟩
  · obtain ⟨q, hq, hends⟩ := isNumberLiteral_iff.1 h
    obtain ⟨r, hstep, hr⟩ := step_digit hends hd
    refine .inr (.inl (isNumberLiteral_iff.2 ⟨r, ?_, hr⟩))
    rw [read_append, hq, Option.bind_some, read_cons, hstep]
    rfl
  · have hall : ∀ t ∈ signs, ∀ c ∈ t, continuesIdentifier c = false := forall_mem_mem_of_all rfl
    rw [hall _ h c (by simp)] at hc
    cases hc

/-- A lexeme that a digit touches does not end with a character of a name. -/
theorem not_word_before_digit {f : Spot → Chars} {rest : List Spot} {y : Spot}
    (h : firstLength f (a ++ z :: y :: rest) = a.length + 1) (hz : f z = []) (hy : y.char.isDigit) :
    continuesIdentifier z.char = false := by
  have hne : a ++ z :: y :: rest ≠ [] := by simp
  have hlong := firstLength_spec (f := f) hne
  have hle := firstLength_le_reach (f := f) hne
  have hreach : a.length + 2 ≤ reach f (a ++ z :: y :: rest) := by
    have hends : reach f (a ++ z :: y :: rest) ≠ a.length + 1 := fun heq => gap_of_reach_eq heq hz
    omega
  have htake : (charsOf (a ++ z :: y :: rest)).take (a.length + 1) = charsOf a ++ [z.char] := by
    rw [charsOf, map_append, ← charsOf, ← length_charsOf, take_length_add_append]
    rfl
  have htake' : (charsOf (a ++ z :: y :: rest)).take (a.length + 2) = charsOf a ++ [z.char] ++ [y.char] := by
    rw [charsOf, map_append, ← charsOf, ← length_charsOf, take_length_add_append,
      append_assoc]
    rfl
  rw [Bool.eq_false_iff]
  intro hword
  have hlexeme : isLexeme (charsOf a ++ [z.char]) := by
    have := hlong.lexeme
    rw [take_charsOf hle, h, htake] at this
    rcases this with hone | hlexeme
    · obtain rfl : a = [] := length_eq_zero_iff.1 (Nat.succ.inj hone)
      exact isLexeme_of_continuesIdentifier hword
    · exact hlexeme
  have hlonger := hlong.longest (a.length + 2) (by omega) (by
    rw [length_take, length_charsOf]
    exact Nat.le_min.2 ⟨hreach, by simp⟩)
  rw [take_charsOf hreach, htake', isLexeme_concat hlexeme hword hy] at hlonger
  cases hlonger

theorem continuesName_of_ascii (hc : c.toNat < 128) (h : continuesIdentifier c = false) :
    continuesName c = false := by
  rw [continuesName, ← isWord, isWord_eq hc, ← isAsciiWord]
  rw [continuesIdentifier, Bool.or_eq_false_iff] at h
  exact h.1

theorem number_head (h : isNumberLiteral (c :: t)) :
    c = '.' ∨ c.isDigit := by
  obtain ⟨q, hq, -⟩ := isNumberLiteral_iff.1 h
  rw [read_cons, Option.bind_eq_some_iff] at hq
  obtain ⟨p, hstep, -⟩ := hq
  by_cases hzero : c = '0'
  · exact .inr (hzero ▸ rfl)
  · simp only [step, hzero] at hstep
    grind

/-- A number literal starts where a token does. The induction goes along the lexemes; `a` holds
the characters before them. -/
theorem number_at_token (hascii : ∀ c ∈ s, c.toNat < 128) (h : spots s = a ++ zs)
    (ha : ∀ z y t, a.getLast? = some z → zs = y :: t → z.gap = [] → y.char.isDigit →
      continuesIdentifier z.char = false) :
    ∀ g ∈ lexed Spot.gap zs, isNumberLiteral (charsOf g) →
      ∃ r rest, (charsOf g ++ r) <:+ s ∧ spots (charsOf g ++ r) = g ++ rest := by
  induction hn : zs.length using Nat.strongRecOn generalizing a zs with
  | ind n ih =>
    subst hn
    cases zs with
    | nil => simp [lexed]
    | cons z t =>
      have hne : z :: t ≠ [] := cons_ne_nil z t
      have hpos := (firstLength_spec (f := Spot.gap) hne).pos
      have hle := firstLength_le_length (f := Spot.gap) hne
      have hreach := firstLength_le_reach (f := Spot.gap) hne
      generalize hk : firstLength Spot.gap (z :: t) = k at hpos hle hreach
      rw [lexed, hk]
      refine forall_mem_cons.2 ⟨fun hnumber => ?_, ?_⟩
      · have hfirst : z.char = '.' ∨ z.char.isDigit := by
          obtain ⟨j, rfl⟩ := Nat.exists_eq_add_of_le' hpos
          exact number_head hnumber
        obtain ⟨s', hsuffix, hs'⟩ := exists_spots_suffix h (hfirst.imp_right fun hd => ⟨hd, fun x hx hgap =>
          continuesName_of_ascii (hascii _ (char_mem_of_mem_spots (by
            rw [h]
            exact mem_append_left _ (mem_of_getLast? hx)))) (ha x z t hx rfl hgap hd)⟩)
        have hblanks : ∀ x ∈ z :: t, ∀ c ∈ x.gap, isBlank c := hs' ▸ isBlank_gap s'
        obtain ⟨b, -, hlayout, -⟩ := layout_split hblanks hpos hreach
        rw [← hs', layout_gap_spots, hs'] at hlayout
        have hchars : charsOf ((z :: t).take k) = (charsOf (z :: t)).take k := map_take
        refine ⟨b ++ layout Spot.gap ((z :: t).drop k), (z :: t).drop k, ?_, ?_⟩
        · rw [hchars, ← hlayout]
          exact (dropWhile_suffix isBlank).trans hsuffix
        · rw [hchars, ← hlayout, spots_dropWhile, hs', take_append_drop]
      · refine ih _ ?_ (a := a ++ (z :: t).take k) ?_ ?_ rfl
        · rw [length_drop]
          omega
        · rw [append_assoc, take_append_drop, h]
        · intro x y u hlast hdrop hx hy
          obtain ⟨a', x', ha'⟩ := (eq_nil_or_concat ((z :: t).take k)).resolve_left (by
            rw [take_eq_nil_iff]
            simp [Nat.ne_of_gt hpos])
          rw [concat_eq_append] at ha'
          rw [ha', ← append_assoc, getLast?_concat, Option.some.injEq] at hlast
          subst hlast
          have hsplit : z :: t = a' ++ x' :: y :: u := by
            rw [← take_append_drop k (z :: t), ha', hdrop, append_assoc]
            rfl
          have hlength : a'.length + 1 = k := by
            rw [← length_take_of_le hle, ha', length_append]
            rfl
          exact not_word_before_digit (by rw [← hsplit, hk, hlength]) hx hy

theorem isBlank_space (z : Spot) : ∀ c ∈ z.space, isBlank c := by
  intro c hc
  rw [Spot.space] at hc
  split at hc
  · rw [mem_singleton.1 hc]
    decide
  · cases hc

theorem space_eq_nil : z.space = [] ↔ z.spaced = false := by
  rw [Spot.space]
  cases z.spaced <;> simp

theorem spaced_point (s : Chars) : ∀ z ∈ spots s, z.char = '.' → z.spaced = false := by
  have hops : ∀ o ∈ operators, '.' ∉ o := forall_mem_of_all rfl
  induction s using spots_induction with
  | nil => simp [spots_nil]
  | blank c t hc ih => rwa [spots_blank hc]
  | token c t u r hc htoken happend ih =>
    rw [spots_token hc htoken]
    intro z hz hpoint
    rcases mem_append.1 hz with hz | hz
    · have hmem : '.' ∈ c :: u := by
        rw [← charsOf_marked, ← hpoint]
        exact mem_map_of_mem hz
      rcases mem_marked hz with ⟨-, hspaced⟩ | ⟨-, hspaced⟩
      · exact hspaced
      rcases takeToken_shape hc htoken with rfl | hname | ⟨d, rfl, hop⟩
      · obtain rfl := mem_singleton.1 hmem
        rw [hspaced, spacedBefore]
        split
        · rfl
        · exact spaceBetween_point _ _
      · have := hname '.' hmem
        rw [continuesName_point] at this
        cases this
      · exact absurd hmem (hops _ hop)
    · exact ih z hz hpoint

theorem flatten_lexed (f : Spot → Chars) : (lexed f zs).flatten = zs := by
  fun_induction lexed f zs with
  | case1 => rfl
  | case2 z t ih => rw [flatten_cons, ih, take_append_drop]

/-- **Spacing keeps the lexemes of a text exactly where it writes no space into one and no blanks
stand between a point and a digit.** The lexemes `gs` of a text come with the blanks behind each
character and with whether a space is written there. A number literal is torn if and only if
it has a separator or an exponent. -/
theorem respace_keeps_lexemes_iff (s : Chars) :
    ∃ gs : List (List Spot),
      gs.map charsOf = lexemes s ∧ layout Spot.gap gs.flatten = s.dropWhile isBlank ∧
      layout Spot.space gs.flatten = respace (tokens s) ∧
      (lexemes (respace (tokens s)) = lexemes s ↔
        (∀ g ∈ gs, ∀ z ∈ g.dropLast, z.spaced = false) ∧
        ∀ a z y b, gs.flatten = a ++ z :: y :: b → z.char = '.' → z.gap ≠ [] →
          y.char.isDigit = false) ∧
      ((∀ c ∈ s, c.toNat < 128) → ∀ g ∈ gs, isNumberLiteral (charsOf g) = true →
        ((∃ z ∈ g.dropLast, z.spaced = true) ↔ isPlain (charsOf g) = false)) := by
  have hsource : lexemes s = (lexed Spot.gap (spots s)).map charsOf := by
    rw [← lexemes_layout (isBlank_spots s) (isBlank_gap s), layout_gap_spots]
    have hblanks : ∀ c ∈ s.takeWhile isBlank, isBlank c = true := fun c hc => List.mem_takeWhile_imp hc
    rw [← lexemes_blanks hblanks (s.dropWhile isBlank), List.takeWhile_append_dropWhile]
  have hspaced : lexemes (respace (tokens s)) = (lexed Spot.space (spots s)).map charsOf := by
    rw [← lexemes_layout (isBlank_spots s) (fun z _ => isBlank_space z), layout_space_spots]
  refine ⟨lexed Spot.gap (spots s), hsource.symm, ?_, ?_, ?_, fun hascii g hg hnumber => ?_⟩
  · rw [flatten_lexed, layout_gap_spots]
  · rw [flatten_lexed, layout_space_spots]
  · rw [hspaced, hsource, lexed_eq_iff (closesTight_spots s), flatten_lexed]
    refine and_congr (by simp only [space_eq_nil]) ⟨fun hj a z y b heq hpoint hgap => ?_, ?_⟩
    · have hz : z ∈ spots s := by simp [heq]
      rw [Bool.eq_false_iff]
      exact fun hy => hj ⟨a, z, y, b, heq, hpoint, hgap, space_eq_nil.2 (spaced_point s z hz hpoint), hy⟩
    · rintro hall ⟨a, z, y, b, heq, hpoint, hgap, -, hy⟩
      rw [hall a z y b heq hpoint hgap] at hy
      cases hy
  · obtain ⟨r, rest, hsuffix, hspots⟩ := number_at_token hascii (a := []) rfl (by simp) g hg hnumber
    rw [← torn_iff hnumber fun c hc => hascii c (hsuffix.subset hc), hspots, Torn, length_charsOf,
      List.take_left]

/-- A number with an exponent and one with separators are torn, and a point is joined to the
digit behind it. -/
theorem respace_tears_numbers :
    respace (tokens "a=1e18;".toList) = "a=1 e18;".toList ∧
      lexemes "a=1e18;".toList = ["a", "=", "1e18", ";"].map String.toList ∧
      lexemes "a=1 e18;".toList = ["a", "=", "1", "e18", ";"].map String.toList ∧
      respace (tokens "0x1_F".toList) = "0x1 _F".toList ∧
      lexemes "0x1_F".toList = ["0x1_F".toList] ∧
      lexemes "0x1 _F".toList = ["0x1", "_F"].map String.toList ∧
      respace (tokens "a. 5".toList) = "a.5".toList ∧
      lexemes "a. 5".toList = ["a", ".", "5"].map String.toList ∧
      lexemes "a.5".toList = ["a", ".5"].map String.toList := by
  decide +kernel

end Obscura.Layout
