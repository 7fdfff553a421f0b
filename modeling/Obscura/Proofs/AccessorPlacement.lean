import Obscura.Proofs.AccessorBlock
import Obscura.Proofs.Literals

/-
  Accessors and the calls that need them. The pass for tables puts calls into all
  contracts and libraries of a source, and the functions that they call into one:
  the one whose body opens with the first brace behind the first word `contract`.
  So a call finds its function in its own contract if it stands there, or if the
  function has been there before.
-/

namespace Obscura.Literal

open Text Layout Number Expression List Reader Outline

variable {c : Char} {p : Nat} {f t s w : Chars} {x : Outline} {y : Mode × Outline}
  {as bs ss : List Seg} {bools ints : List Chars}

namespace Outline

/-! ## Line ends -/

theorem run_capNewlines {seen : Nat} (hseen : seen ≠ 0 → reader.step y '\n' = y) :
    reader.run y (capNewlines seen s) = reader.run y s := by
  induction s generalizing seen y with
  | nil => rfl
  | cons c s ih =>
    rw [capNewlines]
    split
    · rename_i hc
      subst hc
      have hagain : reader.step (reader.step y '\n') '\n' = reader.step y '\n' :=
        step_lineEnd lumps_reader (.inl rfl) y
      split
      · exact ih fun _ => hagain
      · rename_i hmany
        have hstays : reader.step y '\n' = y := hseen (by omega)
        rw [run_cons, hstays]
        exact ih hseen
    · have hzero : 0 ≠ 0 → reader.step (reader.step y c) '\n' = reader.step y c := fun h => absurd rfl h
      exact ih hzero

theorem run_pair : reader.run y ['\r', '\n'] = reader.run y ['\n'] :=
  step_lineEnd lumps_reader (.inr rfl) y

theorem run_replaceAll (y : Mode × Outline) (s : Chars) :
    reader.run y (replaceAll ['\r', '\n'] ['\n'] (by simp) s) = reader.run y s := by
  induction hn : s.length using Nat.strong_induction_on generalizing s y with
  | _ n ih =>
    subst hn
    by_cases hpair : ['\r', '\n'] <+: s
    · obtain ⟨r, rfl⟩ := hpair
      rw [replaceAll_append, run_append, run_append, run_pair]
      exact ih r.length (by rw [length_append]; exact Nat.lt_add_of_pos_left (by decide)) _ r rfl
    · cases s with
      | nil => rw [replaceAll]
      | cons c s =>
        rw [replaceAll_cons _ hpair, run_cons, run_cons]
        exact ih s.length (Nat.lt_succ_self _) _ s rfl

theorem run_flatMap_newlines :
    reader.run y (s.flatMap fun c => if c = '\n' then ['\r', '\n'] else [c]) = reader.run y s := by
  induction s generalizing y with
  | nil => rfl
  | cons c s ih =>
    rw [flatMap_cons, run_append, ih, run_cons]
    split
    · rename_i hc
      rw [run_pair, hc]
      rfl
    · rfl

theorem read_tidyNewlines : reader.read (tidyNewlines s) = reader.read s := by
  have hcap : reader.read (capNewlines 0 (replaceAll ['\r', '\n'] ['\n'] (by simp) s)) = reader.read s :=
    (run_capNewlines (fun h => absurd rfl h)).trans (run_replaceAll _ s)
  unfold tidyNewlines
  dsimp only
  split
  · exact run_flatMap_newlines.trans hcap
  · exact hcap

/-! ## A constant and its call -/

/-- The character changes nothing in a comment or a literal. -/
def Unseen (c : Char) : Prop :=
  isQuiet c = true ∧ c ≠ '\n' ∧ c ≠ '\r' ∧ c ≠ '/'

theorem unseen_of_isWord (h : isWord c) : Unseen c := by
  have hne {d : Char} (hd : isWord d = false) : c ≠ d := by
    rintro rfl
    rw [h] at hd
    cases hd
  exact ⟨isQuiet_of_isWord h, hne (isWord_of_symbol (by decide) rfl), hne (isWord_of_symbol (by decide) rfl),
    hne (isWord_of_symbol (by decide) rfl)⟩

section Unseen

variable {m : Mode} (hcode : m ≠ .code) (hslash : m ≠ .slash)

include hcode hslash

theorem step_unseen (hc : Unseen c) : reader.step (m, x) c = reader.step (m, x) '0' := by
  obtain ⟨hquiet, hfeed, hreturn, hdivides⟩ := hc
  simp only [isQuiet, Bool.and_eq_true, bne_iff_ne, Bool.not_eq_true'] at hquiet
  obtain ⟨⟨hstar, hbackslash⟩, hquote⟩ := hquiet
  rw [step_of_ne_slash hslash, step_of_ne_slash hslash]
  cases m with
  | code => exact absurd rfl hcode
  | slash => exact absurd rfl hslash
  | line =>
    rw [Mode.next, if_neg (not_or.2 ⟨hfeed, hreturn⟩)]
    rfl
  | block =>
    rw [Mode.next, if_neg hstar]
    rfl
  | star =>
    rw [Mode.next, if_neg hdivides, if_neg hstar]
    rfl
  | quote d =>
    have hne : c ≠ quoteMark d := by
      rintro rfl
      cases d with
      | true => cases hquote
      | false => cases hquote
    rw [Mode.next, if_neg hbackslash, if_neg hne]
    cases d with
    | true => rfl
    | false => rfl
  | escape d => rfl

theorem step_step_unseen (x : Outline) : (reader.step (m, x) '0').1 ≠ .code ∧
    (reader.step (m, x) '0').1 ≠ .slash ∧
    reader.step (reader.step (m, x) '0') '0' = reader.step (m, x) '0' := by
  cases m with
  | code => exact absurd rfl hcode
  | slash => exact absurd rfl hslash
  | line => exact ⟨nofun, nofun, rfl⟩
  | block => exact ⟨nofun, nofun, rfl⟩
  | star => exact ⟨nofun, nofun, rfl⟩
  | quote d => cases d <;> exact ⟨nofun, nofun, congrArg (Prod.mk _) x.hush_hush⟩
  | escape d => cases d <;> exact ⟨nofun, nofun, congrArg (Prod.mk _) x.hush_hush⟩

theorem run_unseen (hne : t ≠ []) (ht : ∀ c ∈ t, Unseen c) :
    reader.run (m, x) t = reader.step (m, x) '0' := by
  obtain ⟨c, t, rfl⟩ := exists_cons_of_ne_nil hne
  obtain ⟨hc, hrest⟩ := forall_mem_cons.1 ht
  obtain ⟨hcode', hslash', hagain⟩ := step_step_unseen hcode hslash x
  rw [run_cons, step_unseen hcode hslash hc]
  generalize reader.step (m, x) '0' = y at hcode' hslash' hagain
  clear hne ht
  induction t with
  | nil => rfl
  | cons d t ih =>
    obtain ⟨hd, hrest⟩ := forall_mem_cons.1 hrest
    rw [run_cons, step_unseen hcode' hslash' hd, hagain, ih hrest]

end Unseen

end Outline

/-- The function that looks a constant up. -/
def getterName (w : Chars) : Chars :=
  (if (truthWord? w).isSome then "__get_bool" else "__get_int").toList

/-- The function that builds the table of a constant. -/
def tableName (w : Chars) : Chars :=
  (if (truthWord? w).isSome then "__const_bools" else "__const_ints").toList

theorem lookUp_eq (ints bools : List Chars) (w : Chars) :
    ∃ n, lookUp ints bools w = getterName w ++ '(' :: (digits n ++ [')']) := by
  rw [lookUp, lookupFor, getterName]
  split
  · refine ⟨bools.idxOf w, ?_⟩
    rw [Lookup.call, if_pos rfl]
    rfl
  · refine ⟨ints.idxOf w, ?_⟩
    rw [Lookup.call, if_neg Bool.false_ne_true]
    rfl

theorem getterName_spec (w : Chars) :
    Outline.Plain (getterName w) ∧ ∀ c ∈ getterName w, (c.isAlphanum || c == '_') := by
  have hall : ∀ name ∈ ["__get_bool".toList, "__get_int".toList], (name ≠ [] ∧ name ≠ "function".toList ∧
      name ≠ "contract".toList ∧ name ≠ "library".toList) ∧
      (name.all fun c => c.isAlphanum || c == '_') = true :=
    forall_mem_of_all rfl
  have hmem : getterName w ∈ ["__get_bool".toList, "__get_int".toList] := by
    unfold getterName
    split
    · exact mem_cons_self
    · exact .tail _ mem_cons_self
  obtain ⟨hplain, hchars⟩ := hall _ hmem
  exact ⟨hplain, all_eq_true.1 hchars⟩

namespace Outline

theorem plain_of_isConstant (h : IsConstant w) : Plain w ∧ w ∉ accessorNames := by
  have hall : ∀ v ∈ "function".toList :: "contract".toList :: "library".toList :: accessorNames,
      v ≠ "true".toList ∧ v ≠ "false".toList ∧ (v.any fun c => c.toNat < 128 && !c.isDigit) = true :=
    forall_mem_of_all rfl
  have hnot : ∀ v ∈ "function".toList :: "contract".toList :: "library".toList :: accessorNames, w ≠ v := by
    rintro v hv rfl
    obtain ⟨htrue, hfalse, hany⟩ := hall w hv
    obtain ⟨c, hc, hdigit⟩ := any_eq_true.1 hany
    rw [Bool.and_eq_true, decide_eq_true_eq, Bool.not_eq_true'] at hdigit
    rcases h with h | h | ⟨-, hdecimal⟩
    · exact htrue h
    · exact hfalse h
    · have hd := hdecimal c hc
      rw [isDecimal_eq_isDigit hdigit.1, hdigit.2] at hd
      cases hd
  simp only [forall_mem_cons] at hnot
  obtain ⟨hfunction, hcontract, hlibrary, hnames⟩ := hnot
  exact ⟨⟨(isConstant_iff.2 h).1.1, hfunction, hcontract, hlibrary⟩, fun hmem => hnames w hmem rfl⟩

/-- The call of an accessor behind a word: the word ends, and nothing is declared. -/
theorem run_lookUp (hword : x.word = [] ∧ x.awaits = false ∨ '$' ∈ x.word) :
    reader.run (.code, x) (lookUp ints bools w) = (.code, x.clear) := by
  obtain ⟨n, hlookUp⟩ := lookUp_eq ints bools w
  obtain ⟨hplain, hchars⟩ := getterName_spec w
  obtain ⟨hdigits, hnames⟩ := plain_of_isConstant (isConstant_digits n)
  have hname : { x with word := x.word ++ getterName w }.settle = x.clear := by
    rcases hword with ⟨hnil, hawaits⟩ | hdollar
    · rw [hnil, nil_append]
      exact settle_of_plain (x := { x with word := getterName w }) hplain fun h =>
        absurd (hawaits.symm.trans h) nofun
    · exact settle_of_dollar (x := { x with word := x.word ++ getterName w }) (mem_append_left _ hdollar)
  have hopen : isMark '(' := isMark_of_mem rfl
  have hclose : isMark ')' := isMark_of_mem rfl
  have hindex : { x.clear with word := digits n }.settle = x.clear :=
    settle_of_plain (x := { x.clear with word := digits n }) hdigits fun _ => hnames
  have hmark {c : Char} (hc : c ≠ '\x7b' ∧ c ≠ '\x7d' ∧ c ≠ ';') : x.clear.mark c = x.clear := by
    rw [mark, if_neg hc.1, if_neg hc.2.1, if_neg hc.2.2]
    rfl
  rw [hlookUp, run_append, run_word fun c hc => isNameChar_of_isAlphanum (hchars c hc), run_cons,
    step_mark hopen, mark_reader, hname, hmark (by decide), run_append,
    run_word (isNameChar_of_isConstant (isConstant_digits n)).1, run_cons,
    step_mark hclose, run_nil,
    mark_reader]
  show (_, ({ x.clear with word := digits n }.settle).mark ')') = _
  rw [hindex, hmark (by decide)]

/-- The readings of both texts behind a constant and its call: they are alike, or the word has
still to end in one of them. -/
def Beside (y y' : Mode × Outline) : Prop :=
  y.1 = y'.1 ∧ (Alike y.2 y'.2 ∨ y.1 = .code ∧ Behind y.2 y'.2)

section Swap

variable {w : Chars} (hw : IsConstant w) (ints bools : List Chars)

include hw

theorem beside_code {x' : Outline} (h : Alike x x') (hword : x.word = [] ∧ x.awaits = false ∨ '$' ∈ x.word) :
    Beside (reader.run (.code, x) w) (reader.run (.code, x') (lookUp ints bools w)) := by
  obtain ⟨hplain, hnames⟩ := plain_of_isConstant hw
  have hword' : x'.word = [] ∧ x'.awaits = false ∨ '$' ∈ x'.word := by
    rcases h with rfl | ⟨-, hdollar, -⟩
    · exact hword
    · exact .inr hdollar
  have hsettle : { x with word := x.word ++ w }.settle = x.clear := by
    rcases hword with ⟨hnil, -⟩ | hdollar
    · rw [hnil, nil_append]
      exact settle_of_plain (x := { x with word := w }) hplain fun _ => hnames
    · exact settle_of_dollar (x := { x with word := x.word ++ w }) (mem_append_left _ hdollar)
  rw [run_word (isNameChar_of_isConstant hw).1, run_lookUp hword']
  exact ⟨rfl, .inr ⟨rfl, hsettle, h.clear⟩⟩

theorem beside_swap {y' : Mode × Outline} (hmode : y.1 = y'.1) (h : Alike y.2 y'.2)
    (hword : y.2.word = [] ∨ '$' ∈ y.2.word) (hname : y.1 = .code → y.2.word = [] → y.2.awaits = false) :
    Beside (reader.run y w) (reader.run y' (lookUp ints bools w)) := by
  obtain ⟨m, x⟩ := y
  obtain ⟨m', x'⟩ := y'
  dsimp only at hmode h hword hname
  subst hmode
  have hwordchars := (isConstant_iff.2 hw).1
  by_cases hcode : m = .code
  · subst hcode
    exact beside_code hw ints bools h (hword.imp_left fun hnil => ⟨hnil, hname rfl hnil⟩)
  by_cases hslash : m = .slash
  · -- the slash before the constant is a mark
    subst hslash
    have hmark {t : Chars} {c : Char} (ht : t.head? = some c) (hc : Unseen c) (z : Outline) :
        reader.run (.slash, z) t = reader.run (.code, reader.mark z '/') t := by
      cases t with
      | nil => cases ht
      | cons d t =>
        cases ht
        have hstar : c ≠ '*' := by
          rintro rfl
          cases hc.1
        rw [run_cons, run_cons, step_slash hc.2.2.2 hstar]
    obtain ⟨c, t, rfl⟩ := exists_cons_of_ne_nil hwordchars.1
    obtain ⟨d, hd, hdword⟩ : ∃ d, (lookUp ints bools (c :: t)).head? = some d ∧ Unseen d := by
      obtain ⟨n, hn⟩ := lookUp_eq ints bools (c :: t)
      refine ⟨'_', ?_, unseen_of_isWord (isWord_of_isAlphanum (.inr rfl))⟩
      rw [hn, getterName]
      split
      · rfl
      · rfl
    rw [hmark rfl (unseen_of_isWord (hwordchars.2 c mem_cons_self)), hmark hd hdword]
    refine beside_code hw ints bools (keeps_alike.mark x x' '/' h) (.inl ⟨?_, rfl⟩)
    exact (word_mark _).trans x.word_settle
  · have hold : ∀ c ∈ w, Unseen c := fun c hc => unseen_of_isWord (hwordchars.2 c hc)
    have hcall : ∀ c ∈ lookUp ints bools w, Unseen c := by
      obtain ⟨v, hv, hvchars⟩ := exists_lookUp ints bools w
      rw [hv, forall_mem_append, forall_mem_singleton]
      refine ⟨fun c hc => ?_, by decide, by decide, by decide, by decide⟩
      rcases hvchars c hc with hc | rfl
      · exact unseen_of_isWord hc
      · exact ⟨by decide, by decide, by decide, by decide⟩
    have hne : lookUp ints bools w ≠ [] := (apart_lookUp ints bools w).1.ne_nil
    rw [run_unseen hcode hslash hwordchars.1 hold, run_unseen hcode hslash hne hcall]
    exact ⟨rfl, .inl (keeps_alike.step h m '0')⟩

end Swap

/-- Each exchanged word is a constant with its call, between characters that are no part of
words, and not where the name of a function is awaited. -/
def Swappable (ints bools : List Chars) (ss : List Seg) : Prop :=
  ∀ as w f bs, ss = as ++ .swap w f :: bs → IsConstant w ∧ f = lookUp ints bools w ∧
    isWordAt (oldOf as).getLast? = false ∧ isWordAt (oldOf bs).head? = false ∧
    ((reader.read (oldOf as)).1 = .code → (reader.read (oldOf as)).2.word = [] →
      (reader.read (oldOf as)).2.awaits = false)

variable {ints bools : List Chars}

/-- **All exchanges.** Both texts are read alike up to the same segment, except that a word may
have still to end in the old one. -/
theorem beside_segs (h : Swappable ints bools ss)
    (hss : ss = as ++ bs) :
    (reader.read (oldOf as)).1 = (reader.read (newOf as)).1 ∧
      (Alike (reader.read (oldOf as)).2 (reader.read (newOf as)).2 ∨
        (reader.read (oldOf as)).1 = .code ∧ Behind (reader.read (oldOf as)).2 (reader.read (newOf as)).2 ∧
          isWordAt (oldOf bs).head? = false) := by
  induction as using reverseRecOn generalizing bs with
  | nil => exact ⟨rfl, .inl (.inl rfl)⟩
  | append_singleton as x ih =>
    rw [append_assoc, singleton_append] at hss
    obtain ⟨hmode, hrel⟩ := ih hss
    rw [oldOf_append, newOf_append, read_append, read_append]
    generalize hy : reader.read (oldOf as) = y at hmode hrel
    generalize reader.read (newOf as) = y' at hmode hrel
    cases x with
    | char c =>
      refine ⟨?_, .inl ?_⟩
      · show (y.1.next c).1 = (y'.1.next c).1
        rw [hmode]
      · obtain ⟨m, z⟩ := y
        obtain ⟨m', z'⟩ := y'
        dsimp only at hmode hrel
        subst hmode
        rcases hrel with halike | ⟨hcode, hbehind, hword⟩
        · exact keeps_alike.step halike m c
        · subst hcode
          exact hbehind.step hword
    | swap w f =>
      obtain ⟨hw, rfl, hbefore, hafter, hname⟩ := h as w f bs hss
      have halike : Alike y.2 y'.2 := by
        refine hrel.resolve_right fun hbehind => ?_
        -- the word that has still to end would go on with the constant
        obtain ⟨⟨hne, hchars⟩, -⟩ := isConstant_iff.2 hw
        obtain ⟨c, t, rfl⟩ := exists_cons_of_ne_nil hne
        have hc : isWord c = false := hbehind.2.2
        rw [hchars c mem_cons_self] at hc
        cases hc
      have hfresh := (fresh_read (oldOf as)).word hbefore
      rw [hy] at hfresh hname
      obtain ⟨hmode', hrel'⟩ := beside_swap hw ints bools hmode halike hfresh hname
      have hold : oldOf [Seg.swap w (lookUp ints bools w)] = w := append_nil w
      have hnew : newOf [Seg.swap w (lookUp ints bools w)] = lookUp ints bools w := append_nil _
      rw [hold, hnew]
      exact ⟨hmode', hrel'.imp_right fun hbehind => ⟨hbehind.1, hbehind.2, hafter⟩⟩

end Outline

/-! ## Constants in their places -/

/-- A free constant stands between characters that are no part of words. -/
theorem Eligible.boundaries {a b : Chars} (h : Eligible (a ++ (w ++ b)) a.length w) :
    isWordAt a.getLast? = false ∧ isWordAt b.head? = false := by
  obtain ⟨hw, ⟨before, l, behind, x, y, hlines, -, rfl, hlen, hx, hy⟩, -⟩ := h
  obtain ⟨⟨hne, hchars⟩, -⟩ := isConstant_iff.2 hw
  exact boundaries_of_line hne hchars hlines hlen hx hy

theorem exists_append_of_not_mem {α : Type} {x : α} {us vs as bs : List α} (hx : x ∉ us)
    (h : us ++ vs = as ++ x :: bs) : ∃ r, as = us ++ r ∧ vs = r ++ x :: bs := by
  rcases append_eq_append_iff.1 h with ⟨r, rfl, hr⟩ | ⟨r, hr, hrest⟩
  · exact ⟨r, rfl, hr⟩
  · cases r with
    | nil => exact ⟨[], by rw [hr, append_nil, append_nil], hrest.symm⟩
    | cons y r =>
      obtain ⟨rfl, -⟩ := cons.inj hrest
      exact absurd (hr ▸ mem_append_right as mem_cons_self) hx

theorem exists_cells_of_segs {cs : List Cell}
    (h : cellSegs ints bools cs = as ++ .swap w f :: bs) :
    ∃ cs₁ cs₂, cs = cs₁ ++ .constant w :: cs₂ ∧ oldOf as = cs₁.flatMap Cell.text := by
  induction cs generalizing as with
  | nil => simp [cellSegs] at h
  | cons c cs ih =>
    -- an exchanged constant behind the first part
    have hlater {r : List Seg} (has : as = c.segs ints bools ++ r)
        (hr : cellSegs ints bools cs = r ++ .swap w f :: bs) :
        ∃ cs₁ cs₂, c :: cs = cs₁ ++ .constant w :: cs₂ ∧ oldOf as = cs₁.flatMap Cell.text := by
      obtain ⟨cs₁, cs₂, rfl, hold⟩ := ih hr
      refine ⟨c :: cs₁, cs₂, rfl, ?_⟩
      have hone := @oldOf_cellSegs ints bools [c]
      rw [cellSegs, flatMap_singleton, flatMap_singleton] at hone
      rw [has, oldOf_append, hold, flatMap_cons, hone]
    rw [cellSegs, flatMap_cons] at h
    cases c with
    | keep t =>
      obtain ⟨r, has, hr⟩ := exists_append_of_not_mem (by simp [Cell.segs]) h
      exact hlater has hr
    | constant v =>
      cases as with
      | nil =>
        obtain ⟨hswap, -⟩ := cons.inj h
        cases hswap
        exact ⟨[], cs, rfl, rfl⟩
      | cons x r =>
        obtain ⟨rfl, hr⟩ := cons.inj h
        exact hlater rfl hr

section Tabulated

variable {s : Chars} {bools ints : List Chars}

theorem eligible_of_segs
    (h : cellSegs ints bools (cells s) = as ++ .swap w f :: bs) : Eligible s (oldOf as).length w := by
  obtain ⟨cs₁, cs₂, hcells, hold⟩ := exists_cells_of_segs h
  refine mem_placed_cells.1 ?_
  rw [hcells, placed_append, hold, Nat.zero_add]
  exact mem_append_right _ mem_cons_self

theorem oldOf_cells (s : Chars) (ints bools : List Chars) : oldOf (cellSegs ints bools (cells s)) = s :=
  (oldOf_cellSegs _).trans (flatMap_text_cells s)

theorem swappable_cells (hname : ∀ p w, Eligible s p w → ¬AwaitsName s p) :
    Outline.Swappable ints bools (cellSegs ints bools (cells s)) := by
  intro as w f bs h
  have hw := eligible_of_segs h
  obtain ⟨-, hf⟩ := mem_cellSegs (h ▸ mem_append_right as mem_cons_self)
  have hs : s = oldOf as ++ (w ++ oldOf bs) := by
    rw [← oldOf_cells s ints bools, h, oldOf_append]
    rfl
  have hawaits := hname _ w hw
  rw [AwaitsName, hs, take_left] at hawaits
  rw [hs] at hw
  obtain ⟨hbefore, hafter⟩ := hw.boundaries
  exact ⟨hw.1, hf, hbefore, hafter, fun hcode hnil => Bool.eq_false_iff.2 fun h => hawaits ⟨hcode, hnil, h⟩⟩

/-! ## The place of the block -/

namespace Outline

theorem read_open_word (t : Chars) : (reader.read (t ++ ['\x7b'])).2.word = [] := by
  rcases fresh_read (t ++ ['\x7b']) with hnil | ⟨-, w, c, -, hname, hlast⟩
  · exact hnil
  · rw [getLast?_concat] at hlast
    cases hlast
    have hbrace : isNameChar '\x7b' = false := isNameChar_of_symbol (by decide) rfl
    rw [hbrace] at hname
    cases hname

theorem read_open_segs (h : Swappable ints bools ss)
    (hss : ss = as ++ .char '\x7b' :: bs) :
    reader.read (newOf as ++ ['\x7b']) = reader.read (oldOf as ++ ['\x7b']) := by
  have hcut : ss = (as ++ [.char '\x7b']) ++ bs := by
    rw [hss, append_assoc]
    rfl
  have hbeside := beside_segs h hcut
  have hold : oldOf (as ++ [.char '\x7b']) = oldOf as ++ ['\x7b'] := oldOf_append ..
  have hnew : newOf (as ++ [.char '\x7b']) = newOf as ++ ['\x7b'] := newOf_append ..
  rw [hold, hnew] at hbeside
  have hword := read_open_word (oldOf as)
  refine Prod.ext hbeside.1.symm ?_
  rcases hbeside.2 with halike | ⟨-, hbehind, -⟩
  · exact (halike.eq hword).symm
  · rw [← hbehind.2, ← hbehind.1, settle_of_nil hword]

/-- A brace in code opens a body or a block; in a comment or a literal it is a character of it. -/
theorem step_open (y : Mode × Outline) :
    (∃ z : Outline, reader.step y '\x7b' = (.code, z.settle.mark '\x7b')) ∨ (reader.step y '\x7b').1 = .line ∨
      (reader.step y '\x7b').1 = .block ∨ ∃ d z, reader.step y '\x7b' = (.quote d, hush z) := by
  have hmark : isMark '\x7b' := isMark_of_mem rfl
  obtain ⟨m, x⟩ := y
  cases m with
  | code => exact .inl ⟨x, step_mark hmark⟩
  | slash =>
    rw [step_slash (by decide) (by decide)]
    exact .inl ⟨_, step_mark hmark⟩
  | line => exact .inr (.inl rfl)
  | block => exact .inr (.inr (.inl rfl))
  | star => exact .inr (.inr (.inl rfl))
  | quote d =>
    refine .inr (.inr (.inr ⟨d, x, ?_⟩))
    cases d with
    | true => rfl
    | false => rfl
  | escape d => exact .inr (.inr (.inr ⟨d, x, rfl⟩))

theorem run_quote {d : Bool} (hx : x.hush = x) (ht : ∀ c ∈ t, isQuiet c) :
    reader.run (.quote d, x) t = (.quote d, x) := by
  induction t with
  | nil => rfl
  | cons c t ih =>
    obtain ⟨hc, ht⟩ := forall_mem_cons.1 ht
    simp only [isQuiet, Bool.and_eq_true, bne_iff_ne, Bool.not_eq_true'] at hc
    have hne : c ≠ quoteMark d := by
      rintro rfl
      cases d with
      | true => cases hc.2
      | false => cases hc.2
    rw [Reader.run_cons, Reader.step_of_ne_slash (by simp), Mode.next, if_neg hc.1.2, if_neg hne,
      Reader.take, quoted_reader,
      hx, ih ht]

theorem calm_open (z : Outline) : Calm (z.settle.mark '\x7b') where
  word := (word_mark _).trans z.word_settle
  awaits := rfl
  heads := rfl
  depth := Nat.succ_ne_zero _

theorem current_open {z : Outline} (h : (z.settle.mark '\x7b').depth = 1) :
    (z.settle.mark '\x7b').current = none ∨ (z.settle.mark '\x7b').current = some [] := by
  have hdepth : z.settle.depth = 0 := Nat.succ.inj h
  rw [mark, if_pos rfl]
  dsimp only
  rw [if_pos hdepth]
  split
  · exact .inr rfl
  · exact .inl rfl

/-- **The block behind a brace** that is not in a line comment comes into the body that the brace
opens, if it opens one, and otherwise nothing is made of it. -/
theorem run_block_open (hints : ∀ v ∈ ints, IsConstant v)
    (hbools : ∀ v ∈ bools, IsConstant v) (hne : accessorBlock ints bools ≠ []) {y : Mode × Outline}
    (hline : (reader.step y '\x7b').1 ≠ .line) :
    (∃ x, reader.step y '\x7b' = (.code, x) ∧ x.depth = 1 ∧ x.current = some [] ∧
        reader.run (.code, x) ('\n' :: accessorBlock ints bools) =
          (.code, { x with current := some (declaredNames ints bools) })) ∨
      ((reader.step y '\x7b').1 = .code → (reader.step y '\x7b').2.depth = 1 →
        (reader.step y '\x7b').2.current = none) ∧
        reader.run (reader.step y '\x7b') ('\n' :: accessorBlock ints bools) = reader.step y '\x7b' := by
  have hquiet := isQuiet_of_mem_accessorBlock hints hbools
  rcases step_open y with ⟨z, hz⟩ | hl | hb | ⟨d, z, hz⟩
  · have hrun := (calm_open z).run_accessorBlock hints hbools hne
    rw [hz]
    by_cases hdepth : (z.settle.mark '\x7b').depth = 1
    · rw [if_pos hdepth] at hrun
      rcases current_open hdepth with hnone | hsome
      · refine .inr ⟨fun _ _ => hnone, ?_⟩
        rw [hrun, hnone, Option.map_none, ← hnone]
      · refine .inl ⟨_, rfl, hdepth, hsome, ?_⟩
        rw [hrun, hsome]
        rfl
    · rw [if_neg hdepth] at hrun
      exact .inr ⟨fun _ h => absurd h hdepth, hrun⟩
  · exact absurd hl hline
  · refine .inr ⟨fun h => ?_, ?_⟩
    · rw [hb] at h
      cases h
    · have hy : reader.step y '\x7b' = (.block, (reader.step y '\x7b').2) := Prod.ext hb rfl
      rw [hy]
      refine run_block (fun hmem => ?_) _
      cases hquiet '*' hmem
  · rw [hz]
    exact .inr ⟨nofun, run_quote z.hush_hush hquiet⟩

end Outline

theorem contractBody?_cells (s : Chars) (ints bools : List Chars) :
    contractBody? s = none ∧ contractBody? (renderCells ints bools (cells s)) = none ∨
      ∃ as bs, cellSegs ints bools (cells s) = as ++ .char '\x7b' :: bs ∧
        contractBody? s = some ((oldOf as).length + 1) ∧
        contractBody? (renderCells ints bools (cells s)) = some ((newOf as).length + 1) := by
  have hplace := contractBody?_cellSegs s ints bools
  rwa [oldOf_cells, newOf_cellSegs] at hplace

/-- The accessors that the pass writes. -/
def introduced (s : Chars) : List Chars :=
  declaredNames (intTable (cells s)) (boolTable (cells s))

theorem isConstant_of_mem_tables (s : Chars) :
    (∀ v ∈ intTable (cells s), IsConstant v) ∧ ∀ v ∈ boolTable (cells s), IsConstant v := by
  have h := indexed_cells s
  refine ⟨fun v hv => ?_, fun v hv => ?_⟩
  · obtain ⟨-, p, hp⟩ := (h.ints.mem_iff v).1 hv
    exact hp.1
  · obtain ⟨-, p, hp⟩ := (h.bools.mem_iff v).1 hv
    exact hp.1

theorem accessorsOf_renderCells (hname : ∀ p w, Eligible s p w → ¬AwaitsName s p) (ints bools : List Chars) :
    accessorsOf (renderCells ints bools (cells s)) = accessorsOf s := by
  obtain ⟨-, hrel⟩ := beside_segs (swappable_cells hname) (append_nil _).symm
  rw [oldOf_cells, newOf_cellSegs] at hrel
  rcases hrel with halike | ⟨-, hbehind, -⟩
  · exact (congrArg bodies halike.clear).symm
  · exact (congrArg bodies hbehind.2).symm

theorem accessorBlock_eq_nil (h : accessorBlock ints bools = []) :
    declaredNames ints bools = [] := by
  cases ints with
  | cons v vs => simp [accessorBlock, accessorLines, tableLines] at h
  | nil =>
    cases bools with
    | cons v vs => simp [accessorBlock, accessorLines, tableLines] at h
    | nil => rfl

theorem openedBody?_eq (hp : contractBody? s = some p) : openedBody? s =
      if (reader.read (s.take p)).1 = .code ∧ (reader.read (s.take p)).2.depth = 1 then
        (reader.read (s.take p)).2.current.map fun _ => (reader.read (s.take p)).2.closed.length
      else none := by
  rw [openedBody?, hp]
  rfl

section Inserted

variable (hname : ∀ p w, Eligible s p w → ¬AwaitsName s p)
    (hbrace : ∀ p, contractBody? s = some p → (reader.read (s.take p)).1 ≠ .line)

include hname hbrace

theorem accessorsOf_insertAccessors (hints : ∀ v ∈ ints, IsConstant v)
    (hbools : ∀ v ∈ bools, IsConstant v) :
    accessorsOf (insertAccessors (accessorBlock ints bools) (renderCells ints bools (cells s))) =
      (openedBody? s).elim (accessorsOf s) fun n =>
      (accessorsOf s).modify n (declaredNames ints bools ++ ·) := by
  have hrendered := accessorsOf_renderCells hname ints bools
  by_cases hne : accessorBlock ints bools = []
  · rw [insertAccessors, hne, if_pos (show isEmpty [] from rfl), hrendered, accessorBlock_eq_nil hne]
    cases openedBody? s with
    | none => rfl
    | some n =>
      show accessorsOf s = (accessorsOf s).modifyTailIdx n (modifyHead id)
      rw [modifyHead_id, modifyTailIdx_id]
  have hempty : (accessorBlock ints bools).isEmpty ≠ true := fun h => hne (isEmpty_iff.1 h)
  rcases contractBody?_cells s ints bools with ⟨hnone, hnone'⟩ | ⟨as, bs, hsegs, hat, hat'⟩
  · have hclosed : openedBody? s = none := by
      rw [openedBody?, hnone]
      rfl
    rw [insertAccessors, if_neg hempty, hnone', hclosed]
    exact hrendered
  have hsource : s.take ((oldOf as).length + 1) = oldOf as ++ ['\x7b'] := by
    have hold : oldOf (as ++ .char '\x7b' :: bs) = oldOf as ++ ['\x7b'] ++ oldOf bs := by
      rw [oldOf_append, append_assoc]
      rfl
    rw [← oldOf_cells s ints bools, hsegs, hold]
    exact take_left' length_append
  have hnew : renderCells ints bools (cells s) = newOf as ++ ['\x7b'] ++ newOf bs := by
    rw [← newOf_cellSegs, hsegs, newOf_append, append_assoc]
    rfl
  have hlen : (newOf as ++ ['\x7b']).length = (newOf as).length + 1 := length_append
  have hinserted : insertAccessors (accessorBlock ints bools) (renderCells ints bools (cells s)) =
      newOf as ++ ['\x7b'] ++ ('\n' :: accessorBlock ints bools ++ newOf bs) := by
    rw [insertAccessors, if_neg hempty, hat', hnew]
    dsimp only
    rw [take_left' hlen, drop_left' hlen, append_assoc]
  -- the reading behind the brace, which is the same in both texts
  have hopen : reader.read (newOf as ++ ['\x7b']) =
      reader.step (reader.read (oldOf as)) '\x7b' := by
    rw [read_open_segs (swappable_cells hname) hsegs, read_append]
    rfl
  have hopened := openedBody?_eq hat
  have hmode := hbrace _ hat
  rw [hsource, read_append, run_cons, run_nil] at hopened hmode
  rw [accessorsOf, hinserted, read_append, hopen, run_append]
  rw [accessorsOf, hnew, read_append, hopen] at hrendered
  rcases run_block_open hints hbools hne hmode with ⟨x, hx, hdepth, hcurrent, hrun⟩ | ⟨hnone, hrun⟩
  · rw [hx] at hopened hrendered ⊢
    have hn : openedBody? s = some x.closed.length := by
      rw [hopened, if_pos ⟨rfl, hdepth⟩, hcurrent]
      rfl
    have hahead : Outline.Ahead (declaredNames ints bools) x.closed.length x
        { x with current := some (declaredNames ints bools) } :=
      .inr ⟨rfl, by rw [hdepth]; exact Nat.one_ne_zero, [], hcurrent, by rw [append_nil]⟩
    rw [hrun, (keeps_ahead.run hahead .code (newOf bs)).2.bodies, hrendered, hn]
    rfl
  · have hn : openedBody? s = none := by
      rw [hopened]
      split
      · rename_i hcode
        rw [hnone hcode.1 hcode.2]
        rfl
      · rfl
    rw [hrun, hrendered, hn]
    rfl

theorem accessorsOf_tabulate :
    accessorsOf (tabulate s) =
      (openedBody? s).elim (accessorsOf s) fun n => (accessorsOf s).modify n (introduced s ++ ·) := by
  obtain ⟨hints, hbools⟩ := isConstant_of_mem_tables s
  have htidy : accessorsOf (tabulate s) =
      accessorsOf (insertAccessors (accessorBlock (intTable (cells s)) (boolTable (cells s)))
        (renderCells (intTable (cells s)) (boolTable (cells s)) (cells s))) := by
    rw [tabulate_eq]
    exact congrArg (fun y : Mode × Outline => y.2.bodies) read_tidyNewlines
  rw [htidy, accessorsOf_insertAccessors hname hbrace hints hbools, introduced]

end Inserted

theorem lt_of_openedBody? {n : Nat} (h : openedBody? s = some n) : n < (accessorsOf s).length := by
  cases hp : contractBody? s with
  | none =>
    rw [openedBody?, hp] at h
    cases h
  | some p =>
    rw [openedBody?_eq hp] at h
    split at h
    · rename_i hopen
      obtain ⟨names, hcurrent, hn⟩ := Option.map_eq_some_iff.1 h
      have hahead : Outline.Ahead [] n (reader.read (s.take p)).2 (reader.read (s.take p)).2 :=
        .inr ⟨hn.symm, by rw [hopen.2]; exact Nat.one_ne_zero, names, hcurrent, by rw [nil_append, ← hcurrent]⟩
      have hend := (keeps_ahead.run hahead (reader.read (s.take p)).1 (s.drop p)).2.lt_length
      have hread : reader.run (reader.read (s.take p)) (s.drop p) = reader.read s := by
        rw [← read_append, take_append_drop]
      rwa [hread] at hend
    · cases h

end Tabulated

/-! ## Calls with their accessors -/

/-- The contract or library `n` declares the accessor of a constant and the function that builds its table. -/
def Declares (t : Chars) (n : Nat) (w : Chars) : Prop :=
  ∃ names, (accessorsOf t)[n]? = some names ∧ getterName w ∈ names ∧ tableName w ∈ names

instance (t : Chars) (n : Nat) (w : Chars) : Decidable (Declares t n w) :=
  decidable_of_iff ((accessorsOf t)[n]?.any (fun names => names.contains
    (getterName w) && names.contains (tableName w)) = true)
    (by simp [Declares, Option.any_eq_true])

theorem mem_introduced (h : Eligible s p w) :
    getterName w ∈ introduced s ∧ tableName w ∈ introduced s := by
  have hindexed := indexed_cells s
  unfold introduced declaredNames namesFor getterName tableName
  by_cases htruth : (truthWord? w).isSome
  · have hmem : w ∈ boolTable (cells s) := (hindexed.bools.mem_iff w).2 ⟨htruth, p, h⟩
    have hne : (boolTable (cells s)).isEmpty ≠ true := fun hnil => by
      rw [isEmpty_iff.1 hnil] at hmem
      cases hmem
    rw [if_pos htruth, if_pos htruth, if_neg hne]
    exact ⟨mem_append_right _ (.tail _ mem_cons_self), mem_append_right _ mem_cons_self⟩
  · have hmem : w ∈ intTable (cells s) := (hindexed.ints.mem_iff w).2 ⟨by simpa using htruth, p, h⟩
    have hne : (intTable (cells s)).isEmpty ≠ true := fun hnil => by
      rw [isEmpty_iff.1 hnil] at hmem
      cases hmem
    rw [if_neg htruth, if_neg htruth, if_neg hne]
    exact ⟨mem_append_left _ (.tail _ mem_cons_self), mem_append_left _ mem_cons_self⟩

/-- **Which calls find their accessors.** Let no constant stand where the name of a function is
awaited, and let the first brace behind the first word `contract` not be in a line comment. Then
the pass declares its accessors in the body that this brace opens, if it opens one in code, and
nowhere else. So the call for a constant in the body of a contract or library finds its accessor
and the table there exactly if this is the body that was opened, or had them before. -/
theorem calls_find_accessors_iff {s : Chars} (hname : ∀ p w, Eligible s p w → ¬AwaitsName s p)
    (hbrace : ∀ p, contractBody? s = some p → (reader.read (s.take p)).1 ≠ .line) :
    accessorsOf (tabulate s) =
        (openedBody? s).elim (accessorsOf s) (fun n => (accessorsOf s).modify n (introduced s ++ ·)) ∧
      ∀ p w n, Eligible s p w → bodyAt s p = some n →
        (Declares (tabulate s) n w ↔ openedBody? s = some n ∨ Declares s n w) := by
  have haccessors := accessorsOf_tabulate hname hbrace
  refine ⟨haccessors, fun p w n hw _ => ?_⟩
  rw [Declares, haccessors]
  by_cases hopened : openedBody? s = some n
  · obtain ⟨hgetter, htable⟩ := mem_introduced hw
    have hlt := lt_of_openedBody? hopened
    refine ⟨fun _ => .inl hopened, fun _ => ⟨introduced s ++ (accessorsOf s)[n], ?_, ?_, ?_⟩⟩
    · rw [hopened, Option.elim_some, List.getElem?_modify_eq, List.getElem?_eq_getElem hlt]
      rfl
    · exact List.mem_append_left _ hgetter
    · exact List.mem_append_left _ htable
  · have hsame : ((openedBody? s).elim (accessorsOf s) fun k => (accessorsOf s).modify k
        (introduced s ++ ·))[n]? =
        (accessorsOf s)[n]? := by
      cases hk : openedBody? s with
      | none => rfl
      | some k =>
        have hne : k ≠ n := fun h => hopened (h ▸ hk)
        exact List.getElem?_modify_ne _ _ hne
    rw [hsame]
    exact ⟨.inr, fun h => h.resolve_left hopened⟩

theorem not_awaitsName_of_all
    (h : ((placed Cell.text 0 (cells s)).all fun x => decide ¬AwaitsName s x.1) = true) {p : Nat}
    (hw : Eligible s p w) : ¬AwaitsName s p :=
  of_decide_eq_true (all_eq_true.1 h _ (mem_placed_cells.2 hw))

theorem ne_line_of_contractBody? (h : contractBody? s = some p)
    (hmode : (reader.read (s.take p)).1 = .code) {q : Nat} (hq : contractBody? s = some q) :
    (reader.read (s.take q)).1 ≠ .line := by
  rw [h] at hq
  cases hq
  rw [hmode]
  exact nofun

def contractAndLibrary : Chars :=
  "contract A\x7buint a=1;\x7dlibrary L\x7bbool b=true;\x7d".toList

/-- The constant of the contract finds its accessor, that of the library does not. -/
theorem accessors_stand_in_the_contract :
    ((∀ p w, Eligible contractAndLibrary p w → ¬AwaitsName contractAndLibrary p) ∧
        ∀ p, contractBody? contractAndLibrary = some p →
        (reader.read (contractAndLibrary.take p)).1 ≠ .line) ∧
      (Eligible contractAndLibrary 18 ['1'] ∧ Declares (tabulate contractAndLibrary) 0 ['1']) ∧
      Eligible contractAndLibrary 38 "true".toList ∧
      ¬Declares (tabulate contractAndLibrary) 1 "true".toList := by
  have hplaces : (18, .constant ['1']) ∈ placed Cell.text 0 (cells contractAndLibrary) ∧
      (38, .constant "true".toList) ∈ placed Cell.text 0 (cells contractAndLibrary) ∧
      ((placed Cell.text 0 (cells contractAndLibrary)).all
        fun x => decide ¬AwaitsName contractAndLibrary x.1) = true := by
    decide +kernel
  have hreading : contractBody? contractAndLibrary = some 11 ∧
      (reader.read (contractAndLibrary.take 11)).1 = .code ∧ openedBody? contractAndLibrary = some 0 ∧
      bodyAt contractAndLibrary 18 = some 0 ∧ bodyAt contractAndLibrary 38 = some 1 ∧
      ¬Declares contractAndLibrary 1 "true".toList := by
    decide +kernel
  obtain ⟨hone, htrue, hawaits⟩ := hplaces
  obtain ⟨hbody, hcode, hopened, hfirst, hsecond, hnone⟩ := hreading
  have hname (p : Nat) (w : Chars) : Eligible contractAndLibrary p w → ¬AwaitsName contractAndLibrary p :=
    not_awaitsName_of_all hawaits
  have hbrace (p : Nat) : contractBody? contractAndLibrary = some p →
      (reader.read (contractAndLibrary.take p)).1 ≠ .line := ne_line_of_contractBody? hbody hcode
  have hfind := (calls_find_accessors_iff hname hbrace).2
  rw [mem_placed_cells] at hone htrue
  refine ⟨⟨hname, hbrace⟩, ⟨hone, (hfind _ _ _ hone hfirst).2 (.inl hopened)⟩, htrue, fun h => ?_⟩
  rcases (hfind _ _ _ htrue hsecond).1 h with h | h
  · rw [hopened] at h
    cases h
  · exact hnone h

def twoContracts : Chars :=
  "contract A\x7b\x7dcontract B\x7buint b=1;\x7d".toList

def bracedRemark : Chars :=
  "// contract \x7b x\ncontract A\x7buint a=1;\x7d".toList

/-- The accessors are declared in the first of two contracts, and the second one, with the call,
has none. Behind a brace in a line comment they come before the contract, and the rest of the
comment stands on a line of its own, as code. -/
theorem accessors_miss_the_second_contract :
    (Eligible twoContracts 30 ['1'] ∧ bodyAt twoContracts 30 = some 1 ∧
      accessorsOf (tabulate twoContracts) = [["__const_ints".toList, "__get_int".toList], []]) ∧
    Eligible bracedRemark 34 ['1'] ∧ bodyAt bracedRemark 34 = some 0 ∧
      (reader.read (bracedRemark.take 13)).1 = .line ∧
      "\x7d\n x\ncontract A\x7buint a=__get_int(0);\x7d".toList <:+ tabulate bracedRemark := by
  have hplaces : (30, .constant ['1']) ∈ placed Cell.text 0 (cells twoContracts) ∧
      ((placed Cell.text 0 (cells twoContracts)).all fun x => decide ¬AwaitsName twoContracts x.1) = true ∧
      introduced twoContracts = ["__const_ints".toList, "__get_int".toList] := by
    decide +kernel
  have hreading : contractBody? twoContracts = some 11 ∧
      (reader.read (twoContracts.take 11)).1 = .code ∧
      openedBody? twoContracts = some 0 ∧ bodyAt twoContracts 30 = some 1 ∧
      accessorsOf twoContracts = [[], []] := by
    decide +kernel
  obtain ⟨hone, hawaits, hintroduced⟩ := hplaces
  obtain ⟨hbody, hcode, hopened, hsecond, hempty⟩ := hreading
  have hremark : (34, .constant ['1']) ∈ placed Cell.text 0 (cells bracedRemark) := by decide +kernel
  refine ⟨⟨mem_placed_cells.1 hone, hsecond, ?_⟩, mem_placed_cells.1 hremark, by decide +kernel⟩
  rw [accessorsOf_tabulate (fun p w => not_awaitsName_of_all hawaits)
    fun p => ne_line_of_contractBody? hbody hcode,
    hopened, hempty, hintroduced]
  rfl

end Obscura.Literal
