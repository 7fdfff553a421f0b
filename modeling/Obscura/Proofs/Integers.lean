import Obscura.Proofs.Expression.Value
import Obscura.Proofs.Pragma

/-
  The integer pass on expressions. The lexemes of the pass are finer than the items
  of an expression, except that a number is one of both; what the pass writes for a
  number opens and closes with a bracket, so that the items around it are cut as
  before. The text is then read as the same tree with each number exchanged for a
  tree that counts up to it.
-/

namespace Obscura.Literal

open Text Number Expression List

variable {before : Option Char} {c : Char} {ds r s t u w : Chars} {i : Item} {is : List Item}
  {x : Expr} {n : Nat} {d : Disguise} {ls : List Lexeme}

/-! ## Lexemes of words -/

/-- No run of digits of a name stands behind a dollar sign and before another one or
the end of the name; `behind` says that a dollar sign stands before the text. -/
def isSolid : Bool → Chars → Bool
  | _, [] => true
  | behind, c :: s =>
    !(behind && c.isDigit && (s.dropWhile Char.isDigit).head?.all (· == '$')) &&
      isSolid (c == '$') s

theorem lexemes_plain (hq : c ≠ '"') (hq' : c ≠ '\'') (hd : isDecimal c = false) (hdot : c ≠ '.') :
    lexemes before (c :: t) = .char c :: lexemes (some c) t := by
  rw [lexemes, lexeme.eq_def, if_neg (not_or.2 ⟨hq, hq'⟩), if_neg (by simp [hd]), if_neg hdot]
  rfl

theorem lexeme_digit (hc : c.isDigit) (hdot : '.' ∉ t) : lexeme before c t =
      if isWordAt before || isWordAt (t.dropWhile isDecimal).head? then (.char c, t)
      else (.whole (c :: t.takeWhile isDecimal), t.dropWhile isDecimal) := by
  have hq : ¬(c = '"' ∨ c = '\'') := by
    rintro (rfl | rfl) <;> exact absurd hc (by decide)
  rw [lexeme.eq_def, if_neg hq, if_pos (isDecimal_of_isDigit hc)]
  dsimp only
  split
  · rename_i r hr
    exact absurd ((dropWhile_suffix _).mem (hr ▸ mem_cons_self)) hdot
  · rfl

theorem isDecimal_of_isNamePart (h : isNamePart c) : isDecimal c = c.isDigit :=
  isDecimal_eq_isDigit (toNat_lt_of_isNamePart h)

theorem isWord_of_isNamePart (h : isNamePart c) (hc : c ≠ '$') : isWord c := by
  rw [isWord_eq (toNat_lt_of_isNamePart h)]
  simpa [isNamePart, hc] using h

theorem dropWhile_isDecimal (hu : ∀ c ∈ u, isNamePart c) (hr : isWordAt r.head? = false) :
    (u ++ r).dropWhile isDecimal = u.dropWhile Char.isDigit ++ r := by
  induction u with
  | nil =>
    refine dropWhile_of_head? fun c hc => isDecimal_of_isWord_eq_false ?_
    rwa [show r.head? = some c from hc] at hr
  | cons c u ih =>
    rw [cons_append, dropWhile_cons, dropWhile_cons,
      isDecimal_of_isNamePart (hu c mem_cons_self), ih fun x hx => hu x (.tail _ hx)]
    split <;> rfl

theorem takeWhile_isDecimal (hu : ∀ c ∈ u, c.isDigit)
    (hr : isWordAt r.head? = false) : (u ++ r).takeWhile isDecimal = u := by
  refine takeWhile_run (fun c hc => isDecimal_of_isDigit (hu c hc)) fun c hc =>
    isDecimal_of_isWord_eq_false ?_
  rwa [hc] at hr

theorem lexemes_number (hds : ds ≠ []) (hd : ∀ c ∈ ds, c.isDigit) (hb : isWordAt before = false)
    (hr : isWordAt r.head? = false) (hdot : '.' ∉ r) :
    lexemes before (ds ++ r) = .whole ds :: lexemes (lastOr before ds) r := by
  obtain ⟨c, u, rfl⟩ := exists_cons_of_ne_nil hds
  have hu : ∀ x ∈ u, x.isDigit = true := fun x hx => hd x (.tail _ hx)
  have hdrop : (u ++ r).dropWhile isDecimal = r := by
    rw [dropWhile_isDecimal (fun x hx => isNamePart_of_isDigit (hu x hx)) hr,
      dropWhile_eq_nil_iff.2 hu, nil_append]
  have hno : '.' ∉ u ++ r := by
    rw [mem_append, not_or]
    exact ⟨fun h => absurd (hu _ h) (by decide), hdot⟩
  rw [cons_append, lexemes, lexeme_digit (hd c mem_cons_self) hno, hdrop, hb, hr,
    takeWhile_isDecimal hu hr]
  rfl

theorem lexemes_name {behind : Bool} (hw : ∀ c ∈ w, isNamePart c) (hs : isSolid behind w)
    (hb : isWordAt before = false → behind ∨ ∀ c, w.head? = some c → c.isDigit = false)
    (hr : isWordAt r.head? = false) (hdot : '.' ∉ r) :
    lexemes before (w ++ r) = w.map .char ++ lexemes (lastOr before w) r := by
  induction w generalizing before behind with
  | nil => rfl
  | cons c w ih =>
    have hc := hw c mem_cons_self
    have hw' : ∀ x ∈ w, isNamePart x = true := fun x hx => hw x (.tail _ hx)
    rw [isSolid, Bool.and_eq_true, Bool.not_eq_true'] at hs
    have hrest : lexemes (some c) (w ++ r) = w.map .char ++ lexemes (lastOr (some c) w) r := by
      refine ih hw' hs.2 fun hword => .inl ?_
      by_contra hne
      rw [isWordAt_some, isWord_of_isNamePart hc (by simpa using hne)] at hword
      cases hword
    have hlast : lastOr before (c :: w) = lastOr (some c) w := by
      cases w <;> rfl
    rw [cons_append, map_cons, cons_append, hlast, ← hrest]
    have hplain : ∀ x, isNamePart x = false → c ≠ x := by
      rintro x hx rfl
      rw [hc] at hx
      cases hx
    by_cases hdig : c.isDigit
    · have hno : '.' ∉ w ++ r := by
        rw [mem_append, not_or]
        exact ⟨fun h => absurd (hw' _ h) (by decide), hdot⟩
      rw [lexemes, lexeme_digit hdig hno, dropWhile_isDecimal hw' hr]
      have hword : (isWordAt before || isWordAt (w.dropWhile Char.isDigit ++ r).head?) := by
        cases hbefore : isWordAt before with
        | true => rfl
        | false =>
          rcases hb hbefore with rfl | h
          · -- the run of digits stands behind a dollar sign, so a word goes on behind it
            have hs := hs.1
            rw [hdig, Bool.true_and, Bool.true_and] at hs
            cases hrun : w.dropWhile Char.isDigit with
            | nil => simp [hrun] at hs
            | cons x v =>
              have hx : x ∈ w := (dropWhile_suffix _).mem (hrun ▸ mem_cons_self)
              have hx' : x ≠ '$' := by simpa [hrun] using hs
              exact isWord_of_isNamePart (hw' x hx) hx'
          · exact absurd (h c rfl) (by simp [hdig])
      rw [if_pos hword]
      rfl
    · refine lexemes_plain (hplain _ (by decide)) (hplain _ (by decide)) ?_ (hplain _ (by decide))
      rw [isDecimal_of_isNamePart hc]
      simpa using hdig

/-! ## Lexemes of items -/

/-- What an item is cut into by the pass. -/
def lexemesOf : Item → List Lexeme
  | .number ds => [.whole ds]
  | i => i.text.map .char

/-- The texts that the pass is to keep: no member, and no name with digits that
stand alone. -/
def isSolidItem : Item → Bool
  | .name w => isSolid false w
  | .member _ => false
  | _ => true

/-- A character that is a lexeme of its own wherever it stands. -/
def isLone (c : Char) : Bool :=
  c != '"' && c != '\'' && !isWord c && c != '.'

theorem isLone_text (m : Sign) : m.text.all isLone := by
  have hplain : ∀ c ∈ m.text, c.toNat < 128 ∧ c ∉ ['"', '\'', '.', '_'] ∧ c.isAlphanum = false := by
    refine forall_mem_of_all ?_
    cases m <;> decide
  refine all_eq_true.2 fun c hc => ?_
  obtain ⟨hascii, hnot, halnum⟩ := hplain c hc
  simp only [mem_cons, not_mem_nil, or_false, not_or] at hnot
  simp [isLone, isWord_eq hascii, halnum, hnot]

theorem isLone_blank (h : isBlank c) : [c].all isLone := by
  have hne : ∀ x, isBlank x = false → c ≠ x := by
    rintro x hx rfl
    rw [h] at hx
    cases hx
  simp [isLone, isWord_of_isBlank h, hne '"' (by decide), hne '\'' (by decide), hne '.' (by decide)]

theorem lexemes_lone (hu : u.all isLone) (before : Option Char) :
    lexemes before (u ++ r) = u.map .char ++ lexemes (lastOr before u) r := by
  induction u generalizing before with
  | nil => rfl
  | cons c u ih =>
    rw [all_cons, Bool.and_eq_true] at hu
    simp only [isLone, Bool.and_eq_true, bne_iff_ne, ne_eq, Bool.not_eq_true'] at hu
    obtain ⟨⟨⟨⟨hq, hq'⟩, hword⟩, hdot⟩, hu⟩ := hu
    have hlast : lastOr before (c :: u) = lastOr (some c) u := by
      cases u <;> rfl
    rw [cons_append, lexemes_plain hq hq' (isDecimal_of_isWord_eq_false hword) hdot, ih hu,
      hlast, map_cons, cons_append]

theorem isWordAt_lastOr (hne : u ≠ []) (hu : u.all isLone)
    (before : Option Char) : isWordAt (lastOr before u) = false := by
  have hlast := all_eq_true.1 hu _ (getLast_mem hne)
  simp only [isLone, Bool.and_eq_true, Bool.not_eq_true'] at hlast
  rw [lastOr, getLast?_eq_some_getLast hne]
  exact hlast.1.2

theorem isWordAt_of_lone (hne : u ≠ []) (hu : u.all isLone) :
    isWordAt (u ++ r).head? = false := by
  obtain ⟨c, v, rfl⟩ := exists_cons_of_ne_nil hne
  rw [all_cons, Bool.and_eq_true] at hu
  simp only [isLone, Bool.and_eq_true, Bool.not_eq_true'] at hu
  exact hu.1.1.2

theorem isWordAt_of_endsWord (hl : Lexed is)
    (hs : ∀ i ∈ is, isSolidItem i) (he : endsWord (textOf is).head?) :
    isWordAt (textOf is).head? = false := by
  cases is with
  | nil => rfl
  | cons i is =>
    rw [textOf_cons] at he ⊢
    have hpart : ∀ c u, isNamePart c → i.text = c :: u → False := by
      intro c u hc htext
      rw [htext] at he
      simp [endsWord, hc] at he
    cases i with
    | blank c =>
      exact isWordAt_of_lone (cons_ne_nil _ _) (isLone_blank hl.1)
    | number ds =>
      obtain ⟨c, u, rfl⟩ := exists_cons_of_ne_nil hl.1.1
      exact (hpart c u (isNamePart_of_isDigit (hl.1.2 c mem_cons_self)) rfl).elim
    | name w =>
      obtain ⟨c, u, rfl, hc, -⟩ := hl.1
      exact (hpart c u (isNamePart_of_isNameStart hc) rfl).elim
    | member w => exact absurd (hs _ mem_cons_self) Bool.false_ne_true
    | sign m => exact isWordAt_of_lone text_ne_nil (isLone_text m)

theorem mem_textOf (hl : Lexed is) (h : c ∈ textOf is) :
    isBlank c ∨ isNamePart c ∨ (∃ w, .member w ∈ is) ∨ ∃ m : Sign, c ∈ m.text := by
  induction is with
  | nil => cases h
  | cons i is ih =>
    rw [textOf_cons, mem_append] at h
    rcases h with h | h
    · cases i with
      | blank b => exact .inl (mem_singleton.1 h ▸ hl.1)
      | number ds => exact .inr (.inl (isNamePart_of_isDigit (hl.1.2 c h)))
      | name w => exact .inr (.inl (isNamePart_of_isName hl.1 h))
      | member w => exact .inr (.inr (.inl ⟨w, mem_cons_self⟩))
      | sign m => exact .inr (.inr (.inr ⟨m, h⟩))
    · rcases ih hl.2.2 h with h | h | ⟨w, h⟩ | h
      · exact .inl h
      · exact .inr (.inl h)
      · exact .inr (.inr (.inl ⟨w, .tail _ h⟩))
      · exact .inr (.inr (.inr h))

theorem not_mem_textOf (hl : Lexed is) (hs : ∀ i ∈ is, isSolidItem i)
    (hc : isBlank c = false ∧ isNamePart c = false ∧ ∀ m : Sign, c ∉ m.text) : c ∉ textOf is := by
  intro h
  rcases mem_textOf hl h with h | h | ⟨w, h⟩ | ⟨m, h⟩
  · exact absurd h (by simp [hc.1])
  · exact absurd h (by simp [hc.2.1])
  · exact absurd (hs _ h) Bool.false_ne_true
  · exact hc.2.2 m h

/-- **The lexemes of items** are those of each item, one after the other. -/
theorem lexemes_textOf (hl : Lexed is) (hs : ∀ i ∈ is, isSolidItem i) (before : Option Char)
    (hb : isWordAt before → endsWord (textOf is).head?) :
    lexemes before (textOf is) = is.flatMap lexemesOf := by
  induction is generalizing before with
  | nil => rw [textOf, flatMap_nil, lexemes, flatMap_nil]
  | cons i is ih =>
    have hs' : ∀ j ∈ is, isSolidItem j = true := fun j hj => hs j (.tail _ hj)
    have hdot : '.' ∉ textOf is :=
      not_mem_textOf hl.2.2 hs' ⟨by decide, by decide, fun m => by cases m <;> decide⟩
    have hsi := hs i mem_cons_self
    rw [textOf_cons] at hb ⊢
    rw [flatMap_cons]
    cases i with
    | blank c =>
      have hc := isLone_blank hl.1
      have hlast := isWordAt_lastOr (cons_ne_nil c []) hc before
      exact (lexemes_lone hc before).trans
        (congrArg _ (ih hl.2.2 hs' _ fun h => absurd h (by simp [hlast])))
    | number ds =>
      have hbefore : isWordAt before = false := by
        obtain ⟨c, u, rfl⟩ := exists_cons_of_ne_nil hl.1.1
        by_contra h
        have := hb (by simpa using h)
        simp [Item.text, endsWord, isNamePart_of_isDigit (hl.1.2 c mem_cons_self)] at this
      exact (lexemes_number hl.1.1 hl.1.2 hbefore (isWordAt_of_endsWord hl.2.2 hs' hl.2.1) hdot).trans
        (congrArg _ (ih hl.2.2 hs' _ fun _ => hl.2.1))
    | name w =>
      have hparts : ∀ c ∈ w, isNamePart c = true := fun c hc => isNamePart_of_isName hl.1 hc
      have hstart : ∀ c, w.head? = some c → c.isDigit = false := by
        obtain ⟨c, u, rfl, hc, -⟩ := hl.1
        rintro x ⟨⟩
        exact isDigit_of_isNameStart hc
      exact (lexemes_name hparts hsi (fun _ => .inr hstart)
        (isWordAt_of_endsWord hl.2.2 hs' hl.2.1) hdot).trans
        (congrArg _ (ih hl.2.2 hs' _ fun _ => hl.2.1))
    | member w => exact absurd hsi Bool.false_ne_true
    | sign m =>
      have hlast := isWordAt_lastOr text_ne_nil (isLone_text m) before
      exact (lexemes_lone (isLone_text m) before).trans
        (congrArg _ (ih hl.2.2 hs' _ fun h => absurd h (by simp [hlast])))

/-! ## No directives -/

theorem sign_of_slash_mem (hi : i.Formed) (h : '/' ∈ i.text) : ∃ m, i = .sign m := by
  cases i with
  | blank c => exact absurd (mem_singleton.1 h ▸ hi : isBlank '/') (by decide)
  | number ds => exact absurd (hi.2 _ h) (by decide)
  | name w => exact absurd (isNamePart_of_isName hi h) (by decide)
  | member w =>
    rcases mem_cons.1 h with h | h
    · exact absurd h (by decide)
    · exact absurd (isNamePart_of_isName hi h) (by decide)
  | sign m => exact ⟨m, rfl⟩

theorem slashes_not_suffix (hl : Lexed is) : ¬ '/' :: '/' :: r <:+ textOf is := by
  induction is with
  | nil =>
    intro h
    cases suffix_nil.1 h
  | cons i is ih =>
    rintro ⟨x, hx⟩
    rw [textOf_cons] at hx
    rcases append_eq_append_iff.1 hx with ⟨a, hi, ha⟩ | ⟨a, -, ha⟩
    · match a, ha with
      | [], ha => exact ih hl.2.2 ⟨[], ha⟩
      | [c], ha =>
        -- a sign before the second slash would go on with it
        obtain ⟨rfl, hrest⟩ := cons.inj ha
        obtain ⟨m, rfl⟩ := sign_of_slash_mem hl.1 (by rw [hi]; simp)
        have hlast : m.text.getLast? = some '/' := by
          rw [show m.text = x ++ ['/'] from hi, getLast?_concat]
        have hdiv : m = .divide := by
          cases m <;> first | rfl | exact absurd hlast (by decide)
        have hends := hl.2.1
        rw [hdiv, show textOf is = '/' :: r from hrest.symm] at hends
        exact absurd hends (show ¬(Item.sign .divide).ends (some '/') = true by decide)
      | _ :: _ :: b, ha =>
        cases ha
        obtain ⟨m, rfl⟩ := sign_of_slash_mem hl.1 (by rw [hi]; simp)
        have htwo : 2 ≤ m.text.count '/' := by
          rw [show m.text = x ++ '/' :: '/' :: b from hi, count_append, count_cons_self,
            count_cons_self]
          omega
        have hone : m.text.count '/' ≤ 1 := by cases m <;> decide
        omega
    · exact ih hl.2.2 ⟨a, ha.symm⟩

theorem maskWith_of_none {find? : Chars → Option Chars} {s : Chars}
    (h : ∀ t, t <:+ s → find? t = none) (lineStart : Bool) :
    maskWith find? n lineStart s = (s, []) := by
  induction s generalizing lineStart with
  | nil => rw [maskWith]
  | cons c t ih =>
    have hfind : (if lineStart then find? (c :: t) else none) = none := by
      rw [h _ suffix_rfl, ite_self]
    rw [maskWith, hfind]
    dsimp only
    rw [ih fun u hu => h u (hu.trans (suffix_cons c t))]

theorem maskDirectives_textOf (hl : Lexed is)
    (hs : ∀ i ∈ is, isSolidItem i) : maskDirectives (textOf is) = (textOf is, []) := by
  have hlicence : ∀ t, t <:+ textOf is → licence? t = none := by
    intro t ht
    unfold licence?
    split
    · rename_i r hr
      exact absurd (hr ▸ (dropWhile_suffix isBlank).trans ht) (slashes_not_suffix hl)
    · rfl
  have hversion : ∀ t, t <:+ textOf is → version? t = none := by
    intro t ht
    rw [Option.eq_none_iff_forall_ne_some]
    intro r hr
    obtain ⟨u, hu, -⟩ := exists_eq_append_semicolon hr
    exact not_mem_textOf hl hs ⟨by decide, by decide, fun m => by cases m <;> decide⟩
      (ht.mem (hu ▸ mem_append_right u mem_cons_self))
  unfold maskDirectives
  rw [maskWith_of_none hlicence]
  dsimp only
  rw [maskWith_of_none hversion]
  rfl

/-! ## Reading and writing numbers -/

theorem digitValues_of_digits (hd : ∀ c ∈ ds, c.isDigit)
    {afterDigit : Bool} (hne : ds = [] → afterDigit) :
    digitValues afterDigit ds = some (ds.map fun c => c.toNat - 48) := by
  induction ds generalizing afterDigit with
  | nil => rw [digitValues, hne rfl]; rfl
  | cons c s ih =>
    have hc := hd c mem_cons_self
    have hlow : c ≠ '_' := by
      rintro rfl
      exact absurd hc (by decide)
    rw [digitValues.eq_def]
    dsimp only
    rw [if_neg hlow, decimalValue?, if_pos hc]
    dsimp only
    rw [ih (fun x hx => hd x (.tail _ hx)) fun _ => rfl]
    rfl

theorem ofDigitValues_map :
    ofDigitValues (ds.map fun c => c.toNat - 48) = numeral ds := by
  have hfold : ∀ n, (ds.map fun c => c.toNat - 48).foldl (fun n d => n * 10 + d) n =
      Nat.ofDigitChars 10 ds n := by
    induction ds with
    | nil => intro n; rfl
    | cons c s ih =>
      intro n
      rw [map_cons, foldl_cons, ih, Nat.ofDigitChars_cons, Nat.mul_comm]
      rfl
  exact hfold 0

theorem isPadding_of_isDigit (h : c.isDigit) : isPadding c = false := by
  rw [isPadding, isBlank_of_isNamePart (isNamePart_of_isDigit h)]
  rfl

theorem unpad_of_ends (hhead : ∀ c ∈ s.head?, isPadding c = false)
    (hlast : ∀ c ∈ s.getLast?, isPadding c = false) : unpad s = s := by
  rw [unpad, dropWhile_of_head? hhead, dropWhile_of_head? (by rwa [head?_reverse]), reverse_reverse]

theorem readNat?_of_digits (hne : ds ≠ []) (hd : ∀ c ∈ ds, c.isDigit) :
    readNat? ds = if ds.length ≤ maxDigits then some (numeral ds) else none := by
  rw [readNat?, digitValues_of_digits hd fun h => absurd h hne]
  dsimp only
  rw [length_map, ofDigitValues_map]

theorem readInt?_of_digits (hne : ds ≠ []) (hd : ∀ c ∈ ds, c.isDigit) :
    readInt? ds = if ds.length ≤ maxDigits then some (numeral ds : Int) else none := by
  have hread : readInt? ds = (readNat? ds).map fun n => (n : Int) := by
    unfold readInt?
    rw [unpad_of_ends (fun c hc => isPadding_of_isDigit (hd c (mem_of_mem_head? hc)))
      fun c hc => isPadding_of_isDigit (hd c (mem_of_getLast? hc))]
    split
    · exact absurd (hd _ mem_cons_self) (by decide)
    · exact absurd (hd _ mem_cons_self) (by decide)
    · rfl
  rw [hread, readNat?_of_digits hne hd]
  split <;> rfl

theorem readInt?_render (i : Int) :
    readInt? (render i) = if (digits i.natAbs).length ≤ maxDigits then some i else none := by
  have hne := digits_ne_nil i.natAbs
  have hd := isDigit_digits i.natAbs
  unfold render
  split
  · have hlast : ('-' :: digits i.natAbs).getLast? = (digits i.natAbs).getLast? := by
      rw [getLast?_cons, getLast?_eq_some_getLast hne]
      rfl
    have hunpad : unpad ('-' :: digits i.natAbs) = '-' :: digits i.natAbs := by
      refine unpad_of_ends ?_ fun c hc => isPadding_of_isDigit (hd c (mem_of_getLast? (hlast ▸ hc)))
      rintro c ⟨⟩
      rfl
    rw [readInt?.eq_def, hunpad]
    show (readNat? (digits i.natAbs)).map (fun n => -(n : Int)) = _
    rw [readNat?_of_digits hne hd, numeral_digits]
    split
    · show some (-(i.natAbs : Int)) = some i
      exact congrArg some (by omega)
    · rfl
  · rw [readInt?_of_digits hne hd, numeral_digits]
    split
    · exact congrArg some (by omega)
    · rfl

namespace Disguise

/-- The items of the drawn part. -/
def items : Disguise → List Item
  | .sum a b => [.number (digits a), .blank ' ', .sign .plus, .blank ' ', .number (digits b)]
  | .product a b => [.number (digits a), .blank ' ', .sign .times, .blank ' ', .number (digits b)]
  | .mixed a b c =>
    [.number (digits a), .blank ' ', .sign .plus, .blank ' ', .sign .openRound,
      .number (digits b), .blank ' ', .sign .times, .blank ' ', .number (digits c),
      .sign .closeRound]

/-- The tree of the drawn part. -/
def tree : Disguise → Expr
  | .sum a b => .binary .plus (.number (digits a)) (.number (digits b))
  | .product a b => .binary .times (.number (digits a)) (.number (digits b))
  | .mixed a b c =>
    .binary .plus (.number (digits a))
      (.group (.binary .times (.number (digits b)) (.number (digits c))))

/-- The sign of the term that makes up the difference. -/
def restSign (d : Disguise) (n : Nat) : Sign :=
  if d.value ≤ n then .plus else .minus

def rest (d : Disguise) (n : Nat) : Nat :=
  ((n : Int) - d.value).natAbs

def wholeItems (d : Disguise) (n : Nat) : List Item :=
  .sign .openRound :: (d.items ++ .blank ' ' :: .sign (d.restSign n) :: .blank ' ' ::
    .number (digits (d.rest n)) :: [.sign .closeRound])

def wholeTree (d : Disguise) (n : Nat) : Expr :=
  .binary (d.restSign n) d.tree (.number (digits (d.rest n)))

theorem steady_items (d : Disguise) : Steady d.items := by
  cases d with
  | sum a b => exact (steady_digits a).operator (steady_digits b) .plus
  | product a b => exact (steady_digits a).operator (steady_digits b) .times
  | mixed a b c =>
    exact (steady_digits a).operator ((steady_digits b).operator (steady_digits c) .times).group .plus

theorem lexed_wholeItems (d : Disguise) (n : Nat) (hl : Lexed is) : Lexed (d.wholeItems n ++ is) := by
  have := (d.steady_items.operator (steady_digits (d.rest n)) (d.restSign n)).lexed_group hl
  simpa [wholeItems] using this

theorem text_items (d : Disguise) : textOf d.items = d.text := by
  cases d <;> simp [items, text, textOf, Item.text, Sign.text]

theorem text_wholeItems (d : Disguise) (n : Nat) : textOf (d.wholeItems n) = d.apply n := by
  have hsign : (if (0 : Int) ≤ n - d.value then " + " else " - ").toList =
      ' ' :: ((d.restSign n).text ++ [' ']) := by
    by_cases h : d.value ≤ n
    · rw [restSign, if_pos h, if_pos (by omega)]
      rfl
    · rw [restSign, if_neg h, if_neg (by omega)]
      rfl
  have hitems := d.text_items
  rw [apply, hsign, ← hitems]
  simp [wholeItems, textOf, Item.text, Sign.text, rest]

theorem tokens_wholeItems (d : Disguise) (n : Nat) :
    tokensOf (d.wholeItems n) = (Expr.group (d.wholeTree n)).tokens := by
  cases d <;> rfl

theorem leveled_wholeTree (d : Disguise) (n : Nat) : (d.wholeTree n).Leveled 0 := by
  have hsum : d.tree.Leveled 10 := by
    cases d <;> simp [tree, Expr.Leveled, Sign.level?]
  have hlevel : (d.restSign n).level? = some 10 := by
    unfold restSign
    split <;> rfl
  exact ⟨10, hlevel, Nat.zero_le _, hsum, trivial⟩

theorem natural?_tree : d.tree.natural? = some d.value := by
  cases d <;> simp [tree, value, Expr.natural?, numeral_digits]

/-- A disguise counts up to its number, and never below zero on the way. -/
theorem natural?_wholeTree (d : Disguise) (n : Nat) : (d.wholeTree n).natural? = some n := by
  by_cases h : d.value ≤ n
  · have hrest : d.value + d.rest n = n := by unfold rest; omega
    rw [wholeTree, restSign, if_pos h]
    simp only [Expr.natural?, natural?_tree, numeral_digits, hrest]
  · have hrest : d.rest n ≤ d.value ∧ d.value - d.rest n = n := by unfold rest; omega
    rw [wholeTree, restSign, if_neg h]
    simp only [Expr.natural?, natural?_tree, numeral_digits, if_pos hrest.1, hrest.2]

end Disguise

/-! ## The pass -/

theorem disguiseLexemes_cons (l : Lexeme) (d : Draws) :
    (disguiseLexemes (l :: ls) d).1 =
      (disguiseLexeme l d).1 ++ (disguiseLexemes ls (disguiseLexeme l d).2).1 := by
  unfold disguiseLexemes
  rw [mapM_cons]
  rfl

theorem disguiseLexemes_chars (u : Chars) (ls : List Lexeme) (d : Draws) :
    (disguiseLexemes (u.map .char ++ ls) d).1 = u ++ (disguiseLexemes ls d).1 := by
  induction u with
  | nil => rfl
  | cons c u ih =>
    rw [map_cons, cons_append, disguiseLexemes_cons]
    exact congrArg (c :: ·) ih

/-- A number stays if it has too many digits to be read; any other is written in
some disguise. -/
theorem disguiseLexeme_whole (hne : ds ≠ []) (hd : ∀ c ∈ ds, c.isDigit) (d : Draws) :
    (maxDigits < ds.length ∧ (disguiseLexeme (.whole ds) d).1 = ds) ∨
      ∃ g : Disguise, (disguiseLexeme (.whole ds) d).1 = g.apply (numeral ds) := by
  rw [disguiseLexeme, readInt?_of_digits hne hd]
  split
  · exact .inr ⟨(Disguise.drawn d).1, rfl⟩
  · rename_i h
    exact .inl ⟨by omega, rfl⟩

def StandsFor (i : Item) (js : List Item) : Prop :=
  match i with
  | .number ds => (maxDigits < ds.length ∧ js = [.number ds]) ∨
      ∃ g : Disguise, js = g.wholeItems (numeral ds)
  | i => js = [i]

/-- The text is that of items which stand for the given ones, and is cut into them.
It starts as before, or with a bracket. -/
def Passed (is : List Item) (t : Chars) : Prop :=
  ∃ jss, List.Forall₂ StandsFor is jss ∧ textOf jss.flatten = t ∧ Lexed jss.flatten ∧
    (t.head? = (textOf is).head? ∨ t.head? = some '(')

theorem ends_openRound : i.ends (some '(') := by
  cases i with
  | sign m => cases m <;> rfl
  | _ => rfl

theorem Passed.keep (h : Passed is t)
    (hl : Lexed (i :: is)) (hi : StandsFor i [i]) : Passed (i :: is) (i.text ++ t) := by
  obtain ⟨jss, hf, rfl, hj, hhead⟩ := h
  refine ⟨[i] :: jss, .cons hi hf, rfl, ⟨hl.1, ?_, hj⟩, .inl ?_⟩
  · rcases hhead with h | h
    · exact h ▸ hl.2.1
    · exact h ▸ ends_openRound
  · obtain ⟨c, u, hc⟩ := exists_cons_of_ne_nil (text_ne_nil_of_formed hl.1)
    rw [textOf_cons, hc]
    rfl

theorem Passed.disguised (h : Passed is t) (g : Disguise) :
    Passed (.number ds :: is) (g.apply (numeral ds) ++ t) := by
  obtain ⟨jss, hf, rfl, hj, -⟩ := h
  refine ⟨g.wholeItems (numeral ds) :: jss, .cons (.inr ⟨g, rfl⟩) hf, ?_,
    g.lexed_wholeItems _ hj, .inr rfl⟩
  rw [flatten_cons, textOf_append, g.text_wholeItems]

theorem passed_disguiseLexemes (hl : Lexed is) (d : Draws) :
    Passed is (disguiseLexemes (is.flatMap lexemesOf) d).1 := by
  induction is generalizing d with
  | nil => exact ⟨[], .nil, rfl, trivial, .inl rfl⟩
  | cons i is ih =>
    have hchars (u : Chars) := disguiseLexemes_chars u (is.flatMap lexemesOf) d
    rw [flatMap_cons]
    cases i with
    | number ds =>
      have hrest := ih hl.2.2 (disguiseLexeme (.whole ds) d).2
      show Passed _ (disguiseLexemes (.whole ds :: is.flatMap lexemesOf) d).1
      rw [disguiseLexemes_cons]
      rcases disguiseLexeme_whole hl.1.1 hl.1.2 d with ⟨hlong, htext⟩ | ⟨g, htext⟩
      · rw [htext]
        exact hrest.keep hl (.inl ⟨hlong, rfl⟩)
      · rw [htext]
        exact hrest.disguised g
    | blank c => exact hchars _ ▸ (ih hl.2.2 d).keep hl rfl
    | name w => exact hchars _ ▸ (ih hl.2.2 d).keep hl rfl
    | member w => exact hchars _ ▸ (ih hl.2.2 d).keep hl rfl
    | sign m => exact hchars _ ▸ (ih hl.2.2 d).keep hl rfl

/-- What is read for a number behind the pass: the number itself if it is too long
to be read, and otherwise a bracket that counts up to it. -/
def CountsTo (ds : Chars) (x : Expr) : Prop :=
  (maxDigits < ds.length ∧ x = .number ds) ∨
    ∃ e, x = .group e ∧ e.Leveled 0 ∧ e.natural? = some (numeral ds)

theorem tokens_of_standsFor {jss : List (List Item)} (h : Forall₂ StandsFor is jss) :
    ∃ uss, Forall₂ (TokenExchanged CountsTo) (tokensOf is) uss ∧
      tokensOf jss.flatten = uss.flatten := by
  induction h with
  | nil => exact ⟨[], .nil, rfl⟩
  | @cons i js is jss hi _ ih =>
    obtain ⟨uss, hf, ht⟩ := ih
    have hsplit : tokensOf (js :: jss).flatten = tokensOf js ++ uss.flatten := by
      rw [flatten_cons, tokensOf, filter_append]
      exact congrArg _ ht
    cases i with
    | blank c =>
      refine ⟨uss, hf, ?_⟩
      rw [hsplit, hi]
      rfl
    | number ds =>
      refine ⟨tokensOf js :: uss, .cons ?_ hf, hsplit⟩
      rcases hi with ⟨hlong, rfl⟩ | ⟨g, rfl⟩
      · exact ⟨.number ds, .inl ⟨hlong, rfl⟩, rfl⟩
      · exact ⟨.group (g.wholeTree (numeral ds)),
          .inr ⟨_, rfl, g.leveled_wholeTree _, g.natural?_wholeTree _⟩, g.tokens_wholeItems _⟩
    | name w =>
      cases hi
      exact ⟨[.name w] :: uss, .cons rfl hf, hsplit⟩
    | member w =>
      cases hi
      exact ⟨[.member w] :: uss, .cons rfl hf, hsplit⟩
    | sign m =>
      cases hi
      exact ⟨[.sign m] :: uss, .cons rfl hf, hsplit⟩

theorem CountsTo.leveled (h : CountsTo ds x) (k : Nat) : x.Leveled k := by
  rcases h with ⟨-, rfl⟩ | ⟨e, rfl, he, -⟩
  · trivial
  · exact he

theorem CountsTo.value {D : Type} {M : Meaning D} {lit : Nat → D} (hM : M.Counts lit)
    (env : Chars → D) (h : CountsTo ds x) :
    x.value M env = M.number ds := by
  rcases h with ⟨-, rfl⟩ | ⟨e, rfl, -, he⟩
  · rfl
  · rw [hM.number]
    exact hM.value_of_natural? env he

/-- **The integer pass keeps the value of expressions.** Whatever is drawn, the text
is read as the same tree, with every number exchanged for a bracket that counts up
to it without going below zero; names keep their digits. -/
theorem disguiseIntegers_keeps_value {s : Chars} {e : Expr} (hread : read? s = some e)
    (hdot : '.' ∉ s) (hsolid : ∀ w ∈ e.names, isSolid false w = true) (d : Draws) :
    ∃ e', read? (disguiseIntegers s d).1 = some e' ∧ Exchanged CountsTo e e' ∧
      ∀ (D : Type) (M : Meaning D) (lit : Nat → D), M.Counts lit →
        ∀ env : Chars → D, e'.value M env = e.value M env := by
  obtain ⟨is, rfl, hl, htokens, hlevel⟩ := read?_eq_some_iff.1 hread
  have hs : ∀ i ∈ is, isSolidItem i = true := by
    intro i hi
    cases i with
    | name w =>
      refine hsolid w (mem_tokens_iff.1 ?_)
      rw [← htokens]
      exact List.mem_filter.2 ⟨hi, rfl⟩
    | member w => exact absurd (List.mem_flatMap.2 ⟨_, hi, List.mem_cons_self⟩) hdot
    | _ => rfl
  have hout : (disguiseIntegers (textOf is) d).1 =
      (disguiseLexemes (is.flatMap lexemesOf) d).1 := by
    rw [← lexemes_textOf hl hs none nofun]
    unfold disguiseIntegers
    rw [maskDirectives_textOf hl hs]
    rfl
  obtain ⟨jss, hf, htext, hj, -⟩ := passed_disguiseLexemes hl d
  obtain ⟨uss, hu, hut⟩ := tokens_of_standsFor hf
  obtain ⟨e', hx, het⟩ := exists_exchanged (htokens ▸ hu)
  refine ⟨e', ?_, hx, fun D M lit hM env => hx.value fun ds x h => h.value hM env⟩
  rw [hout]
  exact read?_eq_some_iff.2
    ⟨_, htext, hj, hut.trans het.symm, hx.leveled (fun ds x h => h.leveled) hlevel⟩

theorem disguiseIntegers_keeps_value_product :
    ∃ e e', read? "(x1 + 007) * -a$b2".toList = some e ∧
      read? (disguiseIntegers "(x1 + 007) * -a$b2".toList (.stream [] 0)).1 = some e' ∧
      e' ≠ e ∧ Exchanged CountsTo e e' := by
  obtain ⟨e', he, hx, -⟩ := disguiseIntegers_keeps_value (s := "(x1 + 007) * -a$b2".toList)
    (e := .binary .times
      (.group (.binary .plus (.name "x1".toList) (.number "007".toList)))
      (.before .minus (.name "a$b2".toList)))
    (by decide +kernel) (by decide) (by decide) (.stream [] 0)
  refine ⟨_, e', by decide +kernel, he, ?_, hx⟩
  rintro rfl
  exact absurd he (by decide +kernel)

/-- Digits behind a dollar sign are taken for a number, and the name for a call. -/
theorem dollar_name_becomes_call :
    read? "a$1".toList = some (.name "a$1".toList) ∧
      ¬∃ e', read? (disguiseIntegers "a$1".toList (.stream [] 0)).1 = some e' ∧
        Exchanged CountsTo (.name "a$1".toList) e' := by
  refine ⟨by decide +kernel, ?_⟩
  rintro ⟨e', he, ⟨⟩⟩
  exact absurd he (by decide +kernel)

end Obscura.Literal
