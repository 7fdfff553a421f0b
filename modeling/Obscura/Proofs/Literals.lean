import Obscura.Proofs.Numbers
import Obscura.Proofs.Quotes

/-
  String literals that the text passes leave as they are. Each pass looks for strings
  in the whole text, comments included, where the lexical scan of the language passes
  over comments: one quote in a comment, and what the pass takes for strings are the
  stretches between them. If every comment closes the quotes that it opens, then the
  literals of the scan are among the strings that the passes see, and what is put in,
  inserted or put back stands beside them.
-/

namespace Obscura.Literal

open Text Layout Number Expression
open List hiding findIdx?

variable {a b l r t u w x v : Chars} {cs : List Cell} {n : Nat} {ss : List Seg}
  {before : Option Char}

/-! ## Literals among the strings -/

/-- Literals and block comments are closed, comments close the quotes that they open, and
no literal runs over a line. -/
structure Undisturbed (s : Chars) (fs : List Fragment) : Prop where
  scanned : scan? s = some fs
  comments : ∀ t, .comment t ∈ fs → ClosesQuotes t
  unbroken : ∀ l ∈ literalTexts fs, '\n' ∉ l

/-- A string without line feeds is closed also where those cannot be escaped. -/
theorem Closing.unbroken (h : Closing (fun _ => true) q a) (ha : '\n' ∉ a) : Closing (· != '\n') q a := by
  induction h with
  | quote => exact .quote
  | escape _ _ ih =>
    simp only [mem_cons, not_or] at ha
    exact .escape (bne_iff_ne.2 (Ne.symm ha.2.1)) (ih ha.2.2)
  | plain hq hc _ ih => exact .plain hq hc (ih fun hmem => ha (.tail _ hmem))

theorem Undisturbed.exists_strings {fs : List Fragment} (h : Undisturbed s fs) :
    ∃ ls, Strings (· != '\n') s ls ∧ (literalTexts fs).Sublist ls := by
  obtain ⟨hscan, hcomments, hunbroken⟩ := h
  induction hn : s.length using Nat.strong_induction_on generalizing s fs with
  | _ n ih =>
    subst hn
    cases s with
    | nil =>
      rw [scan?] at hscan
      cases hscan
      exact ⟨[], .nil, .slnil⟩
    | cons c t =>
      -- what follows a fragment is cut as it would be alone
      have hrest {r : Chars} {gs : List Fragment} {x : Fragment} (hlen : r.length < (c :: t).length)
          (hr : scan? r = some gs) (hfs : fs = x :: gs) :
          ∃ ls, Strings (· != '\n') r ls ∧ (literalTexts gs).Sublist ls := by
        subst hfs
        refine ih r.length hlen hr (fun u hu => hcomments u (.tail _ hu)) (fun l hl => hunbroken l ?_) rfl
        rw [literalTexts, mem_filterMap] at hl ⊢
        obtain ⟨f, hf, hl⟩ := hl
        exact ⟨f, .tail _ hf, hl⟩
      have hcomment {a r : Chars} (hcut : c :: t = a ++ r) (hne : a ≠ [])
          (hscan : (scan? r).map (.comment a :: ·) = some fs) :
          ∃ ls, Strings (· != '\n') (c :: t) ls ∧ (literalTexts fs).Sublist ls := by
        obtain ⟨gs, hgs, rfl⟩ := Option.map_eq_some_iff.1 hscan
        have hpos := length_pos_of_ne_nil hne
        obtain ⟨ms, hms⟩ := hcomments a mem_cons_self
        obtain ⟨ls, hls, hsub⟩ := hrest (by rw [hcut, length_append]; omega) hgs rfl
        exact ⟨ms ++ ls, hcut ▸ hms.append hls, hsub.trans (sublist_append_right ms ls)⟩
      rcases scan?_cases hscan with ⟨hq, a, r, hcut⟩ | ⟨u, a, r, rfl, rfl, hcut⟩ | ⟨u, rfl, rfl⟩ | hcode
      · rw [scan?_literal hq hcut] at hscan
        obtain ⟨gs, hgs, rfl⟩ := Option.map_eq_some_iff.1 hscan
        obtain rfl := closing?_append hcut
        obtain ⟨ls, hls, hsub⟩ := hrest (by rw [length_cons, length_append]; omega) hgs rfl
        have ha : '\n' ∉ a := fun hmem => hunbroken (c :: a) mem_cons_self (.tail _ hmem)
        have hback := ne_backslash_of_isQuote hq
        have hclosed := ((closing_of_closing? hcut).2.unbroken ha).closing? hback []
        rw [append_nil] at hclosed
        exact ⟨(c :: a) :: ls, .quoted hq hclosed hls, hsub.cons_cons _⟩
      · rw [scan?_block hcut] at hscan
        exact hcomment (by simp [closeBlock?_append hcut]) (cons_ne_nil _ _) hscan
      · rw [scan?_line] at hscan
        exact hcomment (by simp) (cons_ne_nil _ _) hscan
      · rw [scan?_code hcode] at hscan
        obtain ⟨gs, hgs, rfl⟩ := Option.map_eq_some_iff.1 hscan
        obtain ⟨ls, hls, hsub⟩ := hrest (Nat.lt_succ_self _) hgs rfl
        exact ⟨ls, .plain hcode.1 hls, hsub⟩

/-! ## The passes -/

theorem Strings.swapTruths (h : Strings (· != '\n') s ls) (d : Draws) :
    Strings (· != '\n') (swapTruths s d).1.1 ls := by
  obtain ⟨ps, hchunk, hchosen, hrun⟩ := exists_swapTruths s d
  have hold : oldOf (segsOf ps) = s := (oldOf_segsOf ps).trans (oldText_eq hchunk)
  have hout : (Literal.swapTruths s d).1.1 = newOf (segsOf ps) := by
    rw [newOf_segsOf, hrun]
  have hfree : Free (quoteMarks s) (segsOf ps) :=
    ((free_segsOf hchosen).of_orMarks (by simp [orMarks, length_marks])).2
  rw [hout]
  refine Strings.exchange (fun x hx => ?_) (hold.symm ▸ hfree) (hold.symm ▸ h)
  have htame := tame_segsOf hchosen x hx
  cases x with
  | char c => trivial
  | swap w f =>
    exact ⟨htame.ne_nil, isQuote_of_isPlain (isPlain_truthWord htame.1), isQuote_of_isPlain htame.2.1⟩

/-! ## Constants exchanged for calls -/

/-- The part of a text as segments. -/
def Cell.segs (ints bools : List Chars) : Cell → List Seg
  | .keep t => t.map .char
  | .constant w => [.swap w (lookUp ints bools w)]

def cellSegs (ints bools : List Chars) (cs : List Cell) : List Seg :=
  cs.flatMap (Cell.segs ints bools)

section Cells

variable {ints bools : List Chars}

theorem oldOf_cellSegs (cs : List Cell) : oldOf (cellSegs ints bools cs) = cs.flatMap Cell.text := by
  rw [cellSegs, oldOf, flatMap_assoc]
  refine flatMap_congr fun c _ => ?_
  cases c with
  | keep t => simp [Cell.segs, Cell.text, flatMap_map, Seg.old]
  | constant w => simp [Cell.segs, Cell.text, Seg.old]

theorem newOf_cellSegs : newOf (cellSegs ints bools cs) = renderCells ints bools cs := by
  rw [cellSegs, newOf, flatMap_assoc, renderCells]
  refine flatMap_congr fun c _ => ?_
  cases c with
  | keep t => simp [Cell.segs, flatMap_map, Seg.new]
  | constant w => simp [Cell.segs, Seg.new]

theorem mem_cellSegs {f : Chars} (h : .swap w f ∈ cellSegs ints bools cs) :
    .constant w ∈ cs ∧ f = lookUp ints bools w := by
  obtain ⟨c, hc, hmem⟩ := mem_flatMap.1 h
  cases c with
  | keep t => simp [Cell.segs] at hmem
  | constant v =>
    cases mem_singleton.1 hmem
    exact ⟨hc, rfl⟩

theorem free_cellSegs {m : List Bool} {p : Nat}
    (h : ∀ q w, (q, Cell.constant w) ∈ placed Cell.text p cs → true ∉ (m.drop q).take w.length) :
    Free (m.drop p) (cellSegs ints bools cs) := by
  induction cs generalizing p with
  | nil => trivial
  | cons c cs ih =>
    have hrest := ih fun q w hmem => h q w (.tail _ hmem)
    rw [← drop_drop] at hrest
    cases c with
    | keep t => exact free_chars t hrest
    | constant w =>
      refine ⟨?_, hrest⟩
      rintro _ _ ⟨⟩
      exact h p w mem_cons_self

theorem exists_lookUp (ints bools : List Chars) (w : Chars) :
    ∃ v, lookUp ints bools w = v ++ [')'] ∧ ∀ c ∈ v, isWord c ∨ c = '(' := by
  have hdigits (k : Nat) : ∀ c ∈ digits k, isWord c ∨ c = '(' :=
    fun c hc => .inl (isWord_of_isDecimal (isDecimal_of_isDigit (isDigit_digits k c hc)))
  have hname (truth : Bool) : ∀ c ∈ (if truth then "__get_bool(" else "__get_int(").toList,
      (c.isAlphanum ∨ c = '_') ∨ c = '(' := by
    cases truth with
    | true => exact forall_mem_of_all rfl
    | false => exact forall_mem_of_all rfl
  exact ⟨_, rfl, forall_mem_append.2
    ⟨fun c hc => (hname _ c hc).imp_left isWord_of_isAlphanum, hdigits _⟩⟩

end Cells

/-! ## The place of the accessors -/

/-- No occurrence of `p` runs into `v` or starts in it. -/
structure Apart (p v : Chars) : Prop where
  ne_nil : v ≠ []
  last : ∀ c, v.getLast? = some c → c ∉ p
  not_mem : ∀ c, p.getLast? = some c → c ∉ v

section Search

variable {p v : Chars}

theorem Apart.of_cons (h : Apart (c :: p) v) : Apart p v where
  ne_nil := h.ne_nil
  last d hd hmem := h.last d hd (.tail _ hmem)
  not_mem d hd := h.not_mem d (by rw [getLast?_cons, hd]; rfl)

theorem Apart.not_front (h : Apart p v) (hp : p ≠ []) {u w : Chars} (hv : v = u ++ w) (hw : w ≠ [])
    (r : Chars) : ¬p <+: w ++ r := by
  rintro ⟨x, hx⟩
  rcases append_eq_append_iff.1 hx with ⟨a, rfl, -⟩ | ⟨a, rfl, -⟩
  · refine h.not_mem _ (getLast?_eq_some_getLast hp) ?_
    rw [hv]
    exact mem_append_right u (mem_append_left a (getLast_mem hp))
  · refine h.last _ ?_ (mem_append_left a (getLast_mem hw))
    rw [hv, getLast?_append_of_ne_nil u hw, getLast?_eq_some_getLast hw]

theorem findIdx?_of_apart (hp : p ≠ []) (h : Apart p v) :
    findIdx? p (v ++ r) = (findIdx? p r).map (· + v.length) := by
  have hrest (u w : Chars) (hv : v = u ++ w) : findIdx? p (w ++ r) = (findIdx? p r).map (· + w.length) := by
    induction w generalizing u with
    | nil => simp
    | cons c w ih =>
      have hnot : startsWith p (c :: (w ++ r)) ≠ true :=
        startsWith_iff.not.2 (h.not_front hp hv (cons_ne_nil c w) r)
      rw [cons_append, findIdx?, if_neg hnot, ih (u ++ [c]) (by rw [hv]; simp), Option.map_map]
      rfl
  exact hrest [] v rfl

theorem prefix_flatMap_iff (text : Seg → Chars) (htext : ∀ c, text (.char c) = [c])
    (hss : ∀ w f, .swap w f ∈ ss → Apart p (text (.swap w f))) :
    p <+: ss.flatMap text ↔ ∃ ts, ss = p.map .char ++ ts := by
  induction p generalizing ss with
  | nil => simp
  | cons c p ih =>
    cases ss with
    | nil => simp
    | cons x ss =>
      cases x with
      | char d =>
        rw [flatMap_cons, htext, singleton_append, cons_prefix_cons,
          ih fun w f hmem => (hss w f (.tail _ hmem)).of_cons]
        simp [eq_comm]
      | swap w f =>
        have hnot := (hss w f mem_cons_self).not_front (cons_ne_nil c p) (nil_append _).symm
          (hss w f mem_cons_self).ne_nil (ss.flatMap text)
        rw [flatMap_cons]
        simp [hnot]

/-- A pattern is found in both texts at the same place, or in none. -/
theorem findIdx?_segs (hp : p ≠ []) (hss : ∀ w f, .swap w f ∈ ss → Apart p w ∧ Apart p f) :
    findIdx? p (oldOf ss) = none ∧ findIdx? p (newOf ss) = none ∨
      ∃ as bs, ss = as ++ (p.map .char ++ bs) ∧ findIdx? p (oldOf ss) = some (oldOf as).length ∧
        findIdx? p (newOf ss) = some (newOf as).length := by
  induction ss with
  | nil =>
    have hnil : findIdx? p [] = none := if_neg (by simp [hp])
    exact .inl ⟨hnil, hnil⟩
  | cons x ss ih =>
    -- unless it starts the texts, the pattern is found behind the first segment
    have hstep (hold : findIdx? p (oldOf (x :: ss)) = (findIdx? p (oldOf ss)).map (· + x.old.length))
        (hnew : findIdx? p (newOf (x :: ss)) = (findIdx? p (newOf ss)).map (· + x.new.length)) :
        findIdx? p (oldOf (x :: ss)) = none ∧ findIdx? p (newOf (x :: ss)) = none ∨
          ∃ as bs, x :: ss = as ++ (p.map .char ++ bs) ∧ findIdx? p (oldOf (x :: ss)) = some (oldOf as).length ∧
            findIdx? p (newOf (x :: ss)) = some (newOf as).length := by
      rw [hold, hnew]
      rcases ih fun w f hmem => hss w f (.tail _ hmem) with ⟨h, h'⟩ | ⟨as, bs, rfl, h, h'⟩
      · exact .inl ⟨by rw [h]; rfl, by rw [h']; rfl⟩
      · refine .inr ⟨x :: as, bs, rfl, ?_, ?_⟩
        · rw [h, Option.map_some, Nat.add_comm, ← length_append]
          rfl
        · rw [h', Option.map_some, Nat.add_comm, ← length_append]
          rfl
    cases x with
    | swap w f =>
      obtain ⟨hw, hf⟩ := hss w f mem_cons_self
      exact hstep (findIdx?_of_apart hp hw) (findIdx?_of_apart hp hf)
    | char c =>
      have hold := prefix_flatMap_iff Seg.old (fun _ => rfl) fun w f hmem => (hss w f hmem).1
      have hnew := prefix_flatMap_iff Seg.new (fun _ => rfl) fun w f hmem => (hss w f hmem).2
      by_cases hfront : ∃ ts, .char c :: ss = p.map .char ++ ts
      · have hstart := startsWith_iff.2 (hold.2 hfront)
        have hstart' := startsWith_iff.2 (hnew.2 hfront)
        obtain ⟨ts, hts⟩ := hfront
        exact .inr ⟨[], ts, hts, if_pos hstart, if_pos hstart'⟩
      · exact hstep (if_neg (startsWith_iff.not.2 (hold.not.2 hfront)))
          (if_neg (startsWith_iff.not.2 (hnew.not.2 hfront)))

/-- Both texts have the brace behind which accessors are put, or none has. -/
theorem contractBody?_segs
    (hword : ∀ w f, .swap w f ∈ ss → Apart "contract ".toList w ∧ Apart "contract ".toList f)
    (hbrace : ∀ w f, .swap w f ∈ ss → Apart ['\x7b'] w ∧ Apart ['\x7b'] f) :
    contractBody? (oldOf ss) = none ∧ contractBody? (newOf ss) = none ∨
      ∃ as bs, ss = as ++ .char '\x7b' :: bs ∧ contractBody? (oldOf ss) = some ((oldOf as).length + 1) ∧
        contractBody? (newOf ss) = some ((newOf as).length + 1) := by
  have hne : "contract ".toList ≠ [] := by decide
  rcases findIdx?_segs hne hword with ⟨h, h'⟩ | ⟨as, bs, hss, h, h'⟩
  · exact .inl ⟨by rw [contractBody?, h], by rw [contractBody?, h']⟩
  · generalize hts : "contract ".toList.map Seg.char ++ bs = ts at hss
    subst hss
    rw [contractBody?_eq (oldOf_append as ts) h, contractBody?_eq (newOf_append as ts) h']
    have hbrace' (w f : Chars) (hmem : .swap w f ∈ ts) := hbrace w f (mem_append_right as hmem)
    rcases findIdx?_segs (cons_ne_nil _ _) hbrace' with ⟨hn, hn'⟩ | ⟨cs, ds, rfl, hk, hk'⟩
    · exact .inl ⟨by rw [hn]; rfl, by rw [hn']; rfl⟩
    · refine .inr ⟨as ++ cs, ds, (append_assoc as cs _).symm, ?_, ?_⟩
      · rw [hk, oldOf_append, length_append]
        rfl
      · rw [hk', newOf_append, length_append]
        rfl

end Search

section Tables

variable {s : Chars} {ls : List Chars} {ints bools : List Chars}

theorem not_mem_quoteMarks (hw : ∀ c ∈ w, isQuote c = false) : true ∉ quoteMarks w := by
  induction w with
  | nil =>
    rw [quoteMarks, marks]
    exact not_mem_nil
  | cons c w ih =>
    rw [quoteMarks_plain (hw c mem_cons_self), mem_cons, not_or]
    exact ⟨Bool.false_ne_true.symm, ih fun d hd => hw d (.tail _ hd)⟩

theorem Strings.not_mem_marks (h : Strings (· != '\n') (a ++ (w ++ b)) ls)
    (hw : ∀ c ∈ w, isQuote c = false) (hfree : (quoteMarks (a ++ (w ++ b)))[a.length]? ≠ some true) :
    true ∉ ((quoteMarks (a ++ (w ++ b))).drop a.length).take w.length := by
  obtain ⟨ls₁, ls₂, -, hleft, -⟩ := h.split rfl hfree
  rw [quoteMarks_append hleft, drop_left' (length_quoteMarks a), quoteMarks_append (.of_plain hw),
    take_left' (length_quoteMarks w)]
  exact not_mem_quoteMarks hw

theorem eligible_of_mem (h : .constant w ∈ cells s) : ∃ p, Eligible s p w := by
  obtain ⟨p, hp⟩ := (exists_placed_iff 0).2 h
  exact ⟨p, mem_placed_cells.1 hp⟩

theorem Strings.free_cells (h : Strings (· != '\n') s ls) :
    Free (quoteMarks s) (cellSegs ints bools (cells s)) := by
  refine free_cellSegs (m := quoteMarks s) (p := 0) fun q w hmem => ?_
  have hw := mem_placed_cells.1 hmem
  obtain ⟨a, b, rfl, rfl⟩ := hw.exists_text
  obtain ⟨⟨-, hword⟩, -⟩ := isConstant_iff.2 hw.1
  exact h.not_mem_marks (fun c hc => isQuote_of_isWord (hword c hc)) (quoteMarks_of_shielded hw.2.2.1)

theorem Apart.of_last {p : Chars} {d : Char} (hv : v.getLast? = some c) (hc : c ∉ p)
    (hp : p.getLast? = some d) (hd : d ∉ v) : Apart p v where
  ne_nil := fun hnil => by
    rw [hnil] at hv
    cases hv
  last e he := by
    rw [hv] at he
    exact Option.some.inj he ▸ hc
  not_mem e he := by
    rw [hp] at he
    exact Option.some.inj he ▸ hd

theorem IsConstant.apart (h : IsConstant w) : Apart "contract ".toList w ∧ Apart ['\x7b'] w := by
  obtain ⟨⟨hne, hword⟩, -⟩ := isConstant_iff.2 h
  have hnot {c : Char} (hc : isWord c = false) : c ∉ w := fun hmem => by
    rw [hword c hmem] at hc
    cases hc
  have hlast : ∃ c, w.getLast? = some c ∧ c ∉ "contract ".toList := by
    rcases h with rfl | rfl | ⟨-, hdecimal⟩
    · exact ⟨'e', rfl, by decide⟩
    · exact ⟨'e', rfl, by decide⟩
    · refine ⟨_, getLast?_eq_some_getLast hne, fun hmem => ?_⟩
      have hascii : ∀ c ∈ "contract ".toList, c.toNat < 128 ∧ c.isDigit = false := forall_mem_of_all rfl
      obtain ⟨hlt, hdigit⟩ := hascii _ hmem
      have hd := hdecimal _ (getLast_mem hne)
      rw [isDecimal_eq_isDigit hlt, hdigit] at hd
      cases hd
  have hspace : ' ' ∉ w := hnot (isWord_of_symbol (by decide) rfl)
  have hbrace : '\x7b' ∉ w := hnot (isWord_of_symbol (by decide) rfl)
  obtain ⟨c, hc, hword⟩ := hlast
  refine ⟨.of_last hc hword rfl hspace, .of_last hc (fun hmem => hbrace ?_) rfl hbrace⟩
  exact mem_singleton.1 hmem ▸ mem_of_getLast? hc

theorem apart_lookUp (ints bools : List Chars) (w : Chars) :
    Apart "contract ".toList (lookUp ints bools w) ∧ Apart ['\x7b'] (lookUp ints bools w) := by
  obtain ⟨v, hv, hword⟩ := exists_lookUp ints bools w
  have hnot {c : Char} (hc : isWord c = false) (hmark : c ≠ '(' ∧ c ≠ ')') : c ∉ v ++ [')'] := by
    rw [mem_append, mem_singleton, not_or]
    refine ⟨fun hmem => ?_, hmark.2⟩
    rcases hword c hmem with h | h
    · rw [hc] at h
      cases h
    · exact hmark.1 h
  rw [hv]
  have hspace := hnot (c := ' ') (isWord_of_symbol (by decide) rfl) (by decide)
  have hbrace := hnot (c := '\x7b') (isWord_of_symbol (by decide) rfl) (by decide)
  exact ⟨.of_last getLast?_concat (by decide) rfl hspace, .of_last getLast?_concat (by decide) rfl hbrace⟩

theorem Strings.split_of_closes (h : Strings (· != '\n') (a ++ c :: b) ls)
    (hc : isQuote c = false) (ha : ClosesQuotes a) :
    quoteMarks (a ++ c :: b) = quoteMarks a ++ false :: quoteMarks b ∧
      ∃ ls₁ ls₂, ls = ls₁ ++ ls₂ ∧ Strings (· != '\n') a ls₁ ∧ Strings (· != '\n') b ls₂ := by
  obtain ⟨ms, hms⟩ := ha
  have hmarks : quoteMarks (a ++ c :: b) = quoteMarks a ++ false :: quoteMarks b := by
    rw [quoteMarks_append hms, quoteMarks_plain hc]
  refine ⟨hmarks, ?_⟩
  have hfree : (quoteMarks (a ++ c :: b))[a.length]? ≠ some true := by
    rw [hmarks, getElem?_append_right (Nat.le_of_eq (length_quoteMarks a)), length_quoteMarks, Nat.sub_self]
    exact fun h => Bool.false_ne_true (Option.some.inj h)
  obtain ⟨ls₁, ls₂, rfl, hleft, hright⟩ := h.split rfl hfree
  exact ⟨ls₁, ls₂, rfl, hleft, hright.of_cons hc⟩

theorem quoteless_cells (s : Chars) (ints bools : List Chars) :
    ∀ x ∈ cellSegs ints bools (cells s), x.Quoteless := by
  intro x hx
  cases x with
  | char c => trivial
  | swap w f =>
    obtain ⟨hmem, rfl⟩ := mem_cellSegs hx
    obtain ⟨p, hp⟩ := eligible_of_mem hmem
    obtain ⟨⟨hne, hword⟩, -⟩ := isConstant_iff.2 hp.1
    refine ⟨hne, fun c hc => isQuote_of_isWord (hword c hc), ?_⟩
    obtain ⟨v, hv, hcall⟩ := exists_lookUp ints bools w
    rw [hv, forall_mem_append, forall_mem_singleton]
    refine ⟨fun c hc => ?_, rfl⟩
    rcases hcall c hc with hc | rfl
    · exact isQuote_of_isWord hc
    · rfl

theorem contractBody?_cellSegs (s : Chars) (ints bools : List Chars) :
    contractBody? (oldOf (cellSegs ints bools (cells s))) = none ∧
        contractBody? (newOf (cellSegs ints bools (cells s))) = none ∨
      ∃ as bs, cellSegs ints bools (cells s) = as ++ .char '\x7b' :: bs ∧
        contractBody? (oldOf (cellSegs ints bools (cells s))) = some ((oldOf as).length + 1) ∧
        contractBody? (newOf (cellSegs ints bools (cells s))) = some ((newOf as).length + 1) := by
  have hapart (w f : Chars) (hmem : .swap w f ∈ cellSegs ints bools (cells s)) :
      (Apart "contract ".toList w ∧ Apart "contract ".toList f) ∧ Apart ['\x7b'] w ∧ Apart ['\x7b'] f := by
    obtain ⟨hw, rfl⟩ := mem_cellSegs hmem
    obtain ⟨p, hp⟩ := eligible_of_mem hw
    obtain ⟨hword, hbrace⟩ := hp.1.apart
    obtain ⟨hword', hbrace'⟩ := apart_lookUp ints bools w
    exact ⟨⟨hword, hword'⟩, hbrace, hbrace'⟩
  exact contractBody?_segs (fun w f hmem => (hapart w f hmem).1) fun w f hmem => (hapart w f hmem).2

theorem Strings.insertAccessors (h : Strings (· != '\n') s ls)
    (hbrace : ∀ a b, s = a ++ '\x7b' :: b → contractBody? s = some (a.length + 1) → ClosesQuotes a)
    (block : Chars) :
    OccurInOrder ls (insertAccessors block (renderCells ints bools (cells s))) := by
  have hold : oldOf (cellSegs ints bools (cells s)) = s := (oldOf_cellSegs _).trans (flatMap_text_cells s)
  have hquote := quoteless_cells s ints bools
  have hfree : Free (quoteMarks s) (cellSegs ints bools (cells s)) := h.free_cells
  have hplace := contractBody?_cellSegs s ints bools
  rw [← newOf_cellSegs]
  generalize cellSegs ints bools (cells s) = ss at *
  subst hold
  have hrendered := (h.exchange hquote hfree).occurInOrder
  unfold Literal.insertAccessors
  split
  · exact hrendered
  · rcases hplace with ⟨-, hnone⟩ | ⟨as, bs, rfl, hat, hat'⟩
    · rw [hnone]
      exact hrendered
    · have hcut : oldOf (as ++ .char '\x7b' :: bs) = oldOf as ++ '\x7b' :: oldOf bs := oldOf_append ..
      have hclosed := hbrace (oldOf as) (oldOf bs) hcut hat
      rw [hcut] at h hfree
      obtain ⟨hmarks, ls₁, ls₂, rfl, hleft, hright⟩ := h.split_of_closes rfl hclosed
      rw [hmarks] at hfree
      obtain ⟨hfree₁, -, hfree₂⟩ := hfree.append (length_quoteMarks _)
      have hfirst := hleft.exchange (fun x hx => hquote x (mem_append_left _ hx)) hfree₁
      have hsecond := hright.exchange (fun x hx => hquote x (mem_append_right _ (.tail _ hx))) hfree₂
      have hnew : newOf (as ++ .char '\x7b' :: bs) = newOf as ++ ['\x7b'] ++ newOf bs := by
        rw [newOf_append, append_assoc]
        rfl
      have hlen : (newOf as ++ ['\x7b']).length = (newOf as).length + 1 := length_append
      rw [hat', hnew]
      dsimp only
      rw [take_left' hlen, drop_left' hlen, append_assoc, append_assoc]
      exact hfirst.occurInOrder.append_append ((hsecond.occurInOrder.append ('\n' :: block)).append ['\x7b'])

end Tables

/-! ## Strings around directives -/

/-- Pieces behind the text `pre`: whatever was taken out started a line, and held neither
quote nor backslash. -/
structure LeavesQuotes (pre : Chars) (ps : List Piece) : Prop where
  endsLine : ∀ as n t bs, ps = as ++ .taken n t :: bs → EndsLine (pre ++ sourceText as)
  quiet : ∀ n t, .taken n t ∈ ps → ∀ c ∈ t, isQuote c = false ∧ c ≠ '\\'

namespace LeavesQuotes

variable {pre : Chars} {ps qs : List Piece} {c : Char}

theorem of_append (h : LeavesQuotes pre (ps ++ qs)) : LeavesQuotes (pre ++ sourceText ps) qs where
  endsLine as n t bs heq := by
    rw [append_assoc, ← sourceText_append]
    exact h.endsLine (ps ++ as) n t bs (by rw [heq, append_assoc])
  quiet n t ht := h.quiet n t (mem_append_right ps ht)

theorem of_stays (h : LeavesQuotes pre (.stays c :: ps)) : LeavesQuotes (pre ++ [c]) ps := by
  have hone : LeavesQuotes pre ([.stays c] ++ ps) := h
  exact hone.of_append

theorem of_taken (h : LeavesQuotes pre (.taken n t :: ps)) : LeavesQuotes (pre ++ t) ps := by
  have hone : LeavesQuotes pre ([.taken n t] ++ ps) := h
  have hrest := hone.of_append
  rwa [sourceText_taken, sourceText_nil, append_nil] at hrest

theorem left (h : LeavesQuotes pre (ps ++ qs)) : LeavesQuotes pre ps where
  endsLine as n t bs heq := h.endsLine as n t (bs ++ qs) (by rw [heq, append_assoc, cons_append])
  quiet n t ht := h.quiet n t (mem_append_left qs ht)

theorem not_taken (hc : c ≠ '\n') : ¬LeavesQuotes (pre ++ [c]) (.taken n t :: ps) := by
  intro h
  rcases h.endsLine [] n t ps rfl with hnil | hlast
  · simp at hnil
  · rw [sourceText_nil, append_nil, getLast?_concat] at hlast
    exact hc (Option.some.inj hlast)

/-- Behind a character that ends no line, nothing was taken out before the next line. -/
theorem eq_map_stays (hc : c ≠ '\n') (h : LeavesQuotes (pre ++ [c]) ps) (hline : '\n' ∉ sourceText ps) :
    ps = (sourceText ps).map .stays := by
  induction ps generalizing pre c with
  | nil => rfl
  | cons p ps ih =>
    cases p with
    | stays d =>
      obtain ⟨hd, hrest⟩ := not_or.1 (mem_cons.not.1 hline)
      exact congrArg _ (ih (Ne.symm hd) h.of_stays hrest)
    | taken n t => exact absurd h (not_taken hc)

theorem exists_stays (hq : isQuote q) (h : LeavesQuotes pre ps)
    (hs : sourceText ps = u ++ q :: r) :
    ∃ as bs, ps = as ++ .stays q :: bs ∧ sourceText as = u ∧ sourceText bs = r := by
  induction ps generalizing pre u with
  | nil => simp at hs
  | cons p ps ih =>
    cases p with
    | stays d =>
      cases u with
      | nil =>
        obtain ⟨rfl, hr⟩ := cons.inj hs
        exact ⟨[], ps, rfl, rfl, hr⟩
      | cons e u =>
        obtain ⟨rfl, hu⟩ := cons.inj hs
        obtain ⟨as, bs, rfl, rfl, hr⟩ := ih h.of_stays hu
        exact ⟨.stays d :: as, bs, rfl, rfl, hr⟩
    | taken n t =>
      have hqt : q ∉ t := fun hmem => by
        rw [(h.quiet n t mem_cons_self q hmem).1] at hq
        cases hq
      rcases cut_beside (x := u) (c := q) (y := r) (u := []) (l := t) (v := sourceText ps) hqt hs.symm with
        ⟨w, hw, -⟩ | ⟨w, rfl, hw⟩
      · simp at hw
      · obtain ⟨as, bs, rfl, rfl, hr⟩ := ih h.of_taken hw
        exact ⟨.taken n t :: as, bs, rfl, by simp, hr⟩

end LeavesQuotes

theorem isQuote_of_mem_placeholder (h : c ∈ placeholder n) : isQuote c = false :=
  isQuote_of_isWord (isWord_of_mem_placeholder h)

section Masking

variable {q : Char} (hq : isQuote q = true)

include hq

theorem ne_newline_of_isQuote : q ≠ '\n' := by
  rintro rfl
  cases hq

theorem closes_masked (h : LeavesQuotes pre ps)
    (hclose : Closes (· != '\n') q (sourceText ps)) : Closes (fun _ => true) q (maskedText ps) := by
  induction hn : ps.length using Nat.strong_induction_on generalizing ps pre with
  | _ n ih =>
    subst hn
    cases ps with
    | nil => cases hclose
    | cons p ps =>
      cases p with
      | taken n t =>
        have ht : ∀ c ∈ t, c ≠ q ∧ c ≠ '\\' := by
          intro c hc
          obtain ⟨hquote, hback⟩ := h.quiet n t mem_cons_self c hc
          refine ⟨?_, hback⟩
          rintro rfl
          rw [hquote] at hq
          cases hq
        have hplace : ∀ c ∈ placeholder n, c ≠ q ∧ c ≠ '\\' := by
          intro c hc
          have hword := isWord_of_mem_placeholder hc
          exact ⟨ne_of_isWord hword (isWord_of_isQuote hq), ne_of_isWord hword isWord_backslash⟩
        rw [sourceText_taken, closes_append ht] at hclose
        rw [maskedText_taken, closes_append hplace]
        exact ih ps.length (Nat.lt_succ_self _) h.of_taken hclose rfl
      | stays c =>
        rw [sourceText_stays] at hclose
        rw [maskedText_stays]
        by_cases hc : c = '\\'
        · -- the escaped character starts no line
          subst hc
          cases ps with
          | nil => exact absurd hclose (not_closes_backslash hq)
          | cons p ps =>
            cases p with
            | stays d =>
              rw [sourceText_stays, closes_escape] at hclose
              rw [maskedText_stays, closes_escape]
              have hlt : ps.length < ps.length + 2 := Nat.lt_add_of_pos_right Nat.two_pos
              exact ⟨rfl, ih ps.length hlt h.of_stays.of_stays hclose.2 rfl⟩
            | taken n t => exact absurd h.of_stays (LeavesQuotes.not_taken (by decide))
        · rw [closes_cons hc] at hclose ⊢
          rcases hclose with ⟨rfl, hnil⟩ | ⟨hne, hclose⟩
          · refine .inl ⟨rfl, ?_⟩
            have hline : '\n' ∉ sourceText ps := hnil ▸ not_mem_nil
            rw [h.of_stays.eq_map_stays (ne_newline_of_isQuote hq) hline, hnil]
            rfl
          · exact .inr ⟨hne, ih ps.length (Nat.lt_succ_self _) h.of_stays hclose rfl⟩

theorem LeavesQuotes.exists_string (h : LeavesQuotes (pre ++ [q]) ps)
    (hs : sourceText ps = a ++ s) (ha : Closes (· != '\n') q a) :
    ∃ as bs, ps = as ++ bs ∧ sourceText as = a ∧ sourceText bs = s ∧
      Closes (fun _ => true) q (maskedText as) ∧ ('\n' ∉ a → maskedText as = a) := by
  obtain ⟨m, rfl⟩ := exists_of_closing? ha
  rw [append_assoc, singleton_append] at hs
  obtain ⟨as, bs, rfl, rfl, rfl⟩ := h.exists_stays hq hs
  rw [append_cons as] at h
  have htext : sourceText (as ++ [.stays q]) = sourceText as ++ [q] := sourceText_append ..
  rw [← htext] at ha ⊢
  refine ⟨as ++ [.stays q], bs, append_cons .., rfl, rfl, closes_masked hq h.left ha, fun hline => ?_⟩
  conv_lhs => rw [h.left.eq_map_stays (ne_newline_of_isQuote hq) hline, maskedText_map_stays]

end Masking

/-- Strings without line feeds stay as they are when directives are taken out. -/
theorem exists_strings_masked {ks : List Chars}
    (h : LeavesQuotes pre ps) (hls : Strings (· != '\n') (sourceText ps) ls) (hks : ks.Sublist ls)
    (hline : ∀ k ∈ ks, '\n' ∉ k) : ∃ ms, Strings (fun _ => true) (maskedText ps) ms ∧ ks.Sublist ms := by
  induction hn : ps.length using Nat.strong_induction_on generalizing ps pre ls ks with
  | _ n ih =>
    subst hn
    cases ps with
    | nil =>
      cases hls
      exact ⟨[], .nil, hks⟩
    | cons p ps =>
      cases p with
      | taken n t =>
        rw [sourceText_taken] at hls
        have hquiet := h.quiet n t mem_cons_self
        have hrest := hls.of_append fun c hc => (hquiet c hc).1
        obtain ⟨ms, hms, hsub⟩ := ih ps.length (Nat.lt_succ_self _) h.of_taken hrest hks hline rfl
        exact ⟨ms, (Strings.of_plain fun c => isQuote_of_mem_placeholder).append hms, hsub⟩
      | stays c =>
        rw [sourceText_stays] at hls
        generalize hs : sourceText ps = s at hls
        cases hls with
        | plain hc hls =>
          subst hs
          obtain ⟨ms, hms, hsub⟩ := ih ps.length (Nat.lt_succ_self _) h.of_stays hls hks hline rfl
          exact ⟨ms, .plain hc hms, hsub⟩
        | @quoted _ a s ls hq ha hls =>
          obtain ⟨as, bs, rfl, rfl, rfl, hclosed, hsame⟩ := h.of_stays.exists_string hq hs ha
          have hlt : bs.length < (.stays c :: (as ++ bs)).length := by
            rw [length_cons, length_append]
            omega
          rw [maskedText_stays, maskedText_append]
          cases hks with
          | cons _ hks =>
            obtain ⟨ms, hms, hsub⟩ := ih bs.length hlt h.of_stays.of_append hls hks hline rfl
            exact ⟨_, .quoted hq hclosed hms, .cons _ hsub⟩
          | @cons_cons js _ _ hks =>
            have hrest : ∀ k ∈ js, '\n' ∉ k := fun k hk => hline k (.tail _ hk)
            obtain ⟨ms, hms, hsub⟩ := ih bs.length hlt h.of_stays.of_append hls hks hrest rfl
            have hkept := hsame fun hmem => hline _ mem_cons_self (.tail _ hmem)
            exact ⟨_, .quoted hq hclosed hms, hkept.symm ▸ .cons_cons _ hsub⟩

theorem lexeme_plain (hc : isQuote c = false) :
    ∀ x ∈ (lexeme before c t).1.text, isQuote x = false := by
  have hdecimal (x : Char) (hx : isDecimal x) : isQuote x = false := isQuote_of_isWord (isWord_of_isDecimal hx)
  rcases lexeme_cases before c t with ⟨u, r, hl, -, hquote⟩ | ⟨u, v, r, hl, hu, hv, -⟩ |
    ⟨w, r, hl, hw, -⟩ | ⟨hl, -⟩
  · rw [isQuote_iff.2 hquote] at hc
    cases hc
  · rw [hl, Lexeme.text, forall_mem_append, forall_mem_cons]
    exact ⟨fun x hx => hdecimal x (hu x hx), rfl, fun x hx => hdecimal x (hv x hx)⟩
  · rw [hl]
    exact fun x hx => hdecimal x (hw.2 x hx)
  · rw [hl]
    exact forall_mem_singleton.2 hc

theorem Strings.disguiseLexemes {m : Chars} {ms : List Chars} (h : Strings (fun _ => true) m ms)
    (before : Option Char) (d : Draws) : OccurInOrder ms (disguiseLexemes (lexemes before m) d).1 := by
  induction hn : m.length using Nat.strong_induction_on generalizing m ms before d with
  | _ n ih =>
    subst hn
    cases m with
    | nil =>
      cases h
      trivial
    | cons c t =>
      have hlen := lexeme_length before c t
      have htext := lexeme_append before c t
      rw [lexemes, disguiseLexemes_cons]
      cases hc : isQuote c with
      | false =>
        rw [← htext] at h
        refine OccurInOrder.append (ih _ ?_ (h.of_append (lexeme_plain hc)) _ _ rfl) _
        exact Nat.lt_succ_of_le hlen
      | true =>
        cases h with
        | plain hplain =>
          rw [hc] at hplain
          cases hplain
        | @quoted _ a s ms hq ha h =>
          have hl : lexeme before c (a ++ s) = (.quoted (c :: a), s) := by
            rw [lexeme.eq_def, if_pos (isQuote_iff.1 hq), ha.closing? hq s]
          rw [hl] at hlen ⊢
          exact ⟨[], _, rfl, ih s.length (Nat.lt_succ_of_le hlen) h _ _ rfl⟩

theorem occurInOrder_unmask {ds : List Chars} {n : Nat}
    (hls : ∀ l ∈ ls, IsQuoted l ∧ ∀ k, n ≤ k → k < n + ds.length → ¬placeholder k <:+: l)
    (h : OccurInOrder ls s) : OccurInOrder ls (unmask n s ds) := by
  induction ds generalizing n s with
  | nil => exact h
  | cons d ds ih =>
    rw [unmask]
    refine ih (fun l hl => ⟨(hls l hl).1, fun k hle hlt => ?_⟩) ?_
    · exact (hls l hl).2 k (by omega) (by rw [length_cons]; omega)
    · refine occurInOrder_replaceAll _ (fun c => isQuote_of_mem_placeholder) (fun l hl => ⟨(hls l hl).1, ?_⟩) h
      exact (hls l hl).2 n (Nat.le_refl n) (by rw [length_cons]; omega)

/-! ## All passes together -/

namespace Undisturbed

variable {s : Chars} {fs : List Fragment}

theorem isQuoted (h : Undisturbed s fs) (hl : l ∈ literalTexts fs) : IsQuoted l := by
  obtain ⟨ls, hls, hsub⟩ := h.exists_strings
  exact hls.exists_ends (hsub.subset hl)

theorem tabulate (h : Undisturbed s fs)
    (hbrace : ∀ a b, s = a ++ '\x7b' :: b → contractBody? s = some (a.length + 1) → ClosesQuotes a) :
    OccurInOrder (literalTexts fs) (tabulate s) := by
  obtain ⟨ls, hls, hsub⟩ := h.exists_strings
  rw [tabulate_eq]
  exact occurInOrder_tidyNewlines (fun l hl => ⟨h.isQuoted hl, h.unbroken l hl⟩)
    ((hls.insertAccessors hbrace _).of_sublist hsub)

theorem disguiseIntegers (h : Undisturbed s fs)
    (hquiet : ∀ t ∈ (maskDirectives s).2, '"' ∉ t ∧ '\'' ∉ t ∧ '\\' ∉ t)
    (hplace : ∀ l ∈ literalTexts fs, ∀ k < (maskDirectives s).2.length, ¬placeholder k <:+: l) (d : Draws) :
    OccurInOrder (literalTexts fs) (disguiseIntegers s d).1 := by
  obtain ⟨ls, hls, hsub⟩ := h.exists_strings
  obtain ⟨rs, ps, hmasked⟩ := exists_masked s
  have hleaves : LeavesQuotes [] ps := by
    refine ⟨fun as n t bs heq => hmasked.endsLine heq, fun n t ht c hc => ?_⟩
    have hnot {x : Char} (hx : ∀ t ∈ (maskDirectives s).2, x ∉ t) : x ≠ c := by
      rintro rfl
      exact hmasked.not_mem_taken hx ht hc
    refine ⟨?_, Ne.symm (hnot fun t ht => (hquiet t ht).2.2)⟩
    rw [Bool.eq_false_iff, Ne, isQuote_iff, not_or]
    exact ⟨Ne.symm (hnot fun t ht => (hquiet t ht).1), Ne.symm (hnot fun t ht => (hquiet t ht).2.1)⟩
  rw [← hmasked.source] at hls
  obtain ⟨ms, hms, hkept⟩ := exists_strings_masked hleaves hls hsub h.unbroken
  rw [hmasked.masked] at hms
  refine occurInOrder_unmask (fun l hl => ⟨h.isQuoted hl, fun k _ hk => hplace l hl k ?_⟩)
    ((hms.disguiseLexemes none d).of_sublist hkept)
  rwa [Nat.zero_add] at hk

end Undisturbed

/-- **When the text passes leave string literals alone.** If comments close the quotes that
they open and no literal runs over a line, then the truth-value pass keeps every literal. So
does the pass for tables, if the brace behind which it puts the accessors is not in a string;
and so does the integer pass, if no directive that is taken out holds a quote or a backslash
and no literal holds a placeholder. -/
theorem text_passes_keep_literals {s : Chars} {fs : List Fragment} (h : Undisturbed s fs) (d : Draws) :
    OccurInOrder (literalTexts fs) (swapTruths s d).1.1 ∧
      ((∀ a b, s = a ++ '\x7b' :: b → contractBody? s = some (a.length + 1) → ClosesQuotes a) →
        OccurInOrder (literalTexts fs) (tabulate s)) ∧
      ((∀ t ∈ (maskDirectives s).2, '"' ∉ t ∧ '\'' ∉ t ∧ '\\' ∉ t) →
        (∀ l ∈ literalTexts fs, ∀ k < (maskDirectives s).2.length, ¬placeholder k <:+: l) →
          OccurInOrder (literalTexts fs) (disguiseIntegers s d).1) := by
  obtain ⟨ls, hls, hsub⟩ := h.exists_strings
  exact ⟨(hls.swapTruths d).occurInOrder.of_sublist hsub, h.tabulate,
    fun hquiet hplace => h.disguiseIntegers hquiet hplace d⟩

/-- Code, a comment, code, a literal and code. -/
def fragmentsOf (u t v l w : Chars) : List Fragment :=
  u.map .code ++ .comment t :: (v.map .code ++ .literal l :: w.map .code)

theorem eq_of_comment_mem (h : .comment x ∈ fragmentsOf u t v l w) : x = t := by
  simpa [fragmentsOf] using h

theorem literalTexts_fragmentsOf : literalTexts (fragmentsOf u t v l w) = [l] := by
  simp [literalTexts, fragmentsOf]

def quotedContract : Chars :=
  "pragma solidity 1;\ncontract C\x7b//'a'\nuint x=2;string s='\x7b1 true\x7d';\x7d".toList

def quotedFragments : List Fragment :=
  fragmentsOf "pragma solidity 1;\ncontract C\x7b".toList "//'a'".toList "\nuint x=2;string s=".toList
    "'\x7b1 true\x7d'".toList ";\x7d".toList

theorem undisturbed_quotedContract : Undisturbed quotedContract quotedFragments where
  scanned := by decide +kernel
  comments t ht := by
    rw [eq_of_comment_mem ht]
    exact ⟨_, .plain rfl (.plain rfl (.quoted (q := '\'') (a := ['a', '\'']) rfl rfl .nil))⟩
  unbroken := by
    rw [quotedFragments, literalTexts_fragmentsOf]
    decide

/-- A brace, a number and a truth value in a literal, behind a directive and a comment with a
string in it. -/
theorem literal_kept_behind_quoted_comment : Undisturbed quotedContract quotedFragments ∧
    OccurInOrder ["'\x7b1 true\x7d'".toList] (swapTruths quotedContract (.stream [] 0)).1.1 ∧
    OccurInOrder ["'\x7b1 true\x7d'".toList] (tabulate quotedContract) ∧
    OccurInOrder ["'\x7b1 true\x7d'".toList] (disguiseIntegers quotedContract (.stream [] 0)).1 := by
  have hmask : (maskDirectives quotedContract).2 = ["pragma solidity 1;".toList] := by decide +kernel
  have hbody : contractBody? quotedContract = some 30 := by decide
  obtain ⟨hswap, htable, hdisguise⟩ := text_passes_keep_literals undisturbed_quotedContract (.stream [] 0)
  rw [quotedFragments, literalTexts_fragmentsOf] at hswap htable hdisguise
  refine ⟨undisturbed_quotedContract, hswap, htable fun a b hs ha => ?_, hdisguise ?_ fun l hl k _ hin => ?_⟩
  · rw [hbody, Option.some.injEq] at ha
    have htake : quotedContract.take 29 = a := by
      rw [hs, List.take_left' (by omega)]
    subst htake
    exact ⟨[], .of_plain (forall_mem_of_all (by decide))⟩
  · rw [hmask]
    decide
  · obtain rfl : l = "'\x7b1 true\x7d'".toList := List.mem_singleton.1 hl
    exact absurd (hin.subset List.mem_cons_self) (by decide)

/-- One apostrophe in a comment, and each pass rewrites the literal behind it. -/
theorem apostrophe_in_comment_exposes_literal :
    (scan? "//'\n'1'".toList).map literalTexts = some ["'1'".toList] ∧
      (scan? "//'\n'true'".toList).map literalTexts = some ["'true'".toList] ∧
      (disguiseIntegers "//'\n'1'".toList (.stream [] 0)).1 = "//'\n'(11 + 8 - 18)'".toList ∧
      tabulate "//'\n'1'".toList = "//'\n'__get_int(0)'".toList ∧
      tabulate "//'\n'true'".toList = "//'\n'__get_bool(0)'".toList ∧
      (swapTruths "//'\n'true'".toList (.stream [] 0)).1.1 ≠ "//'\n'true'".toList := by
  decide +kernel

end Obscura.Literal
