import Obscura.Flow.Opaque
import Obscura.Proofs.Reading

/-
  Where a source stands between its braces, and whether the outermost open brace is
  that of a contract. A text without braces, comments and literals leaves this as it
  is (`Within.run_inert`), and so do a state variable and a function put where the
  members of a contract stand (`Within.run_declaration`, `Within.run_function`). A
  brace leads there if it opens the body of a contract, or if it is only part of a
  line comment there (`within_brace_iff`).
-/

namespace Obscura.Flow

open Text Layout Number List Reader

variable {gap remark t u head name title value word : Chars}

/-- What has been read of the braces of a source. -/
structure Nesting where
  /-- The word being read. -/
  word : Chars := []
  /-- A contract has been announced outside of all braces, or its body is open. -/
  contract : Bool := false
  /-- The number of open braces. -/
  depth : Nat := 0
deriving Repr, DecidableEq

namespace Nesting

/-- The end of a word. -/
def settle (x : Nesting) : Nesting :=
  ⟨[], x.contract || (x.depth == 0 && x.word == "contract".toList), x.depth⟩

/-- A mark of code behind a word. A semicolon outside of all braces ends what was announced. -/
def mark (x : Nesting) (c : Char) : Nesting :=
  if c = '\x7b' then { x with depth := x.depth + 1 }
  else if c = '\x7d' then { x with contract := x.contract && decide (1 < x.depth), depth := x.depth - 1 }
  else if c = ';' then { x with contract := x.contract && decide (0 < x.depth) }
  else x

def reader : Reader Nesting where
  start := {}
  letter x c := { x with word := x.word ++ [c] }
  blank := settle
  mark x c := x.settle.mark c
  quoted x _ := x.settle

/-- The reading stands in code, in the body of a contract, with `d` open braces. -/
structure Within (d : Nat) (y : Mode × Nesting) : Prop where
  code : y.1 = .code
  contract : y.2.contract = true
  depth : y.2.depth = d

end Nesting

/-- Behind the text a member of a contract may stand: outside of comments and literals, and in
no braces but those of the contract. -/
def InContract (t : Chars) : Prop :=
  Nesting.Within 1 (Nesting.reader.read t)

/-- A brace behind the text opens the body of a contract. -/
def OpensContract (t : Chars) : Prop :=
  ((Nesting.reader.read t).1 = .code ∨ (Nesting.reader.read t).1 = .slash) ∧
    (Nesting.reader.read t).2.settle.contract = true ∧ (Nesting.reader.read t).2.depth = 0

/-- The text ends in a line comment that stands where members of a contract do. -/
def InMemberRemark (t : Chars) : Prop :=
  (Nesting.reader.read t).1 = .line ∧ (Nesting.reader.read t).2.contract = true ∧
    (Nesting.reader.read t).2.depth = 1

instance (t : Chars) : Decidable (OpensContract t) :=
  inferInstanceAs (Decidable (_ ∧ _ ∧ _))

instance (t : Chars) : Decidable (InMemberRemark t) :=
  inferInstanceAs (Decidable (_ ∧ _ ∧ _))

namespace Nesting

/-! ## Texts that leave the braces as they are -/

/-- A character that starts no comment and no literal and is no brace. -/
def isInert (c : Char) : Bool :=
  c != '/' && !isQuote c && c != '\x7b' && c != '\x7d'

theorem all_isInert_of_isNameChar {w : Chars} (h : ∀ c ∈ w, isNameChar c) : w.all isInert := by
  refine all_eq_true.2 fun c hc => ?_
  have hne : ∀ d ∈ ['/', '"', '\'', '\x7b', '\x7d'], c ≠ d := by
    have hall : ∀ d ∈ ['/', '"', '\'', '\x7b', '\x7d'], d.toNat < 128 ∧
        (d.isAlphanum || d == '_' || d == '$') = false := forall_mem_of_all rfl
    rintro d hd rfl
    have hname := h c hc
    rw [isNameChar_of_symbol (hall c hd).1 (hall c hd).2] at hname
    cases hname
  simp only [forall_mem_cons] at hne
  simp [isInert, isQuote, hne]

theorem all_isInert_append (ht : t.all isInert) (hu : u.all isInert) :
    (t ++ u).all isInert := by
  rw [all_append, ht, hu]
  rfl

theorem settle_of_pos {x : Nesting} (h : x.depth ≠ 0) : x.settle = ⟨[], x.contract, x.depth⟩ := by
  rw [settle, beq_eq_false_iff_ne.2 h, Bool.false_and, Bool.or_false]

theorem within_iff {d : Nat} {y : Mode × Nesting} :
    Within d y ↔ y.1 = .code ∧ y.2.contract ∧ y.2.depth = d :=
  ⟨fun h => ⟨h.code, h.contract, h.depth⟩, fun h => ⟨h.1, h.2.1, h.2.2⟩⟩

namespace Within

variable {d : Nat} {y : Mode × Nesting}

theorem settle (h : Within (d + 1) y) : y.2.settle = ⟨[], true, d + 1⟩ := by
  rw [settle_of_pos (by rw [h.depth]; exact Nat.succ_ne_zero d), h.contract, h.depth]

theorem step_inert (h : Within (d + 1) y) {c : Char} (hc : isInert c) : Within (d + 1) (reader.step y c) := by
  obtain ⟨m, x⟩ := y
  obtain rfl : m = .code := h.code
  simp only [isInert, Bool.and_eq_true, bne_iff_ne, Bool.not_eq_true'] at hc
  obtain ⟨⟨⟨hslash, hquote⟩, hopen⟩, hclose⟩ := hc
  rw [step_code, Mode.inCode]
  rw [if_neg hslash, hquote, if_neg Bool.false_ne_true]
  split
  · exact ⟨rfl, h.contract, h.depth⟩
  split
  · show Within (d + 1) (.code, x.settle)
    rw [h.settle]
    exact ⟨rfl, rfl, rfl⟩
  · show Within (d + 1) (.code, x.settle.mark c)
    rw [h.settle, mark, if_neg hopen, if_neg hclose]
    split
    · exact ⟨rfl, rfl, rfl⟩
    · exact ⟨rfl, rfl, rfl⟩

theorem run_inert (h : Within (d + 1) y) (ht : t.all isInert) :
    Within (d + 1) (reader.run y t) := by
  induction t generalizing y with
  | nil => exact h
  | cons c t ih =>
    rw [all_cons, Bool.and_eq_true] at ht
    exact ih (h.step_inert ht.1) ht.2

theorem step_open (h : Within (d + 1) y) : Within (d + 2) (reader.step y '\x7b') := by
  obtain ⟨m, x⟩ := y
  obtain rfl : m = .code := h.code
  rw [step_mark (isMark_of_mem rfl)]
  show Within (d + 2) (.code, x.settle.mark '\x7b')
  rw [h.settle]
  exact ⟨rfl, rfl, rfl⟩

theorem read_append_open {a : Chars} (h : Within (d + 1) (reader.read a)) (ht : t.all isInert)
    (hu : u.all isInert) : Within (d + 2) (reader.read (a ++ (t ++ '\x7b' :: u))) := by
  rw [read_append, run_append, run_cons]
  exact (h.run_inert ht).step_open.run_inert hu

theorem step_close (h : Within (d + 2) y) : Within (d + 1) (reader.step y '\x7d') := by
  obtain ⟨m, x⟩ := y
  obtain rfl : m = .code := h.code
  rw [step_mark (isMark_of_mem rfl)]
  show Within (d + 1) (.code, x.settle.mark '\x7d')
  rw [h.settle]
  refine ⟨rfl, ?_, rfl⟩
  show (true && decide (1 < d + 1 + 1)) = true
  rw [decide_eq_true (by omega)]
  rfl

theorem run_remark (h : Within (d + 1) y) (ht : ∀ c ∈ t, c ≠ '\n' ∧ c ≠ '\r') :
    Within (d + 1) (reader.run y ('/' :: '/' :: t ++ ['\n'])) := by
  obtain ⟨m, x⟩ := y
  obtain rfl : m = .code := h.code
  rw [run_lineComment ht]
  show Within (d + 1) (.code, x.settle.settle)
  rw [h.settle]
  exact ⟨rfl, rfl, rfl⟩

theorem run_block (h : Within (d + 1) y) {head body : Chars}
    (ht : t = head ++ '\x7b' :: ((gap ++ ('/' :: '/' :: remark ++ ['\n']) ++ body) ++ ['\x7d']))
    (hhead : head.all isInert) (hgap : gap.all isInert) (hremark : ∀ c ∈ remark, c ≠ '\n' ∧ c ≠ '\r')
    (hbody : body.all isInert) : Within (d + 1) (reader.run y t) := by
  rw [ht, run_append, run_cons, run_append, run_append, run_append]
  exact ((((h.run_inert hhead).step_open.run_inert hgap).run_remark hremark).run_inert hbody).step_close

end Within

/-! ## The helper and its state variable -/

/-- The names of the helper are made of characters of names. -/
structure IsNamed (c : Chaotic) : Prop where
  state : ∀ e ∈ c.stateName, isNameChar e = true
  helper : ∀ e ∈ c.helperName, isNameChar e = true

theorem isNamed_draw (draws : Draws) : IsNamed (Chaotic.draw draws).1 := by
  have hall : ∀ w ∈ ["cpm_x_".toList, "calculateCPM_".toList], ∀ e ∈ w,
      e.toNat < 128 ∧ (e.isAlphanum || e == '_') := forall_mem_mem_of_all rfl
  have hname {w : Chars} (hw : w ∈ ["cpm_x_".toList, "calculateCPM_".toList]) (n : Nat) :
      ∀ e ∈ w ++ digits n, isNameChar e := by
    refine forall_mem_append.2 ⟨fun e he => ?_, isNameChar_digits n⟩
    exact isNameChar_of_ascii (hall w hw e he).1 (hall w hw e he).2
  exact ⟨hname mem_cons_self _, hname (.tail _ mem_cons_self) _⟩

theorem regroup {opened closing ended params front behind last : Chars}
    (hopened : opened ++ remark = params ++ '\x7b' :: (gap ++ '/' :: '/' :: front))
    (hclosing : closing = behind ++ ['\n']) (hended : ended = last ++ ['\x7d']) :
    head ++ name ++ opened ++ remark ++ title ++ closing ++ word ++ value ++ ended =
      (head ++ name ++ params) ++ '\x7b' :: ((gap ++ ('/' :: '/' :: (front ++ title ++ behind) ++ ['\n'])
        ++ (word ++ value ++ last)) ++ ['\x7d']) := by
  rw [append_assoc (head ++ name), hopened, hclosing, hended]
  simp only [append_assoc, cons_append, nil_append]

section Components

variable {c : Chaotic} (hc : IsNamed c)

include hc

/-- No expression over the helper has braces, comments or literals. -/
theorem all_isInert_text (a : Term) : (a.text c).all isInert := by
  induction a with
  | hash => exact (by decide : "int256(uint256(keccak256(abi.encodePacked(val))))".toList.all isInert)
  | call =>
    refine all_isInert_append (all_isInert_of_isNameChar hc.helper) (all_isInert_append (t := ['(']) rfl ?_)
    exact all_isInert_append (all_isInert_of_isNameChar hc.state) rfl
  | word n =>
    exact all_isInert_append (all_isInert_append (by decide)
      (all_isInert_of_isNameChar (isNameChar_digits n))) rfl
  | neg a ih => exact all_isInert_append (t := ['-']) rfl ih
  | mod a b iha ihb | add a b iha ihb | sub a b iha ihb | mul a b iha ihb =>
    exact all_isInert_append (all_isInert_append iha (by decide)) ihb
  | group a ih => exact all_isInert_append (t := ['(']) rfl (all_isInert_append ih rfl)

variable {d : Nat} {y : Mode × Nesting}

theorem Within.run_declaration (h : Within (d + 1) y) : Within (d + 1) (reader.run y c.declaration) := by
  have hname := all_isInert_append (t := "    int256 private ".toList) (by decide)
    (all_isInert_of_isNameChar hc.state)
  have hvalue := all_isInert_append (all_isInert_append hname (u := " = int256(".toList) (by decide))
    (all_isInert_of_isNameChar (isNameChar_digits c.initial))
  exact h.run_inert (all_isInert_append hvalue (u := ");".toList) (by decide))

omit hc in
/-- The helper is a head and a block that holds a remark and a statement. -/
theorem function_eq :
    c.function = ("\n    function ".toList ++ c.helperName ++
      "(int256 val) internal pure returns (int256) ".toList)
      ++ '\x7b' :: (("\n        ".toList ++ ('/' :: '/' ::
        (" BiAn Chaotic Map (CPM) - ".toList ++ c.variant.title
        ++ " Variant".toList) ++ ['\n']) ++ ("        return ".toList ++ c.variant.body.text c ++
        ";\n    ".toList))
        ++ ['\x7d']) := regroup (by decide) (by decide) (by decide)

theorem Within.run_function (h : Within (d + 1) y) : Within (d + 1) (reader.run y c.function) := by
  have hhead := all_isInert_append (all_isInert_append (t := "\n    function ".toList) (by decide)
    (all_isInert_of_isNameChar hc.helper))
    (u := "(int256 val) internal pure returns (int256) ".toList) (by decide)
  have hstatement := all_isInert_append (all_isInert_append (t := "        return ".toList) (by decide)
    (all_isInert_text hc c.variant.body)) (u := ";\n    ".toList) (by decide)
  have hremark : ∀ e ∈ " BiAn Chaotic Map (CPM) - ".toList ++ c.variant.title ++ " Variant".toList,
      e ≠ '\n' ∧ e ≠ '\r' := by
    cases c.variant with
    | positive => exact forall_mem_of_all rfl
    | negative => exact forall_mem_of_all rfl
    | even => exact forall_mem_of_all rfl
  exact h.run_block function_eq hhead (by decide) hremark hstatement

end Components

/-! ## A brace -/

theorem settle_settle (x : Nesting) : x.settle.settle = x.settle := by
  have hword : ([] == "contract".toList) = false := by decide
  rw [settle, settle, hword, Bool.and_false, Bool.or_false]

theorem run_brace (x : Nesting) :
    reader.run (.code, x) ['\x7b', '\n'] = (.code, ⟨[], x.settle.contract, x.depth + 1⟩) := by
  rw [run_cons, step_mark (isMark_of_mem rfl), run_cons,
    step_blank (by decide), run_nil]
  show (Mode.code, (x.settle.mark '\x7b').settle) = _
  rw [settle_of_pos (Nat.succ_ne_zero _)]
  rfl

theorem within_brace_iff (y : Mode × Nesting) :
    Within 1 (reader.run y ['\x7b', '\n']) ↔
      (y.1 = .code ∨ y.1 = .slash) ∧ y.2.settle.contract ∧ y.2.depth = 0 ∨
        y.1 = .line ∧ y.2.contract ∧ y.2.depth = 1 := by
  obtain ⟨m, x⟩ := y
  have hopen (z : Nesting) : Within 1 (.code, ⟨[], z.settle.contract, z.depth + 1⟩) ↔
      z.settle.contract ∧ z.depth = 0 :=
    ⟨fun h => ⟨h.contract, Nat.succ.inj h.depth⟩, fun h => ⟨rfl, h.1, congrArg (· + 1) h.2⟩⟩
  cases m with
  | code =>
    rw [run_brace, hopen]
    simp
  | slash =>
    have hslash : reader.mark x '/' = x.settle := rfl
    have hmark : reader.run (.slash, x) ['\x7b', '\n'] = reader.run (.code, x.settle) ['\x7b', '\n'] := by
      rw [run_cons, step_slash (by decide) (by decide), hslash, ← run_cons]
    rw [hmark, run_brace, hopen, settle_settle]
    simp [settle]
  | line =>
    have hline : reader.run (.line, x) ['\x7b', '\n'] = (.code, x.settle) := rfl
    rw [hline]
    constructor
    · intro h
      have hdepth : x.depth = 1 := h.depth
      have hcontract := h.contract
      rw [settle_of_pos (by rw [hdepth]; decide)] at hcontract
      exact .inr ⟨rfl, hcontract, hdepth⟩
    · rintro (⟨hm | hm, -⟩ | ⟨-, hcontract, hdepth⟩)
      · cases hm
      · cases hm
      · rw [settle_of_pos (by rw [hdepth]; decide)]
        exact ⟨rfl, hcontract, hdepth⟩
  | block => simp [within_iff, run, step, Mode.next]
  | star => simp [within_iff, run, step, Mode.next]
  | quote d => cases d <;> simp [within_iff, run, step, Mode.next, quoteMark]
  | escape d => cases d <;> simp [within_iff, run, step, Mode.next, quoteMark]

end Nesting

/-- The helper stands behind the text as members of a contract: so do its state variable, its
function, and what follows them. -/
structure HelperStands (c : Chaotic) (t : Chars) : Prop where
  declaration : InContract (t ++ ['\n'])
  function : InContract (t ++ '\n' :: (c.declaration ++ ['\n']))
  rest : InContract (t ++ components c)

/-- **The helper behind a brace.** -/
theorem helperStands_iff {c : Chaotic} (hc : Nesting.IsNamed c) (a : Chars) :
    HelperStands c (a ++ ['\x7b']) ↔ OpensContract a ∨ InMemberRemark a := by
  have hbrace : InContract (a ++ ['\x7b'] ++ ['\n']) ↔ OpensContract a ∨ InMemberRemark a := by
    rw [InContract, append_assoc, read_append]
    exact Nesting.within_brace_iff _
  have hread (t : Chars) : Nesting.reader.read (a ++ ['\x7b'] ++ '\n' :: t) =
      Nesting.reader.run (Nesting.reader.read (a ++ ['\x7b'] ++ ['\n'])) t := by
    rw [← read_append, append_assoc (a ++ ['\x7b'])]
    rfl
  refine ⟨fun h => hbrace.1 h.declaration, fun h => ?_⟩
  have hstart := hbrace.2 h
  have hfunction := (hstart.run_declaration hc).run_inert (t := ['\n']) rfl
  refine ⟨hstart, ?_, ?_⟩
  · rw [InContract, hread, run_append]
    exact hfunction
  · rw [InContract, components, hread, run_append, run_cons, run_append]
    exact (hfunction.run_function hc).run_inert (t := ['\n']) rfl

end Obscura.Flow
