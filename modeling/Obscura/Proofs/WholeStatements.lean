import Obscura.Proofs.Hoisting
import Obscura.Proofs.Statements

/-
  Texts that are whole statements. Statements that are read one after the other are
  all of the text (`flatten_statements`). An assignment of an expression is one
  statement, and so is a choice between two blocks. The range of a statement may stop
  short of its semicolon; then it is open, and with a semicolon behind it the range is
  the statement.
-/

namespace Obscura.Flow

open Text Ast Json List

variable {a es b : List Symbol} {c : Char} {d e n : Nat} {move : Nat → Char → Move}
  {t w : Chars} {x x' : Symbols} {xs : List (List Symbol)}

/-! ## Nothing is lost between statements -/

def Part.LeavesEnd (p : Part) : Prop :=
  ∀ ts r, p ts = some r → r <:+ ts

namespace Part.LeavesEnd

variable {p q : Part}

theorem scan (move : Nat → Char → Move) (depth : Nat) : LeavesEnd (scan move depth) := by
  intro ts r h
  induction ts generalizing depth with
  | nil => cases h
  | cons x ts ih =>
    have hrest : ∀ d, Flow.scan move d ts = some r → r <:+ x :: ts := fun d hd =>
      (ih d hd).trans (suffix_cons x ts)
    cases x with
    | word w joined => exact hrest depth h
    | quoted c joined => exact hrest depth h
    | mark c joined =>
      rw [Flow.scan] at h
      split at h
      · exact hrest _ h
      · cases h
        exact suffix_cons _ _
      · cases h

theorem condition : LeavesEnd condition := by
  intro ts r h
  unfold Flow.condition at h
  split at h
  · split at h
    · exact (LeavesEnd.scan blockMove 1 _ _ h).trans (suffix_cons _ _)
    · cases h
  · cases h

theorem refused : LeavesEnd .refused := by
  intro ts r h
  cases h

theorem nothing : LeavesEnd .nothing := by
  intro ts r h
  cases h
  exact suffix_rfl

theorem next (hp : LeavesEnd p) (hq : LeavesEnd q) : LeavesEnd (p.next q) := by
  intro ts r h
  obtain ⟨m, hm, hr⟩ := Option.bind_eq_some_iff.1 h
  exact (hq m r hr).trans (hp ts m hm)

theorem choice (w : Chars) (hp : LeavesEnd p) (hq : LeavesEnd q) : LeavesEnd (.choice w p q) := by
  intro ts r h
  unfold Part.choice at h
  split at h
  · rename_i m hm
    refine (hp m r h).trans ?_
    unfold behindWord at hm
    split at hm
    · split at hm
      · cases hm
        exact suffix_cons _ _
      · cases hm
    · cases hm
  · exact hq ts r h

theorem handlers (n : Nat) : LeavesEnd (handlers n) := by
  induction n with
  | zero => exact .refused
  | succ n ih => exact (LeavesEnd.scan blockMove 0).next (.choice _ ih .nothing)

theorem attempt (n : Nat) : LeavesEnd (attempt n) := by
  induction n with
  | zero => exact .refused
  | succ n ih => exact (LeavesEnd.scan blockMove 0).next (.choice _ (.handlers n) ih)

theorem worded (w : Chars) (n : Nat) (hp : LeavesEnd p) : LeavesEnd (worded w n p) := by
  unfold Flow.worded
  split
  · exact (LeavesEnd.condition.next hp).next (.choice _ hp .nothing)
  split
  · exact LeavesEnd.condition.next hp
  split
  · exact hp.next (.scan simpleMove 0)
  split
  · exact .attempt n
  split
  · exact .scan blockMove 0
  split
  · exact .refused
  · exact .scan simpleMove 0

theorem statement (n : Nat) : LeavesEnd (statement n) := by
  induction n with
  | zero =>
    intro ts r h
    cases h
  | succ n ih =>
    intro ts r h
    cases ts with
    | nil => cases h
    | cons x ts =>
      cases x with
      | word w joined => exact (LeavesEnd.worded w n ih ts r h).trans (suffix_cons _ _)
      | quoted c joined => exact LeavesEnd.scan simpleMove 0 _ r h
      | mark c joined =>
        rw [Flow.statement] at h
        split at h
        · exact (LeavesEnd.scan blockMove 1 ts r h).trans (suffix_cons _ _)
        · split at h
          · cases h
          · exact LeavesEnd.scan simpleMove 0 _ r h

end Part.LeavesEnd

theorem flatten_statements {ts : List Symbol} (h : statements n ts = some xs) : xs.flatten = ts := by
  induction n generalizing ts xs with
  | zero =>
    cases ts with
    | nil =>
      cases h
      rfl
    | cons x ts => cases h
  | succ n ih =>
    cases ts with
    | nil =>
      cases h
      rfl
    | cons x ts =>
      obtain ⟨_, r, ys, ⟨⟩, hr, hys, rfl⟩ := statements_cons h
      obtain ⟨front, hfront⟩ := Part.LeavesEnd.statement _ _ _ hr
      rw [flatten_cons, ih hys, ← hfront, length_append, Nat.add_sub_cancel, take_left]

theorem flatten_statementsOf? (h : statementsOf? t = some xs) : xs.flatten = symbolsOf t :=
  flatten_statements (statementsOf?_eq_some_iff.1 h).2

theorem statementsOf?_one (hwhole : IsWhole t) (hlength : (symbolsOf t).length = n + 1)
    (h : statement (n + 1) (symbolsOf t) = some []) : statementsOf? t = some [symbolsOf t] := by
  refine statementsOf?_eq_some_iff.2 ⟨hwhole, ?_⟩
  obtain ⟨x, ts, hsymbols⟩ := exists_cons_of_length_eq_add_one hlength
  rw [hlength, hsymbols, statements, ← hsymbols, h]
  cases n <;> simp [statements]

/-! ## Brackets -/

/-- The number of brackets that are open behind some symbols, if the part goes on there. -/
def level? (move : Nat → Char → Move) : Nat → List Symbol → Option Nat
  | d, [] => some d
  | d, .mark c _ :: r =>
    match move d c with
    | .goes e => level? move e r
    | _ => none
  | d, _ :: r => level? move d r

theorem passes_append (h : level? move d a = some e) :
    scan move d (a ++ b) = scan move e b ∧ level? move d (a ++ b) = level? move e b := by
  induction a generalizing d with
  | nil =>
    cases h
    exact ⟨rfl, rfl⟩
  | cons x a ih =>
    cases x with
    | word w joined => exact ih h
    | quoted c joined => exact ih h
    | mark c joined =>
      rw [level?] at h
      rw [cons_append, scan, level?]
      split at h
      · rename_i hmove
        rw [hmove]
        exact ih h
      · cases h

/-- What goes on inside of a statement goes on inside of a bracket. -/
theorem level?_blockMove (h : level? simpleMove d a = some e) :
    level? blockMove (d + 1) a = some (e + 1) := by
  induction a generalizing d with
  | nil =>
    cases h
    rfl
  | cons x a ih =>
    cases x with
    | word w joined => exact ih h
    | quoted c joined => exact ih h
    | mark c joined =>
      rw [level?, simpleMove] at h
      rw [level?, blockMove, if_neg (Nat.succ_ne_zero d)]
      by_cases hopen : isOpening c
      · rw [if_pos hopen] at h ⊢
        exact ih h
      by_cases hclose : isClosing c
      · rw [if_neg hopen, if_pos hclose] at h ⊢
        cases d with
        | zero => cases h
        | succ d => exact ih h
      · rw [if_neg hopen, if_neg hclose] at h ⊢
        split at h
        · rename_i hmove
          split at hmove
          · cases hmove
          · cases hmove
            exact ih h
        · cases h

/-! ## Symbols behind others -/

/-- The symbol without what tells whether it stands right behind another. -/
def bare : Symbol → Symbol
  | .word w _ => .word w false
  | .mark c _ => .mark c false
  | .quoted c _ => .quoted c false

theorem level?_of_bare {b : List Symbol} (h : a.map bare = b.map bare) :
    level? move d a = level? move d b := by
  induction a generalizing b d with
  | nil =>
    rw [map_eq_nil_iff.1 h.symm]
  | cons x a ih =>
    obtain ⟨y, b, rfl⟩ : ∃ y b', b = y :: b' := by
      cases b with
      | nil => cases h
      | cons y b => exact ⟨y, b, rfl⟩
    rw [map_cons, map_cons, cons.injEq] at h
    cases x <;> cases y <;> cases h.1
    · show level? move d a = level? move d b
      exact ih h.2
    · rw [level?, level?]
      split
      · exact ih h.2
      · rfl
    · show level? move d a = level? move d b
      exact ih h.2

def SameBare (x x' : Symbols) : Prop :=
  x'.word = x.word ∧ x'.done.map bare = x.done.map bare

theorem SameBare.settle (h : SameBare x x') : SameBare x.settle x'.settle := by
  unfold Symbols.settle
  rw [h.1]
  split
  · exact h
  · refine ⟨rfl, ?_⟩
    rw [map_append, map_append, h.2]
    rfl

theorem SameBare.add (h : SameBare x x') {e : Bool → Symbol}
    (he : ∀ j k, bare (e j) = bare (e k)) : SameBare (x.add e) (x'.add e) := by
  refine ⟨rfl, ?_⟩
  rw [Symbols.add, Symbols.add, map_append, map_append, h.settle.2, map_singleton,
    map_singleton, he]

theorem keeps_sameBare : Symbols.reader.Keeps SameBare where
  letter := fun _ _ c h => ⟨congrArg (· ++ [c]) h.1, h.2⟩
  blank := fun _ _ h => ⟨rfl, h.settle.2⟩
  mark := fun _ _ _ h => h.add fun _ _ => rfl
  quoted := fun _ _ _ h => h.add fun _ _ => rfl

theorem symbolsOf_between {o : Char} (ho : Reader.isMark o) (hc : Reader.isMark c)
    (ht : EndsInCode t) : EndsInCode (o :: (t ++ [c])) ∧
      ∃ es j, symbolsOf (o :: (t ++ [c])) = .mark o false :: (es ++ [.mark c j]) ∧
        es.map bare = (symbolsOf t).map bare := by
  -- the text is read alone, behind a symbol that is not kept, and behind the mark
  have hstart : SameBare {} { joined := true } := ⟨rfl, rfl⟩
  obtain ⟨hmode, hbare⟩ := keeps_sameBare.run hstart .code t
  have hafter : Symbols.After [.mark o false] { joined := true }
      { done := [.mark o false], joined := true } := rfl
  obtain ⟨hmode', hdone⟩ := (Symbols.keeps_after [.mark o false]).run hafter .code t
  generalize hy : Symbols.reader.run (.code, { joined := true }) t = y at hmode hbare hmode' hdone
  have hrun : Symbols.reader.run (.code, { done := [.mark o false], joined := true }) t =
      (.code, { y.2 with done := [.mark o false] ++ y.2.done }) :=
    Prod.ext (hmode'.symm.trans (hmode.symm.trans ht)) hdone
  have hread : Symbols.reader.read (o :: (t ++ [c])) =
      (.code, ⟨.mark o false :: (y.2.settle.done ++ [.mark c y.2.settle.joined]), [], true⟩) := by
    rw [Reader.read, Reader.run_cons, Reader.step_mark ho, Reader.run_append]
    show Symbols.reader.run (Symbols.reader.run (.code, { done := [.mark o false], joined := true }) t) [c] = _
    rw [hrun, Reader.run_cons, Reader.step_mark hc, Reader.run_nil]
    have hbehind : Symbols.After [.mark o false] y.2 { y.2 with done := [.mark o false] ++ y.2.done } := rfl
    exact congrArg (Prod.mk Mode.code) (hbehind.add (.mark c))
  refine ⟨?_, y.2.settle.done, y.2.settle.joined, ?_, ?_⟩
  · rw [EndsInCode, hread]
  · rw [symbolsOf, readLine_eq, hread, Reader.step_blank (by decide)]
    rfl
  · rw [symbolsOf_eq_settle ht]
    exact hbare.settle.2

/-! ## Assignments and choices -/

/-- The words that statements other than simple ones start with. -/
def leadWords : List Chars :=
  ["if", "while", "for", "do", "try", "unchecked", "assembly", "else", "catch"].map String.toList

theorem worded_of_notMem (h : w ∉ leadWords) (p : Part) : worded w n p = simple := by
  simp only [leadWords, map_cons, map_nil, mem_cons, not_mem_nil, or_false, not_or] at h
  simp only [worded, h, or_self, if_false]

theorem level?_listed {ps : List (Option Chars)} (h : listed? es = some ps) :
    level? simpleMove 1 es = some 0 := by
  fun_induction listed? es generalizing ps with
  | case1 => rfl
  | case2 => rfl
  | case3 j es ih =>
    obtain ⟨qs, hqs, -⟩ := Option.map_eq_some_iff.1 h
    exact ih hqs
  | case4 w j k es ih =>
    obtain ⟨qs, hqs, -⟩ := Option.map_eq_some_iff.1 h
    exact ih hqs
  | case5 => cases h

/-- The text is an expression as far as brackets and semicolons go. -/
structure IsExpression (t : Chars) : Prop where
  endsInCode : EndsInCode t
  balanced : level? simpleMove 0 (symbolsOf t) = some 0

/-- **An assignment is one statement.** -/
theorem statementsOf?_assignLine {left right : Chars} {targets : List (Option Chars)}
    (hleft : IsTargets left targets) (hfree : ∀ w, some w ∈ targets → w ∉ leadWords)
    (hright : IsExpression right) :
    statementsOf? (assignLine left right) = some [symbolsOf (assignLine left right)] := by
  obtain ⟨hcode, j, hsymbols⟩ := symbolsOf_assignLine hleft.endsInCode hright.endsInCode
  have hwhole : IsWhole (assignLine left right) := isWhole_of_endsInCode hcode
  have hvalue : level? simpleMove 0 (.mark '=' false :: symbolsOf right) = some 0 := hright.balanced
  have hreads := hleft.reads
  unfold targets? at hreads
  split at hreads
  · rename_i w k hw
    cases hreads
    rw [hw] at hsymbols
    refine statementsOf?_one hwhole (congrArg length hsymbols) ?_
    rw [hsymbols]
    show worded w _ _ _ = _
    rw [worded_of_notMem (hfree w mem_cons_self)]
    exact (passes_append hvalue).1
  · rename_i k es hw
    have hlevel : level? simpleMove 0 (.mark '(' k :: es ++ .mark '=' false :: symbolsOf right) = some 0 := by
      have hlist : level? simpleMove 0 (.mark '(' k :: es) = some 0 := level?_listed hreads
      rw [(passes_append hlist).2]
      exact hvalue
    rw [hw] at hsymbols
    refine statementsOf?_one hwhole (congrArg length hsymbols) ?_
    rw [hsymbols]
    show simple _ = _
    exact (passes_append hlevel).1
  · cases hreads

theorem isIdentifier_digits : IsIdentifier (Number.digits n) :=
  ⟨Nat.toDigits_ne_nil, Reader.isNameChar_digits n⟩

theorem IsExpression.word (h : IsIdentifier w) : IsExpression w where
  endsInCode := h.endsInCode
  balanced := by
    rw [h.symbolsOf]
    rfl

theorem isExpression_defaultValue : IsExpression (defaultValue t) := by
  refine ⟨endsInCode_defaultValue t, ?_⟩
  unfold defaultValue
  repeat' split
  all_goals decide +kernel

/-- The line that tells which block runs next. -/
def jumpLine (n : Nat) : Chars :=
  assignLine "state".toList (Number.digits n)

theorem isIdentifier_state : IsIdentifier "state".toList := isIdentifier_of_ascii (by decide) rfl

theorem statementsOf?_jumpLine (n : Nat) : statementsOf? (jumpLine n) = some [symbolsOf (jumpLine n)] := by
  refine statementsOf?_assignLine (isTargets_name isIdentifier_state) ?_ (.word isIdentifier_digits)
  intro w hw
  cases mem_singleton.1 hw
  decide

def bracedJump (n : Nat) : Chars :=
  '\x7b' :: ("\n    ".toList ++ jumpLine n ++ ['\n'] ++ ['\x7d'])

theorem scan_group (h : level? blockMove 1 es = some 1) (hc : blockMove 1 c = .ends)
    (j : Bool) (r : List Symbol) : scan blockMove 1 (es ++ .mark c j :: r) = some r := by
  rw [(passes_append h).1, scan, hc]

theorem symbolsOf_bracedJump (n : Nat) : EndsInCode (bracedJump n) ∧
    ∃ es j, symbolsOf (bracedJump n) = .mark '\x7b' false :: (es ++ [.mark '\x7d' j]) ∧
      level? blockMove 1 es = some 1 := by
  obtain ⟨hcode, k, hsymbols⟩ :=
    symbolsOf_assignLine isIdentifier_state.endsInCode isIdentifier_digits.endsInCode
  have hgap : ∀ c ∈ "\n    ".toList, isBlank c := forall_mem_of_all rfl
  have hinner : EndsInCode ("\n    ".toList ++ jumpLine n ++ ['\n']) := by
    rw [EndsInCode, append_assoc, read_gap hgap]
    exact (endsInCode_append_blank hcode (by decide)).2 rfl
  obtain ⟨hends, es, j, hbraced, hbare⟩ := symbolsOf_between (o := '\x7b') (c := '\x7d')
    (Reader.isMark_of_mem rfl) (Reader.isMark_of_mem rfl) hinner
  refine ⟨hends, es, j, hbraced, ?_⟩
  have hline : symbolsOf ("\n    ".toList ++ jumpLine n ++ ['\n']) = symbolsOf (jumpLine n) := by
    rw [append_assoc, symbolsOf, readLine_gap hgap, ← symbolsOf, jumpLine,
      symbolsOf_append_blank hcode (by decide), symbolsOf_nil, append_nil]
  rw [level?_of_bare hbare, hline, jumpLine, hsymbols, isIdentifier_state.symbolsOf,
    isIdentifier_digits.symbolsOf]
  rfl

/-- **A choice between two jumps is one statement.** -/
theorem statementsOf?_choice {condition : Chars} (h : IsExpression condition) (id yes no : Nat) :
    statementsOf? (Block.content ⟨id, condition, .branch yes no⟩) =
      some [symbolsOf (Block.content ⟨id, condition, .branch yes no⟩)] := by
  have htext : Block.content ⟨id, condition, .branch yes no⟩ =
      "if".toList ++ ' ' :: ('(' :: (condition ++ [')']) ++
      ' ' :: (bracedJump yes ++ ' ' :: ("else".toList ++ ' ' :: bracedJump no))) := by
    simp [Block.content, bracedJump, jumpLine, assignLine]
  have hif : IsIdentifier "if".toList := isIdentifier_of_ascii (by decide) rfl
  have helse : IsIdentifier "else".toList := isIdentifier_of_ascii (by decide) rfl
  obtain ⟨hends, es, j, hcondition, hbare⟩ := symbolsOf_between (o := '(') (c := ')')
    (Reader.isMark_of_mem rfl) (Reader.isMark_of_mem rfl) h.endsInCode
  obtain ⟨hyes, ys, k, hysymbols, hylevel⟩ := symbolsOf_bracedJump yes
  obtain ⟨hno, zs, l, hzsymbols, hzlevel⟩ := symbolsOf_bracedJump no
  have hlevel : level? blockMove 1 es = some 1 := by
    rw [level?_of_bare hbare]
    exact level?_blockMove h.balanced
  have hcode : EndsInCode (Block.content ⟨id, condition, .branch yes no⟩) := by
    rw [htext, endsInCode_append_blank hif.endsInCode (by decide), endsInCode_append_blank hends (by decide),
      endsInCode_append_blank hyes (by decide), endsInCode_append_blank helse.endsInCode (by decide)]
    exact hno
  have hsymbols : symbolsOf (Block.content ⟨id, condition, .branch yes no⟩) =
      .word "if".toList false :: .mark '(' false :: (es ++ .mark ')' j ::
        (.mark '\x7b' false :: (ys ++ .mark '\x7d' k ::
          (.word "else".toList false :: .mark '\x7b' false :: (zs ++ .mark '\x7d' l :: []))))) := by
    rw [htext, symbolsOf_append_blank hif.endsInCode (by decide), symbolsOf_append_blank hends (by decide),
      symbolsOf_append_blank hyes (by decide),
      symbolsOf_append_blank helse.endsInCode (by decide), hif.symbolsOf,
      helse.symbolsOf, hcondition, hysymbols, hzsymbols]
    simp
  refine statementsOf?_one (isWhole_of_endsInCode hcode) (congrArg length hsymbols) ?_
  rw [hsymbols]
  -- the condition is passed, then the first jump, and behind the word the second one
  have hfirst := scan_group hlevel (c := ')') rfl j (.mark '\x7b' false :: (ys ++ .mark '\x7d' k ::
    (.word "else".toList false :: .mark '\x7b' false :: (zs ++ .mark '\x7d' l :: []))))
  have hsecond := scan_group hylevel (c := '\x7d') rfl k
    (.word "else".toList false :: .mark '\x7b' false :: (zs ++ .mark '\x7d' l :: []))
  have hthird := scan_group hzlevel (c := '\x7d') rfl l []
  exact Option.bind_eq_some_iff.2 ⟨_, Option.bind_eq_some_iff.2 ⟨_, hfirst, hsecond⟩, hthird⟩

end Obscura.Flow
