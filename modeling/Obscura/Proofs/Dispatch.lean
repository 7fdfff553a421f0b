import Obscura.Proofs.Expression.Value
import Obscura.Proofs.Machine
import Obscura.Proofs.Sections

/-
  What a dispatcher does. Run by its loop, the blocks of a body do what the
  sections of the body do one after the other (`reaches_blocksFrom`), in
  whatever order the arms stand. The run ends behind the last section: where
  statements stand last, the function is left or the loop is over; where a
  choice stands last, its sides lead to a number that no block has. In the text
  the blocks are the arms of a chain (`armsText_eq`), of which the number
  of a block selects that of the block (`selected?_map_arm`).
-/

namespace Obscura.Flow

open Text Ast Json Machine List

variable {id : Nat} {m : Machine} {qs : List Piece} {blocks : List Block}

/-! ## What a body does -/

/-- What a choice does behind its test: it runs the trimmed text of a side, or a remark in
its place, and nothing where it has no such side. -/
def sideEvents (outcome : Bool) (yes : Chars) (no : Option Chars) : List Event :=
  match outcome, no with
  | true, _ => [.ran (if trim yes = [] then "// empty true block".toList else trim yes)]
  | false, some code => [.ran (if trim code = [] then "// empty false block".toList else trim code)]
  | false, none => []

theorem orRemark_eq (code remark : Chars) :
    orRemark code remark = if trim code = [] then remark else trim code := by
  simp only [orRemark, List.isEmpty_iff]

/-- What sections do one after the other, given the outcomes of their
conditions. -/
def eventsOf (outcomes : Nat → Bool) : List Piece → List Event
  | [] => []
  | .plain lines :: ps => .ran (joinWith ['\n'] lines) :: eventsOf outcomes ps
  | .choice condition yes no :: ps =>
    .tested condition (outcomes 0) ::
      (sideEvents (outcomes 0) yes no ++ eventsOf (fun i => outcomes (i + 1)) ps)

def ending (behind : Nat) : List Piece → Option Nat
  | [] => some behind
  | [.plain lines] => if lines.getLast?.any isLast then none else some 0
  | .plain _ :: p :: ps => ending behind (p :: ps)
  | .choice .. :: ps => ending behind ps

/-- Sections end the function or its loop unless the last is a choice; then the
number behind them is the next. -/
theorem ending_cases (behind : Nat) (hq : qs ≠ []) : (LastIsChoice qs ∧ ending behind qs = some behind) ∨
      (¬ LastIsChoice qs ∧ (ending behind qs = none ∨ ending behind qs = some 0)) := by
  fun_induction ending behind qs with
  | case1 => exact absurd rfl hq
  | case2 lines => exact .inr ⟨not_lastIsChoice_plain lines, .inl rfl⟩
  | case3 lines => exact .inr ⟨not_lastIsChoice_plain lines, .inr rfl⟩
  | case4 lines p ps ih =>
    rw [lastIsChoice_cons_cons]
    exact ih (cons_ne_nil p ps)
  | case5 condition yes no ps ih =>
    cases ps with
    | nil => exact .inl ⟨⟨condition, yes, no, rfl⟩, rfl⟩
    | cons p ps =>
      rw [lastIsChoice_cons_cons]
      exact ih (cons_ne_nil p ps)

/-! ## Runs -/

/-- Each of the blocks is the arm of its number. -/
def Shows (arms blocks : List Block) : Prop :=
  ∀ b ∈ blocks, blockAt? b.id arms = some b

theorem Shows.append {as bs : List Block} (h : Shows arms (as ++ bs)) :
    Shows arms as ∧ Shows arms bs :=
  ⟨fun b hb => h b (mem_append_left bs hb), fun b hb => h b (mem_append_right as hb)⟩

/-- The blocks of a choice test its condition, run the side that it asks for and
go on behind themselves. -/
theorem reaches_choiceBlocks (hid : id ≠ 0)
    {condition yes : Chars} {no : Option Chars}
    (h : Shows arms (layoutFrom.choiceBlocks id condition yes no)) (o : Nat → Bool)
    (tr : List Event) :
    Reaches arms ⟨some id, o, tr⟩
      ⟨some (layoutFrom.after id no), fun i => o (i + 1),
        tr ++ .tested condition (o 0) :: sideEvents (o 0) yes no⟩ := by
  have htest := h ⟨id, condition, .branch (id + 1) (id + 2)⟩ (by cases no <;> exact .head _)
  cases ho : o 0 with
  | true =>
    have hyes := h ⟨id + 1, orRemark yes "// empty true block".toList, .goto (layoutFrom.after id no)⟩
      (by cases no <;> exact .tail _ (.head _))
    have hside := reaches_side htest hid o tr rfl hyes (Nat.succ_ne_zero id) (if_pos ho) rfl
    rw [ho, orRemark_eq] at hside
    exact hside
  | false =>
    cases no with
    | none =>
      have hskip := reaches_branch htest hid o tr rfl
      rw [ho] at hskip
      exact hskip
    | some code =>
      have hno := h ⟨id + 2, orRemark code "// empty false block".toList, .goto (id + 3)⟩
        (.tail _ (.tail _ (.head _)))
      have hside := reaches_side htest hid o tr rfl hno (Nat.succ_ne_zero _) (if_neg (by simp [ho])) rfl
      rw [ho, orRemark_eq] at hside
      exact hside

/-- **The run of a dispatcher.** From the first block of some sections the
machine comes behind them, and has then done what the sections do. -/
theorem reaches_blocksFrom (id : Nat) (qs : List Piece) (hid : id ≠ 0)
    (h : Shows arms (blocksFrom id qs)) (o : Nat → Bool) (tr : List Event) :
    ∃ o', Reaches arms ⟨some id, o, tr⟩
      ⟨ending (id + (blocksFrom id qs).length) qs, o', tr ++ eventsOf o qs⟩ := by
  -- the outcomes to come and the trace so far change along the run
  fun_induction blocksFrom id qs generalizing o tr with
  | case1 id =>
    refine ⟨o, ?_⟩
    rw [eventsOf, append_nil]
    exact .refl _ _
  | case2 id lines =>
    have hb := h ⟨id, joinWith ['\n'] lines, lastExit lines⟩ (.head _)
    refine ⟨o, ?_⟩
    rw [ending]
    split
    · exact reaches_leave hb hid o tr (if_pos ‹_›)
    · exact reaches_goto hb hid o tr (if_neg ‹_›)
  | case3 id lines p ps ih =>
    have hb := h ⟨id, joinWith ['\n'] lines, .goto (id + 1)⟩ (.head _)
    obtain ⟨o', hrest⟩ := ih (Nat.succ_ne_zero id) (fun b hm => h b (.tail _ hm)) o
      (tr ++ [.ran (joinWith ['\n'] lines)])
    refine ⟨o', (reaches_goto hb hid o tr rfl).trans ?_⟩
    rw [append_assoc, Nat.add_assoc, Nat.add_comm 1] at hrest
    exact hrest
  | case4 id condition yes no ps ih =>
    obtain ⟨hc, hrest⟩ := h.append
    have hlen := after_eq id condition yes no
    obtain ⟨o', hrest⟩ := ih (by omega) hrest (fun i => o (i + 1))
      (tr ++ .tested condition (o 0) :: sideEvents (o 0) yes no)
    refine ⟨o', (reaches_choiceBlocks hid hc o tr).trans ?_⟩
    rw [append_assoc, hlen, Nat.add_assoc, ← length_append, ← hlen] at hrest
    exact hrest

/-! ## Closed charts -/

/-- Every block leaves to a block of the chart or to the end. -/
def Closed (blocks : List Block) : Prop :=
  ∀ b ∈ blocks, ∀ n ∈ b.exit.successors, n = 0 ∨ n ∈ blocks.map Block.id

instance (blocks : List Block) : Decidable (Closed blocks) :=
  inferInstanceAs (Decidable (∀ b ∈ blocks, ∀ n ∈ b.exit.successors, _))

/-- A machine that runs is at a block of the chart or at the end. -/
def Inside (blocks : List Block) (m : Machine) : Prop :=
  ∀ n, m.state = some n → n = 0 ∨ n ∈ blocks.map Block.id

theorem Closed.leaveBy (hc : Closed blocks) {b : Block} (hb : b ∈ blocks)
    (m : Machine) : Inside blocks (m.leaveBy b) := by
  intro n hn
  have hsucc := hc b hb
  unfold Machine.leaveBy at hn
  split at hn
  · rename_i k he
    rw [he] at hsucc
    exact hsucc n (Option.some.inj hn ▸ .head _)
  · rename_i yes no he
    rw [he] at hsucc
    cases ho : m.outcomes 0 <;> simp only [ho] at hn
    · exact hsucc n (Option.some.inj hn ▸ .tail _ (.head _))
    · exact hsucc n (Option.some.inj hn ▸ .head _)
  · cases hn

theorem Closed.turn (hc : Closed blocks)
    (hm : Inside blocks m) : Inside blocks (turn blocks m) := by
  unfold Machine.turn
  split
  · exact hm
  · exact hm
  · split
    · exact hm
    · rename_i b hb
      exact hc.leaveBy (mem_of_find?_eq_some hb) m

theorem Closed.after (hc : Closed blocks)
    (hm : Inside blocks m) (k : Nat) : Inside blocks (m.after blocks k) := by
  induction k with
  | zero => exact hm
  | succ k ih =>
    rw [Nat.add_comm, after_add]
    exact hc.turn ih

/-! ## Charts -/

theorem chartOf_ok {s : Bytes} {statements : List Json} {chart : Chart}
    (h : chartOf s statements = .ok chart) :
    ∃ readings, statements.mapM (readStatement s) = .ok readings ∧
      chart.blocks = blocksFrom 1 (sections (piecesOf readings)) := by
  obtain ⟨readings, hr, h⟩ := bind_ok.1 h
  rw [← pure_ok.1 h]
  exact ⟨readings, hr, layout_eq _⟩

theorem ne_nil_of_blocksFrom
    (hb : blocks = blocksFrom id qs) (hne : blocks ≠ []) : qs ≠ [] := by
  rintro rfl
  exact hne hb

section chart

variable {s : Bytes} {statements : List Json} {chart : Chart}
  (h : chartOf s statements = .ok chart)

include h

theorem ids_chartOf : chart.blocks.map Block.id = List.range' 1 chart.blocks.length := by
  obtain ⟨readings, -, hb⟩ := chartOf_ok h
  rw [hb]
  exact ids_blocksFrom 1 _

theorem nodup_chartOf : (chart.blocks.map Block.id).Nodup := by
  rw [ids_chartOf h]
  exact nodup_range'

theorem mem_ids_chartOf {n : Nat} :
    n ∈ chart.blocks.map Block.id ↔ 1 ≤ n ∧ n ≤ chart.blocks.length := by
  rw [ids_chartOf h, mem_range'_1]
  omega

variable {arms : List Block} (hp : arms.Perm chart.blocks)

include hp

/-- Whatever the order of the arms is, the machine comes to a stop, and has then
done what the sections of the body do. -/
theorem stops_chartOf {readings : List Reading} (hr : statements.mapM (readStatement s) = .ok readings)
    (o : Nat → Bool) :
    ∃ m, Reaches arms (start o) m ∧ m.Stopped arms ∧
      m.state = ending (chart.blocks.length + 1) (sections (piecesOf readings)) ∧
      m.trace = eventsOf o (sections (piecesOf readings)) := by
  obtain ⟨readings', hr', hb⟩ := chartOf_ok h
  obtain rfl : readings' = readings := Except.ok.inj (hr'.symm.trans hr)
  have hd := nodup_chartOf h
  have hat := blockAt?_of_perm hp hd
  have hshow : Shows arms (blocksFrom 1 (sections (piecesOf readings'))) := by
    intro b hm
    rw [hat, blockAt?_eq_some_iff hd, hb]
    exact ⟨hm, rfl⟩
  obtain ⟨o', hreach⟩ := reaches_blocksFrom 1 _ (by decide) hshow o []
  refine ⟨_, hreach, ?_, by rw [hb, Nat.add_comm], rfl⟩
  by_cases hq : sections (piecesOf readings') = []
  · -- there are no blocks, and the machine waits for the first
    rw [hq] at hb ⊢
    exact .inr ⟨1, rfl, by rw [hat, hb]; rfl⟩
  rcases ending_cases (1 + (blocksFrom 1 (sections (piecesOf readings'))).length) hq with
    ⟨-, he⟩ | ⟨-, he⟩
  · -- the number behind the blocks is that of none
    refine .inr ⟨_, he, ?_⟩
    rw [hat, ← hb]
    refine blockAt?_eq_none fun hm => ?_
    have := (mem_ids_chartOf h).1 hm
    omega
  · exact .inl he

omit hp in
theorem closed_chartOf (hend : ¬ EndsInChoice s statements) : Closed chart.blocks := by
  obtain ⟨readings, hr, hb⟩ := chartOf_ok h
  rw [endsInChoice_iff (forall₂_of_mapM hr)] at hend
  intro b hm n hn
  have hids := mem_ids_chartOf h (n := n)
  rw [hb] at hm hids ⊢
  rcases successors_blocksFrom 1 hend b hm n hn with h0 | ⟨h1, hlt⟩
  · exact .inl h0
  · exact .inr (hids.2 ⟨h1, by omega⟩)

/-- The machine of a chart finishes unless the statements end in a choice. -/
theorem finishes_chartOf_iff (hne : chart.blocks ≠ []) (o : Nat → Bool) :
    (∃ k, ((start o).after arms k).Finished) ↔ ¬ EndsInChoice s statements := by
  obtain ⟨readings, hr, hb⟩ := chartOf_ok h
  obtain ⟨m, ⟨k, hk⟩, hstop, hstate, -⟩ := stops_chartOf h hp hr o
  rw [finishes_iff hk hstop, endsInChoice_iff (forall₂_of_mapM hr), Finished, hstate]
  rcases ending_cases (chart.blocks.length + 1) (ne_nil_of_blocksFrom hb hne) with ⟨hl, he⟩ | ⟨hl, he⟩
  · simp [hl, he]
  · simp [hl, he]

end chart

/-! ## Dispatchers -/

/-- An arm of the chain in the loop: the numeral that the variable is compared with, and the
lines between the braces. -/
structure Arm where
  numeral : Chars
  body : Chars
deriving DecidableEq

def Arm.text (keyword : Chars) (a : Arm) : Chars :=
  "            ".toList ++ keyword ++ " (state == ".toList ++ a.numeral ++ ") \x7b\n".toList ++ a.body
    ++ "            \x7d\n".toList

def chainText : List Arm → Chars
  | [] => []
  | a :: as => a.text "if".toList ++ as.flatMap (Arm.text "else if".toList)

/-- The arm that a chain runs: the first whose condition holds. -/
def selected? (state : Nat) (arms : List Arm) : Option Arm :=
  arms.find? fun a => Expression.numeral a.numeral = state

/-- The arm of a block. It holds the code of the block and sets the variable to the number
of the next block, in both sides of a choice where the block branches. -/
def Block.arm (b : Block) : Arm :=
  let inset (code : Chars) := indent "                ".toList (trim (dedent code)) ++ ['\n']
  match b.exit with
  | .goto n => ⟨Number.digits b.id, inset b.code ++ "                state = ".toList ++
    Number.digits n ++ ";\n".toList⟩
  | .branch yes no => ⟨Number.digits b.id, inset ("if (".toList ++ b.code ++ ") \x7b\n    state = ".toList
      ++ Number.digits yes ++ ";\n\x7d else \x7b\n    state = ".toList ++ Number.digits no ++ ";\n\x7d".toList)⟩
  | .leave => ⟨Number.digits b.id, inset b.code⟩

theorem armText_eq (first : Bool) (b : Block) :
    armText first b = b.arm.text (if first then "if".toList else "else if".toList) := by
  unfold armText Block.arm Block.content Block.next Arm.text
  cases b.exit <;> simp only [append_assoc, cons_append, nil_append]

theorem armsText_eq (blocks : List Block) : armsText blocks = chainText (blocks.map Block.arm) := by
  cases blocks with
  | nil => rfl
  | cons b bs =>
    have hfirst : armText true b = b.arm.text "if".toList := armText_eq true b
    have hrest : armText false = fun b => b.arm.text "else if".toList := funext (armText_eq false)
    rw [armsText, map_cons, chainText, hfirst, hrest, flatMap_map]

theorem selected?_map_arm (n : Nat) (blocks : List Block) :
    selected? n (blocks.map Block.arm) = (blockAt? n blocks).map Block.arm := by
  have hnumeral (b : Block) : Expression.numeral b.arm.numeral = b.id := by
    unfold Block.arm
    cases b.exit <;> exact Expression.numeral_digits b.id
  rw [selected?, find?_map, blockAt?]
  simp only [Function.comp_def, hnumeral]

/-- A body with a choice between statements. -/
def middleSource : Bytes :=
  encode "x = 1; if (c) \x7b a(); \x7d else \x7b \x7d return x;".toList

def middleBody : List Json :=
  [.obj [("nodeType", .str "ExpressionStatement"), ("src", .str "0:5:0")],
    .obj [("nodeType", .str "IfStatement"), ("condition", .obj [("src", .str "11:1:0")]),
      ("trueBody", .obj [("nodeType", .str "Block"), ("src", .str "14:8:0")]),
      ("falseBody", .obj [("nodeType", .str "Block"), ("src", .str "28:3:0")])],
    .obj [("nodeType", .str "Return"), ("src", .str "32:8:0")]]

def middleChart : Chart :=
  ⟨[⟨1, "x = 1;".toList, .goto 2⟩, ⟨2, "c".toList, .branch 3 4⟩, ⟨3, "a();".toList, .goto 5⟩,
    ⟨4, "// empty false block".toList, .goto 5⟩, ⟨5, "return x;".toList, .leave⟩], []⟩

theorem chartOf_middleBody : chartOf middleSource middleBody = .ok middleChart := by
  decide +kernel

/-- A body that is nothing but a choice. -/
def bareSource : Bytes :=
  encode "if (c) \x7b a(); \x7d".toList

def bareBody : List Json :=
  [.obj [("nodeType", .str "IfStatement"), ("condition", .obj [("src", .str "4:1:0")]),
    ("trueBody", .obj [("nodeType", .str "Block"), ("src", .str "7:8:0")])]]

def bareChart : Chart :=
  ⟨[⟨1, "c".toList, .branch 2 3⟩, ⟨2, "a();".toList, .goto 3⟩], []⟩

theorem chartOf_bareBody : chartOf bareSource bareBody = .ok bareChart := by
  decide +kernel

/-- **When a dispatcher leaves its loop.** The blocks of a body lead to the end
or to each other exactly if its statements do not end in a choice; then the
machine finishes for all outcomes of the conditions, and else for none. -/
theorem leaves_loop_exactly {s : Bytes} {statements : List Json} {chart : Chart}
    (h : chartOf s statements = .ok chart) (hne : chart.blocks ≠ []) :
    (Closed chart.blocks ↔ ¬ EndsInChoice s statements) ∧
      ∀ arms : List Block, arms.Perm chart.blocks → ∀ outcomes,
        (∃ k, ((start outcomes).after arms k).Finished) ↔ ¬ EndsInChoice s statements := by
  refine ⟨⟨fun hc hend => ?_, closed_chartOf h⟩, fun arms hp o => finishes_chartOf_iff h hp hne o⟩
  -- the run of a body that ends in a choice leads out of its blocks
  obtain ⟨readings, hr, hb⟩ := chartOf_ok h
  obtain ⟨m, ⟨k, hk⟩, -, hstate, -⟩ := stops_chartOf h (.refl _) hr (fun _ => true)
  have hlast := (endsInChoice_iff (forall₂_of_mapM hr)).1 hend
  have hin : Inside chart.blocks (start fun _ => true) := by
    intro n hn
    have hlen : 0 < chart.blocks.length := List.length_pos_iff.2 hne
    obtain rfl : 1 = n := Option.some.inj hn
    exact .inr ((mem_ids_chartOf h).2 ⟨Nat.le_refl 1, hlen⟩)
  rcases ending_cases (chart.blocks.length + 1) (ne_nil_of_blocksFrom hb hne) with ⟨-, he⟩ | ⟨hl, -⟩
  · have hout := hc.after hin k
    rw [hk] at hout
    rcases hout _ (hstate.trans he) with h0 | hm
    · cases h0
    · have := (mem_ids_chartOf h).1 hm
      omega
  · exact hl hlast

theorem leaves_loop_middle :
    Closed middleChart.blocks ∧
      ∀ outcomes, ∃ k, ((start outcomes).after middleChart.blocks k).Finished := by
  have hc : Closed middleChart.blocks := by decide
  obtain ⟨hiff, hrun⟩ := leaves_loop_exactly chartOf_middleBody (by decide)
  exact ⟨hc, fun o => (hrun _ (.refl _) o).2 (hiff.1 hc)⟩

/-- Behind a choice at the end no block stands: both of its sides lead to number
three, and the loop never ends. -/
theorem bare_choice_never_leaves :
    chartOf bareSource bareBody = .ok bareChart ∧ bareChart.blocks ≠ [] ∧
      ¬ Closed bareChart.blocks ∧
      ∀ outcomes k, ¬ ((start outcomes).after bareChart.blocks k).Finished := by
  refine ⟨chartOf_bareBody, by decide, by decide, fun o k hk => ?_⟩
  refine (finishes_chartOf_iff chartOf_bareBody (.refl _) (by decide) o).1 ⟨k, hk⟩ ?_
  exact ⟨[], _, [], rfl, ⟨_, rfl, rfl⟩, fun _ h => nomatch h⟩

/-- **A dispatcher keeps the order of statements.** The blocks are numbered from
one on. The text is a loop over a chain of their arms in some order, and of each such chain
the same arm is run for a number, that of the block with the number. Whatever the outcomes
of the conditions are, the machine stops and has then run the statements that stand
together in their order and, for each choice, has tested its condition and run the side
that it asks for, all with the texts that they have in the source. -/
theorem keeps_order {s : Bytes} {statements : List Json} {chart : Chart}
    (h : chartOf s statements = .ok chart) :
    chart.blocks.map Block.id = List.range' 1 chart.blocks.length ∧
      (∀ draws, ∃ order : List Block, order.Perm chart.blocks ∧
        (dispatcher chart draws).1 = "\x7b\n".toList ++ hoistedText chart.hoisted
          ++ "        uint256 state = 1;\n        while (state != 0) \x7b\n".toList
          ++ chainText (order.map Block.arm) ++ "        \x7d\n    \x7d".toList) ∧
      (∀ order : List Block, order.Perm chart.blocks → ∀ n,
        blockAt? n order = blockAt? n chart.blocks ∧
        selected? n (order.map Block.arm) = (blockAt? n chart.blocks).map Block.arm) ∧
      ∃ pieces, List.Forall₂ (ReadsAs s) statements pieces ∧
        ∀ order : List Block, order.Perm chart.blocks → ∀ outcomes, ∃ k, ∀ j, k ≤ j →
          ((start outcomes).after order j).Stopped order ∧
            ((start outcomes).after order j).trace = eventsOf outcomes (sections pieces) := by
  obtain ⟨readings, hr, -⟩ := chartOf_ok h
  have hat {order : List Block} (hp : order.Perm chart.blocks) := blockAt?_of_perm hp (nodup_chartOf h)
  refine ⟨ids_chartOf h, fun draws => ⟨_, Sampled.shuffle_perm chart.blocks draws, ?_⟩,
    fun order hp n => ⟨hat hp n, by rw [selected?_map_arm, hat hp]⟩, piecesOf readings, ?_,
    fun order hp o => ?_⟩
  · rw [← armsText_eq]
    rfl
  · exact List.forall₂_map_right_iff.2 ((forall₂_of_mapM hr).imp fun _ _ => readsAs_of_readStatement)
  · obtain ⟨m, ⟨k, hk⟩, hstop, -, htrace⟩ := stops_chartOf h hp hr o
    refine ⟨k, fun j hj => ?_⟩
    rw [after_of_le hk hstop hj]
    exact ⟨hstop, htrace⟩

/-- With the arms in the opposite order and a condition that does not hold. -/
theorem keeps_order_middle :
    chartOf middleSource middleBody = .ok middleChart ∧
      selected? 4 (middleChart.blocks.reverse.map Block.arm) =
        some ⟨['4'], "                // empty false block\n                state = 5;\n".toList⟩ ∧
      ∃ pieces, List.Forall₂ (ReadsAs middleSource) middleBody pieces ∧
        eventsOf (fun _ => false) (sections pieces) =
          [.ran "x = 1;".toList, .tested "c".toList false, .ran "// empty false block".toList,
            .ran "return x;".toList] := by
  obtain ⟨-, -, hselect, pieces, hreads, hrun⟩ := keeps_order chartOf_middleBody
  obtain ⟨k, hk⟩ := hrun _ (List.reverse_perm _) fun _ => false
  have hleft : ((start fun _ => false).after middleChart.blocks.reverse 4).state = none := by decide
  have htrace := (hk (max k 4) (Nat.le_max_left k 4)).2
  rw [after_of_le rfl (.inl (.inl hleft)) (Nat.le_max_right k 4)] at htrace
  refine ⟨chartOf_middleBody, (hselect _ (List.reverse_perm _) 4).2.trans ?_, pieces, hreads,
    htrace.symm.trans ?_⟩
  · decide +kernel
  · decide

end Obscura.Flow
