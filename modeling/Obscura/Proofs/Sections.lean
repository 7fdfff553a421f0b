import Obscura.Flow.Block
import Obscura.Proofs.Except

/-
  Sections of a body: the statements that stand together, and the choices
  between them. The blocks of a body are those of its sections one after the
  other (`layoutFrom_eq`). So they are numbered without gaps (`ids_blocksFrom`),
  and a block leads out of them only if the last section is a choice
  (`successors_blocksFrom`). Which piece a statement is follows from its text
  (`ReadsAs`).
-/

namespace Obscura.Flow

open Text Ast Json List

variable {ms : Members} {qs ps : List Piece} {r : Reading} {v : Json} {id : Nat}
  {lines pending : List Chars} {condition yes : Chars} {no : Option Chars}

/-! ## Sections -/

/-- Put statements in front of some sections. -/
def prepend (lines : List Chars) : List Piece → List Piece
  | .plain more :: ps => .plain (lines ++ more) :: ps
  | ps => if lines.isEmpty then ps else .plain lines :: ps

/-- The sections of a body; statements that left no code behind are in none. -/
def sections : List Piece → List Piece
  | [] => []
  | .plain lines :: ps => prepend lines (sections ps)
  | .choice condition yes no :: ps => .choice condition yes no :: sections ps

theorem prepend_nil : prepend [] ps = ps := by
  rcases ps with - | ⟨_ | _, ps⟩ <;> rfl

theorem prepend_append (a b : List Chars) :
    prepend (a ++ b) ps = prepend a (prepend b ps) := by
  rcases ps with - | ⟨more | ⟨condition, yes, no⟩, ps⟩
  · cases a <;> cases b <;> simp [prepend]
  · simp [prepend]
  · cases a <;> cases b <;> simp [prepend]

/-- A body has no section exactly if nothing in it left code behind. -/
theorem sections_eq_nil_iff {ps : List Piece} : sections ps = [] ↔ ∀ p ∈ ps, p = .plain [] := by
  induction ps with
  | nil => simp [sections]
  | cons p ps ih =>
    rw [forall_mem_cons, ← ih]
    rcases p with lines | ⟨condition, yes, no⟩
    · cases lines with
      | nil => simp [sections, prepend_nil]
      | cons line lines =>
        rcases hs : sections ps with - | ⟨_ | _, _⟩ <;> simp [sections, hs, prepend]
    · simp [sections]

/-! ## Blocks of sections -/

/-- How the statements at the end of a body end. -/
def lastExit (lines : List Chars) : Exit :=
  if lines.getLast?.any isLast then .leave else .goto 0

/-- The blocks of sections, from number `id` on. -/
def blocksFrom (id : Nat) : List Piece → List Block
  | [] => []
  | [.plain lines] => [⟨id, joinWith ['\n'] lines, lastExit lines⟩]
  | .plain lines :: p :: ps => ⟨id, joinWith ['\n'] lines, .goto (id + 1)⟩ :: blocksFrom (id + 1) (p :: ps)
  | .choice condition yes no :: ps =>
    layoutFrom.choiceBlocks id condition yes no ++ blocksFrom (layoutFrom.after id no) ps

theorem lastBlock_eq :
    lastBlock id pending = blocksFrom id (prepend pending []) := by
  cases h : pending.getLast? with
  | none =>
    rw [getLast?_eq_none_iff] at h
    subst h
    rfl
  | some line =>
    have hne : pending ≠ [] := by
      rintro rfl
      cases h
    have hp : prepend pending [] = [.plain pending] := if_neg (by simpa using hne)
    rw [lastBlock, h, hp, blocksFrom, lastExit, h]
    rfl

/-- **The layout of pieces** is that of their sections, the statements that wait
for their block among them. -/
theorem layoutFrom_eq :
    layoutFrom id pending ps = blocksFrom id (prepend pending (sections ps)) := by
  fun_induction layoutFrom id pending ps with
  | case1 id pending => exact lastBlock_eq
  | case2 id pending lines ps ih => rw [ih, sections, prepend_append]
  | case3 id pending condition yes no ps h ih =>
    rw [List.isEmpty_iff] at h
    subst h
    rw [ih, prepend_nil, prepend_nil, sections, blocksFrom]
  | case4 id pending condition yes no ps h ih =>
    rw [ih, prepend_nil, sections, prepend, if_neg h, blocksFrom, blocksFrom]
    simp

theorem layout_eq (ps : List Piece) : layout ps = blocksFrom 1 (sections ps) := by
  rw [layout, layoutFrom_eq, prepend_nil]

/-! ## Numbers -/

theorem after_eq (id : Nat) (condition yes : Chars) (no : Option Chars) :
    layoutFrom.after id no = id + (layoutFrom.choiceBlocks id condition yes no).length := by
  cases no <;> rfl

theorem ids_choiceBlocks :
    (layoutFrom.choiceBlocks id condition yes no).map Block.id =
      range' id (layoutFrom.choiceBlocks id condition yes no).length := by
  cases no <;> rfl

/-- The blocks carry the numbers from the first on, one after the other. -/
theorem ids_blocksFrom (id : Nat) (qs : List Piece) :
    (blocksFrom id qs).map Block.id = range' id (blocksFrom id qs).length := by
  fun_induction blocksFrom id qs with
  | case1 => rfl
  | case2 => rfl
  | case3 id lines p ps ih => rw [map_cons, ih, length_cons, range'_succ]
  | case4 id condition yes no ps ih =>
    rw [map_append, length_append, ids_choiceBlocks, ih, after_eq id condition yes no,
      range'_append_1]

theorem length_blocksFrom_pos (id : Nat) (h : qs ≠ []) : 0 < (blocksFrom id qs).length := by
  rcases qs with - | ⟨lines | ⟨condition, yes, no⟩, ps⟩
  · exact absurd rfl h
  · cases ps <;> simp [blocksFrom]
  · cases no <;> simp [blocksFrom, layoutFrom.choiceBlocks]

/-! ## Successors -/

def LastIsChoice (qs : List Piece) : Prop :=
  ∃ condition yes no, qs.getLast? = some (.choice condition yes no)

theorem lastIsChoice_cons_cons (p q : Piece) :
    LastIsChoice (p :: q :: ps) ↔ LastIsChoice (q :: ps) := by
  rw [LastIsChoice, LastIsChoice, getLast?_cons_cons]

theorem not_lastIsChoice_plain (lines : List Chars) : ¬ LastIsChoice [.plain lines] := by
  rintro ⟨condition, yes, no, h⟩
  cases h

/-- The blocks of a choice lead to each other or right behind themselves. -/
theorem successors_choiceBlocks {id : Nat} {condition yes : Chars} {no : Option Chars}
    {b : Block} (hb : b ∈ layoutFrom.choiceBlocks id condition yes no) {n : Nat}
    (hn : n ∈ b.exit.successors) : id < n ∧ n ≤ layoutFrom.after id no := by
  cases no with
  | none =>
    simp only [layoutFrom.choiceBlocks, mem_cons, not_mem_nil, or_false] at hb
    rcases hb with rfl | rfl <;>
      simp only [Exit.successors, mem_cons, not_mem_nil, or_false] at hn <;>
      simp only [layoutFrom.after, Option.isSome_none, Bool.false_eq_true, if_false] <;> omega
  | some code =>
    simp only [layoutFrom.choiceBlocks, mem_cons, not_mem_nil, or_false] at hb
    rcases hb with rfl | rfl | rfl <;>
      simp only [Exit.successors, mem_cons, not_mem_nil, or_false] at hn <;>
      simp only [layoutFrom.after, Option.isSome_some, if_true] <;> omega

/-- Unless the last section is a choice, every block leads to the end or to
another of the blocks. -/
theorem successors_blocksFrom (id : Nat) (h : ¬ LastIsChoice qs) :
    ∀ b ∈ blocksFrom id qs, ∀ n ∈ b.exit.successors,
      n = 0 ∨ id ≤ n ∧ n < id + (blocksFrom id qs).length := by
  fun_induction blocksFrom id qs with
  | case1 => intro b hb; cases hb
  | case2 id lines =>
    intro b hb n hn
    rw [mem_singleton] at hb
    subst hb
    simp only [lastExit] at hn
    split at hn
    · cases hn
    · exact .inl (mem_singleton.1 hn)
  | case3 id lines p ps ih =>
    rw [lastIsChoice_cons_cons] at h
    have hpos := length_blocksFrom_pos (id + 1) (cons_ne_nil p ps)
    intro b hb n hn
    rw [length_cons]
    rcases mem_cons.1 hb with rfl | hb
    · rw [Exit.successors, mem_singleton] at hn
      omega
    · have := ih h b hb n hn
      omega
  | case4 id condition yes no ps ih =>
    cases ps with
    | nil => exact absurd ⟨condition, yes, no, rfl⟩ h
    | cons p ps =>
      rw [lastIsChoice_cons_cons] at h
      have hpos := length_blocksFrom_pos (layoutFrom.after id no) (cons_ne_nil p ps)
      have hafter := after_eq id condition yes no
      intro b hb n hn
      rw [length_append]
      rcases mem_append.1 hb with hb | hb
      · have := successors_choiceBlocks hb hn
        omega
      · have := ih h b hb n hn
        omega

/-! ## Statements -/

/-- The text in the range of a node; a node without a range has none. -/
inductive TextAt (s : Bytes) (node : Json) : Chars → Prop
  | none {src : Json} (hsrc : node.field "src" = .ok src) (hset : src.isSet = false) : TextAt s node []
  | range {src : Json} {r : Range} {t : Chars} (hsrc : node.field "src" = .ok src)
      (hset : src.isSet = true) (hr : rangeIn src = .ok r)
      (ht : decode? (slice s r.start r.stop) = some t) : TextAt s node t

/-- The text of one side of a choice. That of a block is taken without its braces. -/
inductive SideAt (s : Bytes) (side : Json) : Chars → Prop
  | block {kind : Json} {t : Chars} (hkind : side.field "nodeType" = .ok kind)
      (hblock : kind.isText "Block" = true) (ht : TextAt s side t) : SideAt s side (slice (trim t) 1 (-1))
  | single {kind : Json} {t : Chars} (hkind : side.field "nodeType" = .ok kind)
      (hblock : kind.isText "Block" = false) (ht : TextAt s side t) : SideAt s side t

/-- What a declaration assigns to: the name of its variable, or all names in brackets,
where a gap has none. -/
inductive LeftSide : List Json → Chars → Prop
  | one {d name : Json} (hname : d.need "name" = .ok name) : LeftSide [d] name.shown
  | list {ds : List Json} {names : List Chars} (hlen : ds.length ≠ 1)
      (hnames : Forall₂ (fun d w => if d.isSet then d.need "name" = .ok (.str (String.ofList w)) else w = [])
        ds names) : LeftSide ds ('(' :: (joinWith [','] names ++ [')']))

/-- The line that gives a declared variable its default, if the variable has a type. -/
inductive Reset (s : Bytes) (d : Json) : List Chars → Prop
  | gap (hset : d.isSet = false) : Reset s d []
  | untyped {type : Json} (htype : d.field "typeName" = .ok type) (hset : type.isSet = false) : Reset s d []
  | typed {name type : Json} {t : Chars} (hname : d.field "name" = .ok name)
      (htype : d.field "typeName" = .ok type) (ht : TextAt s type t) :
      Reset s d [name.shown ++ " = ".toList ++ defaultValue (trim t) ++ [';']]

/-- **The piece that a statement is**, as its text says. A choice has the texts of its
condition and of its sides. Of a declaration the assignment stays behind, or one for each
variable if it has no value. Any other statement is its trimmed text, and some kinds of
statement are given the semicolon that their range leaves out. -/
inductive ReadsAs (s : Bytes) : Json → Piece → Prop
  | choice {ms : Members} {c : Json} {condition yes : Chars} {no : Option Chars}
      (hkind : isKind "IfStatement" ms = true) (hc : (Json.obj ms).need "condition" = .ok c)
      (hcondition : TextAt s c condition) (hyes : SideAt s ((Json.lookup "trueBody" ms).getD (.obj [])) yes)
      (hset : no.isSome = (fieldOf "falseBody" ms).isSet)
      (hno : ∀ t ∈ no, SideAt s (fieldOf "falseBody" ms) t) :
      ReadsAs s (.obj ms) (.choice condition yes no)
  | assignment {ms : Members} {ds : List Json} {left right : Chars}
      (hkind : isKind "VariableDeclarationStatement" ms = true)
      (hds : ((Json.lookup "declarations" ms).getD (.arr [])).loopItems = .ok ds)
      (hset : (fieldOf "initialValue" ms).isSet = true) (hleft : LeftSide ds left)
      (hright : TextAt s (fieldOf "initialValue" ms) right) :
      ReadsAs s (.obj ms) (.plain [left ++ " = ".toList ++ right ++ [';']])
  | resets {ms : Members} {ds : List Json} {resets : List (List Chars)}
      (hkind : isKind "VariableDeclarationStatement" ms = true)
      (hds : ((Json.lookup "declarations" ms).getD (.arr [])).loopItems = .ok ds)
      (hset : (fieldOf "initialValue" ms).isSet = false) (hresets : Forall₂ (Reset s) ds resets) :
      ReadsAs s (.obj ms) (.plain resets.flatten)
  | other {ms : Members} {t : Chars} (hif : isKind "IfStatement" ms = false)
      (hdecl : isKind "VariableDeclarationStatement" ms = false) (ht : TextAt s (.obj ms) t) :
      ReadsAs s (.obj ms) (.plain
        [if openKinds.any (isKind · ms) && !endsWith [';'] (trim t) then trim t ++ [';'] else trim t])

section statements

variable {s : Bytes} {d node side : Json} {ds : List Json} {t : Chars}

theorem textAt_of_textOf (h : textOf s node = .ok t) : TextAt s node t := by
  obtain ⟨src, hsrc, h⟩ := bind_ok.1 h
  cases hset : src.isSet with
  | false =>
    rw [hset] at h
    cases h
    exact .none hsrc hset
  | true =>
    rw [hset] at h
    obtain ⟨r, hr, h⟩ := bind_ok.1 h
    rw [decoded] at h
    split at h
    · cases h
      exact .range hsrc hset hr ‹_›
    · cases h

theorem sideAt_of_sideText (h : sideText s side = .ok t) : SideAt s side t := by
  obtain ⟨u, hu, h⟩ := bind_ok.1 h
  obtain ⟨kind, hkind, h⟩ := bind_ok.1 h
  split at h
  · cases h
    exact .block hkind ‹_› (textAt_of_textOf hu)
  · cases h
    exact .single hkind (Bool.eq_false_iff.2 ‹_›) (textAt_of_textOf hu)

theorem name_of_tupleName {v : Json} (hv : tupleName d = .ok v) (ht : nameText v = .ok t) :
    if d.isSet then d.need "name" = .ok (.str (String.ofList t)) else t = [] := by
  rw [tupleName] at hv
  split
  · rw [if_pos ‹_›] at hv
    unfold nameText at ht
    split at ht
    · cases ht
      rw [hv, String.ofList_toList]
    · cases ht
  · rw [if_neg ‹_›] at hv
    cases hv
    exact (Except.ok.inj ht).symm

theorem forall₂_names {vs : List Json} {names : List Chars} (hvs : ds.mapM tupleName = .ok vs)
    (hnames : vs.mapM nameText = .ok names) :
    Forall₂ (fun d w => if d.isSet then d.need "name" = .ok (.str (String.ofList w)) else w = []) ds names := by
  have hds := forall₂_of_mapM hvs
  have hws := forall₂_of_mapM hnames
  clear hvs hnames
  induction hds generalizing names with
  | nil =>
    cases hws
    exact .nil
  | cons hv _ ih =>
    cases hws with
    | cons hw hws => exact .cons (name_of_tupleName hv hw) (ih hws)

theorem leftSide_of_assigned {decls : Json} (h : assigned decls ds = .ok t) : LeftSide ds t := by
  unfold assigned at h
  split at h
  · cases h
  · obtain ⟨name, hname, h⟩ := bind_ok.1 h
    cases h
    exact .one hname
  · rename_i hone _
    obtain ⟨vs, hvs, h⟩ := bind_ok.1 h
    obtain ⟨names, hnames, h⟩ := bind_ok.1 h
    cases h
    refine .list (fun hlen => ?_) (forall₂_names hvs hnames)
    obtain ⟨d, rfl⟩ := length_eq_one_iff.1 hlen
    exact hone d rfl

theorem reset_of_resetLine {lines : List Chars} (h : resetLine s d = .ok lines) : Reset s d lines := by
  rw [resetLine] at h
  cases hset : d.isSet with
  | false =>
    rw [hset] at h
    cases h
    exact .gap hset
  | true =>
    rw [hset] at h
    obtain ⟨name, hname, h⟩ := bind_ok.1 h
    obtain ⟨type, htype, h⟩ := bind_ok.1 h
    cases htyped : type.isSet with
    | false =>
      rw [htyped] at h
      cases h
      exact .untyped htype htyped
    | true =>
      rw [htyped] at h
      obtain ⟨t, ht, h⟩ := bind_ok.1 h
      cases h
      exact .typed hname htype (textAt_of_textOf ht)

theorem readsAs_of_readChoice (hkind : isKind "IfStatement" ms = true) (h : readChoice s ms = .ok r) :
    ReadsAs s (.obj ms) r.piece := by
  obtain ⟨c, hc, h⟩ := bind_ok.1 h
  obtain ⟨condition, hcondition, h⟩ := bind_ok.1 h
  obtain ⟨yes, hyes, h⟩ := bind_ok.1 h
  dsimp only at h
  split at h
  · rename_i hset
    obtain ⟨no, hno, h⟩ := bind_ok.1 h
    cases h
    exact .choice hkind hc (textAt_of_textOf hcondition) (sideAt_of_sideText hyes) hset.symm fun t ht =>
      Option.some.inj ht ▸ sideAt_of_sideText hno
  · cases h
    exact .choice hkind hc (textAt_of_textOf hcondition) (sideAt_of_sideText hyes)
      (Bool.eq_false_iff.2 ‹_›).symm (by rintro t ⟨⟩)

theorem readsAs_of_readDeclaration (hkind : isKind "VariableDeclarationStatement" ms = true)
    (h : readDeclaration s ms = .ok r) : ReadsAs s (.obj ms) r.piece := by
  obtain ⟨ds, hds, h⟩ := bind_ok.1 h
  obtain ⟨hoisted, -, h⟩ := bind_ok.1 h
  dsimp only at h
  split at h
  · obtain ⟨-, -, h⟩ := bind_ok.1 h
    obtain ⟨left, hleft, h⟩ := bind_ok.1 h
    obtain ⟨right, hright, h⟩ := bind_ok.1 h
    cases h
    exact .assignment hkind hds ‹_› (leftSide_of_assigned hleft) (textAt_of_textOf hright)
  · obtain ⟨resets, hresets, h⟩ := bind_ok.1 h
    cases h
    exact .resets hkind hds (Bool.eq_false_iff.2 ‹_›)
      ((forall₂_of_mapM hresets).imp fun _ _ => reset_of_resetLine)

theorem readsAs_of_readPlain (hif : isKind "IfStatement" ms = false)
    (hdecl : isKind "VariableDeclarationStatement" ms = false) (h : readPlain s ms = .ok r) :
    ReadsAs s (.obj ms) r.piece := by
  obtain ⟨t, ht, h⟩ := bind_ok.1 h
  have hread := ReadsAs.other hif hdecl (textAt_of_textOf ht)
  dsimp only at h
  split at h
  · cases h
    rwa [if_pos ‹_›] at hread
  · cases h
    rwa [if_neg ‹_›] at hread

/-- Reading gives the piece that the text of the statement says. -/
theorem readsAs_of_readStatement {statement : Json} (h : readStatement s statement = .ok r) :
    ReadsAs s statement r.piece := by
  unfold readStatement at h
  split at h
  · split at h
    · exact readsAs_of_readChoice ‹_› h
    · split at h
      · exact readsAs_of_readDeclaration ‹_› h
      · exact readsAs_of_readPlain (Bool.eq_false_iff.2 ‹_›) (Bool.eq_false_iff.2 ‹_›) h
  · cases h

theorem ReadsAs.isNode_or {p : Piece} (h : ReadsAs s v p) :
    (IsNode "IfStatement" v ∧ ∃ condition yes no, p = .choice condition yes no) ∨
      (¬ IsNode "IfStatement" v ∧ ∃ lines, p = .plain lines) := by
  have hother {ms : Members} (hif : isKind "IfStatement" ms = false) : ¬ IsNode "IfStatement" (.obj ms) := by
    rw [isNode_obj, hif]
    decide
  cases h with
  | choice hkind => exact .inl ⟨isNode_obj.2 hkind, _, _, _, rfl⟩
  | assignment hkind => exact .inr ⟨hother (isKind_of_ne hkind (by decide)), _, rfl⟩
  | resets hkind => exact .inr ⟨hother (isKind_of_ne hkind (by decide)), _, rfl⟩
  | other hif => exact .inr ⟨hother hif, _, rfl⟩

end statements

/-- The statement leaves no code, at most hoisted lines. -/
def LeavesNothing (s : Bytes) (statement : Json) : Prop :=
  ∃ hoisted, readStatement s statement = .ok ⟨.plain [], hoisted⟩

/-- The last statement of a body that leaves code behind is a choice. -/
def EndsInChoice (s : Bytes) (statements : List Json) : Prop :=
  ∃ front choice rest, statements = front ++ choice :: rest ∧ IsNode "IfStatement" choice ∧
    ∀ v ∈ rest, LeavesNothing s v

theorem endsInChoice_cons {vs : List Json} : EndsInChoice s (v :: vs) ↔
      (IsNode "IfStatement" v ∧ ∀ u ∈ vs, LeavesNothing s u) ∨ EndsInChoice s vs := by
  constructor
  · rintro ⟨front, choice, rest, he, hc, hr⟩
    cases front with
    | nil =>
      cases he
      exact .inl ⟨hc, hr⟩
    | cons w front =>
      cases he
      exact .inr ⟨front, choice, rest, rfl, hc, hr⟩
  · rintro (⟨hc, hr⟩ | ⟨front, choice, rest, rfl, hc, hr⟩)
    · exact ⟨[], v, vs, rfl, hc, hr⟩
    · exact ⟨v :: front, choice, rest, rfl, hc, hr⟩

theorem lastIsChoice_prepend :
    LastIsChoice (prepend lines qs) ↔ LastIsChoice qs := by
  rcases qs with - | ⟨more | ⟨condition, yes, no⟩, - | ⟨q, qs⟩⟩
  · cases lines <;> simp [prepend, LastIsChoice]
  · simp [prepend, LastIsChoice]
  · simp [prepend, lastIsChoice_cons_cons]
  · cases lines <;> simp [prepend, LastIsChoice]
  · cases lines <;> simp [prepend, lastIsChoice_cons_cons]

def piecesOf (readings : List Reading) : List Piece :=
  readings.map (·.piece)

theorem piecesOf_cons (rs : List Reading) :
    piecesOf (r :: rs) = r.piece :: piecesOf rs := rfl

theorem leavesNothing_iff (h : readStatement s v = .ok r) :
    LeavesNothing s v ↔ r.piece = .plain [] := by
  constructor
  · rintro ⟨hoisted, he⟩
    rw [h] at he
    rw [Except.ok.inj he]
  · intro hp
    exact ⟨r.hoisted, by rw [h, ← hp]⟩

section readings

variable {s : Bytes} {statements : List Json} {readings : List Reading}

theorem sections_eq_nil_iff_leavesNothing
    (h : Forall₂ (fun v r => readStatement s v = .ok r) statements readings) :
    sections (piecesOf readings) = [] ↔ ∀ v ∈ statements, LeavesNothing s v := by
  rw [sections_eq_nil_iff]
  induction h with
  | nil => simp [piecesOf]
  | cons hv _ ih =>
    rw [piecesOf_cons, forall_mem_cons, forall_mem_cons, leavesNothing_iff hv, ← ih]

/-- The statements end in a choice exactly if their sections do. -/
theorem endsInChoice_iff
    (h : Forall₂ (fun v r => readStatement s v = .ok r) statements readings) :
    EndsInChoice s statements ↔ LastIsChoice (sections (piecesOf readings)) := by
  induction h with
  | nil => simp [EndsInChoice, LastIsChoice, piecesOf, sections]
  | @cons v r vs rs hv hvs ih =>
    -- a choice is the last section exactly if no section stands behind it
    rw [endsInChoice_cons, ih, ← sections_eq_nil_iff_leavesNothing hvs, piecesOf_cons]
    rcases (readsAs_of_readStatement hv).isNode_or with ⟨hc, condition, yes, no, hp⟩ | ⟨hc, lines, hp⟩
    · rw [hp, sections]
      rcases sections (piecesOf rs) with - | ⟨q, qs⟩
      · simp [hc, LastIsChoice]
      · simp [lastIsChoice_cons_cons]
    · rw [hp, sections, lastIsChoice_prepend]
      simp [hc]

end readings

end Obscura.Flow
