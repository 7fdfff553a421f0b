import Obscura.Proofs.WholeStatements

/-
  What the blocks of a body hold. The statements of a body are read by their ranges,
  some of which stop short of a semicolon. The main statement,
  `holds_whole_statements_exactly`, says when the blocks hold the statements of the
  body and nothing else.
-/

namespace Obscura.Flow

open Text Ast Json
open List hiding lookup

variable {ps qs : List Piece} {t code condition yes : Chars} {ts lines : List Chars}
  {w : List Symbol} {xs : List (List Symbol)} {id : Nat}

/-! ## Texts and what they hold -/

/-- What texts hold is told by the texts. It is held with a line feed between them, and
without the blanks around them. -/
structure Joins {β : Type} (R : Chars → List β → Prop) : Prop where
  unique : ∀ {t : Chars} {xs ys : List β}, R t xs → R t ys → xs = ys
  nil : R [] []
  append : ∀ {a b : Chars} {xs ys : List β}, R a xs → R b ys → R (a ++ '\n' :: b) (xs ++ ys)
  trim : ∀ {t : Chars} {xs : List β}, R t xs → R (trim t) xs

/-- What some texts hold together. -/
def Holds {β : Type} (R : Chars → List β → Prop) (ts : List Chars) (zs : List β) : Prop :=
  ∃ zss, Forall₂ R ts zss ∧ zss.flatten = zs

section Holds

variable {β : Type} {R : Chars → List β → Prop}

theorem Holds.nil : Holds R [] [] := ⟨[], .nil, rfl⟩

variable {zs : List β}

theorem holds_cons :
    Holds R (t :: ts) zs ↔ ∃ xs ys, R t xs ∧ Holds R ts ys ∧ zs = xs ++ ys := by
  constructor
  · rintro ⟨zss, hzss, rfl⟩
    obtain ⟨xs, yss, hxs, hyss, rfl⟩ := forall₂_cons_left_iff.1 hzss
    exact ⟨xs, yss.flatten, hxs, ⟨yss, hyss, rfl⟩, rfl⟩
  · rintro ⟨xs, ys, hxs, ⟨yss, hyss, rfl⟩, rfl⟩
    exact ⟨xs :: yss, .cons hxs hyss, rfl⟩

theorem holds_append {us : List Chars} :
    Holds R (ts ++ us) zs ↔ ∃ xs ys, Holds R ts xs ∧ Holds R us ys ∧ zs = xs ++ ys := by
  induction ts generalizing zs with
  | nil =>
    constructor
    · intro h
      exact ⟨[], zs, .nil, h, rfl⟩
    · rintro ⟨xs, ys, ⟨xss, hxss, rfl⟩, hys, rfl⟩
      rw [forall₂_nil_left_iff.1 hxss]
      exact hys
  | cons t ts ih =>
    rw [cons_append, holds_cons]
    constructor
    · rintro ⟨as, bs, has, hbs, rfl⟩
      obtain ⟨xs, ys, hxs, hys, rfl⟩ := ih.1 hbs
      exact ⟨as ++ xs, ys, holds_cons.2 ⟨as, xs, has, hxs, rfl⟩, hys, (append_assoc ..).symm⟩
    · rintro ⟨xs, ys, hxs, hys, rfl⟩
      obtain ⟨as, bs, has, hbs, rfl⟩ := holds_cons.1 hxs
      exact ⟨as, bs ++ ys, has, ih.2 ⟨bs, ys, hbs, hys, rfl⟩, append_assoc ..⟩

theorem Holds.joinWith (hR : Joins R) (h : Holds R ts zs) : R (joinWith ['\n'] ts) zs := by
  induction ts generalizing zs with
  | nil =>
    obtain ⟨zss, hzss, rfl⟩ := h
    rw [forall₂_nil_left_iff.1 hzss]
    exact hR.nil
  | cons t ts ih =>
    obtain ⟨xs, ys, hxs, hys, rfl⟩ := holds_cons.1 h
    cases ts with
    | nil =>
      obtain ⟨yss, hyss, rfl⟩ := hys
      rw [forall₂_nil_left_iff.1 hyss, flatten_nil, append_nil]
      exact hxs
    | cons u us =>
      rw [Text.joinWith, append_assoc]
      exact hR.append hxs (ih hys)
      all_goals simp

theorem holds_single (h : R t zs) : Holds R [t] zs :=
  holds_cons.2 ⟨zs, [], h, .nil, (append_nil zs).symm⟩

theorem Holds.unique (hR : Joins R) {xs ys : List β} (hx : Holds R ts xs) (hy : Holds R ts ys) :
    xs = ys := by
  induction ts generalizing xs ys with
  | nil =>
    obtain ⟨xss, hxss, rfl⟩ := hx
    obtain ⟨yss, hyss, rfl⟩ := hy
    rw [forall₂_nil_left_iff.1 hxss, forall₂_nil_left_iff.1 hyss]
  | cons t ts ih =>
    obtain ⟨as, bs, has, hbs, rfl⟩ := holds_cons.1 hx
    obtain ⟨cs, ds, hcs, hds, rfl⟩ := holds_cons.1 hy
    rw [hR.unique has hcs, ih hbs hds]

theorem Joins.orRemark (hR : Joins R) {remark : Chars} {xs : List β} (h : R t xs) (hr : R remark []) :
    R (orRemark t remark) xs := by
  have htrim := hR.trim h
  unfold Flow.orRemark
  split
  · rename_i hnil
    rw [isEmpty_iff.1 hnil] at htrim
    exact hR.unique hR.nil htrim ▸ hr
  · exact htrim

end Holds

/-! ## Pieces and blocks -/

def Piece.texts : Piece → List Chars
  | .plain lines => lines
  | .choice _ yes no =>
    orRemark yes "// empty true block".toList :: (no.map (orRemark · "// empty false block".toList)).toList

/-- The block chooses between two others. -/
def Block.isChoice (b : Block) : Bool :=
  match b.exit with
  | .branch _ _ => true
  | _ => false

theorem isChoice_lastExit :
    Block.isChoice ⟨id, code, lastExit lines⟩ = false := by
  unfold lastExit
  split <;> rfl

/-- The code of the blocks that do not choose. -/
def contents (blocks : List Block) : List Chars :=
  (blocks.filter (!·.isChoice)).map Block.content

theorem contents_append (as bs : List Block) : contents (as ++ bs) = contents as ++ contents bs := by
  rw [contents, filter_append, map_append]
  rfl

theorem contents_choiceBlocks (no : Option Chars) :
    contents (layoutFrom.choiceBlocks id condition yes no) = Piece.texts (.choice condition yes no) := by
  cases no <;> rfl

theorem flatMap_sections {α : Type} {f : Piece → List α} (hnil : f (.plain []) = [])
    (happend : ∀ a b, f (.plain (a ++ b)) = f (.plain a) ++ f (.plain b)) :
    (sections ps).flatMap f = ps.flatMap f := by
  have hprepend (lines : List Chars) (qs : List Piece) :
      (prepend lines qs).flatMap f = f (.plain lines) ++ qs.flatMap f := by
    rcases qs with - | ⟨more | ⟨condition, yes, no⟩, qs⟩
    · cases lines <;> simp [prepend, hnil]
    · simp [prepend, happend]
    · cases lines <;> simp [prepend, hnil]
  induction ps with
  | nil => rfl
  | cons p ps ih =>
    cases p with
    | plain lines => rw [sections, hprepend, ih, flatMap_cons]
    | choice condition yes no => rw [sections, flatMap_cons, flatMap_cons, ih]

/-- **Blocks hold what their pieces hold.** -/
theorem holds_contents {R : Chars → List β → Prop} (hR : Joins R) {qs : List Piece}
    (h : Holds R (qs.flatMap Piece.texts) zs) : Holds R (contents (blocksFrom id qs)) zs := by
  fun_induction blocksFrom id qs generalizing zs with
  | case1 => exact h
  | case2 id lines =>
    have hcontents : contents [⟨id, joinWith ['\n'] lines, lastExit lines⟩] = [joinWith ['\n'] lines] := by
      unfold lastExit
      split <;> rfl
    rw [hcontents]
    rw [flatMap_singleton] at h
    exact holds_single (h.joinWith hR)
  | case3 id lines p ps ih =>
    rw [flatMap_cons, holds_append] at h
    obtain ⟨xs, ys, hxs, hys, rfl⟩ := h
    exact holds_cons.2 ⟨xs, ys, hxs.joinWith hR, ih hys, rfl⟩
  | case4 id condition yes no ps ih =>
    rw [flatMap_cons, holds_append] at h
    obtain ⟨xs, ys, hxs, hys, rfl⟩ := h
    rw [contents_append, contents_choiceBlocks]
    exact holds_append.2 ⟨xs, ys, hxs, ih hys, rfl⟩

theorem holds_layout {R : Chars → List β → Prop} (hR : Joins R)
    (h : Holds R (ps.flatMap Piece.texts) zs) : Holds R (contents (layout ps)) zs := by
  rw [layout_eq]
  refine holds_contents hR ?_
  rwa [flatMap_sections rfl fun _ _ => rfl]

def Piece.conditions : Piece → List Chars
  | .plain _ => []
  | .choice condition _ _ => [condition]

theorem mem_conditions_blocksFrom :
    ∀ b ∈ blocksFrom id qs, b.isChoice → b.code ∈ qs.flatMap Piece.conditions := by
  fun_induction blocksFrom id qs with
  | case1 =>
    intro b hb
    cases hb
  | case2 id lines =>
    intro b hb hchoice
    rw [mem_singleton.1 hb, isChoice_lastExit] at hchoice
    cases hchoice
  | case3 id lines p ps ih =>
    intro b hb hchoice
    rcases mem_cons.1 hb with rfl | hb
    · cases hchoice
    · exact ih b hb hchoice
  | case4 id condition yes no ps ih =>
    intro b hb hchoice
    rw [flatMap_cons, Piece.conditions]
    rcases mem_append.1 hb with hb | hb
    · refine mem_append_left _ (mem_singleton.2 ?_)
      cases no with
      | none =>
        rcases mem_cons.1 hb with rfl | hb
        · rfl
        · rw [mem_singleton.1 hb] at hchoice
          cases hchoice
      | some code =>
        simp only [layoutFrom.choiceBlocks, mem_cons, not_mem_nil, or_false] at hb
        rcases hb with rfl | rfl | rfl
        · rfl
        · cases hchoice
        · cases hchoice
    · exact mem_append_right _ (ih b hb hchoice)

theorem mem_conditions_layout {b : Block} (hb : b ∈ layout ps) (hchoice : b.isChoice) :
    b.code ∈ ps.flatMap Piece.conditions := by
  rw [layout_eq] at hb
  rw [← flatMap_sections rfl fun _ _ => rfl]
  exact mem_conditions_blocksFrom b hb hchoice

/-! ## Ranges of statements -/

/-- The range stops short of the semicolon of a statement. -/
structure IsOpen (t : Chars) (w : List Symbol) : Prop where
  trimmed : trim t = t
  endsInCode : EndsInCode t
  unended : endsWith [';'] t = false
  whole : statementsOf? (t ++ [';']) = some [w]

/-- The range has all of a statement. -/
structure IsClosed (t : Chars) (w : List Symbol) : Prop where
  trimmed : trim t = t
  whole : statementsOf? t = some [w]

/-- The text leaves nothing open and has those symbols. -/
def Has (t : Chars) (es : List Symbol) : Prop :=
  IsWhole t ∧ symbolsOf t = es

/-- The text is made of those statements. -/
def IsMadeOf (t : Chars) (xs : List (List Symbol)) : Prop :=
  statementsOf? t = some xs

theorem joins_has : Joins Has where
  unique := fun hx hy => hx.2.symm.trans hy.2
  nil := ⟨isWhole_of_endsInCode rfl, symbolsOf_nil⟩
  append := by
    rintro a b xs ys ⟨ha, rfl⟩ ⟨hb, rfl⟩
    exact ⟨(isWhole_append ha).2 hb, symbolsOf_append ha⟩
  trim := by
    intro t es h
    have hwhole : IsWhole (trimLeft t) := by
      rw [IsWhole, readLine_trimLeft]
      exact h.1
    have htrim : readLine (trim t) = readLine t := by
      rw [trim, readLine_trimRight hwhole, readLine_trimLeft]
    rwa [Has, IsWhole, symbolsOf, htrim]

theorem joins_isMadeOf : Joins IsMadeOf where
  unique := fun hx hy => Option.some.inj (hx.symm.trans hy)
  nil := statementsOf?_eq_some_iff.2 ⟨isWhole_of_endsInCode rfl, by rw [symbolsOf_nil]; rfl⟩
  append := fun ha hb => statementsOf?_append ha hb
  trim := fun {t} _ h => statementsOf?_trimRight ((statementsOf?_trimLeft t).trans h)

theorem IsMadeOf.has (h : IsMadeOf t xs) : Has t xs.flatten :=
  ⟨(statementsOf?_eq_some_iff.1 h).1, (flatten_statementsOf? h).symm⟩

theorem holds_lines {lines : List Chars} (h : ∀ line ∈ lines, IsMadeOf line [symbolsOf line]) :
    Holds IsMadeOf lines (lines.map symbolsOf) := by
  refine ⟨lines.map fun line => [symbolsOf line], ?_, ?_⟩
  · exact forall₂_map_right_iff.2 (forall₂_same.2 h)
  · rw [← flatMap_def, map_eq_flatMap]

theorem holds_has (h : Holds IsMadeOf ts xs) : Holds Has ts xs.flatten := by
  obtain ⟨xss, hxss, rfl⟩ := h
  refine ⟨xss.map List.flatten, ?_, ?_⟩
  · exact forall₂_map_right_iff.2 (hxss.imp fun _ _ h => h.has)
  · rw [flatten_flatten]

theorem IsOpen.length_eq (h : IsOpen t w) : (symbolsOf t).length + 1 = w.length := by
  obtain ⟨j, hj⟩ := symbolsOf_concat_mark h.endsInCode (c := ';') (Reader.isMark_of_mem rfl)
  have hflat := flatten_statementsOf? h.whole
  rw [flatten_singleton, hj] at hflat
  rw [hflat, length_append]
  rfl

/-- A range is read as code, and has a symbol less than its statement if it stops short of
the semicolon. -/
theorem has_range (h : IsOpen t w ∨ IsClosed t w) :
    Has t (symbolsOf t) ∧ (symbolsOf t).length ≤ w.length ∧
    ((symbolsOf t).length = w.length → IsClosed t w) := by
  rcases h with hopen | hclosed
  · have hlength := hopen.length_eq
    exact ⟨⟨isWhole_of_endsInCode hopen.endsInCode, rfl⟩, by omega, fun he => by omega⟩
  · refine ⟨⟨(statementsOf?_eq_some_iff.1 hclosed.whole).1, rfl⟩, ?_, fun _ => hclosed⟩
    rw [← flatten_statementsOf? hclosed.whole, flatten_singleton]

theorem remark_isMadeOf : IsMadeOf "// empty true block".toList [] ∧
    IsMadeOf "// empty false block".toList [] :=
  ⟨@statementsOf?_lineComment " empty true block".toList [] (forall_mem_nil _) (forall_mem_of_all rfl),
    @statementsOf?_lineComment " empty false block".toList [] (forall_mem_nil _) (forall_mem_of_all rfl)⟩

/-! ## Statements of the source -/

/-- A side of a choice: a block with the text between its braces, or one statement with
the text of its range. -/
inductive Side where
  | braced (inner : Chars) (ws : List (List Symbol))
  | single (t : Chars) (w : List Symbol)

namespace Side

def statements : Side → List (List Symbol)
  | .braced _ ws => ws
  | .single _ w => [w]

def text : Side → Chars
  | .braced inner _ => inner
  | .single t _ => t

/-- The node is that of the side. -/
inductive Shown (s : Bytes) : Side → Json → Prop
  | braced {v : Json} {inner : Chars} {ws : List (List Symbol)} (kind : IsNode "Block" v)
      (text : textOf s v = .ok ('\x7b' :: (inner ++ ['\x7d']))) (whole : statementsOf? inner = some ws) :
      Shown s (.braced inner ws) v
  | single {ms : Members} {t : Chars} {w : List Symbol} (kind : isKind "Block" ms = false)
      (text : textOf s (.obj ms) = .ok t) (range : IsOpen t w ∨ IsClosed t w) : Shown s (.single t w) (.obj ms)

/-- The side is a block, or its range has all of its statement. -/
def IsClosed : Side → Prop
  | .braced _ _ => True
  | .single t w => Flow.IsClosed t w

variable {s : Bytes} {side : Side} {v : Json} {inner : Chars}

theorem trim_braces :
    trim ('\x7b' :: (inner ++ ['\x7d'])) = '\x7b' :: (inner ++ ['\x7d']) := by
  have hleft : trimLeft ('\x7b' :: (inner ++ ['\x7d'])) = '\x7b' :: (inner ++ ['\x7d']) :=
    dropWhile_cons_of_neg (by decide)
  have hright := trimRight_append (u := '\x7b' :: (inner ++ ['\x7d'])) (b := []) (by
    intro c hc
    rw [← cons_append, getLast?_concat] at hc
    cases hc
    decide)
  rw [append_nil] at hright
  rw [trim, hleft, hright]
  exact append_nil _

theorem slice_braces : slice ('\x7b' :: (inner ++ ['\x7d'])) 1 (-1) = inner := by
  have hlength : ('\x7b' :: (inner ++ ['\x7d'])).length = inner.length + 2 := by simp
  have hfrom : place (inner.length + 2) 1 = 1 := by simp [place]
  have hto : place (inner.length + 2) (-1) = inner.length + 1 := by
    rw [place, if_pos (by decide)]
    omega
  rw [slice, hlength, hfrom, hto]
  simp

theorem Shown.sideText (h : side.Shown s v) : sideText s v = .ok side.text := by
  cases h with
  | @braced _ inner ws kind text whole =>
    obtain ⟨ms, rfl, hkind⟩ := kind
    refine bind_ok.2 ⟨_, text, bind_ok.2 ⟨_, rfl, ?_⟩⟩
    rw [trim_braces, slice_braces]
    exact if_pos hkind
  | @single ms t w kind text range =>
    refine bind_ok.2 ⟨_, text, bind_ok.2 ⟨_, rfl, ?_⟩⟩
    exact if_neg (Bool.eq_false_iff.1 kind)

/-- A side is read as code, and has a symbol less than its statements if it is not closed. -/
theorem Shown.has (h : side.Shown s v) : Has side.text (symbolsOf side.text) ∧
    (symbolsOf side.text).length ≤ side.statements.flatten.length ∧
    ((symbolsOf side.text).length = side.statements.flatten.length → side.IsClosed) := by
  cases h with
  | braced kind text whole =>
    refine ⟨⟨(statementsOf?_eq_some_iff.1 whole).1, rfl⟩, ?_, fun _ => trivial⟩
    rw [statements, flatten_statementsOf? whole]
    rfl
  | single kind _ range =>
    rw [statements, flatten_singleton]
    exact has_range range

theorem Shown.isMadeOf (h : side.Shown s v) (hclosed : side.IsClosed) : IsMadeOf side.text side.statements := by
  cases h with
  | braced kind text whole => exact whole
  | single kind text range => exact hclosed.whole

end Side

/-- A declaration whose lines are statements: its variables are named like no statement,
and its value is an expression. -/
structure LocalDeclaration.Plain (s : Bytes) (l : LocalDeclaration) :
    Prop extends LocalDeclaration.Shown s l where
  free : ∀ d ∈ l.declared, d.name ∉ leadWords
  expression : ∀ t ∈ l.initial, IsExpression t

theorem LocalDeclaration.Plain.isMadeOf {s : Bytes} {l : LocalDeclaration} (h : l.Plain s) :
    ∀ line ∈ l.lines, IsMadeOf line [symbolsOf line] := by
  have hexpression := h.expression
  intro line hline
  rw [lines] at hline
  cases hvalue : l.initial with
  | some t =>
    rw [hvalue] at hline
    rw [mem_singleton.1 hline]
    refine statementsOf?_assignLine h.isTargets_left (fun w hw => ?_) (hexpression t hvalue)
    obtain ⟨place, hplace, hw⟩ := mem_map.1 hw
    obtain ⟨d, rfl, rfl⟩ := Option.map_eq_some_iff.1 hw
    exact h.free d (mem_declared.2 hplace)
  | none =>
    rw [hvalue] at hline
    obtain ⟨d, hd, rfl⟩ := mem_map.1 hline
    refine statementsOf?_assignLine (isTargets_name (h.declared d hd).isIdentifier) (fun w hw => ?_) ?_
    · cases mem_singleton.1 hw
      exact h.free d hd
    · exact isExpression_defaultValue

/-- A statement of a body: a choice, a declaration, one of a kind whose semicolon is put
back, or another one. -/
inductive Source where
  | choice (condition : Chars) (yes : Side) (no : Option Side)
  | declaration (l : LocalDeclaration)
  | simple (t : Chars) (w : List Symbol)
  | other (t : Chars) (w : List Symbol)

namespace Source

/-- The statements that blocks are to hold for it: those of the sides of a choice, what is
left of a declaration, or the statement itself. -/
def statements : Source → List (List Symbol)
  | .choice _ yes no => yes.statements ++ no.toList.flatMap Side.statements
  | .declaration l => l.lines.map symbolsOf
  | .simple _ w => [w]
  | .other _ w => [w]

/-- The piece of code that becomes of it. -/
def piece : Source → Piece
  | .choice condition yes no => .choice condition yes.text (no.map Side.text)
  | .declaration l => .plain l.lines
  | .simple t _ => .plain [t ++ [';']]
  | .other t _ => .plain [t]

/-- The node is that of the statement. -/
inductive Shown (s : Bytes) : Source → Json → Prop
  | choice {ms : Members} {node : Json} {condition : Chars} {yes : Side} {no : Option Side}
      (kind : isKind "IfStatement" ms = true) (found : lookup "condition" ms = some node)
      (text : textOf s node = .ok condition) (expression : IsExpression condition)
      (yesShown : yes.Shown s ((lookup "trueBody" ms).getD (.obj [])))
      (noSet : (fieldOf "falseBody" ms).isSet = no.isSome)
      (noShown : ∀ side ∈ no, side.Shown s (fieldOf "falseBody" ms)) :
      Shown s (.choice condition yes no) (.obj ms)
  | declaration {l : LocalDeclaration} (plain : l.Plain s) : Shown s (.declaration l) (.obj l.members)
  | simple {ms : Members} {t : Chars} {w : List Symbol} (kind : openKinds.any (isKind · ms) = true)
      (text : textOf s (.obj ms) = .ok t) (range : IsOpen t w) : Shown s (.simple t w) (.obj ms)
  | other {ms : Members} {t : Chars} {w : List Symbol}
      (kind : (["IfStatement", "VariableDeclarationStatement"] ++ openKinds).any (isKind · ms) = false)
      (text : textOf s (.obj ms) = .ok t) (range : IsOpen t w ∨ IsClosed t w) : Shown s (.other t w) (.obj ms)

/-- The ranges of the statement have all of it, where no semicolon is put back. -/
def IsClosed : Source → Prop
  | .choice _ yes no => yes.IsClosed ∧ ∀ side ∈ no, side.IsClosed
  | .declaration _ => True
  | .simple _ _ => True
  | .other t w => Flow.IsClosed t w

variable {s : Bytes} {src : Source} {v : Json}

theorem Shown.readStatement (h : src.Shown s v) : ∃ hoisted, readStatement s v = .ok ⟨src.piece, hoisted⟩ := by
  cases h with
  | @choice ms node condition yes no kind found text expression yesShown noSet noShown =>
    have hneed : (Json.obj ms).need "condition" = .ok node := by rw [need, found]
    refine ⟨[], ?_⟩
    rw [Flow.readStatement, if_pos kind]
    refine bind_ok.2 ⟨_, hneed, bind_ok.2 ⟨_, text, bind_ok.2 ⟨_, yesShown.sideText, ?_⟩⟩⟩
    dsimp only
    rw [noSet]
    cases no with
    | none => rfl
    | some side => exact bind_ok.2 ⟨_, (noShown side rfl).sideText, rfl⟩
  | declaration plain => exact ⟨_, plain.toShown.readStatement⟩
  | @simple ms t w kind text range =>
    obtain ⟨k, hk, hkind⟩ := any_eq_true.1 kind
    have hne : ∀ k ∈ openKinds, k ≠ "IfStatement" ∧ k ≠ "VariableDeclarationStatement" := by decide
    refine ⟨[], ?_⟩
    rw [Flow.readStatement, isKind_of_ne hkind (hne k hk).1, isKind_of_ne hkind (hne k hk).2,
      if_neg Bool.false_ne_true, if_neg Bool.false_ne_true]
    refine bind_ok.2 ⟨_, text, ?_⟩
    dsimp only
    rw [range.trimmed, kind, range.unended]
    rfl
  | @other ms t w kind text range =>
    have htrim : trim t = t := by
      rcases range with hopen | hclosed
      · exact hopen.trimmed
      · exact hclosed.trimmed
    rw [any_append, Bool.or_eq_false_iff, any_cons, Bool.or_eq_false_iff, any_cons,
      Bool.or_eq_false_iff] at kind
    refine ⟨[], ?_⟩
    rw [Flow.readStatement, kind.1.1, kind.1.2.1, if_neg Bool.false_ne_true, if_neg Bool.false_ne_true]
    refine bind_ok.2 ⟨_, text, ?_⟩
    dsimp only
    rw [htrim, kind.2]
    rfl

theorem Shown.isExpression (h : src.Shown s v) :
    ∀ condition ∈ src.piece.conditions, IsExpression condition := by
  intro c hc
  cases h with
  | choice _ _ _ expression => rwa [mem_singleton.1 hc]
  | declaration | simple | other => cases hc

/-- The texts have the symbols of the statements, and fewer if a range stops short of a
semicolon. -/
theorem Shown.has (h : src.Shown s v) : ∃ es, Holds Has src.piece.texts es ∧
    es.length ≤ src.statements.flatten.length ∧
    (es.length = src.statements.flatten.length → src.IsClosed) := by
  cases h with
  | @choice ms node condition yes no kind found text expression yesShown noSet noShown =>
    obtain ⟨hhas, hle, heq⟩ := yesShown.has
    have hyes := joins_has.orRemark hhas remark_isMadeOf.1.has
    cases no with
    | none =>
      refine ⟨symbolsOf yes.text, holds_single hyes, ?_, fun h => ⟨heq ?_, nofun⟩⟩
      · simpa [statements] using hle
      · simpa [statements] using h
    | some side =>
      obtain ⟨hhas', hle', heq'⟩ := (noShown side rfl).has
      have hno := joins_has.orRemark hhas' remark_isMadeOf.2.has
      have hlength : (statements (.choice condition yes (some side))).flatten.length =
          yes.statements.flatten.length + side.statements.flatten.length := by
        rw [statements, Option.toList_some, flatMap_singleton, flatten_append, length_append]
      refine ⟨symbolsOf yes.text ++ symbolsOf side.text, holds_cons.2 ⟨_, _, hyes, holds_single hno, rfl⟩, ?_,
        fun h => ?_⟩
      · rw [hlength, length_append]
        omega
      · rw [hlength, length_append] at h
        refine ⟨heq (by omega), fun other hother => ?_⟩
        cases hother
        exact heq' (by omega)
  | declaration plain =>
    exact ⟨_, holds_has (holds_lines plain.isMadeOf), Nat.le_refl _, fun _ => trivial⟩
  | simple kind text range =>
    exact ⟨_, holds_has (holds_single range.whole), Nat.le_refl _, fun _ => trivial⟩
  | @other ms t w kind text range =>
    obtain ⟨hhas, hlength⟩ := has_range range
    rw [statements, flatten_singleton]
    exact ⟨symbolsOf t, holds_single hhas, hlength⟩

theorem Shown.isMadeOf (h : src.Shown s v) (hclosed : src.IsClosed) :
    Holds IsMadeOf src.piece.texts src.statements := by
  cases h with
  | @choice ms node condition yes no kind found text expression yesShown noSet noShown =>
    refine holds_cons.2 ⟨_, _, joins_isMadeOf.orRemark (yesShown.isMadeOf hclosed.1) remark_isMadeOf.1, ?_, rfl⟩
    cases no with
    | none => exact .nil
    | some side =>
      rw [Option.toList_some, flatMap_singleton]
      exact holds_single (joins_isMadeOf.orRemark
        ((noShown side rfl).isMadeOf (hclosed.2 side rfl)) remark_isMadeOf.2)
  | declaration plain => exact holds_lines plain.isMadeOf
  | simple kind text range => exact holds_single range.whole
  | other kind text range => exact holds_single hclosed.whole

end Source

/-! ## Bodies -/

section Bodies

variable {s : Bytes} {sources : List Source} {vs : List Json}
  (h : Forall₂ (Source.Shown s) sources vs)

include h

theorem exists_readings : ∃ rs, vs.mapM (readStatement s) = .ok rs ∧
    piecesOf rs = sources.map Source.piece := by
  induction h with
  | nil => exact ⟨[], rfl, rfl⟩
  | @cons src v sources vs hsrc _ ih =>
    obtain ⟨hoisted, hr⟩ := hsrc.readStatement
    obtain ⟨rs, hrs, hpieces⟩ := ih
    refine ⟨⟨src.piece, hoisted⟩ :: rs, ?_, ?_⟩
    · rw [mapM_cons]
      exact bind_ok.2 ⟨_, hr, bind_ok.2 ⟨rs, hrs, rfl⟩⟩
    · rw [piecesOf_cons, hpieces, map_cons]

theorem isExpression_conditions :
    ∀ condition ∈ (sources.map Source.piece).flatMap Piece.conditions, IsExpression condition := by
  induction h with
  | nil => exact forall_mem_nil _
  | cons hsrc _ ih =>
    rw [map_cons, flatMap_cons]
    exact forall_mem_append.2 ⟨hsrc.isExpression, ih⟩

/-- The texts of a body have the symbols of its statements, and fewer if a range stops
short of a semicolon. -/
theorem exists_symbols : ∃ es, Holds Has ((sources.map Source.piece).flatMap Piece.texts) es ∧
    es.length ≤ (sources.flatMap Source.statements).flatten.length ∧
    (es.length = (sources.flatMap Source.statements).flatten.length → ∀ src ∈ sources, src.IsClosed) := by
  induction h with
  | nil => exact ⟨[], .nil, Nat.le_refl _, fun _ _ hsrc => nomatch hsrc⟩
  | @cons src v sources vs hsrc _ ih =>
    obtain ⟨es, hes, hle, heq⟩ := hsrc.has
    obtain ⟨fs, hfs, hle', heq'⟩ := ih
    have hlength : ((src :: sources).flatMap Source.statements).flatten.length =
        src.statements.flatten.length + (sources.flatMap Source.statements).flatten.length := by
      rw [flatMap_cons, flatten_append, length_append]
    refine ⟨es ++ fs, ?_, ?_, fun he => ?_⟩
    · rw [map_cons, flatMap_cons]
      exact holds_append.2 ⟨es, fs, hes, hfs, rfl⟩
    · rw [hlength, length_append]
      omega
    · rw [hlength, length_append] at he
      exact forall_mem_cons.2 ⟨heq (by omega), heq' (by omega)⟩

theorem isMadeOf_sources (hclosed : ∀ src ∈ sources, src.IsClosed) :
    Holds IsMadeOf ((sources.map Source.piece).flatMap Piece.texts) (sources.flatMap Source.statements) := by
  induction h with
  | nil => exact .nil
  | cons hsrc _ ih =>
    obtain ⟨hfirst, hrest⟩ := forall_mem_cons.1 hclosed
    rw [map_cons, flatMap_cons, flatMap_cons]
    exact holds_append.2 ⟨_, _, hsrc.isMadeOf hfirst, ih hrest, rfl⟩

end Bodies

/-- **When the blocks of a body hold whole statements.** A block that chooses is one
statement. The other blocks hold the statements of the body, each whole and in their
order, exactly if every range that is taken as it is has all of its statement: that of a
side that is no block, and that of a statement of a kind whose semicolon is not put back.
Then all that a block holds is a comment, or it ends with a semicolon or a closing bracket.
A block of whole statements is left by a statement of its own. -/
theorem holds_whole_statements_exactly {s : Bytes} {sources : List Source} {vs : List Json}
    (h : List.Forall₂ (Source.Shown s) sources vs) :
    ∃ chart, chartOf s vs = .ok chart ∧
      (∀ b ∈ chart.blocks, b.isChoice = true → statementsOf? b.content = some [symbolsOf b.content]) ∧
      (Holds (fun t xs => statementsOf? t = some xs) (contents chart.blocks)
        (sources.flatMap Source.statements) ↔
        ∀ src ∈ sources, src.IsClosed) ∧
      ((∀ src ∈ sources, src.IsClosed) →
        ∀ b ∈ chart.blocks, symbolsOf b.content = [] ∨ Closes (symbolsOf b.content)) ∧
      ∀ b ∈ chart.blocks, ∀ n, b.next = some n → ∀ xs, statementsOf? b.content = some xs →
        statementsOf? (b.content ++ '\n' :: jumpLine n) = some (xs ++ [symbolsOf (jumpLine n)]) := by
  obtain ⟨rs, hrs, hpieces⟩ := exists_readings h
  have hchoice : ∀ b ∈ layout (piecesOf rs), b.isChoice = true →
      statementsOf? b.content = some [symbolsOf b.content] := by
    intro b hb hchoice
    have hmem := mem_conditions_layout hb hchoice
    rw [hpieces] at hmem
    have hcondition := isExpression_conditions h _ hmem
    rcases b with ⟨id, code, n | ⟨yes, no⟩ | -⟩
    · cases hchoice
    · exact statementsOf?_choice hcondition id yes no
    · cases hchoice
  have hmade (hclosed : ∀ src ∈ sources, src.IsClosed) :
      Holds IsMadeOf (contents (layout (piecesOf rs))) (sources.flatMap Source.statements) := by
    rw [hpieces]
    exact holds_layout joins_isMadeOf (isMadeOf_sources h hclosed)
  refine ⟨⟨layout (piecesOf rs), rs.flatMap (·.hoisted)⟩, bind_ok.2 ⟨rs, hrs, rfl⟩, hchoice,
    ⟨?_, hmade⟩, ?_, ?_⟩
  · intro hmade
    obtain ⟨es, hes, -, hclosed⟩ := exists_symbols h
    refine hclosed ?_
    dsimp only at hmade
    rw [hpieces] at hmade
    rw [(holds_layout joins_has hes).unique joins_has (holds_has hmade)]
  · intro hclosed b hb
    obtain ⟨xs, hxs⟩ : ∃ xs, statementsOf? b.content = some xs := by
      by_cases hc : b.isChoice
      · exact ⟨_, hchoice b hb hc⟩
      · obtain ⟨xss, hxss, -⟩ := hmade hclosed
        have hmem : b.content ∈ contents (layout (piecesOf rs)) :=
          mem_map_of_mem (mem_filter.2 ⟨hb, by simpa using hc⟩)
        obtain ⟨xs, -, hxs⟩ := exists_mem_of_forall₂ hxss.flip _ hmem
        exact ⟨xs, hxs⟩
    exact closes_of_statements (statementsOf?_eq_some_iff.1 hxs).2
  · intro b _ n _ xs hxs
    exact statementsOf?_append hxs (statementsOf?_jumpLine n)

/-- A choice with a side in braces, and a call behind it. -/
def bracedSource : Bytes :=
  encode "if (c) \x7b a(); \x7d b();".toList

def bracedBody : List Json :=
  [.obj [("nodeType", .str "IfStatement"), ("condition", .obj [("src", .str "4:1:0")]),
      ("trueBody", .obj [("nodeType", .str "Block"), ("src", .str "7:8:0")])],
    .obj [("nodeType", .str "ExpressionStatement"), ("src", .str "16:3:0")]]

theorem bracedBody_shown : Forall₂ (Source.Shown bracedSource)
    [.choice "c".toList (.braced " a(); ".toList [symbolsOf "a();".toList]) none,
      .simple "b()".toList (symbolsOf "b();".toList)] bracedBody := by
  have hc : IsIdentifier "c".toList := isIdentifier_of_ascii (by decide) rfl
  refine .cons (.choice rfl rfl (by decide +kernel) (.word hc)
      (.braced ⟨_, rfl, rfl⟩ (by decide +kernel) (by decide +kernel)) rfl nofun)
    (.cons (.simple (by decide) (by decide +kernel) ⟨by decide, by decide +kernel, by decide,
      by decide +kernel⟩) .nil)

/-- With braces around its side the choice is cut into whole statements. -/
theorem holds_whole_statements_braced : ∃ chart, chartOf bracedSource bracedBody = .ok chart ∧
    Holds (fun t xs => statementsOf? t = some xs) (contents chart.blocks)
      [symbolsOf "a();".toList, symbolsOf "b();".toList] := by
  obtain ⟨chart, hchart, -, hholds, -⟩ := holds_whole_statements_exactly bracedBody_shown
  refine ⟨chart, hchart, hholds.2 ?_⟩
  intro src hsrc
  rcases List.mem_cons.1 hsrc with rfl | hsrc
  · exact ⟨trivial, nofun⟩
  · rw [List.mem_singleton.1 hsrc]
    exact trivial

/-- The same choice without braces. -/
def bareSideSource : Bytes :=
  encode "if (c) a = 1; b();".toList

def bareSideBody : List Json :=
  [.obj [("nodeType", .str "IfStatement"), ("src", .str "0:12:0"),
      ("condition", .obj [("nodeType", .str "Identifier"), ("name", .str "c"), ("src", .str "4:1:0")]),
      ("trueBody", .obj [("nodeType", .str "ExpressionStatement"), ("src", .str "7:5:0")])],
    .obj [("nodeType", .str "ExpressionStatement"), ("src", .str "14:3:0")]]

/-- **A side without braces loses its semicolon**: the block is no whole statement, and the
jump behind it becomes a part of what it holds. -/
theorem bare_side_takes_in_jump :
    chartOf bareSideSource bareSideBody =
        .ok ⟨[⟨1, "c".toList, .branch 2 3⟩, ⟨2, "a = 1".toList, .goto 3⟩, ⟨3, "b();".toList, .goto 0⟩], []⟩ ∧
      statementsOf? "a = 1".toList = none ∧
      statementsOf? ("a = 1".toList ++ '\n' :: jumpLine 3) =
      some [symbolsOf ("a = 1".toList ++ '\n' :: jumpLine 3)] :=
  ⟨by decide +kernel, by decide +kernel, by decide +kernel⟩

end Obscura.Flow
