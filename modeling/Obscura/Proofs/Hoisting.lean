import Mathlib.Data.List.Count
import Mathlib.Data.List.Nodup
import Obscura.Proofs.Declarations
import Obscura.Proofs.Sections

/-
  Declarations that move to the front of a body. Of a variable that is declared there,
  the type and the name are written and never the data location, so that the line
  declares what the source declares exactly where the source names no location. At its
  place one assignment to the variable is left.
-/

namespace Obscura.Flow

open Text Ast Json
open List hiding lookup

/-! ## Declarations of the source -/

/-- A variable that the source declares, with the text of its type. -/
structure Declared where
  node : Members
  typeText : Chars
  declarator : Declarator

namespace Declared

def name (d : Declared) : Chars :=
  d.declarator.name

/-- The node is that of the variable: its range has the declarator, and that of its
type the text of a type. -/
structure Shown (s : Bytes) (d : Declared) : Prop where
  name : lookup "name" d.node = some (.str (String.ofList d.name))
  isIdentifier : IsIdentifier d.name
  text : ∃ t, textOf s (.obj d.node) = .ok t ∧ declarator? (symbolsOf t) = some d.declarator
  type_isSet : (fieldOf "typeName" d.node).isSet = true
  type : textOf s (fieldOf "typeName" d.node) = .ok d.typeText
  type_endsInCode : EndsInCode d.typeText
  isType : IsType (symbolsOf d.typeText)

/-- What is left of the declarator in front of the body. -/
def hoisted (d : Declared) : Declarator :=
  ⟨symbolsOf d.typeText, none, d.name⟩

/-- What the variable is given where the source gives it nothing. -/
def value (d : Declared) : Chars :=
  defaultValue (trim d.typeText)

/-- The line for the front of the body. -/
def line (d : Declared) : Chars :=
  "        ".toList ++ d.typeText ++ ' ' :: (d.name ++ [';'])

variable {s : Bytes} {d : Declared} (h : d.Shown s)

include h

theorem Shown.isSet : (Json.obj d.node).isSet := by
  have hname := h.name
  cases hnode : d.node with
  | nil =>
    rw [hnode] at hname
    cases hname
  | cons m ms => rfl

theorem Shown.shown_name : (fieldOf "name" d.node).shown = d.name := by
  rw [fieldOf, h.name]
  exact String.toList_ofList

theorem Shown.hoistedLine : hoistedLine s (.obj d.node) = .ok [d.line] := by
  rw [Flow.hoistedLine, h.isSet]
  refine bind_ok.2 ⟨_, rfl, bind_ok.2 ⟨_, rfl, bind_ok.2 ⟨_, h.type, ?_⟩⟩⟩
  rw [h.shown_name]
  rfl

theorem Shown.resetLine : resetLine s (.obj d.node) = .ok [assignLine d.name d.value] := by
  rw [Flow.resetLine, h.isSet]
  refine bind_ok.2 ⟨_, rfl, bind_ok.2 ⟨_, rfl, ?_⟩⟩
  rw [h.type_isSet]
  refine bind_ok.2 ⟨_, h.type, ?_⟩
  rw [h.shown_name]
  rfl

theorem Shown.need_name : (Json.obj d.node).need "name" = .ok (.str (String.ofList d.name)) := by
  rw [need, h.name]

theorem Shown.declaration?_line : declaration? d.line = some (d.hoisted, none) :=
  Flow.declaration?_line (forall_mem_of_all rfl) h.type_endsInCode h.isType h.isIdentifier

omit h in
/-- The line declares what the source declares exactly if the source names no data
location, and the range of the type has all of it. -/
theorem hoisted_eq_iff :
    d.hoisted = d.declarator ↔ d.declarator.location = none ∧ d.declarator.type = symbolsOf d.typeText := by
  rcases hd : d.declarator with ⟨type, location, name⟩
  have hname : d.name = name := by rw [Declared.name, hd]
  rw [hoisted, hname, Declarator.mk.injEq]
  exact ⟨fun ⟨htype, hlocation, _⟩ => ⟨hlocation.symm, htype.symm⟩,
    fun ⟨hlocation, htype⟩ => ⟨htype.symm, hlocation.symm, rfl⟩⟩

end Declared

theorem endsInCode_defaultValue (t : Chars) : EndsInCode (defaultValue t) := by
  unfold defaultValue
  repeat' split
  all_goals decide +kernel

/-- A statement that declares variables, some places perhaps left free, with the text
of the value that it gives them. -/
structure LocalDeclaration where
  members : Members
  places : List (Option Declared)
  initial : Option Chars

namespace LocalDeclaration

def declared (l : LocalDeclaration) : List Declared :=
  l.places.flatMap Option.toList

def placeNode : Option Declared → Json
  | some d => .obj d.node
  | none => .null

/-- The node is that of the statement. -/
structure Shown (s : Bytes) (l : LocalDeclaration) : Prop where
  kind : isKind "VariableDeclarationStatement" l.members = true
  declarations : lookup "declarations" l.members = some (.arr (l.places.map placeNode))
  declared : ∀ d ∈ l.declared, d.Shown s
  nonempty : l.declared ≠ []
  distinct : (l.declared.map Declared.name).Nodup
  text : ∃ t, textOf s (.obj l.members) = .ok t
  initial_isSet : (fieldOf "initialValue" l.members).isSet = l.initial.isSome
  initial : ∀ t ∈ l.initial, textOf s (fieldOf "initialValue" l.members) = .ok t ∧ EndsInCode t

/-- The names that the statement assigns to, by their places. -/
def names (l : LocalDeclaration) : List (Option Chars) :=
  l.places.map (·.map Declared.name)

/-- What the statement assigns to. -/
def left (l : LocalDeclaration) : Chars :=
  match l.names with
  | [some w] => w
  | ps => listText ps

/-- The lines that are left of the statement: one with the value for all variables, or
one for each with its default. -/
def lines (l : LocalDeclaration) : List Chars :=
  match l.initial with
  | some t => [assignLine l.left t]
  | none => l.declared.map fun d => assignLine d.name d.value

def assignments (l : LocalDeclaration) : List Assignment :=
  match l.initial with
  | some t => [⟨l.names, symbolsOf t⟩]
  | none => l.declared.map fun d => ⟨[some d.name], symbolsOf d.value⟩

variable {s : Bytes} {l : LocalDeclaration}

theorem mem_declared {d : Declared} : d ∈ l.declared ↔ some d ∈ l.places := by
  simp [declared]

theorem mapM_places {f : Json → Except Fault (List Chars)} {g : Declared → Chars}
    (hgap : f .null = .ok []) (hd : ∀ d ∈ l.declared, f (.obj d.node) = .ok [g d]) :
    ∃ lines, (l.places.map placeNode).mapM f = .ok lines ∧ lines.flatten = l.declared.map g := by
  refine ⟨l.places.map fun p => p.toList.map g, ?_, ?_⟩
  · rw [mapM_map]
    refine mapM_of_forall fun p hp => ?_
    cases p with
    | none => exact hgap
    | some d => exact hd d (mem_declared.2 hp)
  · rw [declared, map_flatMap]
    rfl

theorem count_some_map (ps : List (Option Declared)) (w : Chars) :
    (ps.map (·.map Declared.name)).count (some w) = ((ps.flatMap Option.toList).map Declared.name).count w := by
  induction ps with
  | nil => rfl
  | cons p ps ih => cases p <;> simp [count_cons, ih]

section Shown

variable (h : l.Shown s)

include h

theorem Shown.isPlace : ∀ p ∈ l.names, IsPlace p := by
  intro p hp w hw
  obtain ⟨place, hplace, rfl⟩ := mem_map.1 hp
  obtain ⟨d, rfl, rfl⟩ := Option.map_eq_some_iff.1 hw
  exact (h.declared d (mem_declared.2 hplace)).isIdentifier

theorem Shown.mapM_tupleName :
    ∃ nodes, (l.places.map placeNode).mapM tupleName = .ok nodes ∧
      nodes.mapM nameText = .ok (l.names.map placeText) := by
  refine ⟨l.names.map fun p => .str (String.ofList (placeText p)), ?_, ?_⟩
  · rw [mapM_map, names, map_map]
    refine mapM_of_forall fun p hp => ?_
    cases p with
    | none => rfl
    | some d =>
      have hd := h.declared d (mem_declared.2 hp)
      show tupleName (.obj d.node) = _
      rw [tupleName, hd.isSet]
      exact hd.need_name
  · rw [mapM_map]
    refine mapM_of_forall fun p _ => ?_
    exact congrArg Except.ok String.toList_ofList

/-- What the statement assigns to reads as its variables, each at its place. -/
theorem Shown.isTargets_left : IsTargets l.left l.names := by
  have hplaces := h.isPlace
  have hne : l.names ≠ [] := by
    intro hnil
    have hnone : l.places = [] := map_eq_nil_iff.1 hnil
    have hdeclared := h.nonempty
    rw [LocalDeclaration.declared, hnone] at hdeclared
    exact hdeclared rfl
  unfold left
  split
  · rename_i w hw
    rw [hw] at hplaces ⊢
    exact isTargets_name (hplaces _ mem_cons_self w rfl)
  · exact isTargets_list hne hplaces

theorem Shown.assigned :
    Flow.assigned (.arr (l.places.map placeNode)) (l.places.map placeNode) = .ok l.left := by
  have htuple := h.mapM_tupleName
  have hd := h.declared
  have hne := h.nonempty
  rcases hplaces : l.places with - | ⟨p, - | ⟨q, ps⟩⟩
  · rw [LocalDeclaration.declared, hplaces] at hne
    exact absurd rfl hne
  · cases p with
    | none =>
      rw [LocalDeclaration.declared, hplaces] at hne
      exact absurd rfl hne
    | some d =>
      have hd := hd d (mem_declared.2 (hplaces ▸ mem_cons_self))
      have hleft : l.left = d.name := by
        rw [left, names, hplaces]
        rfl
      rw [hleft]
      exact bind_ok.2 ⟨_, hd.need_name, congrArg Except.ok String.toList_ofList⟩
  · obtain ⟨nodes, hnodes, htexts⟩ := htuple
    have hleft : l.left = listText l.names := by
      rw [left, names, hplaces]
      cases p <;> rfl
    rw [hplaces] at hnodes
    rw [hleft]
    exact bind_ok.2 ⟨_, hnodes, bind_ok.2 ⟨_, htexts, rfl⟩⟩

/-- **What a declaration becomes**: a line for each of its variables, and the lines
that assign. -/
theorem Shown.readStatement :
    readStatement s (.obj l.members) = .ok ⟨.plain l.lines, l.declared.map Declared.line⟩ := by
  obtain ⟨hoisted, hhoisted, hlines⟩ :=
    mapM_places (f := hoistedLine s) rfl fun d hd => (h.declared d hd).hoistedLine
  have hset := h.initial_isSet
  have hinitial := h.initial
  have hread : Flow.readStatement s (.obj l.members) = readDeclaration s l.members := by
    have hif : isKind "IfStatement" l.members = false := isKind_of_ne h.kind (by decide)
    rw [Flow.readStatement, hif, h.kind, if_neg Bool.false_ne_true, if_pos rfl]
  rw [hread, readDeclaration, h.declarations, lines]
  refine bind_ok.2 ⟨_, rfl, bind_ok.2 ⟨_, hhoisted, ?_⟩⟩
  dsimp only
  rw [hset, hlines]
  cases hvalue : l.initial with
  | some t =>
    obtain ⟨whole, hwhole⟩ := h.text
    exact bind_ok.2 ⟨_, hwhole, bind_ok.2 ⟨_, h.assigned, bind_ok.2 ⟨_, (hinitial t hvalue).1, rfl⟩⟩⟩
  | none =>
    obtain ⟨resets, hresets, hflat⟩ :=
      mapM_places (f := resetLine s) rfl fun d hd => (h.declared d hd).resetLine
    rw [← hflat]
    exact bind_ok.2 ⟨_, hresets, rfl⟩

theorem Shown.assignment?_lines : l.lines.map assignment? = l.assignments.map some := by
  have hinitial := h.initial
  rw [lines, assignments]
  cases hvalue : l.initial with
  | some t =>
    rw [map_singleton, assignment?_line h.isTargets_left (hinitial t hvalue).2]
    rfl
  | none =>
    rw [map_map, map_map]
    refine map_congr_left fun d hd => ?_
    exact assignment?_line (isTargets_name (h.declared d hd).isIdentifier) (endsInCode_defaultValue _)

/-- Exactly one of the assignments that are left is to a variable of the statement. -/
theorem Shown.count_targets {d : Declared} (hd : d ∈ l.declared) :
    (l.assignments.flatMap Assignment.targets).count (some d.name) = 1 := by
  have hone : (l.declared.map Declared.name).count d.name = 1 :=
    count_eq_one_of_mem h.distinct (mem_map_of_mem hd)
  rw [assignments]
  cases l.initial with
  | some t =>
    rw [flatMap_singleton, ← hone, LocalDeclaration.declared, names]
    exact count_some_map l.places d.name
  | none =>
    have htargets : (l.declared.map fun d => (⟨[some d.name], symbolsOf d.value⟩ : Assignment)).flatMap
        Assignment.targets = (l.declared.map Declared.name).map some := by
      rw [flatMap_map, map_map, map_eq_flatMap]
      rfl
    rw [htargets, count_map_of_injective _ some fun _ _ => Option.some.inj, hone]

end Shown

end LocalDeclaration

/-! ## Default values -/

/-- The text is empty or a number in digits. -/
def IsWidth (t : Chars) : Prop :=
  ∀ c ∈ t, c.isDigit = true

/-- The elementary types, and what their variables hold before they are given a
value. -/
inductive DefaultOf : Chars → Chars → Prop
  | truth : DefaultOf "bool".toList "false".toList
  | text : DefaultOf "string".toList "\"\"".toList
  | bytes {width : Chars} (h : IsWidth width) : DefaultOf ("bytes".toList ++ width) "\"\"".toList
  | address : DefaultOf "address".toList "address(0)".toList
  | signed {width : Chars} (h : IsWidth width) : DefaultOf ("int".toList ++ width) "0".toList
  | unsigned {width : Chars} (h : IsWidth width) : DefaultOf ("uint".toList ++ width) "0".toList

theorem trim_of_forall {t : Chars} (h : ∀ c ∈ t, isBlank c = false) : trim t = t :=
  trim_of_ends (fun c hc => h c (mem_of_mem_head? hc)) fun c hc => h c (mem_of_getLast? hc)

theorem trim_width {t width : Chars} (ht : t.all (fun c => !isBlank c) = true) (h : IsWidth width) :
    trim (t ++ width) = t ++ width := by
  refine trim_of_forall fun c hc => ?_
  rcases mem_append.1 hc with hc | hc
  · simpa using all_eq_true.1 ht c hc
  · have hdigit := h c hc
    rw [Bool.eq_false_iff]
    intro hblank
    have hword := isWord_of_isBlank hblank
    simp only [isWord, isAlnum, isLetter, isNumeral, isFigure, isDecimal, Bool.or_eq_false_iff] at hword
    simp [hword] at hdigit

theorem defaultValue_of_defaultOf {t v : Chars} (h : DefaultOf t v) : defaultValue (trim t) = v := by
  cases h with
  | truth => rfl
  | text => rfl
  | bytes h =>
    rw [trim_width (by decide) h]
    rfl
  | address => rfl
  | signed h =>
    rw [trim_width (by decide) h]
    rfl
  | unsigned h =>
    rw [trim_width (by decide) h]
    rfl

/-! ## Declarations in a body -/

theorem chartOf_append {s : Bytes} {front back : List Json} {v : Json}
    {before behind : List Reading} {r : Reading}
    (hfront : front.mapM (readStatement s) = .ok before) (hv : readStatement s v = .ok r)
    (hback : back.mapM (readStatement s) = .ok behind) :
    chartOf s (front ++ v :: back) = .ok ⟨layout (piecesOf before ++ r.piece :: piecesOf behind),
      before.flatMap (·.hoisted) ++ r.hoisted ++ behind.flatMap (·.hoisted)⟩ := by
  refine bind_ok.2 ⟨before ++ r :: behind, ?_, ?_⟩
  · rw [mapM_append, mapM_cons]
    exact bind_ok.2 ⟨_, hfront, bind_ok.2 ⟨_, bind_ok.2 ⟨_, hv, bind_ok.2 ⟨_, hback, rfl⟩⟩, rfl⟩⟩
  · rw [piecesOf, piecesOf, map_append, flatMap_append, append_assoc]
    rfl

/-- **What a declaration keeps at the front of a body.** Each of its variables is
declared there by a line of its own, with its name and the text of its type, and without
a data location. So the line declares what the source declares exactly if the source
names no location, and the range of the type has all of it. At the place of the
statement stand the assignments that it leaves, and one of them is to the variable: of
the value that it is given, or else of its default. -/
theorem keeps_declarations_exactly {s : Bytes} {l : LocalDeclaration} (h : l.Shown s) {front back : List Json}
    {before behind : List Reading} (hfront : front.mapM (readStatement s) = .ok before)
    (hback : back.mapM (readStatement s) = .ok behind) :
    ∃ lines hoisted,
      chartOf s (front ++ .obj l.members :: back) =
        .ok ⟨layout (piecesOf before ++ .plain lines :: piecesOf behind),
          before.flatMap (·.hoisted) ++ hoisted ++ behind.flatMap (·.hoisted)⟩ ∧
      List.Forall₂ (fun line d => declaration? line = some (d.hoisted, none) ∧
        (declaration? line = some (d.declarator, none) ↔
          d.declarator.location = none ∧ d.declarator.type = symbolsOf d.typeText)) hoisted l.declared ∧
      lines.map assignment? = l.assignments.map some ∧
      (∀ d ∈ l.declared, (l.assignments.flatMap Assignment.targets).count (some d.name) = 1) ∧
      (l.initial = none → ∀ d ∈ l.declared, ∀ v, DefaultOf d.typeText v →
        ⟨[some d.name], symbolsOf v⟩ ∈ l.assignments) := by
  refine ⟨l.lines, l.declared.map Declared.line, chartOf_append hfront h.readStatement hback, ?_,
    h.assignment?_lines,
    fun d hd => h.count_targets hd, fun hinitial d hd v hv => ?_⟩
  · refine List.forall₂_map_left_iff.2 (List.forall₂_same.2 fun d hd => ?_)
    have hline := (h.declared d hd).declaration?_line
    refine ⟨hline, ?_⟩
    rw [hline, Option.some.injEq, Prod.mk.injEq, and_iff_left rfl]
    exact Declared.hoisted_eq_iff
  · rw [LocalDeclaration.assignments, hinitial, ← defaultValue_of_defaultOf hv]
    exact List.mem_map_of_mem hd

/-- Two variables with a place left free between them. -/
def tupleSource : Bytes :=
  encode "(string memory s, , uint256 n) = f();".toList

def textLocal : Declared where
  node := [("name", .str "s"), ("src", .str "1:15:0"), ("typeName", .obj [("src", .str "1:6:0")])]
  typeText := "string".toList
  declarator := ⟨[.word "string".toList false], some .memory, "s".toList⟩

def numberLocal : Declared where
  node := [("name", .str "n"), ("src", .str "20:9:0"), ("typeName", .obj [("src", .str "20:7:0")])]
  typeText := "uint256".toList
  declarator := ⟨[.word "uint256".toList false], none, "n".toList⟩

def tupleDeclaration : LocalDeclaration where
  members := [("nodeType", .str "VariableDeclarationStatement"), ("src", .str "0:36:0"),
    ("declarations", .arr [.obj textLocal.node, .null, .obj numberLocal.node]),
    ("initialValue", .obj [("src", .str "33:3:0")])]
  places := [some textLocal, none, some numberLocal]
  initial := some "f()".toList

theorem textLocal_shown : textLocal.Shown tupleSource := by
  have htype : IsIdentifier textLocal.typeText := isIdentifier_of_ascii (by decide) rfl
  exact {
    name := rfl
    isIdentifier := isIdentifier_of_ascii (by decide) rfl
    text := ⟨"string memory s".toList, by decide +kernel, by decide +kernel⟩
    type_isSet := rfl
    type := by decide +kernel
    type_endsInCode := htype.endsInCode
    isType := isType_word htype (by decide) }

theorem numberLocal_shown : numberLocal.Shown tupleSource := by
  have htype : IsIdentifier numberLocal.typeText := isIdentifier_of_ascii (by decide) rfl
  exact {
    name := rfl
    isIdentifier := isIdentifier_of_ascii (by decide) rfl
    text := ⟨"uint256 n".toList, by decide +kernel, by decide +kernel⟩
    type_isSet := rfl
    type := by decide +kernel
    type_endsInCode := htype.endsInCode
    isType := isType_word htype (by decide) }

theorem tupleDeclaration_shown : tupleDeclaration.Shown tupleSource where
  kind := by decide
  declarations := rfl
  declared := by
    intro d hd
    rcases mem_cons.1 hd with rfl | hd
    · exact textLocal_shown
    · rw [mem_singleton.1 hd]
      exact numberLocal_shown
  nonempty := cons_ne_nil textLocal [numberLocal]
  distinct := by decide
  text := ⟨"(string memory s, , uint256 n) = f()".toList, by decide +kernel⟩
  initial_isSet := rfl
  initial := by
    intro t ht
    cases ht
    exact ⟨by decide +kernel, by decide +kernel⟩

/-- Of two variables in a list the second alone is declared as in the source. -/
theorem keeps_declarations_tuple :
    tupleDeclaration.Shown tupleSource ∧ ∃ chart text number line,
      chartOf tupleSource [.obj tupleDeclaration.members] = .ok chart ∧ chart.hoisted = [text, number] ∧
      declaration? text = some (⟨textLocal.declarator.type, none, "s".toList⟩, none) ∧
      declaration? number = some (numberLocal.declarator, none) ∧
      chart.blocks = layout [.plain [line]] ∧
      assignment? line = some ⟨[some "s".toList, none, some "n".toList], symbolsOf "f()".toList⟩ := by
  obtain ⟨lines, hoisted, hchart, hdeclared, hlines, -⟩ :=
    keeps_declarations_exactly tupleDeclaration_shown List.mapM_nil List.mapM_nil
  have htwo : tupleDeclaration.declared = [textLocal, numberLocal] := rfl
  rw [htwo] at hdeclared
  obtain ⟨text, rest, htext, hrest, rfl⟩ := List.forall₂_cons_right_iff.1 hdeclared
  obtain ⟨number, rest, hnumber, hnil, rfl⟩ := List.forall₂_cons_right_iff.1 hrest
  obtain rfl := List.forall₂_nil_right_iff.1 hnil
  obtain ⟨line, rfl, hline⟩ := List.map_eq_singleton_iff.1 hlines
  have hstring : symbolsOf textLocal.typeText = textLocal.declarator.type :=
    IsIdentifier.symbolsOf (isIdentifier_of_ascii (by decide) (by decide))
  have huint : symbolsOf numberLocal.typeText = numberLocal.declarator.type :=
    IsIdentifier.symbolsOf (isIdentifier_of_ascii (by decide) (by decide))
  refine ⟨tupleDeclaration_shown, _, text, number, line, hchart, rfl, ?_,
    hnumber.2.2 ⟨rfl, huint.symm⟩, rfl, hline⟩
  rw [htext.1, Declared.hoisted, hstring]
  rfl

/-- A variable in memory, and a use of it. -/
def memorySource : Bytes :=
  encode "string memory s = \"a\"; t = s;".toList

def memoryBody : List Json :=
  [.obj [("nodeType", .str "VariableDeclarationStatement"), ("src", .str "0:21:0"),
      ("declarations", .arr [.obj [("nodeType", .str "VariableDeclaration"), ("name", .str "s"),
        ("src", .str "0:15:0"),
        ("storageLocation", .str "memory"),
        ("typeName", .obj [("nodeType", .str "ElementaryTypeName"), ("name", .str "string"),
          ("src", .str "0:6:0")])]]),
      ("initialValue", .obj [("nodeType", .str "Literal"), ("value", .str "a"), ("src", .str "18:3:0")])],
    .obj [("nodeType", .str "ExpressionStatement"), ("src", .str "23:5:0")]]

/-- **A data location is lost**: the source declares the variable in memory, and the line
in front of the body declares one of the same type and name with no location. -/
theorem data_location_is_lost :
    ∃ d line, declarator? (symbolsOf "string memory s".toList) = some d ∧ d.location = some .memory ∧
      chartOf memorySource memoryBody = .ok ⟨[⟨1, "s = \"a\";\nt = s;".toList, .goto 0⟩], [line]⟩ ∧
      declaration? line = some ({ d with location := none }, none) :=
  ⟨⟨[.word "string".toList false], some .memory, "s".toList⟩, "        string s;".toList,
    by decide +kernel, rfl,
    by decide +kernel, by decide +kernel⟩

end Obscura.Flow
