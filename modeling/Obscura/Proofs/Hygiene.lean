import Obscura.Flow.Flatten
import Obscura.Proofs.Hoisting

/-
  Names in a flattened body. In front of its blocks the body declares the variables that
  moved there and then a variable of its own, which is always called `state`. A name in
  the blocks that is not bound there is looked up among these before it is looked up
  outside. The main statement, `keeps_references_exactly`, says for which bodies all
  names refer to what they referred to.
-/

namespace Obscura.Flow

open Text Ast Json List

variable {s : Bytes} {vs : List Json} {w first last state : Chars}

/-! ## Names in statements -/

/-- The whole number that a value is. -/
def whole? : Json → Option Int
  | .int n => some n
  | _ => none

/-- A name in a statement, with the number of the declaration that it refers to. -/
structure Mention where
  name : Chars
  target : Int
deriving Repr, DecidableEq

/-- The node as a name that refers to a declaration. -/
def mention? (ms : Members) : Option Mention :=
  (text? (fieldOf "name" ms)).bind fun name =>
    (whole? (fieldOf "referencedDeclaration" ms)).map fun target => ⟨name, target⟩

/-- What is left of a statement at its place: of a declaration only the value. -/
def remainder : Json → Json
  | .obj ms => if isKind "VariableDeclarationStatement" ms then fieldOf "initialValue" ms else .obj ms
  | v => v

/-- The numbers of the variables that are declared inside of what is left. -/
def innerIds (v : Json) : List Int :=
  (nodesOf "VariableDeclaration" (remainder v)).filterMap fun ms => whole? (fieldOf "id" ms)

/-- The names in what is left that are not bound there. -/
def freeMentions (v : Json) : List Mention :=
  ((nodes (remainder v)).filterMap mention?).filter fun m => m.target ∉ innerIds v

def sideBlocks : Json → List (List Json)
  | .obj ms =>
    if isKind "IfStatement" ms then
      [fieldOf "trueBody" ms, fieldOf "falseBody" ms].filterMap blockItems?
    else []
  | _ => []
where
  blockItems? : Json → Option (List Json)
    | .obj ms =>
      match isKind "Block" ms, fieldOf "statements" ms with
      | true, .arr items => some items
      | _, _ => none
    | _ => none

def declaredNames : Json → List Chars
  | .obj ms =>
    match isKind "VariableDeclarationStatement" ms, fieldOf "declarations" ms with
    | true, .arr items => items.filterMap fun d => (d.member? "name").bind text?
    | _, _ => []
  | _ => []

/-- The names that the sides of a choice declare next to the jump out of them. -/
def sideNames (v : Json) : List Chars :=
  (sideBlocks v).flatMap (·.flatMap declaredNames)

/-! ## Names in front of the blocks -/

/-- What a name can refer to behind the front of a body. -/
inductive Target where
  | moved (d : Declared)
  | dispatcher
  | outside

/-- The name of the variable that holds the number of the block to run. -/
def dispatcherName : Chars :=
  "state".toList

/-- The variables in front of the blocks. -/
def frontScope (ds : List Declared) : List (Chars × Target) :=
  ds.map (fun d => (d.name, .moved d)) ++ [(dispatcherName, .dispatcher)]

/-- What a name refers to, unless it is declared twice. -/
def refer (scope : List (Chars × Target)) (w : Chars) : Option Target :=
  match scope.filter (·.1 = w) with
  | [] => some .outside
  | [e] => some e.2
  | _ => none

def Declared.number (d : Declared) : Option Int :=
  whole? (fieldOf "id" d.node)

/-- The name refers to the declaration that it referred to. -/
def Keeps (ds : List Declared) (m : Mention) : Prop :=
  match refer (frontScope ds) m.name with
  | some (.moved d) => d.number = some m.target
  | some .outside => ∀ d ∈ ds, d.number ≠ some m.target
  | _ => False

/-- The jumps behind the blocks refer to the variable of the dispatcher. -/
def KeepsJumps (ds : List Declared) (vs : List Json) : Prop :=
  refer (frontScope ds) dispatcherName = some .dispatcher ∧ ∀ v ∈ vs, dispatcherName ∉ sideNames v

/-- The statements move those variables to the front. -/
inductive Moving (s : Bytes) : List Json → List Declared → Prop
  | nil : Moving s [] []
  | declaration {l : LocalDeclaration} {vs : List Json} {ds : List Declared} (shown : l.Shown s)
      (rest : Moving s vs ds) : Moving s (.obj l.members :: vs) (l.declared ++ ds)
  | other {v : Json} {vs : List Json} {ds : List Declared} (kind : ¬IsNode "VariableDeclarationStatement" v)
      (rest : Moving s vs ds) : Moving s (v :: vs) ds

/-- The variables of a body have different names, and what refers to one of them bears
its name. -/
structure WellScoped (vs : List Json) (ds : List Declared) : Prop where
  distinct : (ds.map Declared.name).Nodup
  named : ∀ v ∈ vs, ∀ m ∈ freeMentions v, ∀ d ∈ ds, d.number = some m.target → m.name = d.name

/-! ## What names refer to -/

variable {ds : List Declared}

/-- Of variables with different names at most one has a given name. -/
theorem filter_name (h : (ds.map Declared.name).Nodup) (w : Chars) :
    (ds.filter (·.name = w) = [] ∧ ∀ d ∈ ds, d.name ≠ w) ∨
      ∃ d ∈ ds, d.name = w ∧ ds.filter (·.name = w) = [d] ∧ ∀ e ∈ ds, e.name = w → e = d := by
  induction ds with
  | nil => exact .inl ⟨rfl, fun _ hd => nomatch hd⟩
  | cons d ds ih =>
    rw [map_cons, nodup_cons] at h
    by_cases hd : d.name = w
    · have hrest : ∀ e ∈ ds, e.name ≠ w := fun e he hw => h.1 (mem_map.2 ⟨e, he, hw.trans hd.symm⟩)
      refine .inr ⟨d, mem_cons_self, hd, ?_, ?_⟩
      · rw [filter_cons_of_pos (by simpa using hd), filter_eq_nil_iff.2 (by simpa using hrest)]
      · intro e he hw
        rcases mem_cons.1 he with rfl | he
        · rfl
        · exact absurd hw (hrest e he)
    · rw [filter_cons_of_neg (by simpa using hd)]
      rcases ih h.2 with ⟨hnil, hne⟩ | ⟨e, he, hw, hone, hsame⟩
      · exact .inl ⟨hnil, forall_mem_cons.2 ⟨hd, hne⟩⟩
      · refine .inr ⟨e, mem_cons_of_mem d he, hw, hone, ?_⟩
        exact forall_mem_cons.2 ⟨fun hw => absurd hw hd, hsame⟩

theorem filter_frontScope (ds : List Declared) :
    (frontScope ds).filter (·.1 = w) = (ds.filter (·.name = w)).map (fun d => (d.name, .moved d)) ++
      if dispatcherName = w then [(dispatcherName, .dispatcher)] else [] := by
  rw [frontScope, filter_append, filter_map]
  congr 1
  by_cases hw : dispatcherName = w <;> simp [hw]

section WellScoped

variable {ds : List Declared} (hdistinct : (ds.map Declared.name).Nodup)

include hdistinct

theorem refer_of_ne (hw : w ≠ dispatcherName) :
    (refer (frontScope ds) w = some .outside ∧ ∀ d ∈ ds, d.name ≠ w) ∨
      ∃ d ∈ ds, d.name = w ∧ refer (frontScope ds) w = some (.moved d) ∧ ∀ e ∈ ds, e.name = w → e = d := by
  rw [refer, filter_frontScope, if_neg (Ne.symm hw), append_nil]
  rcases filter_name hdistinct w with ⟨hnil, hne⟩ | ⟨d, hd, hname, hone, hsame⟩
  · rw [hnil]
    exact .inl ⟨rfl, hne⟩
  · rw [hone]
    exact .inr ⟨d, hd, hname, rfl, hsame⟩

theorem refer_dispatcherName :
    (refer (frontScope ds) dispatcherName = some .dispatcher ∧ ∀ d ∈ ds, d.name ≠ dispatcherName) ∨
      (refer (frontScope ds) dispatcherName = none ∧ ∃ d ∈ ds, d.name = dispatcherName) := by
  rw [refer, filter_frontScope, if_pos rfl]
  rcases filter_name hdistinct dispatcherName with ⟨hnil, hne⟩ | ⟨d, hd, hname, hone, -⟩
  · rw [hnil]
    exact .inl ⟨rfl, hne⟩
  · rw [hone]
    exact .inr ⟨rfl, d, hd, hname⟩

theorem keepsJumps_iff :
    KeepsJumps ds vs ↔ (∀ d ∈ ds, d.name ≠ dispatcherName) ∧ ∀ v ∈ vs, dispatcherName ∉ sideNames v := by
  unfold KeepsJumps
  rcases refer_dispatcherName hdistinct with ⟨hrefer, hne⟩ | ⟨hrefer, d, hd, hname⟩
  · exact ⟨fun h => ⟨hne, h.2⟩, fun h => ⟨hrefer, h.2⟩⟩
  · refine ⟨fun h => ?_, fun h => absurd hname (h.1 d hd)⟩
    rw [hrefer] at h
    cases h.1

/-- **When a name keeps what it refers to**: it is not that of the dispatcher, and it is
that of a moved variable only if it refers to the variable. -/
theorem keeps_iff {m : Mention} (hnamed : ∀ d ∈ ds, d.number = some m.target → m.name = d.name) :
    Keeps ds m ↔ m.name ≠ dispatcherName ∧ ∀ d ∈ ds, m.name = d.name → d.number = some m.target := by
  unfold Keeps
  by_cases hstate : m.name = dispatcherName
  · rw [hstate]
    rcases refer_dispatcherName hdistinct with ⟨hrefer, -⟩ | ⟨hrefer, -⟩
    · rw [hrefer]
      exact ⟨False.elim, fun h => h.1 rfl⟩
    · rw [hrefer]
      exact ⟨False.elim, fun h => h.1 rfl⟩
  · rcases refer_of_ne hdistinct hstate with ⟨hrefer, hne⟩ | ⟨d, hd, hname, hrefer, hsame⟩
    · rw [hrefer]
      refine ⟨fun _ => ⟨hstate, fun d hd hw => absurd hw.symm (hne d hd)⟩, fun _ d hd hnumber => ?_⟩
      exact hne d hd (hnamed d hd hnumber).symm
    · rw [hrefer]
      refine ⟨fun hnumber => ⟨hstate, fun e he hw => ?_⟩, fun h => h.2 d hd hname.symm⟩
      rw [hsame e he hw.symm]
      exact hnumber

end WellScoped

/-! ## The front of a body -/

def frontLines (hoisted : List Chars) : List Chars :=
  (if hoisted.isEmpty then []
    else "        // --- Hoisted Local Variables ---".toList ::
      (hoisted ++ ["        // -------------------------------".toList, []]))
    ++ ["        uint256 state = 1;".toList]

def loopText (arms : List Block) : Chars :=
  "        while (state != 0) \x7b\n".toList ++ armsText arms ++ "        \x7d\n    \x7d".toList

theorem flatMap_frontLines (hoisted : List Chars) :
    ((if hoisted.isEmpty then [] else first :: (hoisted ++ [last, []])) ++ [state]).flatMap (· ++ ['\n']) =
      (if hoisted.isEmpty then [] else first ++ ['\n'] ++ hoisted.flatMap (· ++ ['\n']) ++
        (last ++ ['\n', '\n'])) ++
        (state ++ ['\n']) := by
  cases hoisted <;> simp

theorem dispatcherText_eq (arms : List Block) (hoisted : List Chars) :
    dispatcherText arms hoisted =
      "\x7b\n".toList ++ (frontLines hoisted).flatMap (· ++ ['\n']) ++ loopText arms := by
  have hfirst : "        // --- Hoisted Local Variables ---\n".toList =
      "        // --- Hoisted Local Variables ---".toList ++ ['\n'] := by decide
  have hlast : "        // -------------------------------\n\n".toList =
      "        // -------------------------------".toList ++ ['\n', '\n'] := by decide
  have hstate : "        uint256 state = 1;\n        while (state != 0) \x7b\n".toList =
      "        uint256 state = 1;".toList ++ ['\n'] ++ "        while (state != 0) \x7b\n".toList := by decide
  have hfront : (frontLines hoisted).flatMap (· ++ ['\n']) =
      hoistedText hoisted ++ ("        uint256 state = 1;".toList ++ ['\n']) := by
    unfold hoistedText
    rw [hfirst, hlast]
    exact flatMap_frontLines hoisted
  unfold dispatcherText loopText
  rw [hfront, hstate]
  simp only [append_assoc]

def declaredName? (line : Chars) : Option Chars :=
  (declaration? line).map (·.1.name)

theorem readStatement_hoisted {v : Json} {r : Reading} (hv : ¬IsNode "VariableDeclarationStatement" v)
    (h : readStatement s v = .ok r) : r.hoisted = [] := by
  unfold readStatement at h
  split at h
  · rename_i ms
    split at h
    · obtain ⟨node, -, h⟩ := bind_ok.1 h
      obtain ⟨condition, -, h⟩ := bind_ok.1 h
      obtain ⟨yes, -, h⟩ := bind_ok.1 h
      dsimp only at h
      split at h
      · obtain ⟨no, -, h⟩ := bind_ok.1 h
        rw [← pure_ok.1 h]
      · rw [← pure_ok.1 h]
    · rw [if_neg fun hkind => hv (isNode_obj.2 hkind)] at h
      obtain ⟨t, -, h⟩ := bind_ok.1 h
      dsimp only at h
      split at h
      · rw [← pure_ok.1 h]
      · rw [← pure_ok.1 h]
  · cases h

theorem Moving.shown {s : Bytes} {vs : List Json} (h : Moving s vs ds) : ∀ d ∈ ds, d.Shown s := by
  induction h with
  | nil => exact forall_mem_nil _
  | declaration shown _ ih => exact forall_mem_append.2 ⟨shown.declared, ih⟩
  | other _ _ ih => exact ih

theorem Moving.hoisted (h : Moving s vs ds) {rs : List Reading}
    (hrs : Forall₂ (fun v r => readStatement s v = .ok r) vs rs) :
    rs.flatMap (·.hoisted) = ds.map Declared.line := by
  induction h generalizing rs with
  | nil =>
    cases hrs
    rfl
  | declaration shown _ ih =>
    obtain ⟨r, rest, hr, hrest, rfl⟩ := forall₂_cons_left_iff.1 hrs
    rw [shown.readStatement] at hr
    cases hr
    rw [flatMap_cons, ih hrest, map_append]
  | other kind _ ih =>
    obtain ⟨r, rest, hr, hrest, rfl⟩ := forall₂_cons_left_iff.1 hrs
    rw [flatMap_cons, readStatement_hoisted kind hr, ih hrest]
    rfl

theorem filterMap_frontLines {f : Chars → Option Chars} {first last state w : Chars}
    (hfirst : f first = none) (hlast : f last = none) (hempty : f [] = none) (hstate : f state = some w)
    (hoisted : List Chars) :
    ((if hoisted.isEmpty then [] else first :: (hoisted ++ [last, []])) ++ [state]).filterMap f =
      hoisted.filterMap f ++ [w] := by
  cases hoisted with
  | nil => exact filterMap_cons_some hstate
  | cons line lines =>
    have hrest : [last, [], state].filterMap f = [w] := by simp [hlast, hempty, hstate]
    show (first :: (line :: lines ++ [last, []]) ++ [state]).filterMap f = _
    rw [cons_append, filterMap_cons_none hfirst, append_assoc, filterMap_append]
    exact congrArg _ hrest

/-- The lines in front of the loop declare the moved variables and then that of the
dispatcher. -/
theorem declaredName?_frontLines (h : ∀ d ∈ ds, d.Shown s) :
    (frontLines (ds.map Declared.line)).filterMap declaredName? = (frontScope ds).map Prod.fst := by
  have hline : ∀ d ∈ ds, declaredName? d.line = some d.name := by
    intro d hd
    rw [declaredName?, (h d hd).declaration?_line]
    rfl
  have hmoved : (ds.map Declared.line).filterMap declaredName? = ds.map Declared.name := by
    rw [filterMap_map, ← filterMap_eq_map]
    exact filterMap_congr hline
  have hscope : (frontScope ds).map Prod.fst = ds.map Declared.name ++ [dispatcherName] := by
    rw [frontScope, map_append, map_map]
    rfl
  rw [hscope, ← hmoved]
  exact filterMap_frontLines (by decide +kernel) (by decide +kernel) (by decide +kernel) (by decide +kernel) _

/-- The names that occur in the statements of a body: those of its variables, those that
are not bound where they stand, and those that the sides of choices declare. -/
def occurring (vs : List Json) (ds : List Declared) : List Chars :=
  ds.map Declared.name ++ vs.flatMap (fun v => (freeMentions v).map Mention.name) ++ vs.flatMap sideNames

theorem notMem_occurring : w ∉ occurring vs ds ↔
    (∀ d ∈ ds, d.name ≠ w) ∧ (∀ v ∈ vs, ∀ m ∈ freeMentions v, m.name ≠ w) ∧ ∀ v ∈ vs, w ∉ sideNames v := by
  simp only [occurring, mem_append, mem_flatMap, mem_map, not_or, not_exists, not_and, and_assoc, ne_eq]

/-- **When a flattened body captures no name.** Its front declares the variables that
moved there and then `state`. So all names refer to what they referred to, and all jumps
to the variable of the dispatcher, exactly if `state` does not occur in the statements of
the body, and no name of a moved variable stands for something else. -/
theorem keeps_references_exactly {s : Bytes} {vs : List Json} {ds : List Declared} {chart : Chart}
    (hmoving : Moving s vs ds) (hscoped : WellScoped vs ds) (hchart : chartOf s vs = .ok chart) :
    (∀ arms, dispatcherText arms chart.hoisted =
        "\x7b\n".toList ++ (frontLines chart.hoisted).flatMap (· ++ ['\n']) ++ loopText arms) ∧
      (frontLines chart.hoisted).filterMap declaredName? = (frontScope ds).map Prod.fst ∧
      ((∀ v ∈ vs, ∀ m ∈ freeMentions v, Keeps ds m) ∧ KeepsJumps ds vs ↔
        dispatcherName ∉ occurring vs ds ∧
          ∀ v ∈ vs, ∀ m ∈ freeMentions v, ∀ d ∈ ds, m.name = d.name → d.number = some m.target) := by
  obtain ⟨rs, hrs, hresult⟩ := bind_ok.1 hchart
  have hhoisted : chart.hoisted = ds.map Declared.line := by
    rw [← pure_ok.1 hresult]
    exact hmoving.hoisted (forall₂_of_mapM hrs)
  refine ⟨fun arms => dispatcherText_eq arms chart.hoisted, ?_, ?_⟩
  · rw [hhoisted]
    exact declaredName?_frontLines hmoving.shown
  · have hkeeps : ∀ v ∈ vs, ∀ m ∈ freeMentions v, (Keeps ds m ↔
        m.name ≠ dispatcherName ∧ ∀ d ∈ ds, m.name = d.name → d.number = some m.target) := fun v hv m hm =>
      keeps_iff hscoped.distinct (hscoped.named v hv m hm)
    rw [keepsJumps_iff hscoped.distinct, notMem_occurring]
    constructor
    · rintro ⟨hall, hmoved, hsides⟩
      refine ⟨⟨hmoved, fun v hv m hm => ((hkeeps v hv m hm).1 (hall v hv m hm)).1, hsides⟩, fun v hv m hm => ?_⟩
      exact ((hkeeps v hv m hm).1 (hall v hv m hm)).2
    · rintro ⟨⟨hmoved, hmentions, hsides⟩, hall⟩
      refine ⟨fun v hv m hm => (hkeeps v hv m hm).2 ⟨hmentions v hv m hm, hall v hv m hm⟩, hmoved, hsides⟩

/-- A name that refers to the declaration of a number. -/
def nameOf (name : String) (target : Int) : Json :=
  .obj [("nodeType", .str "Identifier"), ("name", .str name), ("referencedDeclaration", .int target)]

/-- A variable that is given the value of an outer one, and given back. -/
def swapSource : Bytes :=
  encode "uint256 x = y; y = x;".toList

def swapLocal : Declared where
  node := [("name", .str "x"), ("id", .int 3), ("src", .str "0:9:0"),
    ("typeName", .obj [("src", .str "0:7:0")])]
  typeText := "uint256".toList
  declarator := ⟨[.word "uint256".toList false], none, "x".toList⟩

def swapDeclaration : LocalDeclaration where
  members := [("nodeType", .str "VariableDeclarationStatement"), ("src", .str "0:13:0"),
    ("declarations", .arr [.obj swapLocal.node]),
    ("initialValue", .obj [("nodeType", .str "Identifier"), ("src", .str "12:1:0"), ("name", .str "y"),
      ("referencedDeclaration", .int 9)])]
  places := [some swapLocal]
  initial := some "y".toList

def swapBody : List Json :=
  [.obj swapDeclaration.members,
    .obj [("nodeType", .str "ExpressionStatement"), ("src", .str "15:5:0"),
      ("expression", .obj [("leftHandSide", nameOf "y" 9), ("rightHandSide", nameOf "x" 3)])]]

theorem swapLocal_shown : swapLocal.Shown swapSource := by
  have htype : IsIdentifier swapLocal.typeText := isIdentifier_of_ascii (by decide) rfl
  exact {
    name := rfl
    isIdentifier := isIdentifier_of_ascii (by decide) rfl
    text := ⟨"uint256 x".toList, by decide +kernel, by decide +kernel⟩
    type_isSet := rfl
    type := by decide +kernel
    type_endsInCode := htype.endsInCode
    isType := isType_word htype (by decide) }

theorem swapDeclaration_shown : swapDeclaration.Shown swapSource where
  kind := by decide
  declarations := rfl
  declared := forall_mem_singleton.2 swapLocal_shown
  nonempty := cons_ne_nil swapLocal []
  distinct := by decide
  text := ⟨"uint256 x = y".toList, by decide +kernel⟩
  initial_isSet := rfl
  initial := by
    intro t ht
    cases ht
    exact ⟨by decide +kernel, (isIdentifier_of_ascii (by decide) rfl).endsInCode⟩

theorem swapBody_moving : Moving swapSource swapBody [swapLocal] := by
  refine .declaration swapDeclaration_shown (.other ?_ .nil)
  rw [isNode_obj]
  decide

theorem swapBody_wellScoped : WellScoped swapBody [swapLocal] where
  distinct := by decide
  named := by decide

/-- A body without `state` captures nothing. -/
theorem keeps_references_swap : ∃ chart, chartOf swapSource swapBody = .ok chart ∧
    (frontLines chart.hoisted).filterMap declaredName? = ["x".toList, dispatcherName] ∧
    (∀ v ∈ swapBody, ∀ m ∈ freeMentions v, Keeps [swapLocal] m) ∧ KeepsJumps [swapLocal] swapBody := by
  have hchart : chartOf swapSource swapBody =
      .ok ⟨[⟨1, "x = y;\ny = x;".toList, .goto 0⟩], ["        uint256 x;".toList]⟩ := by decide +kernel
  obtain ⟨-, hfront, hkeeps⟩ := keeps_references_exactly swapBody_moving swapBody_wellScoped hchart
  exact ⟨_, hchart, hfront, hkeeps.2 ⟨by decide, by decide⟩⟩

/-- An outer variable that is called `state`. -/
def stateSource : Bytes :=
  encode "state = 5; y = state;".toList

def stateBody : List Json :=
  [.obj [("nodeType", .str "ExpressionStatement"), ("src", .str "0:9:0"),
      ("expression", .obj [("leftHandSide", nameOf "state" 7)])],
    .obj [("nodeType", .str "ExpressionStatement"), ("src", .str "11:9:0"),
      ("expression", .obj [("leftHandSide", nameOf "y" 9), ("rightHandSide", nameOf "state" 7)])]]

/-- **A name is captured**: what referred to an outer variable refers to the dispatcher,
which then runs the block that the body assigned. -/
theorem outer_state_is_captured :
    chartOf stateSource stateBody = .ok ⟨[⟨1, "state = 5;\ny = state;".toList, .goto 0⟩], []⟩ ∧
      (∀ v ∈ stateBody, ⟨dispatcherName, 7⟩ ∈ freeMentions v) ∧
      refer (frontScope []) dispatcherName = some .dispatcher ∧ ¬Keeps [] ⟨dispatcherName, 7⟩ :=
  ⟨by decide +kernel, by decide, rfl, id⟩

end Obscura.Flow
