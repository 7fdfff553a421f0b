import Obscura.Storage.Grouping

/-
  Promotion of locals. A local variable that is declared alone becomes a state
  variable of its contract under a numbered name: its declaration turns into an
  assignment, and every reference to it follows.
-/

namespace Obscura.Storage

open Text Ast Json Number

/-! ## Names and types -/

def isPlainWord (c : Char) : Bool :=
  c.isAlphanum || c == '_'

def plainName (name : Chars) : Chars :=
  let word := if name.isEmpty then "var".toList else name
  let plain := word.map fun c => if isPlainWord c then c else '_'
  match plain with
  | [] => 'v' :: '_' :: plain
  | c :: _ => if c.isDigit then 'v' :: '_' :: plain else plain

/-- The words that tell a type which cannot be that of a promoted variable. -/
def unfitWords : List Chars :=
  ["struct ", "mapping(", " contract ", "enum ", "function ("].map String.toList

def joinBlanks : Bool → Chars → Chars
  | _, [] => []
  | inRun, c :: s =>
    if isBlank c then (if inRun then joinBlanks true s else ' ' :: joinBlanks true s)
    else c :: joinBlanks false s

def withoutLocation (type : Chars) : Chars :=
  let t := replaceAll " storage pointer".toList [] (by decide) type
  let t := replaceAll " storage ref".toList [] (by decide) t
  let t := replaceAll " storage".toList [] (by decide) t
  let t := replaceAll " memory".toList [] (by decide) t
  let t := replaceAll " calldata".toList [] (by decide) t
  trim (joinBlanks false t)

def promotableTypes : List Chars :=
  ["uint", "int", "bool", "address", "bytes", "string"].map String.toList

/-- The type that a promoted variable is declared with, if it can be promoted:
an elementary type or an array of such. -/
def stateType? (type : Chars) : Option Chars :=
  if type.isEmpty || unfitWords.any (occurs · (type.map Char.toLower)) then none
  else
    let base := withoutLocation type
    let head := base.takeWhile (· != '[')
    if !head.isEmpty && promotableTypes.any (startsWith · head) then some base else none

/-! ## Ends of statements -/

/-- Behind a comment that starts at `i`: a line comment ends before its line
feed, a block comment behind its mark. -/
def skipComment (s : Bytes) (i : Int) : Int :=
  if i < s.length then
    if slice s i (i + 2) = [47, 47] then
      match findBytes? [10] s i with
      | some j => j
      | none => s.length
    else if slice s i (i + 2) = [47, 42] then
      match findBytes? [42, 47] s (i + 2) with
      | some j => j + 2
      | none => s.length
    else i
  else i

def skipSemicolon (s : Bytes) (i : Int) : Int :=
  if i < s.length ∧ byteAt? s i = some 59 then i + 1 else i

def skipLineEnd (s : Bytes) (i : Int) : Int :=
  if i < s.length then
    if slice s i (i + 2) = [13, 10] then i + 2
    else if byteAt? s i = some 10 ∨ byteAt? s i = some 13 then i + 1
    else i
  else i

def statementEnd (s : Bytes) (stop : Int) : Int :=
  let i := skipGaps s (skipSemicolon s stop)
  skipLineEnd s (skipGaps s (skipComment s i))

/-! ## Locals -/

structure Home where
  id : Json
  name : Json
  position : Int
  counter : Nat := 0
  globals : List (Chars × Chars) := []
  torn : Bool := false

structure Candidate where
  contract : Key
  name : Chars
  type : Chars
  statement : Range
  initial : Option Range
  id : Json
  torn : Bool := false

structure Promoted where
  id : Json
  contract : Json
  globalName : Chars
  type : Chars
  statement : Range
  initial : Option Range

/-- The contract of one node under its number, which has to be there. -/
def homeHere (s : Bytes) (ms : Members) : Except Fault (List (Key × Home)) :=
  match insertionPoint? s ms with
  | none => .ok []
  | some p => do
    let name := (fieldOf "name" ms).orElse
      (.str (String.ofList ("Contract_".toList ++ (fieldOf "id" ms).shown)))
    let id ← (Json.obj ms).need "id"
    return [(← id.key, { id := id, name := name, position := p })]

def homes (s : Bytes) (tree : Json) : Except Fault (Assoc Key Home) := do
  let found ← atContracts (homeHere s) tree
  return found.foldl (fun m e => Assoc.set e.1 e.2 m) []

/-- What surrounds a node: no contract, one that takes no declarations, or the
one of the given number. -/
inductive Surrounding where
  | file
  | closed
  | contract (k : Key)

def surroundingOf (known : Assoc Key Home) (ms : Members) : Except Fault Surrounding := do
  let k ← (fieldOf "id" ms).key
  match known.find k with
  | some h => return if h.position = 0 ∧ h.name.isText "Unknown" then .closed else .contract k
  | none => return .closed

def isReadOnly (ms : Members) : Except Fault Bool :=
  match (fieldOf "stateMutability" ms).orElse (.str "") with
  | .str s =>
    let word := s.toList.map Char.toLower
    .ok (word == "pure".toList || word == "view".toList)
  | .torn _ => .ok false
  | _ => .error .notObject

def onlyDeclarator (ms : Members) : Except Fault (Option Json) :=
  match (fieldOf "declarations" ms).orElse (.arr []) with
  | .arr [d] => .ok (some d)
  | .arr _ => .ok none
  | .str s =>
    match s.toList with
    | [c] => .ok (some (.str (String.singleton c)))
    | _ => .ok none
  | .torn s => .ok (if s.length = 1 then some (.torn s) else none)
  | .obj [_] => .error (.memberMissing "0")
  | .obj _ => .ok none
  | _ => .error .wrongKind

def rangesOf? (s : Bytes) (ms : Members) : Option (Range × Option Range) := do
  let r ← rangeOf? ms
  let statement := ⟨r.start, statementEnd s r.stop⟩
  let initial := fieldOf "initialValue" ms
  if initial.isSet then
    match initial with
    | .obj vs => return (statement, some (← rangeOf? vs))
    | _ => none
  else return (statement, none)

def declaredType? (declarator : Members) : Except Fault (Option (Chars × Bool)) := do
  match ← ((fieldOf "typeDescriptions" declarator).orElse (.obj [])).field "typeString" with
  | .str t => return (stateType? t.toList).map (·, false)
  | .torn t => return (stateType? t.toList).map (·, true)
  | v => if v.isSet then throw .notObject else return none

def candidateOf (s : Bytes) (k : Key) (ms declarator : Members) :
    Except Fault (Option Candidate) := do
  match ← declaredType? declarator with
  | none => return none
  | some (type, halves) =>
    match rangesOf? s ms with
    | none => return none
    | some (statement, initial) =>
      let name ← (fieldOf "name" declarator).characters
      let id := fieldOf "id" declarator
      let _ ← id.key
      return some ⟨k, plainName name, type, statement, initial, id, halves⟩

def candidateHere (s : Bytes) (around : Surrounding) (readOnly : Bool) (ms : Members) :
    Except Fault (Option Candidate) := do
  match around with
  | .file => return none
  | around =>
    if readOnly then return none
    match ← onlyDeclarator ms with
    | none => return none
    | some d =>
      if !d.isSet then return none
      match d with
      | .obj declarator =>
        if (fieldOf "stateVariable" declarator).isSet || !(fieldOf "name" declarator).isSet then
          return none
        match around with
        | .contract k => candidateOf s k ms declarator
        | _ =>
          let _ ← declaredType? declarator
          return none
      | _ => throw .notObject

section walk

variable (s : Bytes) (known : Assoc Key Home)

mutual

/-- The locals of a tree that can be promoted. A declaration that stays is not
searched any further, nor is one without a number. -/
def candidates (around : Surrounding) (readOnly : Bool) : Json → Except Fault (List Candidate)
  | .obj ms => do
    if isKind "ContractDefinition" ms then
      candidatesOfContract (← surroundingOf known ms) readOnly ms
    else if isKind "FunctionDefinition" ms then
      candidatesOfMembers around (readOnly || (← isReadOnly ms)) ms
    else if isKind "VariableDeclarationStatement" ms then
      match ← candidateHere s around readOnly ms with
      | none => return []
      | some c =>
        match c.id with
        | .null => return [c]
        | _ => return c :: (← candidatesOfMembers around readOnly ms)
    else candidatesOfMembers around readOnly ms
  | .arr items => candidatesOfItems around readOnly items
  | _ => .ok []

def candidatesOfMembers (around : Surrounding) (readOnly : Bool) :
    Members → Except Fault (List Candidate)
  | [] => .ok []
  | (_, v) :: ms => do
    let here ← candidates around readOnly v
    return here ++ (← candidatesOfMembers around readOnly ms)

def candidatesOfContract (around : Surrounding) (readOnly : Bool) :
    Members → Except Fault (List Candidate)
  | [] => .ok []
  | (k, v) :: ms => do
    let here ←
      if k = "nodes" then
        match v with
        | .arr items => candidatesOfItems around readOnly items
        | .obj _ => .ok []
        | .str _ => .ok []
        | _ => .error .wrongKind
      else .ok []
    return here ++ (← candidatesOfContract around readOnly ms)

def candidatesOfItems (around : Surrounding) (readOnly : Bool) :
    List Json → Except Fault (List Candidate)
  | [] => .ok []
  | v :: vs => do
    let here ← candidates around readOnly v
    return here ++ (← candidatesOfItems around readOnly vs)

end

end walk

/-! ## Numbering -/

def globalName (name : Chars) (n : Nat) : Chars :=
  "__state_".toList ++ name ++ '_' :: digits n

def enter (m : Assoc Key Home) (c : Candidate) : Assoc Key Home × Option Promoted :=
  match m.find c.contract with
  | none => (m, none)
  | some h =>
    let g := globalName c.name h.counter
    (m.set c.contract { h with
        counter := h.counter + 1
        globals := h.globals ++ [(c.type, g)]
        torn := h.torn || c.torn },
      match c.id with
      | .null => none
      | id => some ⟨id, h.id, g, c.type, c.statement, c.initial⟩)

def enterAll (m : Assoc Key Home) : List Candidate → Assoc Key Home × List Promoted
  | [] => (m, [])
  | c :: cs =>
    let (m', p) := enter m c
    let (m'', ps) := enterAll m' cs
    (m'', p.toList ++ ps)

structure Promotion where
  homes : Assoc Key Home
  locals : Assoc Key Promoted

def promotionOf (s : Bytes) (tree : Json) : Except Fault Promotion := do
  let known ← homes s tree
  let found ← candidates s known .file false tree
  let (m, ps) := enterAll known found
  let locals ← ps.foldlM (fun acc p => return Assoc.set (← p.id.key) p acc) []
  return ⟨m, locals⟩

/-! ## Edits -/

structure Renaming where
  range : Range
  name : Chars

/-- The renaming for a name of a promoted local, unless it stands in a declaration
that is replaced. -/
def renamingHere (locals : Assoc Key Promoted) (ms : Members) : Except Fault (List Renaming) := do
  let k ← (fieldOf "referencedDeclaration" ms).key
  match locals.find k, rangeOf? ms with
  | some p, some r =>
    let inside := locals.values.any fun q =>
      decide (q.statement.start ≤ r.start ∧ r.stop ≤ q.statement.stop)
    return if 0 ≤ r.start && !inside then [Renaming.mk r p.globalName] else []
  | _, _ => return []

def renamings (locals : Assoc Key Promoted) (tree : Json) : Except Fault (List Renaming) := do
  let found ← (nodesOf "Identifier" tree).mapM (renamingHere locals)
  return found.flatten

def textIn (s : Bytes) (r : Range) : Except Fault Chars :=
  match decode? (slice s r.start r.stop) with
  | some t => .ok t
  | none => .error .badBytes

/-- The assignment that a declaration turns into. What follows its semicolon is
kept. -/
def assignmentText (name value statement : Chars) : Chars :=
  let rest := match findIdx? [';'] statement with
    | some k => statement.drop (k + 1)
    | none => []
  statement.takeWhile isBlank ++ name ++ " = ".toList ++ value ++ ';' :: rest

def assignmentEdit (s : Bytes) (p : Promoted) : Except Fault Edit := do
  let value ← match p.initial with
    | some r => do pure (trim (← textIn s r))
    | none => pure (defaultValue p.type)
  let statement ← textIn s p.statement
  return ⟨p.statement.start, p.statement.stop, encode (assignmentText p.globalName value statement)⟩

def globalsBlock (globals : List (Chars × Chars)) : Chars :=
  joinWith ['\n'] ([[], "    // === local-to-state promoted variables ===".toList]
    ++ globals.map (fun g => "    ".toList ++ g.1 ++ " private ".toList ++ g.2 ++ [';']) ++ [[]])

def homeEdit (h : Home) : Except Fault (List Edit) :=
  if h.globals.isEmpty then .ok []
  else if h.torn then .error .tornText
  else .ok [⟨h.position, h.position, encode (globalsBlock h.globals)⟩]

def promotionEdits (s : Bytes) (p : Promotion) (tree : Json) : Except Fault (List Edit) := do
  let places ← renamings p.locals tree
  let assignments ← p.locals.values.mapM (assignmentEdit s)
  let globals ← p.homes.values.mapM homeEdit
  return assignments
    ++ places.map (fun n => ⟨n.range.start, n.range.stop, encode n.name⟩)
    ++ globals.flatten

def promoteLocals (source : Chars) (tree : Json) : Except Fault (Chars × Nat) := do
  let s := encode source
  let p ← promotionOf s tree
  if p.locals.isEmpty then return (source, 0)
  match decode? (Edit.glueAll s (← promotionEdits s p tree)) with
  | some out => return (out, p.locals.length)
  | none => throw .badBytes

def promoteLocalsOf : Chars → Option String → Run (Chars × Nat) :=
  editByFile promoteLocals "[WARN] Failed to load AST for local-to-state conversion: <detail>"

end Obscura.Storage
