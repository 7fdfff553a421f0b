import Obscura.Ast.Walk
import Obscura.Json.Printer
import Obscura.Session
import Obscura.Text.Edit

/-
  Blocks: the body of a function as a graph. Statements are read into pieces,
  and the pieces are laid out as numbered blocks: what runs straight on is one
  block, and a choice is a block of its own that leads to the blocks of its two
  sides. Block zero is the end.
-/

namespace Obscura.Flow

/-! ## Texts and their trees -/

open Text Ast

def scratchPath : String := "/tmp/scratch-source.sol"

/-- The tree of the unit that was compiled under a path: that of the first unit
whose name holds the path, or else of the only unit. -/
def treeUnder (path : String) (units : Units) : Option Json :=
  match units.find? fun u => occurs path.toList u.1.toList with
  | some u => u.2
  | none =>
    match units with
    | [u] => u.2
    | _ => none

def treeOfText : Run (Option Json) := do
  match ← Run.attempt (Run.compile scratchPath) with
  | .ok units => return (treeUnder scratchPath units).filter Json.isSet
  | .error _ =>
    Run.say "[WARN] AST generation failed: <detail>"
    return none

/-- Make sure of a compiler version; a failure is only reported. -/
def setUp (version : String) : Run Unit := do
  match ← Run.attempt (Run.requireVersion version) with
  | .ok _ => return
  | .error .noCompiler => Run.say "[WARN] solc setup failed: <detail>"
  | .error _ => Run.say "[WARN] solc setup failed: install failed"

def rangeIn : Json → Except Fault Range
  | .str s => Range.read s.toList
  | _ => .error .notObject

def rangeOf (node : Json) : Except Fault Range := do
  rangeIn (← node.need "src")

def decoded (s : Bytes) : Except Fault Chars :=
  match decode? s with
  | some t => .ok t
  | none => .error .badBytes

def textOf (s : Bytes) (node : Json) : Except Fault Chars := do
  let src ← node.field "src"
  if !src.isSet then return []
  let r ← rangeIn src
  decoded (slice s r.start r.stop)

def sizeOf (v : Json) : Except Fault Nat := do
  return (← v.loopItems).length

def changed (before after : Chars) : Nat :=
  if after = before then 0 else 1

/-! ## Blocks -/

open Json

/-! ## Pieces -/

inductive Piece where
  | plain (lines : List Chars)
  | choice (condition yes : Chars) (no : Option Chars)
deriving Repr, DecidableEq

/-- What a statement becomes: a piece, and declarations for the front of the
body. -/
structure Reading where
  piece : Piece
  hoisted : List Chars := []

/-- The code of one side of a choice, without the braces around it. -/
def sideText (s : Bytes) (side : Json) : Except Fault Chars := do
  let t ← textOf s side
  if (← side.field "nodeType").isText "Block" then return slice (trim t) 1 (-1) else return t

def readChoice (s : Bytes) (ms : Members) : Except Fault Reading := do
  let condition ← textOf s (← (Json.obj ms).need "condition")
  let yes ← sideText s ((lookup "trueBody" ms).getD (.obj []))
  let no := fieldOf "falseBody" ms
  if no.isSet then return ⟨.choice condition yes (some (← sideText s no)), []⟩
  else return ⟨.choice condition yes none, []⟩

/-- The declaration of a variable for the front of the body; a gap declares
none. -/
def hoistedLine (s : Bytes) (d : Json) : Except Fault (List Chars) := do
  if !d.isSet then return []
  let name ← d.field "name"
  let type ← textOf s (← d.field "typeName")
  return ["        ".toList ++ type ++ ' ' :: (name.shown ++ [';'])]

/-- The name of a declared variable in a list of names; a gap has none. -/
def tupleName (d : Json) : Except Fault Json := do
  if d.isSet then d.need "name" else return .str ""

def nameText : Json → Except Fault Chars
  | .str s => .ok s.toList
  | _ => .error .wrongKind

/-- What a declaration assigns to: its only variable, or the list of its
variables in brackets. -/
def assigned (decls : Json) (items : List Json) : Except Fault Chars := do
  match decls, items with
  | .obj _, [_] => throw (.memberMissing "0")
  | _, [d] => return (← d.need "name").shown
  | _, ds =>
    let names ← (← ds.mapM tupleName).mapM nameText
    return '(' :: (joinWith [','] names ++ [')'])

def resetLine (s : Bytes) (d : Json) : Except Fault (List Chars) := do
  if !d.isSet then return []
  let name ← d.field "name"
  let type ← d.field "typeName"
  if !type.isSet then return []
  let t ← textOf s type
  return [name.shown ++ " = ".toList ++ defaultValue (trim t) ++ [';']]

/-- Read a declaration: the variables move to the front, and an assignment stays
behind. -/
def readDeclaration (s : Bytes) (ms : Members) : Except Fault Reading := do
  let decls := (lookup "declarations" ms).getD (.arr [])
  let items ← decls.loopItems
  let hoisted ← items.mapM (hoistedLine s)
  let initial := fieldOf "initialValue" ms
  if initial.isSet then
    let _ ← textOf s (.obj ms)
    let left ← assigned decls items
    let right ← textOf s initial
    return ⟨.plain [left ++ " = ".toList ++ right ++ [';']], hoisted.flatten⟩
  else
    let resets ← items.mapM (resetLine s)
    return ⟨.plain resets.flatten, hoisted.flatten⟩

def openKinds : List String :=
  ["Return", "ReturnStatement", "ExpressionStatement", "EmitStatement", "RevertStatement"]

def readPlain (s : Bytes) (ms : Members) : Except Fault Reading := do
  let t := trim (← textOf s (.obj ms))
  if openKinds.any (isKind · ms) && !endsWith [';'] t then return ⟨.plain [t ++ [';']], []⟩
  else return ⟨.plain [t], []⟩

def readStatement (s : Bytes) (statement : Json) : Except Fault Reading :=
  match statement with
  | .obj ms =>
    if isKind "IfStatement" ms then readChoice s ms
    else if isKind "VariableDeclarationStatement" ms then readDeclaration s ms
    else readPlain s ms
  | _ => .error .notObject

/-! ## Blocks -/

inductive Exit where
  | goto (n : Nat)
  | branch (yes no : Nat)
  | leave
deriving Repr, DecidableEq

def Exit.successors : Exit → List Nat
  | .goto n => [n]
  | .branch yes no => [yes, no]
  | .leave => []

/-- A numbered block. The code of one that branches is its condition. -/
structure Block where
  id : Nat
  code : Chars
  exit : Exit
deriving Repr, DecidableEq

def Block.content (b : Block) : Chars :=
  match b.exit with
  | .branch yes no =>
    "if (".toList ++ b.code ++ ") \x7b\n    state = ".toList ++ Number.digits yes
      ++ ";\n\x7d else \x7b\n    state = ".toList ++ Number.digits no ++ ";\n\x7d".toList
  | _ => b.code

def Block.next (b : Block) : Option Nat :=
  match b.exit with
  | .goto n => some n
  | _ => none

def blockAt? (id : Nat) (blocks : List Block) : Option Block :=
  blocks.find? (·.id = id)

def isLast (line : Chars) : Bool :=
  startsWith "return ".toList line || startsWith "revert(".toList line
    || startsWith "revert ".toList line

def orRemark (code remark : Chars) : Chars :=
  if (trim code).isEmpty then remark else trim code

def lastBlock (id : Nat) (pending : List Chars) : List Block :=
  match pending.getLast? with
  | none => []
  | some line =>
    [⟨id, joinWith ['\n'] pending, if isLast line then .leave else .goto 0⟩]

/-- Lay pieces out as blocks from number `id` on; `pending` holds statements that
wait for their block. -/
def layoutFrom (id : Nat) (pending : List Chars) : List Piece → List Block
  | [] => lastBlock id pending
  | .plain lines :: ps => layoutFrom id (pending ++ lines) ps
  | .choice condition yes no :: ps =>
    if pending.isEmpty then choiceBlocks id condition yes no ++ layoutFrom (after id no) [] ps
    else ⟨id, joinWith ['\n'] pending, .goto (id + 1)⟩ ::
      (choiceBlocks (id + 1) condition yes no ++ layoutFrom (after (id + 1) no) [] ps)
where
  /-- The number behind the blocks of a choice. -/
  after (id : Nat) (no : Option Chars) : Nat :=
    if no.isSome then id + 3 else id + 2
  choiceBlocks (id : Nat) (condition yes : Chars) (no : Option Chars) : List Block :=
    match no with
    | none =>
      [⟨id, condition, .branch (id + 1) (id + 2)⟩,
        ⟨id + 1, orRemark yes "// empty true block".toList, .goto (id + 2)⟩]
    | some code =>
      [⟨id, condition, .branch (id + 1) (id + 2)⟩,
        ⟨id + 1, orRemark yes "// empty true block".toList, .goto (id + 3)⟩,
        ⟨id + 2, orRemark code "// empty false block".toList, .goto (id + 3)⟩]

def layout (pieces : List Piece) : List Block :=
  layoutFrom 1 [] pieces

structure Chart where
  blocks : List Block
  hoisted : List Chars
deriving Repr, DecidableEq

def chartOf (s : Bytes) (statements : List Json) : Except Fault Chart := do
  let readings ← statements.mapM (readStatement s)
  return ⟨layout (readings.map (·.piece)), readings.flatMap (·.hoisted)⟩

end Obscura.Flow
