import Obscura.Ast.Walk
import Obscura.Text.Word

/-
  The names to be renamed. They are those that the nodes of a syntax tree declare
  or use; without a tree, all words of the text that look like a name.
-/

namespace Obscura.Rename

/-! ## Reserved words -/

def sizedTypes : List String :=
  (List.range 32).flatMap fun i =>
    ["int" ++ Nat.repr (8 * (i + 1)), "uint" ++ Nat.repr (8 * (i + 1)), "bytes" ++ Nat.repr (i + 1)]

def plainReserved : List String :=
  ["int", "uint", "address", "bool", "string", "bytes", "mapping", "struct", "enum", "array",
   "contract", "interface", "library", "abstract", "function", "modifier", "event", "error",
   "constructor", "fallback", "receive", "is", "override", "virtual",
   "public", "private", "internal", "external", "pure", "view", "payable", "constant", "immutable",
   "storage", "memory", "calldata",
   "if", "else", "for", "while", "do", "break", "continue", "return", "try", "catch", "throw",
   "require", "assert", "revert",
   "msg", "sender", "value", "data", "sig", "gas", "block", "blockhash", "coinbase", "difficulty",
   "gaslimit", "number", "timestamp", "chainid", "basefee", "prevrandao", "tx", "gasprice",
   "origin", "abi", "decode", "encode", "encodePacked", "encodeWithSelector",
   "encodeWithSignature", "encodeCall", "this", "super", "now", "selfdestruct", "suicide",
   "import", "pragma", "using", "emit", "delete", "new", "var", "true", "false",
   "wei", "gwei", "ether", "finney", "szabo", "seconds", "minutes", "hours", "days", "weeks",
   "addmod", "mulmod", "keccak256", "sha256", "ripemd160", "ecrecover", "type",
   "length", "push", "pop", "balance", "transfer", "send", "call", "delegatecall", "staticcall",
   "code", "codehash", "name", "creationCode", "runtimeCode", "interfaceId", "selector", "min",
   "max",
   "after", "alias", "apply", "auto", "byte", "case", "copyof", "default", "define", "final",
   "implements", "in", "inline", "let", "macro", "match", "mutable", "null", "of", "partial",
   "promise", "reference", "relocatable", "sealed", "sizeof", "static", "supports", "switch",
   "typedef", "typeof", "unchecked"]

def reserved : List String :=
  sizedTypes ++ plainReserved

def isReserved (name : String) : Bool :=
  reserved.contains name

/-! ## Names -/

open Text Ast Json

def namedKinds : List String :=
  ["ContractDefinition", "FunctionDefinition", "VariableDeclaration", "Identifier",
   "ModifierDefinition", "EventDefinition", "StructDefinition", "EnumDefinition",
   "ErrorDefinition"]

def specialFunctions : List String :=
  ["constructor", "fallback", "receive"]

/-- Names as a tree holds them, each with the key that it is told apart by. -/
abbrev Names := List (Key × Json)

/-- The name of a node. A tree may hold a scalar of any kind there. -/
def nameHere (ms : Members) : Except Fault Names := do
  if namedKinds.any (isKind · ms) then
    let name := fieldOf "name" ms
    if !name.isSet then return []
    else if isKind "FunctionDefinition" ms && specialFunctions.any (name.isText ·) then return []
    else return [(← name.key, name)]
  else return []

def distinct (names : Names) : Names :=
  names.foldl (fun acc n => if acc.any (·.1 = n.1) then acc else acc ++ [n]) []

def treeNames (tree : Json) : Except Fault Names := do
  return distinct (← (directNodes tree).mapM nameHere).flatten

def isProtected : Key → Bool
  | .text s => isReserved s || s.isEmpty
  | _ => false

def renameable (names : Names) : Names :=
  names.filter fun n => !isProtected n.1

/-- A word that looks like a name: ASCII letters, digits and underscores, no digit
first. -/
def looksLikeName : Chars → Bool
  | [] => false
  | c :: s => (c.isAlpha || c == '_') && s.all fun d => d.isAlphanum || d == '_'

def wordNames (source : Chars) : Names :=
  let words := (chunks source).filterMap fun
    | .word w => if looksLikeName w then some (String.ofList w) else none
    | .mark _ => none
  renameable (distinct (words.map fun w => (Key.text w, Json.str w)))

/-! ## Order -/

/-- The order of two keys, if they have one: texts by code point, numbers by
value. -/
def keyLe? (a b : Key) : Option Bool :=
  match a, b with
  | .text s, .text t => some (decide (s ≤ t))
  | a, b => do
    let x ← a.quotient?
    let y ← b.quotient?
    return if x.2 = 0 ∧ y.2 = 0 then decide (x.1 ≤ y.1) else decide (x.1 * y.2 ≤ y.1 * x.2)

def inOrder (names : Names) : Except Fault (List Json) :=
  let comparable := names.all fun a => names.all fun b => (keyLe? a.1 b.1).isSome || a.1 == b.1
  if comparable then
    .ok ((names.mergeSort fun a b => (keyLe? a.1 b.1).getD true).map (·.2))
  else .error .wrongKind

end Obscura.Rename
