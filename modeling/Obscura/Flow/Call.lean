import Obscura.Flow.Modifier

/-
  Inlining of calls. A call of an internal function that only returns an
  expression is replaced by this expression, with the arguments in the places of
  the parameters.
-/

namespace Obscura.Flow

open Text Ast Json

def onlyStatement (statements : Json) : Except Fault (Option Json) :=
  match statements with
  | .arr [v] => .ok (some v)
  | .arr _ => .ok none
  | .str s =>
    match s.toList with
    | [c] => .ok (some (.str (String.singleton c)))
    | _ => .ok none
  | .obj [_] => .error (.memberMissing "0")
  | .obj _ => .ok none
  | _ => .error .wrongKind

/-- The statement that the function consists of, if calls of it can be inlined:
it is internal, does not change the state and only returns something. -/
def returned? (f : Members) : Except Fault (Option Members) := do
  let mutability := fieldOf "stateMutability" f
  if !((fieldOf "visibility" f).isText "internal"
      && (mutability.isText "pure" || mutability.isText "view")) then return none
  let body := fieldOf "body" f
  if !body.isSet then return none
  if !(← body.field "nodeType").isText "Block" then return none
  match ← onlyStatement ((body.member? "statements").getD (.arr [])) with
  | none => return none
  | some (.obj ms) => return if isKind "Return" ms then some ms else none
  | some _ => throw .notObject

structure Inlinable where
  function : Members
  statement : Members

def inlinables (tree : Json) : Except Fault (Assoc Key Inlinable) := do
  let functions ← numbered "FunctionDefinition" tree
  let found ← functions.mapM fun e => do
    return (← returned? e.2).toList.map fun statement => (e.1, Inlinable.mk e.2 statement)
  return found.flatten

structure CallSite where
  node : Json
  target : Inlinable

def callHere (known : Assoc Key Inlinable) (ms : Members) : Except Fault (List CallSite) := do
  if !isKind "FunctionCall" ms then return []
  let callee := fieldOf "expression" ms
  if !callee.isSet then return []
  let k ← (← callee.field "referencedDeclaration").key
  return (known.find k).toList.map fun t => ⟨.obj ms, t⟩

def callSites (known : Assoc Key Inlinable) (tree : Json) : Except Fault (List CallSite) := do
  return (← (directNodes tree).mapM (callHere known)).flatten

def argumentAt (arguments : Json) (i : Nat) : Except Fault Json :=
  match arguments with
  | .arr items =>
    match items[i]? with
    | some v => .ok v
    | none => .error .outOfRange
  | .obj _ => .error (.memberMissing "")
  | _ => .error .notObject

/-- The text of an argument, in brackets unless it is a name or a literal. -/
def argumentText (s : Bytes) (argument : Json) : Except Fault Chars := do
  let t ← textOf s argument
  let kind ← argument.field "nodeType"
  if kind.isText "Identifier" || kind.isText "Literal" then return t
  else return '(' :: (t ++ [')'])

/-- What the names of the parameters stand for, from the place `i` on. -/
def bindFrom (s : Bytes) (arguments : Json) : Nat → List Json → Assoc Key Chars →
    Except Fault (Assoc Key Chars)
  | _, [], m => return m
  | i, p :: ps, m => do
    let name ← p.need "name"
    let t ← argumentText s (← argumentAt arguments i)
    bindFrom s arguments (i + 1) ps (Assoc.set (← name.key) t m)

def parameterNames (params : List Json) : Except Fault (Assoc Key Key) :=
  params.foldlM (fun m p => do
    let id ← p.need "id"
    let name ← p.need "name"
    return Assoc.set (← id.key) (← name.key) m) []

/-- A parameter in an expression, counted from the start of the expression, and
the text that comes into its place. -/
structure Substitution where
  start : Int
  stop : Int
  text : Chars
deriving Repr, DecidableEq

def substitutionHere (base : Int) (names : Assoc Key Key) (values : Assoc Key Chars)
    (ms : Members) : Except Fault (List Substitution) := do
  let k ← (fieldOf "referencedDeclaration" ms).key
  match names.find k with
  | none => return []
  | some name =>
    let r ← rangeOf (.obj ms)
    return [⟨r.start - base, r.stop - base, (values.find name).getD []⟩]

/-- Put the substitutions into the text of an expression, the last first. The
positions count characters. -/
def substitute (expression : Chars) (subs : List Substitution) : Chars :=
  (subs.mergeSort fun a b => decide (b.start ≤ a.start)).foldl
    (fun t x => bracket t x.start x.stop x.text) expression

/-- The text that replaces a call, if the call has as many arguments as the
function has parameters and the function returns something. -/
def inlinedText (s : Bytes) (site : CallSite) : Except Fault (Option Chars) := do
  let params ← (← (Json.obj site.target.function).need "parameters").need "parameters"
  let arguments ← site.node.need "arguments"
  let items ← params.loopItems
  if items.length ≠ (← sizeOf arguments) then return none
  let values ← bindFrom s arguments 0 items []
  let expression := fieldOf "expression" site.target.statement
  if !expression.isSet then return none
  let r ← rangeOf expression
  let text ← decoded (slice s r.start r.stop)
  let names ← parameterNames items
  let subs ← ((directNodes expression).filter (isKind "Identifier")).mapM
    (substitutionHere r.start names values)
  return some (substitute text subs.flatten)

def callEdit (s : Bytes) (site : CallSite) : Except Fault (List Edit) := do
  match ← inlinedText s site with
  | none => return []
  | some t =>
    let r ← rangeOf site.node
    return [⟨r.start, r.stop, encode t⟩]

def orderedSites (sites : List CallSite) : Except Fault (List CallSite) := do
  let keyed ← sites.mapM fun c => do return ((← rangeOf c.node).start, c)
  return (keyed.mergeSort fun a b => decide (b.1 ≤ a.1)).map (·.2)

def inlineCallsWith (source : Chars) (tree : Json) : Except Fault Chars := do
  let s := encode source
  let known ← inlinables tree
  let sites ← orderedSites (← callSites known tree)
  let edits ← sites.mapM (callEdit s)
  decoded (edits.flatten.foldl (fun out e => splice out e.start e.stop e.text) s)

def inlineCalls (source : Chars) : Run Chars := do
  match ← treeOfText with
  | none => return source
  | some tree => Run.ofExcept (inlineCallsWith source tree)

def inlineAll (source : Chars) : Run (Chars × Nat) := do
  let out ← inlineCalls (← inlineModifiers source)
  return (out, changed source out)

end Obscura.Flow
