import Obscura.Ast.Walk
import Obscura.Json.Printer
import Obscura.Text.Lower

/-
  Literals and untouchable ranges of a syntax tree. Two layouts of trees are
  read: in the newer one a node names its kind itself, in the older one its
  attributes do.
-/

namespace Obscura.Literal

open Text Ast

structure TreeLiteral where
  value : Chars
  kind : Chars
  src : Json

def kindName (ms : Members) : Json :=
  ((Json.fieldOf "nodeType" ms).orElse (Json.fieldOf "name" ms)).orElse (.str "")

def kindText (v : Json) : Except Fault Chars :=
  match v.orElse (.str "") with
  | .str s => .ok (lower s.toList)
  | _ => .error .notObject

def valueText : Json → Chars
  | .bool b => (if b then "true" else "false").toList
  | v => v.shown

def literalOf (value kind src : Json) : Except Fault (List TreeLiteral) := do
  let k ← kindText kind
  match value with
  | .null => return []
  | v => return if src.isSet then [⟨valueText v, k, src⟩] else []

def attributesOfLiteral (attrs : Members) : Bool :=
  match Json.lookup "nodeType" attrs with
  | none => false
  | some v => occurs "literal".toList (lower v.shown)

def literalHere (ms : Members) : Except Fault (List TreeLiteral) :=
  if (kindName ms).isText "Literal" then
    let value := match Json.fieldOf "value" ms with
      | .null => Json.fieldOf "hexValue" ms
      | v => v
    literalOf value (Json.fieldOf "kind" ms) (Json.fieldOf "src" ms)
  else match Json.fieldOf "attributes" ms with
    | .obj attrs =>
      if attributesOfLiteral attrs then
        literalOf ((Json.fieldOf "value" attrs).orElse (Json.fieldOf "hexValue" attrs))
          (Json.fieldOf "kind" attrs) ((Json.fieldOf "src" ms).orElse (Json.fieldOf "src" attrs))
      else .ok []
    | _ => .ok []

def treeLiterals (tree : Json) : Except Fault (List TreeLiteral) := do
  return (← (nodes tree).mapM literalHere).flatten

def rangeHere (ms : Members) : List Range :=
  match Json.fieldOf "src" ms with
  | .str s => (Range.read? s.toList).toList
  | _ => []

def calledName : Json → Json
  | .obj ms =>
    ((Json.fieldOf "name" ms).orElse (Json.fieldOf "identifier" ms)).orElse (Json.fieldOf "value" ms)
  | _ => .null

/-- The range of a node in which literals are not touched: a version directive,
or a call of `require` or `assert`. -/
def untouchableHere (ms : Members) : List Range :=
  let kind := lower (kindName ms).shown
  if kind = "pragmadirective".toList then rangeHere ms
  else if occurs "functioncall".toList kind then
    let name := calledName (Json.fieldOf "expression" ms)
    if name.isText "require" || name.isText "assert" then rangeHere ms else []
  else []

def untouchable (tree : Json) : List Range :=
  (nodes tree).flatMap untouchableHere

end Obscura.Literal
