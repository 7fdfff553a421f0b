import Obscura.Assoc
import Obscura.Flow.Block

/-
  Inlining of modifiers. The body of a function is wrapped into the code of its
  modifiers, the last modifier first, and the modifiers go from the signature.
-/

namespace Obscura.Flow

open Text Ast Json

/-! ## Definitions -/

def numbered (kind : String) (tree : Json) : Except Fault (Assoc Key Members) := do
  match tree with
  | .obj _ =>
    ((directNodes tree).filter (isKind kind)).foldlM (fun m ms => do
      return Assoc.set (← (← (Json.obj ms).need "id").key) ms m) []
  | _ => throw .notObject

inductive Wrapping where
  /-- The modifier has no body, or its placeholder stands outside of it. -/
  | nothing
  | noPlaceholder
  | around (before after : Chars)
deriving Repr, DecidableEq

def placeholderIn : List Json → Except Fault (Option Json)
  | [] => .ok none
  | .obj ms :: rest =>
    if isKind "PlaceholderStatement" ms then .ok (some (.obj ms)) else placeholderIn rest
  | _ :: _ => .error .notObject

def behindPlaceholder (code : Chars) : Chars :=
  let code := match trimLeft code with
    | ';' :: rest => rest
    | _ => code
  match trimLeft code with
  | ';' :: rest => rest
  | rest => rest

def wrappingOf (s : Bytes) (definition : Members) : Except Fault Wrapping := do
  let body := fieldOf "body" definition
  if !body.isSet then return .nothing
  match body with
  | .obj ms =>
    match ← placeholderIn (← ((lookup "statements" ms).getD (.arr [])).loopItems) with
    | none => return .noPlaceholder
    | some p =>
      let b ← rangeOf body
      let r ← rangeOf p
      if r.start < b.start ∨ b.stop < r.stop then return .nothing
      let before ← decoded (slice s (b.start + 1) r.start)
      let after ← decoded (slice s r.stop (b.stop - 1))
      return .around (trimRight before) (behindPlaceholder after)
  | _ => throw .notObject

/-! ## Invocations -/

structure Invocation where
  name : Json
  definition : Key
  node : Json

def invocationOf (v : Json) : Except Fault Invocation := do
  let target ← v.need "modifierName"
  let name ← target.need "name"
  let id ← (← target.need "referencedDeclaration").key
  return ⟨name, id, v⟩

/-- A body in the making: its code, the invocations that go from the signature,
and remarks for the report. -/
structure Wrapped where
  code : Chars
  gone : List Json := []
  remarks : List String := []

def wrap (name before code after : Chars) : Chars :=
  "\n        // Inline Modifier: ".toList ++ name ++ '\n' :: (before ++ '\n' :: (code ++ '\n' :: after))

/-- Wrap a body into one modifier. One that is not defined in the tree stays in
the signature. -/
def applyModifier (s : Bytes) (known : Assoc Key Members) (w : Wrapped) (v : Json) :
    Except Fault Wrapped := do
  let i ← invocationOf v
  match known.find i.definition with
  | none => return w
  | some definition =>
    let gone := w.gone ++ [v]
    match ← wrappingOf s definition with
    | .nothing => return { w with gone := gone }
    | .noPlaceholder =>
      let remark := "[WARN] Modifier " ++ String.ofList i.name.shown
        ++ " has no '_;' placeholder. Skipping."
      return { w with gone := gone, remarks := w.remarks ++ [remark] }
    | .around before after =>
      return { w with code := wrap i.name.shown before w.code after, gone := gone }

def modifiersOf (function : Members) : Except Fault (List Json) :=
  match (lookup "modifiers" function).getD (.arr []) with
  | .arr items => .ok items.reverse
  | _ => .error .wrongKind

def laterFirst (found : List (Int × Json)) : List Json :=
  (found.mergeSort fun a b => decide (b.1 ≤ a.1)).map (·.2)

def byRange (found : List Json) : Except Fault (List Json) := do
  return laterFirst (← found.mapM fun v => do return ((← rangeOf v).start, v))

def dropInvocation (out : Bytes) (v : Json) : Except Fault Bytes := do
  let r ← rangeOf v
  if 0 < r.start then
    match out.drop (r.start - 1).toNat with
    | [] => throw .outOfRange
    | b :: _ => return splice out (if b = 32 then r.start - 1 else r.start) r.stop []
  else return splice out r.start r.stop []

structure Stopped where
  fault : Fault
  remarks : List String
deriving Repr, DecidableEq

/-- A step that keeps the remarks made so far if it fails. -/
def noting {α : Type} (remarks : List String) (x : Except Fault α) : Except Stopped α :=
  x.mapError (⟨·, remarks⟩)

def bodyOf (s : Bytes) (f body : Json) : Except Fault (Range × Chars × List Json) := do
  let r ← rangeOf body
  let code ← decoded (slice s (r.start + 1) (r.stop - 1))
  match f with
  | .obj ms => return (r, code, ← modifiersOf ms)
  | _ => throw .notObject

def putBody (out : Bytes) (r : Range) (w : Wrapped) : Except Fault Bytes := do
  let block := "\x7b ".toList ++ w.code ++ " \x7d".toList
  (← byRange w.gone).foldlM dropInvocation (splice out r.start r.stop (encode block))

/-- Inline the modifiers of one function of `s` in the text `out` made so far. -/
def inlineInto (s : Bytes) (known : Assoc Key Members) (out : Bytes × List String) (f : Json) :
    Except Stopped (Bytes × List String) := do
  let body ← noting out.2 (f.field "body")
  if !body.isSet then return out
  let (r, code, modifiers) ← noting out.2 (bodyOf s f body)
  let w ← modifiers.foldlM (fun (w : Wrapped) v => noting w.remarks (applyModifier s known w v))
    { code := code, remarks := out.2 }
  return (← noting w.remarks (putBody out.1 r w), w.remarks)

def modified (tree : Json) : List Json :=
  ((directNodes tree).filter fun ms =>
    isKind "FunctionDefinition" ms && (fieldOf "modifiers" ms).isSet).map .obj

def inlineModifiersWith (source : Chars) (tree : Json) :
    Except Stopped (Chars × List String) := do
  let s := encode source
  let known ← noting [] (numbered "ModifierDefinition" tree)
  let functions ← noting [] (byRange (modified tree))
  let (out, remarks) ← functions.foldlM (inlineInto s known) (s, [])
  return (← noting remarks (decoded out), remarks)

def inlineModifiers (source : Chars) : Run Chars := do
  match ← treeOfText with
  | none => return source
  | some tree =>
    match inlineModifiersWith source tree with
    | .ok (out, remarks) =>
      for r in remarks do Run.say r
      return out
    | .error e =>
      for r in e.remarks do Run.say r
      throw e.fault

end Obscura.Flow
