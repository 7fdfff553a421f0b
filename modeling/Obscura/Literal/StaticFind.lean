import Obscura.Layout.Pragma
import Obscura.Layout.Token
import Obscura.Literal.Truth

/-
  Literals found in a text without a tree: truth values, whole numbers, hexadecimal
  literals and strings, in this order of kinds. Those that start in a version
  directive are left out; comments and other strings are not looked at.
-/

namespace Obscura.Literal

open Text Layout

inductive LiteralKind where
  | truth | number | hex | string
deriving Repr, DecidableEq

structure FoundLiteral where
  kind : LiteralKind
  span : Span
deriving Repr, DecidableEq

/-- Recognise a number `0x…` that is a whole word, or a string `hex"…"` that
starts a word and has one right behind it. -/
def hexLiteral? : Recogniser := fun before s =>
  if isWordAt before then none
  else match s with
    | '0' :: 'x' :: r =>
      let rest := r.dropWhile isHexDigit
      if (r.takeWhile isHexDigit).isEmpty || isWordAt rest.head? then none else some rest
    | 'h' :: 'e' :: 'x' :: '"' :: r =>
      match r.takeWhile (· != '"'), r.dropWhile (· != '"') with
      | _ :: _, _ :: rest => if isWordAt rest.head? then some rest else none
      | _, _ => none
    | _ => none

def directiveSpans (s : Chars) : List Span :=
  spans (fun _ t => (directive? t).map (·.2)) s

def findLiterals (s : Chars) : List FoundLiteral :=
  let directives := directiveSpans s
  let find (kind : LiteralKind) (r : Recogniser) : List FoundLiteral :=
    (spans r s).filterMap fun p => if inSpans directives p.start then none else some ⟨kind, p⟩
  find .truth (wordWhere fun w => (truthWord? w).isSome)
    ++ find .number (wordWhere (·.all Char.isDigit))
    ++ find .hex hexLiteral?
    ++ find .string fun _ t => afterQuoted? t

end Obscura.Literal
