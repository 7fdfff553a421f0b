import Obscura.Fault
import Obscura.Text.Find

/-
  Source ranges. A node of a syntax tree says where it stands in the text:
  `start:length:file`, in bytes. The file is rarely looked at, and passes differ in
  what they make of a text without a length.
-/

namespace Obscura.Ast

open Text Number

structure Range where
  start : Int
  stop : Int
deriving Repr, DecidableEq

structure Location where
  start : Int
  length : Int
  file : Int
deriving Repr, DecidableEq

def readNumber (s : Chars) : Except Fault Int :=
  match readInt? s with
  | some i => .ok i
  | none => .error .badNumber

namespace Range

/-- Read a range; a text without a length is refused. -/
def read (s : Chars) : Except Fault Range :=
  match splitAt ':' s with
  | [] => .error .outOfRange
  | [a] => do
    let _ ← readNumber a
    throw .outOfRange
  | a :: b :: _ => do
    let start ← readNumber a
    let length ← readNumber b
    return ⟨start, start + length⟩

/-- Read a range; a text without a length gives an empty one. -/
def readOpen (s : Chars) : Except Fault Range :=
  match splitAt ':' s with
  | [] => .error .outOfRange
  | [a] => do
    let start ← readNumber a
    return ⟨start, start⟩
  | a :: b :: _ => do
    let start ← readNumber a
    let length ← readNumber b
    return ⟨start, start + length⟩

def read? (s : Chars) : Option Range :=
  (read s).toOption

end Range

/-- Read a range with its file, or nothing; the file is zero if none is named. -/
def Location.read? (s : Chars) : Option Location :=
  match splitAt ':' s with
  | a :: b :: c :: _ =>
    match readInt? a, readInt? b, readInt? c with
    | some start, some length, some file => some ⟨start, length, file⟩
    | _, _, _ => none
  | [a, b] =>
    match readInt? a, readInt? b with
    | some start, some length => some ⟨start, length, 0⟩
    | _, _ => none
  | _ => none

/-! ## Default values -/

/-- The value that a variable of a type has before it is given one. Types are
told by how their text starts; what is none of them counts as a number. -/
def defaultValue (type : Chars) : Chars :=
  if startsWith "bool".toList type then "false".toList
  else if startsWith "string".toList type then "\"\"".toList
  else if startsWith "bytes".toList type then "\"\"".toList
  else if startsWith "address".toList type then "address(0)".toList
  else "0".toList

end Obscura.Ast
