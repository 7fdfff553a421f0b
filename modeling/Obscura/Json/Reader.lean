import Obscura.Json.Basic
import Obscura.Number.Binary
import Obscura.Text.Utf8

/-
  Reading JSON text. Blanks are space, tab, line feed and carriage return; the
  words NaN, Infinity and -Infinity are numbers; control characters inside a
  string, text behind the value and a byte order mark before it are refused, and
  so are values that are nested too deep.
-/

namespace Obscura.Json

open Number

inductive ReadError where
  | malformed
  | tooManyDigits
  | tooDeep
deriving Repr, DecidableEq

def isSpace (c : Char) : Bool :=
  c == ' ' || c == '\t' || c == '\n' || c == '\r'

def skipSpace (s : Chars) : Chars :=
  s.dropWhile isSpace

def hexValue? (c : Char) : Option Nat :=
  if c.isDigit then some (c.toNat - 48)
  else if 'a' ≤ c ∧ c ≤ 'f' then some (c.toNat - 87)
  else if 'A' ≤ c ∧ c ≤ 'F' then some (c.toNat - 55)
  else none

def readHex4 : Chars → Except ReadError (Nat × Chars)
  | a :: b :: c :: d :: s =>
    match hexValue? a, hexValue? b, hexValue? c, hexValue? d with
    | some a, some b, some c, some d => .ok (((a * 16 + b) * 16 + c) * 16 + d, s)
    | _, _, _, _ => .error .malformed
  | _ => .error .malformed

def escaped? : Char → Option Char
  | '"' => some '"'
  | '\\' => some '\\'
  | '/' => some '/'
  | 'b' => some '\x08'
  | 'f' => some '\x0c'
  | 'n' => some '\n'
  | 'r' => some '\r'
  | 't' => some '\t'
  | _ => none

inductive Escape where
  | char (c : Char)
  | half (u : Nat)

/-- Read what follows `\u`. Two escapes that form a surrogate pair are one
character; half of a pair stands for itself. -/
def readUnicode (s : Chars) : Except ReadError (Escape × Chars) := do
  let (u, s) ← readHex4 s
  if 0xD800 ≤ u ∧ u < 0xDC00 then
    match s with
    | '\\' :: 'u' :: t =>
      match readHex4 t with
      | .ok (v, t) =>
        if 0xDC00 ≤ v ∧ v < 0xE000 then
          return (.char (Char.ofNat (0x10000 + (u - 0xD800) * 1024 + (v - 0xDC00))), t)
        else return (.half u, s)
      | .error _ => return (.half u, s)
    | _ => return (.half u, s)
  else if 0xDC00 ≤ u ∧ u < 0xE000 then return (.half u, s)
  else return (.char (Char.ofNat u), s)

/-- A string as it is read: its characters, with stand-ins for halves, and
whether there are any halves. -/
structure Quote where
  text : String
  torn : Bool

def Quote.value (q : Quote) : Json :=
  if q.torn then .torn q.text else .str q.text

/-- Read the rest of a string; `acc` holds the characters so far, the last one
first, and `halves` says that halves are among them. The fuel bounds the number of
characters. -/
def readString : Nat → Bool → Chars → Chars → Except ReadError (Quote × Chars)
  | 0, _, _, _ => .error .malformed
  | _ + 1, _, _, [] => .error .malformed
  | fuel + 1, halves, acc, c :: s =>
    if c = '"' then .ok (⟨String.ofList acc.reverse, halves⟩, s)
    else if c = '\\' then
      match s with
      | 'u' :: t => do
        match ← readUnicode t with
        | (.char x, t) => readString fuel halves (x :: acc) t
        | (.half u, t) => readString fuel true (Text.halfChar u :: acc) t
      | e :: t =>
        match escaped? e with
        | some x => readString fuel halves (x :: acc) t
        | none => .error .malformed
      | [] => .error .malformed
    else if c.toNat < 0x20 then .error .malformed
    else readString fuel halves (c :: acc) s

def readFraction (s : Chars) : Option (Chars × Chars) :=
  match s with
  | '.' :: t =>
    let ds := t.takeWhile Char.isDigit
    if ds.isEmpty then none else some (ds, t.dropWhile Char.isDigit)
  | _ => none

def readExponent (s : Chars) : Option (Int × Chars) :=
  match s with
  | [] => none
  | e :: t =>
    if e = 'e' ∨ e = 'E' then
      let (negative, u) := match t with
        | '-' :: u => (true, u)
        | '+' :: u => (false, u)
        | u => (false, u)
      let ds := u.takeWhile Char.isDigit
      if ds.isEmpty then none
      else
        let n := ofDigitValues (ds.map fun d => d.toNat - 48)
        some (if negative then -(n : Int) else n, u.dropWhile Char.isDigit)
    else none

/-- A number without its sign: no zero stands before another digit, and a
fraction or an exponent makes it a floating-point number. -/
def readNumber (negative : Bool) (s : Chars) : Except ReadError (Json × Chars) :=
  let whole := match s with
    | '0' :: _ => ['0']
    | s => s.takeWhile Char.isDigit
  let rest := s.drop whole.length
  if whole.isEmpty then .error .malformed
  else
    let fraction := readFraction rest
    let afterFraction := match fraction with
      | some (_, r) => r
      | none => rest
    let exponent := readExponent afterFraction
    match fraction, exponent with
    | none, none =>
      if maxDigits < whole.length then .error .tooManyDigits
      else
        let n := ofDigitValues (whole.map fun d => d.toNat - 48)
        .ok (.int (if negative then -(n : Int) else n), rest)
    | _, _ =>
      let part := match fraction with
        | some (ds, _) => ds
        | none => []
      let (e, r) := exponent.getD (0, afterFraction)
      let n := ofDigitValues ((whole ++ part).map fun d => d.toNat - 48)
      .ok (.float (ofDecimal negative n (e - part.length)), r)

def readWord (w : String) (v : Json) (s : Chars) : Except ReadError (Json × Chars) :=
  if w.toList.isPrefixOf s then .ok (v, s.drop w.length) else .error .malformed

mutual

/-- A value, with no blank before it, in which containers may be nested `depth`
times. -/
def readValue : Nat → Nat → Chars → Except ReadError (Json × Chars)
  | 0, _, _ => .error .malformed
  | fuel + 1, depth, s =>
    match s with
    | [] => .error .malformed
    | '"' :: t => do
      let (q, t) ← readString (t.length + 1) false [] t
      return (q.value, t)
    | '[' :: t =>
      if depth = 0 then .error .tooDeep
      else match skipSpace t with
        | ']' :: u => .ok (.arr [], u)
        | u => readItems fuel (depth - 1) [] u
    | '\x7b' :: t =>
      if depth = 0 then .error .tooDeep
      else match skipSpace t with
        | '\x7d' :: u => .ok (.obj [], u)
        | u => readMembers fuel (depth - 1) [] u
    | 'n' :: _ => readWord "null" .null s
    | 't' :: _ => readWord "true" (.bool true) s
    | 'f' :: _ => readWord "false" (.bool false) s
    | 'N' :: _ => readWord "NaN" (.float (0.0 / 0.0)) s
    | 'I' :: _ => readWord "Infinity" (.float (1.0 / 0.0)) s
    | '-' :: 'I' :: _ => readWord "-Infinity" (.float (-1.0 / 0.0)) s
    | '-' :: t => readNumber true t
    | _ => readNumber false s

/-- The items of an array from the next one on; `acc` holds those before it,
the last one first. -/
def readItems : Nat → Nat → List Json → Chars → Except ReadError (Json × Chars)
  | 0, _, _, _ => .error .malformed
  | fuel + 1, depth, acc, s => do
    let (v, s) ← readValue fuel depth s
    match skipSpace s with
    | ',' :: t => readItems fuel depth (v :: acc) (skipSpace t)
    | ']' :: t => return (.arr (v :: acc).reverse, t)
    | _ => .error .malformed

def readMembers : Nat → Nat → Members → Chars →
    Except ReadError (Json × Chars)
  | 0, _, _, _ => .error .malformed
  | fuel + 1, depth, acc, s =>
    match s with
    | '"' :: t => do
      let (k, t) ← readString (t.length + 1) false [] t
      match skipSpace t with
      | ':' :: t =>
        let (v, t) ← readValue fuel depth (skipSpace t)
        match skipSpace t with
        | ',' :: u => readMembers fuel depth ((k.text, v) :: acc) (skipSpace u)
        | '\x7d' :: u => return (.ofMembers ((k.text, v) :: acc).reverse, u)
        | _ => .error .malformed
      | _ => .error .malformed
    | _ => .error .malformed

end

/-- The value that a whole text stands for, if its containers are nested at most
`depth` times. Each nested value takes at least one character, so the length of
the text bounds the steps. -/
def readWithin (depth : Nat) (s : Chars) : Except ReadError Json := do
  let (v, r) ← readValue (s.length + 1) depth (skipSpace s)
  if (skipSpace r).isEmpty then return v else throw .malformed

def maxDepth : Nat := 989

def read (s : Chars) : Except ReadError Json :=
  readWithin maxDepth s

end Obscura.Json
