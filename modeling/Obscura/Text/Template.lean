import Obscura.Number.Whole

/-
  Replacement templates. A template is a text in which a backslash starts an
  escape: a control character by its letter, a character by its octal code, or
  the whole of what is replaced. Any other letter behind a backslash is an error,
  and any other character behind one stands for itself, backslash included.
-/

namespace Obscura.Text

inductive TemplateError where
  | badEscape
  | unknownName
deriving Repr, DecidableEq

inductive TemplatePart where
  | char (c : Char)
  | whole
deriving Repr, DecidableEq

abbrev Template := List TemplatePart

namespace Template

def octalValue? (c : Char) : Option Nat :=
  if '0' ≤ c ∧ c ≤ '7' then some (c.toNat - 48) else none

def control? : Char → Option Char
  | 'a' => some '\x07'
  | 'b' => some '\x08'
  | 'f' => some '\x0c'
  | 'n' => some '\n'
  | 'r' => some '\r'
  | 't' => some '\t'
  | 'v' => some '\x0b'
  | '\\' => some '\\'
  | _ => none

/-- The name of a group and what stands behind its closing bracket. A backslash
inside a name takes the next character with it. -/
def readName : Chars → Chars → Option (Chars × Chars)
  | _, [] => none
  | acc, '>' :: s => some (acc.reverse, s)
  | acc, '\\' :: c :: s => readName (c :: '\\' :: acc) s
  | acc, c :: s => readName (c :: acc) s

/-- Read what follows the mark of a named group. An identifier could be the name
of a group; only the number zero, the whole match, is there to be named. -/
def readGroup : Chars → Except TemplateError Chars
  | '<' :: s =>
    match readName [] s with
    | none => .error .badEscape
    | some (name, r) =>
      if isIdName name then .error (if r = ['\\'] then .badEscape else .unknownName)
      else if Number.readInt? name = some 0 then .ok r
      else .error .badEscape
  | _ => .error .badEscape

def readZero (s : Chars) : Char × Chars :=
  match s with
  | a :: r =>
    match octalValue? a with
    | none => (Char.ofNat 0, s)
    | some x =>
      match r with
      | b :: t =>
        match octalValue? b with
        | none => (Char.ofNat x, r)
        | some y => (Char.ofNat (x * 8 + y), t)
      | [] => (Char.ofNat x, r)
  | [] => (Char.ofNat 0, s)

/-- A backslash and a digit other than zero: three octal digits up to 377 are a
character, and no numbered group is there to be named. -/
def readOctal (d : Char) (s : Chars) : Except TemplateError (Char × Chars) :=
  match s with
  | b :: c :: r =>
    match octalValue? d, octalValue? b, octalValue? c with
    | some x, some y, some z =>
      if x * 64 + y * 8 + z ≤ 255 then .ok (Char.ofNat (x * 64 + y * 8 + z), r)
      else .error .badEscape
    | _, _, _ => .error .badEscape
  | _ => .error .badEscape

/-- Read a template; `acc` holds its parts so far, the last one first. -/
def parseFrom : Nat → List TemplatePart → Chars → Except TemplateError Template
  | 0, acc, _ => .ok acc.reverse
  | _ + 1, acc, [] => .ok acc.reverse
  | _ + 1, _, ['\\'] => .error .badEscape
  | fuel + 1, acc, '\\' :: c :: s =>
    if c = 'g' then
      match readGroup s with
      | .ok r => parseFrom fuel (.whole :: acc) r
      | .error e => .error e
    else if c = '0' then
      let (x, r) := readZero s
      parseFrom fuel (.char x :: acc) r
    else if c.isDigit then
      match readOctal c s with
      | .ok (x, r) => parseFrom fuel (.char x :: acc) r
      | .error e => .error e
    else match control? c with
      | some x => parseFrom fuel (.char x :: acc) s
      | none =>
        if c.isAlpha then .error .badEscape
        else parseFrom fuel (.char c :: .char '\\' :: acc) s
  | fuel + 1, acc, c :: s => parseFrom fuel (.char c :: acc) s

def parse (s : Chars) : Except TemplateError Template :=
  parseFrom (s.length + 1) [] s

def expand (t : Template) (whole : Chars) : Chars :=
  t.flatMap fun
    | .char c => [c]
    | .whole => whole

end Template

end Obscura.Text
