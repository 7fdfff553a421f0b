import Obscura.Json.Basic
import Obscura.Number.Binary
import Obscura.Text.Printable
import Obscura.Text.Utf8

/-
  Writing JSON text. A style says how far nested lines are indented, whether
  members are sorted by name, and whether other characters than ASCII are
  written as escapes.
-/

namespace Obscura.Json

open Number

structure Style where
  indent : Option Nat
  sortMembers : Bool
  asciiOnly : Bool

def Style.line : Style := ⟨none, false, true⟩

def Style.tree : Style := ⟨some 2, false, false⟩

def Style.sortedTree : Style := ⟨some 2, true, true⟩

def hexDigit (n : Nat) : Char :=
  if n < 10 then Char.ofNat (48 + n) else Char.ofNat (87 + n)

def unitEscape (n : Nat) : Chars :=
  ['\\', 'u', hexDigit (n / 4096 % 16), hexDigit (n / 256 % 16), hexDigit (n / 16 % 16),
    hexDigit (n % 16)]

/-- The escape of any character by its code; beyond the basic plane it takes a
surrogate pair. -/
def codeEscape (n : Nat) : Chars :=
  if n < 0x10000 then unitEscape n
  else unitEscape (0xD800 + (n - 0x10000) / 1024) ++ unitEscape (0xDC00 + (n - 0x10000) % 1024)

def writeChar (asciiOnly : Bool) (c : Char) : Chars :=
  if c = '"' then ['\\', '"']
  else if c = '\\' then ['\\', '\\']
  else if c = '\n' then ['\\', 'n']
  else if c = '\r' then ['\\', 'r']
  else if c = '\t' then ['\\', 't']
  else if c.toNat = 12 then ['\\', 'f']
  else if c.toNat = 8 then ['\\', 'b']
  else if c.toNat < 0x20 then codeEscape c.toNat
  else if asciiOnly && 0x7F ≤ c.toNat then codeEscape c.toNat
  else [c]

def writeString (asciiOnly : Bool) (s : String) : Chars :=
  '"' :: (s.toList.flatMap (writeChar asciiOnly) ++ ['"'])

/-- Half of a character is an escape in every style. Only trees of the compiler are written in
a style that keeps other characters, and they hold no halves. -/
def writeTorn (asciiOnly : Bool) (s : String) : Chars :=
  '"' :: (s.toList.flatMap (fun c =>
    if Text.isHalf c then codeEscape (Text.codePoint c) else writeChar asciiOnly c) ++ ['"'])

def writeFloat (x : Float) : Chars :=
  match Binary.ofFloat x with
  | .nan => "NaN".toList
  | .infinite negative => (if negative then "-Infinity" else "Infinity").toList
  | b => b.render

def lineStart (style : Style) (depth : Nat) : Chars :=
  match style.indent with
  | none => []
  | some n => '\n' :: List.replicate (n * depth) ' '

def separator (style : Style) (depth : Nat) : Chars :=
  match style.indent with
  | none => [',', ' ']
  | some _ => ',' :: lineStart style depth

def insertSorted (m : String × Chars) : List (String × Chars) → List (String × Chars)
  | [] => [m]
  | x :: xs => if m.1 < x.1 then m :: x :: xs else x :: insertSorted m xs

def arrange (style : Style) (ms : List (String × Chars)) : List Chars :=
  (if style.sortMembers then ms.foldl (fun acc m => insertSorted m acc) [] else ms).map (·.2)

def container (style : Style) (depth : Nat) (opening closing : Char) (items : List Chars) :
    Chars :=
  if items.isEmpty then [opening, closing]
  else
    opening :: (lineStart style (depth + 1)
      ++ (items.intersperse (separator style (depth + 1))).flatten
      ++ lineStart style depth ++ [closing])

mutual

def write (style : Style) (depth : Nat) : Json → Chars
  | .null => "null".toList
  | .bool b => (if b then "true" else "false").toList
  | .int i => render i
  | .float x => writeFloat x
  | .str s => writeString style.asciiOnly s
  | .torn s => writeTorn style.asciiOnly s
  | .arr items => container style depth '[' ']' (writeItems style (depth + 1) items)
  | .obj members =>
    container style depth '\x7b' '\x7d' (arrange style (writeMembers style (depth + 1) members))

def writeItems (style : Style) (depth : Nat) : List Json → List Chars
  | [] => []
  | v :: vs => write style depth v :: writeItems style depth vs

def writeMembers (style : Style) (depth : Nat) :
    Members → List (String × Chars)
  | [] => []
  | (k, v) :: ms =>
    (k, writeString style.asciiOnly k ++ ':' :: ' ' :: write style depth v)
      :: writeMembers style depth ms

end

def print (style : Style) (v : Json) : Chars :=
  write style 0 v

/-! ## Values as texts -/

def hexDigits : Nat → Nat → Chars
  | 0, _ => []
  | k + 1, n => hexDigits k (n / 16) ++ [hexDigit (n % 16)]

def shownCode (n : Nat) : Chars :=
  if n < 0x100 then '\\' :: 'x' :: hexDigits 2 n
  else if n < 0x10000 then '\\' :: 'u' :: hexDigits 4 n
  else '\\' :: 'U' :: hexDigits 8 n

def shownChar (q c : Char) : Chars :=
  if c = q ∨ c = '\\' then ['\\', c]
  else if c = '\n' then ['\\', 'n']
  else if c = '\r' then ['\\', 'r']
  else if c = '\t' then ['\\', 't']
  else if Text.isPrintable c then [c]
  else shownCode c.toNat

def quotedBy (char : Char → Char → Chars) (s : String) : Chars :=
  let q := if s.toList.contains '\'' && !s.toList.contains '"' then '"' else '\''
  q :: (s.toList.flatMap (char q) ++ [q])

def shownString (s : String) : Chars :=
  quotedBy shownChar s

def shownTorn (s : String) : Chars :=
  quotedBy (fun q c => if Text.isHalf c then shownCode (Text.codePoint c) else shownChar q c) s

mutual

def shownInner : Json → Chars
  | .null => "None".toList
  | .bool b => (if b then "True" else "False").toList
  | .int i => render i
  | .float x => (Binary.ofFloat x).render
  | .str s => shownString s
  | .torn s => shownTorn s
  | .arr items => '[' :: (shownItems items ++ [']'])
  | .obj members => '\x7b' :: (shownMembers members ++ ['\x7d'])

def shownItems : List Json → Chars
  | [] => []
  | [v] => shownInner v
  | v :: vs => shownInner v ++ ',' :: ' ' :: shownItems vs

def shownMembers : Members → Chars
  | [] => []
  | [(k, v)] => shownString k ++ ':' :: ' ' :: shownInner v
  | (k, v) :: ms => shownString k ++ ':' :: ' ' :: shownInner v ++ ',' :: ' ' :: shownMembers ms

end

def shown : Json → Chars
  | .str s => s.toList
  | .torn s => s.toList
  | v => shownInner v

end Obscura.Json
