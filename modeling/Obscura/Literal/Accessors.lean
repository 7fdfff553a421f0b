import Obscura.Number.Whole
import Obscura.Text.Find

/-
  Accessors: functions that build a table of constants and give an entry of it.
-/

namespace Obscura.Literal

open Text Number

def unlines (ls : List Chars) : Chars :=
  joinWith ['\n'] ls

def entryLines (i : Nat) : List Chars → List Chars
  | [] => []
  | v :: vs =>
    ("    t[".toList ++ digits i ++ "] = ".toList ++ v ++ ";".toList) :: entryLines (i + 1) vs

def tableLines (plural type : String) (values : List Chars) : List Chars :=
  ("function __const_" ++ plural ++ "() internal pure returns (" ++ type ++ "[] memory t) \x7b").toList
    :: ("    t = new ".toList ++ type.toList ++ "[](".toList ++ digits values.length ++ ");".toList)
    :: (entryLines 0 values ++ ["\x7d".toList])

def getterLine (plural singular type returned : String) : Chars :=
  ("function __get_" ++ singular ++ "(uint idx) internal pure returns (" ++ returned ++ ") \x7b "
    ++ type ++ "[] memory t = __const_" ++ plural ++ "(); return t[idx]; \x7d").toList

def accessorPair (plural singular type returned : String) (values : List Chars) :
    List Chars :=
  if values.isEmpty then []
  else [unlines (tableLines plural type values ++ [getterLine plural singular type returned])]

def truthEntry (v : Chars) : Chars :=
  if v.map Char.toLower = "true".toList ∨ v = ['1'] then "true".toList else "false".toList

def escapeQuotes (s : Chars) : Chars :=
  s.flatMap fun c => if c = '"' then ['\\', '"'] else [c]

/-- A string as an entry, in double quotes. A text in single quotes loses them;
one that starts with a quote otherwise is taken as it is. -/
def stringEntry (v : Chars) : Chars :=
  match v with
  | '"' :: _ => v
  | '\'' :: r =>
    if v.getLast? = some '\'' then '"' :: (escapeQuotes r.dropLast ++ ['"']) else v
  | _ => '"' :: (escapeQuotes v ++ ['"'])

/-- Bytes as an entry: a hexadecimal number, or plain digits, become a hex
string. -/
def bytesEntry (v : Chars) : Chars :=
  match v with
  | '0' :: 'x' :: r => "hex\"".toList ++ r ++ ['"']
  | '0' :: 'X' :: r => "hex\"".toList ++ r ++ ['"']
  | 'h' :: 'e' :: 'x' :: '"' :: _ => v
  | _ => "hex\"".toList ++ v ++ ['"']

def accessors (ints bools strings hexes : List Chars) : Chars :=
  joinWith ['\n', '\n']
    (accessorPair "ints" "int" "uint256" "uint256" ints
      ++ accessorPair "bools" "bool" "bool" "bool" (bools.map truthEntry)
      ++ accessorPair "strings" "string" "string" "string memory" (strings.map stringEntry)
      ++ accessorPair "bytes" "bytes" "bytes" "bytes memory" (hexes.map bytesEntry))

end Obscura.Literal
