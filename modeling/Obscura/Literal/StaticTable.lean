import Obscura.Literal.Accessors
import Obscura.Literal.Truth
import Obscura.Text.Lines

/-
  Constants behind tables. Every truth value and whole number of a text becomes a
  call that looks it up in a table, and the tables with their accessors are put
  into the first contract. Comments, strings, the arguments of `require` and
  `assert` and lines with a version or licence directive are left alone.
-/

namespace Obscura.Literal

open Text Number

def guardCall? : Recogniser := fun before s =>
  if isWordAt before then none
  else
    match (stripFront? "require".toList s).or (stripFront? "assert".toList s) with
    | some r =>
      match r.dropWhile isBlank with
      | '(' :: t => some t
      | _ => none
    | none => none

/-- How many characters there are up to the parenthesis that closes the first
one; parentheses in strings and comments count too. -/
def balancedLength (depth : Nat) : Chars → Option Nat
  | [] => none
  | c :: s =>
    if c = '(' then (balancedLength (depth + 1) s).map (· + 1)
    else if c = ')' then
      if depth ≤ 1 then some 1 else (balancedLength (depth - 1) s).map (· + 1)
    else (balancedLength depth s).map (· + 1)

def guardRanges (s : Chars) : List (Nat × Nat) :=
  (spans guardCall? s).filterMap fun p =>
    (balancedLength 0 (s.drop (p.stop - 1))).map fun n => (p.stop - 1, p.stop - 1 + n)

def isGuarded (ranges : List (Nat × Nat)) (p : Nat) : Bool :=
  ranges.any fun r => r.1 ≤ p && p < r.2

def isDirectiveLine (line : Chars) : Bool :=
  let l := trimLeft line
  startsWith "pragma solidity".toList l || startsWith "// SPDX-License-Identifier".toList l

def isConstant (w : Chars) : Bool :=
  (truthWord? w).isSome || w.all isDecimal

/-- The tables of the constants: whole numbers, and truth values. -/
structure Tables where
  ints : List Chars := []
  bools : List Chars := []

/-- A table with a text at its end, unless the text is in it already. -/
def entered (table : List Chars) (w : Chars) : List Chars :=
  if table.contains w then table else table ++ [w]

def Tables.enter (t : Tables) (w : Chars) : Tables :=
  if (truthWord? w).isSome then { t with bools := entered t.bools w }
  else { t with ints := entered t.ints w }

/-- The call that looks a constant up, if the table for it has it. -/
def Tables.call? (t : Tables) (w : Chars) : Option Chars :=
  if (truthWord? w).isSome then
    (t.bools.idxOf? w).map fun i => "__get_bool(".toList ++ digits i ++ [')']
  else (t.ints.idxOf? w).map fun i => "__get_int(".toList ++ digits i ++ [')']

/-- Enter the constants of a line that starts at the position `p`; `barred` says of a
position that it is left alone. -/
def collectLine (barred : Nat → Bool) (p : Nat) (t : Tables) : List Chunk → Tables
  | [] => t
  | .mark _ :: ks => collectLine barred (p + 1) t ks
  | .word w :: ks =>
    collectLine barred (p + w.length) (if isConstant w && !barred p then t.enter w else t) ks

/-- The first pass over the lines of a text enters their constants. -/
def collect (barred : Nat → Bool) (p : Nat) (t : Tables) : List Chars → Tables
  | [] => t
  | l :: ls =>
    collect barred (p + l.length)
      (if isDirectiveLine l then t else collectLine barred p t (chunks l)) ls

def replaceLine? (barred : Nat → Bool) (t : Tables) (p : Nat) : List Chunk → Option Chars
  | [] => some []
  | .mark c :: ks => (replaceLine? barred t (p + 1) ks).map (c :: ·)
  | .word w :: ks => do
    let text ← if isConstant w && !barred p then t.call? w else some w
    return text ++ (← replaceLine? barred t (p + w.length) ks)

/-- The second pass puts calls in the places of the constants. It fails at a constant
that was not entered. -/
def replaceLines? (barred : Nat → Bool) (t : Tables) (p : Nat) : List Chars → Option Chars
  | [] => some []
  | l :: ls => do
    let text ← if isDirectiveLine l then some l else replaceLine? barred t p (chunks l)
    return text ++ (← replaceLines? barred t (p + l.length) ls)

def getterLines (plural singular type : String) : List Chars :=
  [("function __get_" ++ singular ++ "(uint idx) internal pure returns (" ++ type ++ ") \x7b").toList,
    ("    " ++ type ++ "[] memory t = __const_" ++ plural ++ "();").toList,
    "    return t[idx];".toList, "\x7d".toList]

def accessorLines (plural singular type : String) (values : List Chars) :
    List Chars :=
  if values.isEmpty then []
  else tableLines plural type values ++ getterLines plural singular type

def accessorBlock (ints bools : List Chars) : Chars :=
  let ls := accessorLines "ints" "int" "uint256" ints ++ accessorLines "bools" "bool" "bool" bools
  if ls.isEmpty then []
  else "\n    // === static data accessors inserted by static_data_obfuscator ===\n".toList
    ++ unlines (ls.map fun l => "    ".toList ++ l) ++ ['\n']

/-- The place behind the first opening brace that follows the first word
`contract` and a space. -/
def contractBody? (s : Chars) : Option Nat :=
  match findIdx? "contract ".toList s with
  | none => none
  | some c => (findFrom? ['\x7b'] s c).map (· + 1)

def insertAccessors (block s : Chars) : Chars :=
  if block.isEmpty then s
  else match contractBody? s with
    | none => s
    | some p => s.take p ++ '\n' :: block ++ s.drop p

/-- Write at most two line feeds in a row; `seen` is the number before the
text. -/
def capNewlines (seen : Nat) : Chars → Chars
  | [] => []
  | c :: s =>
    if c = '\n' then
      if seen < 2 then c :: capNewlines (seen + 1) s else capNewlines seen s
    else c :: capNewlines 0 s

/-- Drop superfluous blank lines. If the text has a carriage return and line
feed anywhere, all its line feeds become such pairs. -/
def tidyNewlines (s : Chars) : Chars :=
  let t := capNewlines 0 (replaceAll ['\r', '\n'] ['\n'] (by simp) s)
  if occurs ['\r', '\n'] s then t.flatMap fun c => if c = '\n' then ['\r', '\n'] else [c] else t

def tabulate? (s : Chars) : Option Chars := do
  let shield := (shielded s).toArray
  let guards := guardRanges s
  let barred := fun p => isGuarded guards p || shield.getD p false
  let tables := collect barred 0 {} (linesKeepEnds s)
  let out ← replaceLines? barred tables 0 (linesKeepEnds s)
  return tidyNewlines (insertAccessors (accessorBlock tables.ints tables.bools) out)

/-- Put the constants of a text behind tables. The second pass never fails, so there is
always a new text. -/
def tabulate (s : Chars) : Chars :=
  (tabulate? s).getD s

end Obscura.Literal
