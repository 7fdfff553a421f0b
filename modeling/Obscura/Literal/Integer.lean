import Obscura.Draws
import Obscura.Layout.Pragma
import Obscura.Literal.Lexeme

/-
  The integer pass: every whole number that stands alone outside of strings is
  written in a drawn disguise. Numbers too long to be read stay as they are, and
  so do licence comments and version directives.
-/

namespace Obscura.Literal

/-! ## Directives -/

open Text Number

/-- What is behind a licence comment at the front of a text. Blanks, also whole
blank lines, may stand before it. -/
def licence? (s : Chars) : Option Chars :=
  match s.dropWhile isBlank with
  | '/' :: '/' :: r =>
    (stripCaseless? "spdx-license-identifier:".toList (r.dropWhile isBlank)).map
      (·.dropWhile fun c => c != '\n' && c != '\r')
  | _ => none

/-- What is behind a version directive at the front of a text. Blanks may stand
before it. -/
def version? (s : Chars) : Option Chars :=
  (Layout.directive? (s.dropWhile isBlank)).map (·.2)

def placeholder (n : Nat) : Chars :=
  '_' :: ("_PRAGMA_".toList ++ digits n ++ "__".toList)

/-- Take out the directives that start a line. `find?` gives what is behind one;
`n` have been taken out before, and `lineStart` says that the text starts a
line. -/
def maskWith (find? : Chars → Option Chars) (n : Nat) (lineStart : Bool)
    (s : Chars) : Chars × List Chars :=
  match s with
  | [] => ([], [])
  | c :: t =>
    match (if lineStart then find? (c :: t) else none) with
    | some r =>
      if r.length < (c :: t).length then
        let m := maskWith find? (n + 1) false r
        (placeholder n ++ m.1, (c :: t).take ((c :: t).length - r.length) :: m.2)
      else
        let m := maskWith find? n (c == '\n') t
        (c :: m.1, m.2)
    | none =>
      let m := maskWith find? n (c == '\n') t
      (c :: m.1, m.2)
termination_by s.length
decreasing_by all_goals first | assumption | simp

/-- Take out first the licence comments and then the version directives; the
directives are in the order of their placeholders. -/
def maskDirectives (s : Chars) : Chars × List Chars :=
  let a := maskWith licence? 0 true s
  let b := maskWith version? a.2.length true a.1
  (b.1, a.2 ++ b.2)

theorem placeholder_ne_nil (n : Nat) : placeholder n ≠ [] :=
  List.cons_ne_nil _ _

def unmask (n : Nat) (s : Chars) : List Chars → Chars
  | [] => s
  | d :: ds => unmask (n + 1) (replaceAll (placeholder n) d (placeholder_ne_nil n) s) ds

/-! ## Disguises -/

open Number

inductive Disguise where
  | sum (a b : Nat)
  | product (a b : Nat)
  | mixed (a b c : Nat)
deriving Repr, DecidableEq

namespace Disguise

def drawn : Sampled Disguise := do
  match ← Sampled.below 3 with
  | 0 =>
    let a ← Sampled.between 1 20
    let b ← Sampled.between 1 20
    return .sum a b
  | 1 =>
    let a ← Sampled.between 2 10
    let b ← Sampled.between 2 10
    return .product a b
  | _ =>
    let a ← Sampled.between 0 50
    let b ← Sampled.between 2 10
    let c ← Sampled.between 2 10
    return .mixed a b c

def value : Disguise → Nat
  | .sum a b => a + b
  | .product a b => a * b
  | .mixed a b c => a + b * c

def text : Disguise → Chars
  | .sum a b => digits a ++ " + ".toList ++ digits b
  | .product a b => digits a ++ " * ".toList ++ digits b
  | .mixed a b c =>
    digits a ++ " + (".toList ++ digits b ++ " * ".toList ++ digits c ++ ")".toList

/-- The number `n` in a disguise: the drawn part, plus or minus the rest. -/
def apply (d : Disguise) (n : Int) : Chars :=
  let rest := n - d.value
  "(".toList ++ d.text ++ (if 0 ≤ rest then " + " else " - ").toList ++ digits rest.natAbs
    ++ ")".toList

end Disguise

def disguise (n : Int) : Sampled Chars := do
  return (← Disguise.drawn).apply n

/-! ## Numbers -/

def disguiseLexeme : Lexeme → Sampled Chars
  | .whole t =>
    match readInt? t with
    | some n => disguise n
    | none => return t
  | l => return l.text

def disguiseLexemes (ls : List Lexeme) : Sampled Chars := do
  return (← ls.mapM disguiseLexeme).flatten

def disguiseIntegers (s : Chars) : Sampled Chars := do
  let m := maskDirectives s
  let t ← disguiseLexemes (lexemes none m.1)
  return unmask 0 t m.2

end Obscura.Literal
