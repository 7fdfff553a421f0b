import Obscura.Text.Ranges

/-
  Expressions of a contract, from text to tree. A text is cut into blanks, numbers,
  names, members and signs, each sign as long as it can be; what is not a blank is
  then read with one pass over a stack of open operators. `Expr.tokens` writes a
  tree down again, and `Expr.Leveled` says that it needs no brackets beyond its own.
-/

namespace Obscura.Expression

open Text

/-! ## Signs -/

/-- Operators and brackets. -/
inductive Sign where
  | openRound | closeRound | openSquare | closeSquare | question | colon | comma
  | assign | addAssign | subAssign | mulAssign | divAssign | modAssign
  | orAssign | xorAssign | andAssign | leftAssign | rightAssign
  | either | both | equal | unequal | less | greater | atMost | atLeast
  | bitOr | bitXor | bitAnd | left | right | plus | minus | times | divide | modulo | power
  | increment | decrement | negation | complement
deriving Repr, DecidableEq

namespace Sign

def text : Sign → Chars
  | openRound => ['('] | closeRound => [')'] | openSquare => ['['] | closeSquare => [']']
  | question => ['?'] | colon => [':'] | comma => [',']
  | assign => ['='] | addAssign => ['+', '='] | subAssign => ['-', '='] | mulAssign => ['*', '=']
  | divAssign => ['/', '='] | modAssign => ['%', '='] | orAssign => ['|', '=']
  | xorAssign => ['^', '='] | andAssign => ['&', '='] | leftAssign => ['<', '<', '=']
  | rightAssign => ['>', '>', '=']
  | either => ['|', '|'] | both => ['&', '&'] | equal => ['=', '='] | unequal => ['!', '=']
  | less => ['<'] | greater => ['>'] | atMost => ['<', '='] | atLeast => ['>', '=']
  | bitOr => ['|'] | bitXor => ['^'] | bitAnd => ['&'] | left => ['<', '<'] | right => ['>', '>']
  | plus => ['+'] | minus => ['-'] | times => ['*'] | divide => ['/'] | modulo => ['%']
  | power => ['*', '*'] | increment => ['+', '+'] | decrement => ['-', '-']
  | negation => ['!'] | complement => ['~']

def ofChar? : Char → Option Sign
  | '(' => some openRound | ')' => some closeRound | '[' => some openSquare
  | ']' => some closeSquare | '?' => some question | ':' => some colon | ',' => some comma
  | '=' => some assign | '<' => some less | '>' => some greater | '|' => some bitOr
  | '^' => some bitXor | '&' => some bitAnd | '+' => some plus | '-' => some minus
  | '*' => some times | '/' => some divide | '%' => some modulo | '!' => some negation
  | '~' => some complement
  | _ => none

def grow? : Sign → Char → Option Sign
  | plus, '+' => some increment | plus, '=' => some addAssign
  | minus, '-' => some decrement | minus, '=' => some subAssign
  | times, '*' => some power | times, '=' => some mulAssign
  | divide, '=' => some divAssign | modulo, '=' => some modAssign
  | bitOr, '|' => some either | bitOr, '=' => some orAssign
  | bitAnd, '&' => some both | bitAnd, '=' => some andAssign
  | bitXor, '=' => some xorAssign
  | less, '<' => some left | less, '=' => some atMost | left, '=' => some leftAssign
  | greater, '>' => some right | greater, '=' => some atLeast | right, '=' => some rightAssign
  | assign, '=' => some equal | negation, '=' => some unequal
  | _, _ => none

/-- The longest sign that starts like `m`, and the text behind it. -/
def longest (m : Sign) : Chars → Sign × Chars
  | [] => (m, [])
  | c :: s =>
    match m.grow? c with
    | some m' => longest m' s
    | none => (m, c :: s)

/-- How tightly a sign binds between two operands; higher is tighter. -/
def level? : Sign → Option Nat
  | comma => some 0
  | assign | addAssign | subAssign | mulAssign | divAssign | modAssign
  | orAssign | xorAssign | andAssign | leftAssign | rightAssign => some 1
  | either => some 2
  | both => some 3
  | equal | unequal => some 4
  | less | greater | atMost | atLeast => some 5
  | bitOr => some 6
  | bitXor => some 7
  | bitAnd => some 8
  | left | right => some 9
  | plus | minus => some 10
  | times | divide | modulo => some 11
  | power => some 12
  | _ => none

def isPrefix : Sign → Bool
  | minus | negation | complement | increment | decrement => true
  | _ => false

/-- The sign can stand behind its operand. -/
def isStep : Sign → Bool
  | increment | decrement => true
  | _ => false

end Sign

def prefixLevel : Nat := 13

def wholeLevel : Nat := 14

/-- Assignments, choices and powers group from the right, all else from the left. -/
def groupsRight (l : Nat) : Bool :=
  l == 1 || l == 12

/-- The level that the left operand of an operator of level `l` has to have. -/
def leftNeed (l : Nat) : Nat :=
  if groupsRight l then l + 1 else l

def rightNeed (l : Nat) : Nat :=
  if groupsRight l then l else l + 1

/-! ## Items of a text -/

/-- What a text of an expression is made of; `member` is a name behind a dot. -/
inductive Item where
  | blank (c : Char)
  | number (digits : Chars)
  | name (word : Chars)
  | member (word : Chars)
  | sign (m : Sign)
deriving Repr, DecidableEq

def Item.text : Item → Chars
  | .blank c => [c]
  | .number ds => ds
  | .name w => w
  | .member w => '.' :: w
  | .sign m => m.text

def Item.isToken : Item → Bool
  | .blank _ => false
  | _ => true

def isNameStart (c : Char) : Bool :=
  c.isAlpha || c == '_' || c == '$'

def isNamePart (c : Char) : Bool :=
  c.isAlphanum || c == '_' || c == '$'

def endsWord : Option Char → Bool
  | none => true
  | some c => !isNamePart c

/-- The character makes the sign longer, or makes it open a comment. -/
def extendsSign (m : Sign) (c : Char) : Bool :=
  (m.grow? c).isSome || (m == .divide && (c == '/' || c == '*'))

/-- The item at the front of a text that starts with `c`, and the text behind it. -/
def item? (c : Char) (s : Chars) : Option (Item × Chars) :=
  if isBlank c then some (.blank c, s)
  else if c.isDigit then
    let r := s.dropWhile Char.isDigit
    if endsWord r.head? then some (.number (c :: s.takeWhile Char.isDigit), r) else none
  else if isNameStart c then some (.name (c :: s.takeWhile isNamePart), s.dropWhile isNamePart)
  else if c = '.' then
    match s with
    | [] => none
    | d :: t =>
      if isNameStart d then some (.member (d :: t.takeWhile isNamePart), t.dropWhile isNamePart)
      else none
  else
    match Sign.ofChar? c with
    | none => none
    | some m =>
      let l := m.longest s
      if l.2.head?.any (extendsSign l.1) then none else some (.sign l.1, l.2)

theorem length_longest (m : Sign) (s : Chars) : (m.longest s).2.length ≤ s.length := by
  induction s generalizing m with
  | nil => exact Nat.le_refl _
  | cons c s ih =>
    rw [Sign.longest]
    split
    · rename_i m' _
      exact Nat.le_succ_of_le (ih m')
    · exact Nat.le_refl _

theorem length_item? {c : Char} {s r : Chars} {i : Item} (h : item? c s = some (i, r)) :
    r.length ≤ s.length := by
  have hdrop (p : Char → Bool) (t : Chars) : (t.dropWhile p).length ≤ t.length :=
    (List.dropWhile_suffix p).length_le
  unfold item? at h
  dsimp only at h
  split at h
  · cases h
    exact Nat.le_refl _
  split at h
  · split at h
    · cases h
      exact hdrop _ _
    · cases h
  split at h
  · cases h
    exact hdrop _ _
  split at h
  · split at h
    · cases h
    · split at h
      · cases h
        exact Nat.le_succ_of_le (hdrop _ _)
      · cases h
  · split at h
    · cases h
    · split at h
      · cases h
      · cases h
        exact length_longest _ _

/-- Cut a text into items. -/
def items? (s : Chars) : Option (List Item) :=
  match s with
  | [] => some []
  | c :: t =>
    match _h : item? c t with
    | none => none
    | some (i, r) => (items? r).map (i :: ·)
termination_by s.length
decreasing_by
  have := length_item? _h
  simp only [List.length_cons]
  omega

def textOf (is : List Item) : Chars :=
  is.flatMap Item.text

def tokensOf (is : List Item) : List Item :=
  is.filter Item.isToken

/-! ## Trees -/

inductive Bracket where
  | round
  | square
deriving Repr, DecidableEq

def Bracket.opening : Bracket → Sign
  | .round => .openRound
  | .square => .openSquare

def Bracket.closing : Bracket → Sign
  | .round => .closeRound
  | .square => .closeSquare

/-- What can stand behind an operand: a step, a member, or an empty pair of round
brackets. -/
inductive Tail where
  | step (m : Sign)
  | member (w : Chars)
  | call
deriving Repr, DecidableEq

/-- An expression with its brackets. The arguments of a call are one expression
whose parts are joined by commas. -/
inductive Expr where
  | number (digits : Chars)
  | name (word : Chars)
  | group (e : Expr)
  | before (m : Sign) (e : Expr)
  | behind (e : Expr) (t : Tail)
  | apply (b : Bracket) (f i : Expr)
  | binary (m : Sign) (a b : Expr)
  | choice (c a b : Expr)
deriving Repr, DecidableEq

def Tail.tokens : Tail → List Item
  | .step m => [.sign m]
  | .member w => [.member w]
  | .call => [.sign .openRound, .sign .closeRound]

namespace Expr

/-- The items that a tree is written with. -/
def tokens : Expr → List Item
  | number ds => [.number ds]
  | name w => [.name w]
  | group e => .sign .openRound :: (e.tokens ++ [.sign .closeRound])
  | before m e => .sign m :: e.tokens
  | behind e t => e.tokens ++ t.tokens
  | apply b f i => f.tokens ++ .sign b.opening :: (i.tokens ++ [.sign b.closing])
  | binary m a b => a.tokens ++ .sign m :: b.tokens
  | choice c a b => c.tokens ++ .sign .question :: (a.tokens ++ .sign .colon :: b.tokens)

/-- The tree stands without brackets where level `k` is asked for, and so do its
parts in their places. -/
def Leveled (k : Nat) : Expr → Prop
  | number _ => True
  | name _ => True
  | group e => Leveled 0 e
  | before m e => m.isPrefix = true ∧ k ≤ prefixLevel ∧ Leveled prefixLevel e
  | behind e t => (∀ m, t = .step m → m.isStep = true) ∧ Leveled wholeLevel e
  | apply _ f i => Leveled wholeLevel f ∧ Leveled 0 i
  | binary m a b => ∃ l, m.level? = some l ∧ k ≤ l ∧ Leveled (leftNeed l) a ∧ Leveled (rightNeed l) b
  | choice c a b => k ≤ 1 ∧ Leveled 2 c ∧ Leveled 0 a ∧ Leveled 1 b

end Expr

/-! ## Reading -/

/-- An operator or bracket whose last operand is still to come. -/
inductive Frame where
  | group
  | before (m : Sign)
  | apply (b : Bracket) (f : Expr)
  | binary (m : Sign) (l : Nat) (a : Expr)
  | thenPart (c : Expr)
  | elsePart (c a : Expr)
deriving Repr, DecidableEq

abbrev Stack := List Frame

namespace Frame

/-- How tightly a frame binds the operand that it waits for; brackets wait for
their other side instead. -/
def level? : Frame → Option Nat
  | before _ => some prefixLevel
  | binary _ l _ => some l
  | elsePart _ _ => some 1
  | _ => none

/-- The level that the operand has to have. -/
def need : Frame → Nat
  | before _ => prefixLevel
  | binary _ l _ => rightNeed l
  | elsePart _ _ => 1
  | _ => 0

/-- Give a frame its operand. -/
def fill : Frame → Expr → Expr
  | before m, e => .before m e
  | binary m _ a, e => .binary m a e
  | elsePart c a, e => .choice c a e
  | _, e => e

end Frame

/-- Close the frames that bind at least as tightly as `k`. -/
def reduce (k : Nat) : Stack → Expr → Stack × Expr
  | [], e => ([], e)
  | f :: K, e =>
    match f.level? with
    | none => (f :: K, e)
    | some l => if k ≤ l then reduce k K (f.fill e) else (f :: K, e)

/-- The open frames, and the operand read last if an operator is to come next. -/
abbrev State := Stack × Option Expr

def stepOperand (K : Stack) : Item → Option State
  | .number ds => some (K, some (.number ds))
  | .name w => some (K, some (.name w))
  | .sign m =>
    if m = .openRound then some (.group :: K, none)
    else if m = .closeRound then
      match K with
      | .apply .round f :: K' => some (K', some (.behind f .call))
      | _ => none
    else if m.isPrefix then some (.before m :: K, none)
    else none
  | _ => none

def close (b : Bracket) (K : Stack) (e : Expr) : Option State :=
  match reduce 0 K e with
  | (.group :: K', e') => if b = .round then some (K', some (.group e')) else none
  | (.apply b' f :: K', e') => if b = b' then some (K', some (.apply b' f e')) else none
  | _ => none

/-- Read a sign behind an operand. -/
def stepSign (K : Stack) (e : Expr) (m : Sign) : Option State :=
  if m.isStep then some (K, some (.behind e (.step m)))
  else if m = .openRound then some (.apply .round e :: K, none)
  else if m = .openSquare then some (.apply .square e :: K, none)
  else if m = .closeRound then close .round K e
  else if m = .closeSquare then close .square K e
  else if m = .question then some (.thenPart (reduce 2 K e).2 :: (reduce 2 K e).1, none)
  else if m = .colon then
    match reduce 0 K e with
    | (.thenPart c :: K', a) => some (.elsePart c a :: K', none)
    | _ => none
  else
    match m.level? with
    | none => none
    | some l => some (.binary m l (reduce (leftNeed l) K e).2 :: (reduce (leftNeed l) K e).1, none)

def step (S : State) (t : Item) : Option State :=
  match S.2 with
  | none => stepOperand S.1 t
  | some e =>
    match t with
    | .member w => some (S.1, some (.behind e (.member w)))
    | .sign m => stepSign S.1 e m
    | _ => none

/-- The tree of a list of tokens. -/
def parse? (ts : List Item) : Option Expr :=
  match ts.foldlM step ([], none) with
  | some (K, some e) =>
    match reduce 0 K e with
    | ([], e') => some e'
    | _ => none
  | _ => none

/-- The tree of a text. -/
def read? (s : Chars) : Option Expr :=
  (items? s).bind fun is => parse? (tokensOf is)

end Obscura.Expression
