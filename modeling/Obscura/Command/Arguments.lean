import Obscura.Assoc
import Obscura.Text.Find
import Obscura.Text.Letter

/-
  Command lines. A grammar names the options of a command and the places that
  its other words fill. Reading goes over the words once, from left to right: each
  is an option with or without its value, the value an option waits for, or a word
  for the next free place. Two dashes as a word end the options; two dashes where
  a value should be stand for nothing.
-/

namespace Obscura.Command

open Text

/-! ## Grammars -/

inductive Takes where
  | nothing
  | value (fits : Chars → Bool)
  | help

/-- An option and the words it goes by, the first of which names its value. -/
structure Opt where
  names : List Chars
  takes : Takes

def Opt.isValued (o : Opt) : Bool :=
  match o.takes with
  | .value _ => true
  | _ => false

structure Place where
  name : Chars
  required : Bool

structure Grammar where
  options : List Opt
  places : List Place

def helpOption : Opt := ⟨["-h".toList, "--help".toList], .help⟩

def setting (names : List String) : Opt := ⟨names.map String.toList, .nothing⟩

def valued (names : List String) (fits : Chars → Bool) : Opt :=
  ⟨names.map String.toList, .value fits⟩

inductive Stop where
  | help
  | refused
deriving Repr, DecidableEq

/-! ## Words -/

def dashes : Chars := ['-', '-']

structure Use where
  opt : Opt
  name : Chars
  rest : Option Chars

inductive Word where
  | text (s : Chars)
  | dashes
  | option (use : Use)
  /-- It looks like an option and is none. -/
  | stranger

def Grammar.names (g : Grammar) : List (Opt × Chars) :=
  g.options.flatMap fun o => o.names.map fun n => (o, n)

def Grammar.find? (g : Grammar) (name : Chars) : Option Opt :=
  (g.names.find? (·.2 = name)).map (·.1)

def splitEquals (s : Chars) : Chars × Option Chars :=
  match s.dropWhile (· != '=') with
  | [] => (s, none)
  | _ :: value => (s.takeWhile (· != '='), some value)

/-- The options that a word may abbreviate. Behind two dashes the start of a name
is enough; behind one dash a letter names the option, and what follows is its
value or more letters. -/
def Grammar.guesses (g : Grammar) (s : Chars) : List Use :=
  if startsWith dashes s then
    let (lead, value) := splitEquals s
    g.names.filterMap fun (o, n) =>
      if startsWith lead n then some ⟨o, n, value⟩ else none
  else
    g.names.filterMap fun (o, n) =>
      if n = s.take 2 then some ⟨o, n, some (s.drop 2)⟩
      else if startsWith s n then some ⟨o, n, none⟩
      else none

def dropLineFeed (s : Chars) : Chars :=
  if s.getLast? = some '\n' then s.dropLast else s

/-- The word is a negative number: digits behind a dash, maybe with a point. -/
def isNegative (s : Chars) : Bool :=
  match dropLineFeed s with
  | '-' :: ds =>
    (!ds.isEmpty && ds.all isDecimal) ||
      match ds.dropWhile isDecimal with
      | '.' :: fs => !fs.isEmpty && fs.all isDecimal
      | _ => false
  | _ => false

/-- What a word before the two dashes is taken for. -/
def Grammar.word (g : Grammar) (s : Chars) : Except Stop Word :=
  if s.head? ≠ some '-' then .ok (.text s)
  else match g.find? s with
    | some o => .ok (.option ⟨o, s, none⟩)
    | none =>
      if s.length = 1 then .ok (.text s)
      else
        let byEquals := match splitEquals s with
          | (name, some value) => (g.find? name).map fun o => Use.mk o name (some value)
          | (_, none) => none
        match byEquals with
        | some use => .ok (.option use)
        | none =>
          match g.guesses s with
          | [use] => .ok (.option use)
          | _ :: _ :: _ => .error .refused
          | [] =>
            if isNegative s || s.contains ' ' then .ok (.text s) else .ok .stranger

def Grammar.words (g : Grammar) : List Chars → Except Stop (List Word)
  | [] => .ok []
  | s :: rest =>
    if s = dashes then .ok (.dashes :: rest.map .text)
    else do
      let w ← g.word s
      let ws ← g.words rest
      return w :: ws

/-! ## Letters -/

structure Unfolded where
  done : List (Opt × Chars) := []
  waiting : Option Opt := none

/-- Unfold a word of letters behind one dash: an option without a value is
followed by more letters, one with a value by that value. -/
def Grammar.unfold (g : Grammar) (o : Opt) (name : Chars) :
    Option Chars → Except Stop Unfolded
  | none =>
    if o.isValued then .ok { waiting := some o } else .ok { done := [(o, [])] }
  | some [] =>
    if o.isValued then .ok { done := [(o, [])] } else .error .refused
  | some (c :: rest) =>
    if o.isValued then .ok { done := [(o, c :: rest)] }
    else if startsWith dashes name then .error .refused
    else match g.find? ['-', c] with
      | none => .error .refused
      | some o' => do
        let u ← match rest with
          | [] => g.unfold o' ['-', c] none
          | d :: rest' => g.unfold o' ['-', c] (some (d :: rest'))
        return { u with done := (o, []) :: u.done }
termination_by v => (v.map (·.length + 1)).getD 0

/-! ## Reading -/

inductive Value where
  | text (s : Chars)
  | nothing
deriving Repr, DecidableEq

structure Reading where
  /-- The values so far, by the first name of their option or by their place. -/
  values : Assoc Chars Value := []
  free : List Place
  waiting : Option (List (Opt × Chars) × Opt) := none
  filled : Bool := false
  /-- The two dashes stand before the next free place. -/
  marked : Bool := false
  surplus : Bool := false

def Reading.set (r : Reading) (name : Chars) (value : Value) : Reading :=
  { r with values := Assoc.set name value r.values }

def Reading.give (r : Reading) (given : Opt × Chars) : Except Stop Reading :=
  let name := given.1.names.headD []
  match given.1.takes with
  | .value fits =>
    if given.2 = dashes then .ok (r.set name .nothing)
    else if fits given.2 then .ok (r.set name (.text given.2))
    else .error .refused
  | .help => .error .help
  | .nothing => .ok (r.set name .nothing)

/-- Fill the next free place. The two dashes that end the options belong to the
place before them, or else to the one behind them; a word of two dashes in any
other place stands for nothing. -/
def Reading.fill (r : Reading) (s : Chars) : Reading :=
  match r.free with
  | [] => { r with surplus := true, filled := false }
  | p :: ps =>
    let value : Value := if s = dashes ∧ !r.marked then .nothing else .text s
    { r.set p.name value with free := ps, filled := true, marked := false }

def Grammar.step (g : Grammar) (r : Reading) (w : Word) : Except Stop Reading :=
  match r.waiting, w with
  | some (before, o), .text s =>
    (before ++ [(o, s)]).foldlM Reading.give { r with waiting := none, filled := false }
  | some _, _ => .error .refused
  | none, .text s => .ok (r.fill s)
  | none, .dashes =>
    if r.filled then .ok r
    else if r.free.isEmpty then .ok { r with surplus := true }
    else .ok { r with marked := true }
  | none, .stranger => .ok { r with surplus := true, filled := false }
  | none, .option use => do
    let u ← g.unfold use.opt use.name use.rest
    let r := { r with filled := false }
    match u.waiting with
    | some o => return { r with waiting := some (u.done, o) }
    | none => u.done.foldlM Reading.give r

structure Given where
  values : Assoc Chars Value

def Grammar.read (g : Grammar) (args : List String) : Except Stop Given := do
  let words ← g.words (args.map String.toList)
  let r ← words.foldlM g.step { free := g.places }
  if r.waiting.isSome || r.surplus || r.free.any (·.required) then throw .refused
  return ⟨r.values⟩

def Given.value? (v : Given) (name : String) : Option Value :=
  Assoc.find name.toList v.values

def Given.text? (v : Given) (name : String) : Option String :=
  match v.value? name with
  | some (.text s) => some (String.ofList s)
  | _ => none

def Given.isSet (v : Given) (name : String) : Bool :=
  Assoc.has name.toList v.values

def Value.shown : Value → String
  | .text s => String.ofList s
  | .nothing => "[]"

def Given.shown (v : Given) (name default : String) : String :=
  ((v.value? name).map Value.shown).getD default

end Obscura.Command
