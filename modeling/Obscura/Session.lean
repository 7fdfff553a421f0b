import Obscura.Draws
import Obscura.Files

/-
  Sessions. A pass that works on more than a text runs in a session: it draws,
  asks the compiler, reads and writes files and reports lines. All of these are
  parts of one value; what a step did before it failed stays done.
-/

namespace Obscura

/-- What the compiler answers for one input: by name of a unit, its syntax tree
if there is one. -/
abbrev Units := List (String × Option Json)

def Units.firstTree : Units → Except Fault Json
  | [] => .error .outOfRange
  | (_, some tree) :: _ => .ok tree
  | (_, none) :: _ => .error (.memberMissing "ast")

/-- The answer to a request that names its source by a path: the first unit is that of
the source. -/
def Units.ofSource (path : String) : Units → Units
  | [] => []
  | (_, tree) :: _ => [(path, tree)]

def Units.treeAt (path : String) (units : Units) : Except Fault Json :=
  match units.find? (·.1 = path) with
  | some (_, some tree) => .ok tree
  | some (_, none) => .error (.memberMissing "ast")
  | none => .error (.memberMissing path)

structure Compiler where
  /-- The passes that can do without the compiler find it. -/
  present : Bool := true
  reachable : Bool := true
  /-- The answers to the coming calls, given the path compiled; `none` and a
  missing answer stand for a failure. -/
  answers : List (Option (String → Units)) := []
  installed : List String := ["0.8.30"]
  /-- How many further versions can be installed, if there is a limit. -/
  installsLeft : Option Nat := none

structure Session where
  draws : Draws := .stream [] 0
  compiler : Compiler := {}
  files : Files := {}
  report : Chars := []
  switches : List (String × String) := []

def defaultVersion : String := "0.8.30"

abbrev Run := ExceptT Fault (StateM Session)

namespace Run

def sample {α : Type} (x : Sampled α) : Run α := do
  let s ← getThe Session
  let (a, d) := x s.draws
  set { s with draws := d }
  return a

def put (t : Chars) : Run Unit :=
  modifyThe Session fun s => { s with report := s.report ++ t }

def say (line : String) : Run Unit :=
  put (line.toList ++ ['\n'])

/-- Run a step and hand its fault, if any, to the caller as a value. -/
def attempt {α : Type} (x : Run α) : Run (Except Fault α) :=
  fun s => match x s with
    | (r, s') => (.ok r, s')

def ofExcept {α : Type} (x : Except Fault α) : Run α :=
  fun s => (x, s)

def files : Run Files := do
  return (← getThe Session).files

def readText (path : String) : Run Chars := do
  ofExcept ((← files).readText path)

def readBytes (path : String) : Run Text.Bytes := do
  ofExcept ((← files).read path)

def writeText (path : String) (t : Chars) : Run Unit := do
  let fs ← ofExcept ((← files).writeText path t)
  modifyThe Session fun s => { s with files := fs }

def makeDirectory (path : String) : Run Unit := do
  let fs ← ofExcept ((← files).makeDirectory path)
  modifyThe Session fun s => { s with files := fs }

def makeParents (path : String) : Run Unit := do
  let fs ← ofExcept ((← files).makeParents path)
  modifyThe Session fun s => { s with files := fs }

def remove (path : String) : Run Unit := do
  let fs ← ofExcept ((← files).remove path)
  modifyThe Session fun s => { s with files := fs }

def copy (source target : String) : Run Unit := do
  let b ← readBytes source
  let fs ← files
  let target := if fs.isDirectory target then
      String.ofList (Text.inDirectory target.toList (Text.lastPart source.toList))
    else target
  let fs ← ofExcept (fs.write target b)
  modifyThe Session fun s => { s with files := fs }

def switch (name default : String) : Run String := do
  return (((← getThe Session).switches.find? (·.1 = name)).map (·.2)).getD default

def compile (path : String) : Run Units := do
  let s ← getThe Session
  if !s.compiler.reachable then throw .noCompiler
  match s.compiler.answers with
  | [] => throw .compileFailed
  | a :: rest =>
    set { s with compiler := { s.compiler with answers := rest } }
    match a with
    | some f => return f path
    | none => throw .compileFailed

def install : Run Unit := do
  let s ← getThe Session
  match s.compiler.installsLeft with
  | none => return
  | some 0 => throw .installFailed
  | some (n + 1) =>
    set { s with compiler := { s.compiler with installsLeft := some n } }

def requireVersion (version : String) : Run Unit := do
  let c := (← getThe Session).compiler
  if !c.reachable then throw .noCompiler
  unless c.installed.contains version do install

def ensureVersion (version : String) : Run Bool := do
  if (← getThe Session).compiler.present then
    match ← attempt (requireVersion version) with
    | .ok _ => return true
    | .error _ => return false
  else return false

end Run

end Obscura
