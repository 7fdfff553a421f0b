import Obscura.Fault
import Obscura.Text.Lines

/-
  Files: a directory tree as a value. A path is followed name by name from the
  working directory or from the root; each name but the last has to lead to a
  directory, also before two dots. Only files and the directories that were made
  are kept, and a directory also exists when something is in it.
-/

namespace Obscura

open Text

/-- Files by path, in the order in which they were made, and directories. The
paths are relative to the working directory and hold no single dots, and double
dots at their start only; those of files elsewhere start with a slash. -/
structure Files where
  entries : List (String × Bytes) := []
  directories : List String := []
  home : String := "/home"

namespace Files

/-! ## Routes -/

/-- The names on the way to a file or directory. The empty route is that of the
working directory, double dots at the start lead to those above it, and an empty
name at the start is the root. -/
abbrev Route := List Chars

def Route.root : Route := [[]]

def Route.isUpward (r : Route) : Bool :=
  r.all (· == ['.', '.'])

def Route.enter (r : Route) (name : Chars) : Route :=
  if name = [] ∨ name = ['.'] then r
  else if name = ['.', '.'] then
    if r = .root then r
    else if r.isUpward then r ++ [name]
    else r.dropLast
  else r ++ [name]

def Route.spell (r : Route) : String :=
  String.ofList (joinWith ['/'] r)

def names (fs : Files) (path : String) : Route × List Chars :=
  match stripFront? (fs.home.toList ++ ['/']) path.toList with
  | some rest => ([], splitAt '/' rest)
  | none =>
    match path.toList with
    | '/' :: rest => (.root, splitAt '/' rest)
    | s => ([], splitAt '/' s)

/-- The route of a path by its names alone, whatever there is on the way. -/
def route (fs : Files) (path : String) : Route :=
  let (start, ns) := fs.names path
  ns.foldl Route.enter start

def besides (fs : Files) (path name : String) : String :=
  let (start, ns) := fs.names path
  let dir := (ns.foldl Route.enter start).dropLast
  let top := if start = .root then [] else [fs.home.toList]
  String.ofList (joinWith ['/'] (top ++ dir ++ [name.toList]))

/-! ## What there is -/

inductive Node where
  | file (b : Bytes)
  | directory

def isAbove (dir path : String) : Bool :=
  startsWith (dir.toList ++ ['/']) path.toList

def node? (fs : Files) (r : Route) : Option Node :=
  if r.isUpward || r = .root then some .directory
  else
    let p := r.spell
    match fs.entries.find? (·.1 == p) with
    | some e => some (.file e.2)
    | none =>
      if fs.directories.contains p || fs.directories.any (isAbove p)
          || fs.entries.any (isAbove p ·.1) then some .directory
      else none

def maxName : Nat := 255

def maxPath : Nat := 4095

def checkPath (path : String) : Except Fault Unit :=
  if path.toList.contains (Char.ofNat 0) then .error .badPath
  else if path.isEmpty then .error .fileMissing
  else if maxPath < (encode path.toList).length then .error .longName
  else .ok ()

def directoryAt (fs : Files) (r : Route) : Except Fault Route :=
  match fs.node? r with
  | some .directory => .ok r
  | some (.file _) => .error .notDirectory
  | none => .error .fileMissing

def step (r : Route) (name : Chars) : Except Fault Route :=
  if maxName < (encode name).length then .error .longName else .ok (r.enter name)

/-- Follow names from a place on; each is looked up in a directory. -/
def follow (fs : Files) : Route → List Chars → Except Fault Route
  | r, [] => .ok r
  | r, n :: ns => do
    let r' ← step (← fs.directoryAt r) n
    fs.follow r' ns

def find (fs : Files) (path : String) : Except Fault Node := do
  checkPath path
  let (start, ns) := fs.names path
  match fs.node? (← fs.follow start ns) with
  | some n => return n
  | none => throw .fileMissing

def isDirectory (fs : Files) (path : String) : Bool :=
  match fs.find path with
  | .ok .directory => true
  | _ => false

def exist (fs : Files) (path : String) : Bool :=
  match fs.find path with
  | .ok _ => true
  | .error _ => false

def below (fs : Files) : List (String × Bytes) :=
  fs.entries.filter fun e => !startsWith ['/'] e.1.toList && !startsWith ['.', '.', '/'] e.1.toList

/-- The paths of what is right in a directory, files and then directories. -/
def children (fs : Files) (dir : String) : List String :=
  let top := splitAt '/' dir.toList
  let files := (fs.entries.map (·.1)).filter fun p => (splitAt '/' p.toList).dropLast == top
  let inner := (fs.entries.map (·.1) ++ fs.directories).map fun p =>
    ((splitAt '/' p.toList).take (top.length + 1) : Route)
  let found := inner.filter fun (r : Route) => r.dropLast == top && !files.contains r.spell
  files ++ (found.map Route.spell).eraseDups

/-! ## Reading -/

def read (fs : Files) (path : String) : Except Fault Bytes := do
  match ← fs.find path with
  | .file b => return b
  | .directory => throw .isDirectory

def readText (fs : Files) (path : String) : Except Fault Chars := do
  match decode? (← fs.read path) with
  | some s => return unifyNewlines s
  | none => throw .badBytes

/-! ## Writing -/

def setEntry (p : String) (b : Bytes) : List (String × Bytes) → List (String × Bytes)
  | [] => [(p, b)]
  | e :: es => if e.1 = p then (p, b) :: es else e :: setEntry p b es

def put (fs : Files) (path : String) (b : Bytes) : Files :=
  { fs with entries := setEntry (fs.route path).spell b fs.entries }

/-- The route of the file that writing to a path changes or makes. The directory
has to exist; a slash at the end asks for a directory. -/
def target (fs : Files) (path : String) : Except Fault Route := do
  checkPath path
  let (start, all) := fs.names path
  let ns := all.filter (· ≠ [])
  match ns.getLast? with
  | none => throw .isDirectory
  | some last =>
    let dir ← fs.directoryAt (← fs.follow start ns.dropLast)
    if all.getLast? = some [] ∨ last = ['.'] ∨ last = ['.', '.'] then throw .isDirectory
    let r ← step dir last
    match fs.node? r with
    | some .directory => throw .isDirectory
    | _ => return r

def write (fs : Files) (path : String) (b : Bytes) : Except Fault Files := do
  let r ← fs.target path
  return { fs with entries := setEntry r.spell b fs.entries }

def writeText (fs : Files) (path : String) (s : Chars) : Except Fault Files :=
  fs.write path (encode s)

/-- Make the directories on the way over these names where there are none. -/
def makeEach (fs : Files) : Route → List Chars → Except Fault Files
  | _, [] => .ok fs
  | r, n :: ns => do
    let r' ← step r n
    match fs.node? r' with
    | some .directory => fs.makeEach r' ns
    | some (.file _) => throw .inTheWay
    | none =>
      let made : Files := { fs with directories := fs.directories ++ [r'.spell] }
      made.makeEach r' ns

def makeDirectory (fs : Files) (path : String) : Except Fault Files := do
  checkPath path
  let (start, ns) := fs.names path
  fs.makeEach start ns

def makeParents (fs : Files) (path : String) : Except Fault Files := do
  checkPath path
  let (start, ns) := fs.names path
  fs.makeEach start (ns.filter fun n => n ≠ [] ∧ n ≠ ['.']).dropLast

def remove (fs : Files) (path : String) : Except Fault Files := do
  match ← fs.find path with
  | .file _ =>
    let p := (fs.route path).spell
    return { fs with entries := fs.entries.filter (·.1 != p) }
  | .directory => throw .isDirectory

end Files

end Obscura
