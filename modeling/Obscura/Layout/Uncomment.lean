import Obscura.Layout.Comment
import Obscura.Session

/-
  Comment removal on a text or on a file.
-/

namespace Obscura.Layout

def uncomment (source : Option Chars) (path : Option String) : Run Chars := do
  if (source.getD []).isEmpty && (path.getD "").isEmpty then throw .nothingToRead
  match source with
  | some s => return (removeComments s).1
  | none =>
    let p := path.getD ""
    unless (← Run.files).exist p do throw (.sourceMissing p)
    return (removeComments (← Run.readText p)).1

def compareComments (before after : Chars) : Run Unit :=
  Run.say ("[INFO] Comments before: " ++ Nat.repr (countComments before)
    ++ ", after removal: " ++ Nat.repr (countComments after))

end Obscura.Layout
