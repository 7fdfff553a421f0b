import Obscura.Json.Reader
import Obscura.Text.Template

/-
  Faults: why a pass gives up. Each names a cause; the passes that promise to go
  on after a fault catch it, all others hand it to their caller.
-/

namespace Obscura

inductive Fault where
  | memberMissing (name : String)
  | notObject
  | wrongKind
  | badNumber
  | outOfRange
  | badBytes
  /-- A string holds half of a character, so it has no bytes. -/
  | tornText
  | badTemplate
  | unknownGroup
  | badJson
  | tooDeep
  | fileMissing
  | isDirectory
  | notDirectory
  /-- Something stands already where a directory is to be made. -/
  | inTheWay
  /-- A name in a path, or the whole path, is too long. -/
  | longName
  /-- A path holds a character that ends names. -/
  | badPath
  | compileFailed
  | installFailed
  | noCompiler
  | timedOut
  /-- Neither a text nor a path was given. -/
  | nothingToRead
  | sourceMissing (path : String)
  | inputMissing (path : String)
  | unknownDigest (name : String)
deriving Repr, DecidableEq

def Fault.ofTemplate : Text.TemplateError → Fault
  | .badEscape => .badTemplate
  | .unknownName => .unknownGroup

def Fault.ofJson : Json.ReadError → Fault
  | .malformed => .badJson
  | .tooManyDigits => .badNumber
  | .tooDeep => .tooDeep

/-- The wording of the faults that are reported in words. -/
def Fault.message? : Fault → Option String
  | .nothingToRead =>
    some "Must provide either source_text or file_path to run_comment_removal()."
  | .sourceMissing path => some ("Source file not found: " ++ path)
  | .inputMissing path => some ("File not found: " ++ path)
  | .unknownDigest name => some ("Unsupported algorithm: " ++ name)
  | _ => none

end Obscura
