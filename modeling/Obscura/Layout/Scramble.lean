import Obscura.Layout.Comment
import Obscura.Layout.Pragma
import Obscura.Layout.Token

/-
  Scrambling a layout. String literals are kept; the code between them loses its
  comments, gets a fixed compiler version and is spaced anew. At last the whole is
  put on one line, or broken at semicolons and braces.
-/

namespace Obscura.Layout

open Text

structure Options where
  version : Chars := "^0.8.30".toList
  dropComments : Bool := true
  oneLine : Bool := true

/-- Write one space for every run of blanks; `inBlanks` says that the run has
been written. -/
def collapseBlanks (inBlanks : Bool) : Chars → Chars
  | [] => []
  | c :: s =>
    if isBlank c then
      if inBlanks then collapseBlanks true s else ' ' :: collapseBlanks true s
    else c :: collapseBlanks false s

/-- A text on one line, with single spaces and none at its ends. -/
def onOneLine (s : Chars) : Chars :=
  trim (collapseBlanks false s)

/-- Write a line feed behind every character `mark`, for the blanks there. -/
def breakAfter (mark : Char) (skipping : Bool) : Chars → Chars
  | [] => []
  | c :: s =>
    if skipping && isBlank c then breakAfter mark true s
    else if c = mark then c :: '\n' :: breakAfter mark true s
    else c :: breakAfter mark false s

/-- Write a line feed before every character `mark`, for the blanks there;
`held` are blanks not yet written, the last one first. -/
def breakBefore (mark : Char) (held : Chars) : Chars → Chars
  | [] => held.reverse
  | c :: s =>
    if isBlank c then breakBefore mark (c :: held) s
    else if c = mark then '\n' :: c :: breakBefore mark [] s
    else held.reverse ++ c :: breakBefore mark [] s

/-- What is left of a run of blanks behind its last line feed, if it has one. -/
def afterLastNewline? (s : Chars) : Option Chars :=
  if s.contains '\n' then some (s.reverse.takeWhile (· != '\n')).reverse else none

def joinBlankLines (s : Chars) : Chars :=
  match s with
  | [] => []
  | c :: t =>
    if c = '\n' then
      match afterLastNewline? (t.takeWhile isBlank) with
      | some r => '\n' :: (r ++ joinBlankLines (t.dropWhile isBlank))
      | none => '\n' :: joinBlankLines t
    else c :: joinBlankLines t
termination_by s.length
decreasing_by
  · have := length_dropWhile_le isBlank t
    simp only [List.length_cons]
    omega
  · simp
  · simp

/-- A text broken behind semicolons and opening braces and before closing
braces. -/
def onManyLines (s : Chars) : Chars :=
  joinBlankLines (breakBefore '\x7d' [] (breakAfter '\x7b' false (breakAfter ';' false s)))

def scrambleCode (o : Options) (s : Chars) : Except TemplateError Chars :=
  (setVersion o.version (if o.dropComments then stripComments s else s)).map
    fun t => respace (tokens t)

def scrambleSegment (o : Options) : Segment → Except TemplateError Chars
  | .quoted t => .ok t
  | .code t => scrambleCode o t

def scramble (o : Options) (s : Chars) : Except TemplateError Chars := do
  let parts ← (segments s).mapM (scrambleSegment o)
  return if o.oneLine then onOneLine parts.flatten else onManyLines parts.flatten

end Obscura.Layout
