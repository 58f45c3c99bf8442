import DotText.Tree.Reader
import DotText.Visible

set_option autoImplicit false

/- Where a text stops being a document, told by line and column. -/
namespace DotText

/-- A place in a text: the line, and the characters before it in that line, both from 1. -/
structure Position where
  line : Nat
  column : Nat
  deriving DecidableEq

/-- The place right after `before`. -/
def Position.after (before : List Char) : Position where
  line := before.count '\n' + 1
  column := (before.reverse.takeWhile (· != '\n')).length + 1

/-- What a text lacks to be a document, where, and what it has there instead. -/
structure SyntaxError where
  position : Position
  expected : Expected
  found : List Char
  deriving DecidableEq

/-- How many characters of the text a message shows. -/
def SyntaxError.shownLength : Nat := 20

/-- The error of a failure to read `source`. -/
def Failure.locate (source : List Char) (failure : Failure) : SyntaxError where
  position := .after (source.take (source.length - failure.rest.length))
  expected := failure.expected
  found := failure.rest.take SyntaxError.shownLength

def SyntaxError.foundText (e : SyntaxError) : String :=
  if e.found.isEmpty then Expected.endOfText.description
  else String.ofList (Visible.quoted e.found)

def SyntaxError.message (e : SyntaxError) : String :=
  "syntax error at " ++ toString e.position.line ++ ":" ++ toString e.position.column ++
    ": expected " ++ e.expected.description ++ ", found " ++ e.foundText

/-- Read a document. -/
def Graph.ofText (text : String) : Except SyntaxError Graph :=
  match Graph.read text.toList with
  | .ok g => .ok g
  | .error failure => .error (failure.locate text.toList)

end DotText
