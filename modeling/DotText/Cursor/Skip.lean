import DotText.Cursor.Blanks
import DotText.Cursor.Token

set_option autoImplicit false

/- Finding a token at the place of a cursor, behind whatever does not matter. -/
namespace DotText.Cursor

/-- Move past the token that is written at the place as `written`. Of a token without text nothing
is kept. -/
def keepToken (c : Cursor) (written rest : List Char) : Cursor :=
  if written.isEmpty then c else c.keep written rest

/-- Take away the start of the rest and the blanks after it. -/
def cutToken (c : Cursor) (rest : List Char) : Cursor :=
  (c.cut rest).cutBlanks .none

/-- Move past the blanks in front of a token. Where the token is to go and separators are allowed,
what is in front of it goes as well. -/
def approach (erase : Bool) (allowed : Separators) (c : Cursor) : Cursor :=
  c.skipBlanks (erase && allowed.any) allowed

/-- Move past a token, or with `erase` take it away. The answer is whether the token was there; one
that is not there and not optional is a mismatch. -/
def skip (token : Token) (erase : Bool) (allowed : Separators) (isOptional : Bool) (c : Cursor) :
    Cursor × Except Mismatch Bool :=
  let c := c.approach erase allowed
  match token.split? c.rest with
  | some (written, r) => (if erase then c.cutToken r else c.keepToken written r, .ok true)
  | none =>
    if isOptional then (if erase then c.cutToken c.rest else c, .ok false)
    else (c, .error (token.mismatch c.rest))

/-- Move to a token, which has to be there. -/
def seek (token : Token) (c : Cursor) : Cursor × Except Mismatch Unit :=
  let c := c.passBlanks .none
  (c, if token.isAt c.rest then .ok () else .error (token.mismatch c.rest))

end DotText.Cursor
