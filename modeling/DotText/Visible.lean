import DotText.Visible.Extending
import DotText.Visible.Hidden

set_option autoImplicit false

/- Text as it is shown inside a message: between quotes, on one line, and with every character
that could not be seen written by its number. -/
namespace DotText.Visible

/-- A character by its number, in the fewest hexadecimal digits. -/
def numbered (c : Char) : List Char :=
  "\\u\x7b".toList ++ Nat.toDigits 16 c.toNat ++ ['}']

/-- A character inside the quotes. -/
def shown (c : Char) : List Char :=
  if c = '\x00' then ['\\', '0']
  else if c = '\t' then ['\\', 't']
  else if c = '\r' then ['\\', 'r']
  else if c = '\n' then ['\\', 'n']
  else if c = '"' || c = '\\' then ['\\', c]
  else if isExtending c || isHidden c then numbered c
  else [c]

/-- A text between quotes. -/
def quoted (cs : List Char) : List Char :=
  '"' :: (cs.flatMap shown ++ ['"'])

end DotText.Visible
