import DotText.Blank
import DotText.Html
import DotText.Ident.Reader
import DotText.Tree

set_option autoImplicit false

/- Reading attributes: entries `key = value` in lists, of which any number follow one another. -/
namespace DotText

/-- Read the value of an attribute. A label that does not end is missing its bracket where it
begins. -/
def Value.read (cs : List Char) : Except Failure (Value × List Char) :=
  match cs with
  | '<' :: r =>
    match Html.splitClosed? 0 r with
    | some (s, r') => .ok (.html (String.ofList s), r')
    | none => .error ⟨.closingAngle, cs⟩
  | _ => do
    let (s, r) ← Ident.read cs
    return (.text s, r)

/-- Drop the one separator that may follow an entry of an attribute list. -/
def Attribute.dropSeparator (cs : List Char) : List Char :=
  match cs with
  | ',' :: r => r
  | ';' :: r => r
  | _ => cs

/-- Read an entry `key = value` and what separates it from the next. -/
def Attribute.read (cs : List Char) : Except Failure (Attribute × List Char) := do
  let (key, r) ← Ident.read cs
  let r ← Reader.char '=' .equals (Blank.skip r)
  let (value, r) ← Value.read (Blank.skip r)
  return (⟨key, value⟩, Blank.skip (dropSeparator (Blank.skip r)))

/-- Read one list in brackets. -/
def Attribute.readList (cs : List Char) : Except Failure (List Attribute × List Char) := do
  let r ← Reader.char '[' .openBracket cs
  let (attrs, r) ← Reader.many (·.head? == some ']') Attribute.read (Blank.skip r)
  return (attrs, Blank.skip r.tail)

/-- Read any number of lists in brackets, as one. -/
def Attribute.readLists (cs : List Char) : Except Failure (List Attribute × List Char) := do
  let (lists, r) ← Reader.many (·.head? != some '[') Attribute.readList (Blank.skip cs)
  return (lists.flatten, r)

end DotText
