import DotText.Index
import DotText.SyntaxError
import DotText.Tree.Equality
import DotText.Tree.Printer

set_option autoImplicit false

/- What becomes of a tree that is written and read again. -/
namespace DotText

/-- The tree that comes back, next to the one that was written. -/
structure RoundTrip where
  written : Graph
  readBack : Graph

/-- Write a tree and read the text. -/
def Graph.roundTrip (g : Graph) : Except SyntaxError RoundTrip :=
  (Graph.ofText g.toText).map (⟨g, ·⟩)

def RoundTrip.keepsTree (trip : RoundTrip) : Bool :=
  trip.readBack = trip.written

def RoundTrip.keepsIndex (trip : RoundTrip) : Bool :=
  trip.readBack.index.agrees trip.written.index

end DotText
