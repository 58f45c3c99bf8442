set_option autoImplicit false

/- Sets of characters given by ranges of code points. -/
namespace DotText.Visible

/-- The first and the last code point of each range. -/
abbrev Ranges := List (Nat × Nat)

/-- Whether a character lies in one of the ranges. -/
def Ranges.has (ranges : Ranges) (c : Char) : Bool :=
  ranges.any fun (first, last) => first ≤ c.toNat && c.toNat ≤ last

end DotText.Visible
