set_option autoImplicit false

/- HTML labels: a text in angle brackets, in which brackets are balanced. -/
namespace DotText.Html

/-- The text up to the bracket that closes the outermost of `depth + 1` open ones, and what
follows that bracket. -/
def splitClosed? : Nat → List Char → Option (List Char × List Char)
  | _, [] => none
  | depth, c :: cs =>
    if c = '>' then
      match depth with
      | 0 => some ([], cs)
      | outer + 1 => (splitClosed? outer cs).map fun (s, r) => (c :: s, r)
    else
      (splitClosed? (if c = '<' then depth + 1 else depth) cs).map fun (s, r) => (c :: s, r)

theorem splitClosed?_eq_some {depth : Nat} {cs s r : List Char}
    (found : splitClosed? depth cs = some (s, r)) : cs = s ++ '>' :: r := by
  fun_induction splitClosed? depth cs generalizing s with
  | case1 => simp at found
  | case2 => simp_all
  | case3 cs outer ih =>
    obtain ⟨⟨t, q⟩, inner, same⟩ := Option.map_eq_some_iff.mp found
    cases same
    rw [ih inner]
    rfl
  | case4 depth c cs stays ih =>
    obtain ⟨⟨t, q⟩, inner, same⟩ := Option.map_eq_some_iff.mp found
    cases same
    rw [ih inner]
    rfl

end DotText.Html
