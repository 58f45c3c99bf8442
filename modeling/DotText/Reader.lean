set_option autoImplicit false

/- Readers take a text apart from its start: they give a value and the rest of the text, or say
what they wanted and where they stopped. -/
namespace DotText

instance decidableEqExcept {ε α : Type} [DecidableEq ε] [DecidableEq α] :
    DecidableEq (Except ε α)
  | .ok a, .ok b => decidable_of_iff (a = b) (by simp)
  | .error e, .error f => decidable_of_iff (e = f) (by simp)
  | .ok _, .error _ => isFalse (by simp)
  | .error _, .ok _ => isFalse (by simp)

/-- What a reader can find missing. -/
inductive Expected where
  | kind
  | openBrace
  | closeBrace
  | openBracket
  | equals
  | arrow
  | doubleDash
  | identifier
  | unreservedIdentifier
  | numeral
  | closingQuote
  | closingAngle
  | endOfText
  deriving DecidableEq

/-- How the missing thing is named in a message. -/
def Expected.description : Expected → String
  | .kind => "`graph` or `digraph`"
  | .openBrace => "`\x7b`"
  | .closeBrace => "`\x7d`"
  | .openBracket => "`[`"
  | .equals => "`=`"
  | .arrow => "`->` in a digraph"
  | .doubleDash => "`--` in an undirected graph"
  | .identifier => "identifier"
  | .unreservedIdentifier => "identifier (keywords must be quoted)"
  | .numeral => "numeral"
  | .closingQuote => "closing `\"`"
  | .closingAngle => "closing `>`"
  | .endOfText => "end of input"

/-- What was missing, and the text from there on. -/
structure Failure where
  expected : Expected
  rest : List Char
  deriving DecidableEq

theorem bind_eq_ok {ε α β : Type} {x : Except ε α} {f : α → Except ε β} {b : β} :
    (x >>= f) = .ok b ↔ ∃ a, x = .ok a ∧ f a = .ok b := by
  cases x <;> simp [bind, Except.bind]

theorem bind_eq_error {ε α β : Type} {x : Except ε α} {f : α → Except ε β} {e : ε} :
    (x >>= f) = .error e ↔ x = .error e ∨ ∃ a, x = .ok a ∧ f a = .error e := by
  cases x <;> simp [bind, Except.bind]

theorem pure_eq_ok {ε α : Type} {a b : α} : (pure a : Except ε α) = .ok b ↔ a = b := by
  simp [pure, Except.pure]

theorem pure_ne_error {ε α : Type} {a : α} {e : ε} : (pure a : Except ε α) ≠ .error e := by
  simp [pure, Except.pure]

/-- A reader for values of type `α`. -/
abbrev Reader (α : Type) := List Char → Except Failure (α × List Char)

/-- Read one given character. -/
def Reader.char (c : Char) (missing : Expected) (cs : List Char) : Except Failure (List Char) :=
  if cs.head? = some c then .ok cs.tail else .error ⟨missing, cs⟩

/-- Read items until `stop` holds of the rest. An item that takes nothing is the last one. -/
def Reader.many {α : Type} (stop : List Char → Bool) (item : Reader α) (cs : List Char) :
    Except Failure (List α × List Char) :=
  if stop cs then .ok ([], cs)
  else
    match item cs with
    | .error failure => .error failure
    | .ok (a, r) =>
      if r.length < cs.length then
        match many stop item r with
        | .error failure => .error failure
        | .ok (as, r') => .ok (a :: as, r')
      else .ok ([a], r)
termination_by cs.length

/-- The items that one reading of many takes, one after another. -/
inductive Reader.Many {α : Type} (stop : List Char → Bool) (item : Reader α) :
    List Char → List α → List Char → Prop where
  | done {cs : List Char} : stop cs = true → Many stop item cs [] cs
  | item {cs r r' : List Char} {a : α} {as : List α} : stop cs = false → item cs = .ok (a, r) →
      r.length < cs.length → Many stop item r as r' → Many stop item cs (a :: as) r'

namespace Reader.Many

variable {α : Type} {stop : List Char → Bool} {item : Reader α}

theorem stop_rest {cs r : List Char} {as : List α} (found : Many stop item cs as r) :
    stop r = true := by
  induction found with
  | done ends => exact ends
  | item _ _ _ _ ih => exact ih

theorem length_le {cs r : List Char} {as : List α} (found : Many stop item cs as r) :
    r.length ≤ cs.length := by
  induction found with
  | done => exact Nat.le_refl _
  | item _ _ shorter _ ih => omega

theorem of_many (shrinks : ∀ cs a r, item cs = .ok (a, r) → r.length < cs.length)
    {cs r : List Char} {as : List α} (read : many stop item cs = .ok (as, r)) :
    Many stop item cs as r := by
  fun_induction many stop item cs generalizing as with
  | case1 cs ends =>
    cases read
    exact .done ends
  | case2 => cases read
  | case3 => cases read
  | case4 cs goesOn a r' found shorter as' r'' others ih =>
    cases read
    exact .item (by simpa using goesOn) found shorter (ih others)
  | case5 cs _ a r' found notShorter => exact absurd (shrinks cs a r' found) notShorter

theorem many_eq {cs r : List Char} {as : List α} (found : Many stop item cs as r) :
    many stop item cs = .ok (as, r) := by
  induction found with
  | done ends => rw [many, if_pos ends]
  | item goesOn read shorter _ ih => rw [many]; simp [goesOn, read, shorter, ih]

end Reader.Many

end DotText
