import DotText.Edit.Moves

set_option autoImplicit false

/- What an edit relies on. Taking away insignificant material can stop short of its end, can leave a
separator standing behind a landmark, and can bring two words together; each of these is a condition
on the moves of a walk, decided where the move is made. -/
namespace DotText

/-- Whether two texts put together have other pieces than by themselves. -/
def Lexeme.joins (cs written : List Char) : Bool :=
  all (cs ++ written) != all cs ++ all written

namespace Cursor

/-- The rest behind all insignificant material and separators. -/
def behindSeparators (c : Cursor) : List Char :=
  (c.passBlanks .ofEntries).rest

/-- Whether no landmark stands in front of a separator that is to go. -/
def sweeps (allowed : Separators) (c : Cursor) : Bool :=
  !(Blank.skip c.rest).head?.any allowed.allows ||
    c.rest.dropWhile Blank.isInline == Blank.skip c.rest

end Cursor

/-- Whether a character is or begins something that may stand in front of a token. -/
def Separators.mayPrecede (c : Char) : Bool :=
  Blank.isInline c || c == '\n' || c == '#' || c == '/' || c == ',' || c == ';'

/-- Whether a token begins with a character that cannot stand in front of it. An identifier need not,
since it may be any text between quotes. -/
def Token.isSolid : Token → Bool
  | keyword word => Ident.keywords.contains (String.ofList word)
  | html _ => true
  | ident text | mark text => text.head?.any (!Separators.mayPrecede ·)

namespace Walk.Move

/-- Whether a token that comes next is reached: nothing is left in front of it once the material that
may be passed has been gone over. -/
def reaches : Move → Cursor → Bool
  | skip token erase allowed _, c =>
    let c := c.approach erase allowed
    !token.isAt c.behindSeparators || c.rest == c.behindSeparators
  | _, _ => true

/-- Whether a token that has to be there is there. -/
def finds : Move → Cursor → Bool
  | skip token erase allowed false, c => token.isAt (c.approach erase allowed).rest
  | _, _ => true

/-- Whether a token is not reached that has to be there. Another that may begin as what stands in
front of a token does could be found there by mistake. -/
def misses : Move → Cursor → Bool
  | skip token erase allowed false, c =>
    token.isSolid && !reaches (skip token erase allowed false) c
  | _, _ => false

/-- Whether the separators that are to go with what a move goes over do go. -/
def sweeps : Move → Cursor → Bool
  | skip _ true allowed _, c => c.sweeps allowed
  | skipBlanks true allowed, c => c.sweeps allowed
  | _, _ => true

/-- Whether a token that is kept stays apart from what is kept in front of it. -/
def keepsApart : Move → Cursor → Bool
  | skip token false allowed _, c =>
    let c := c.approach false allowed
    match token.split? c.rest with
    | some (written, _) => !Lexeme.joins c.before written
    | none => true
  | _, _ => true

/-- Whether no gap with anything in it is given up. -/
def keepsGap : Move → Cursor → Bool
  | trim, c => !c.isErasing || c.gap.isEmpty
  | _, _ => true

/-- Whether a move takes anything away from a text that nothing was taken from before. -/
def erases : Move → Bool
  | skip _ erase _ _ | emptyLists erase | skipBlanks erase _ => erase
  | spaceApart | count => true
  | trim => false

/-- Moves that take nothing away. -/
def Calm (ms : List Move) : Prop :=
  ms.all (!·.erases) = true

theorem calm_append {ms others : List Move} : Calm (ms ++ others) ↔ Calm ms ∧ Calm others := by
  simp only [Calm, List.all_append, Bool.and_eq_true]

theorem calm_cons {m : Move} {ms : List Move} :
    Calm (m :: ms) ↔ m.erases = false ∧ Calm ms := by
  simp only [Calm, List.all_cons, Bool.and_eq_true, Bool.not_eq_true']

theorem calm_nil : Calm [] := rfl

end Walk.Move

end DotText
