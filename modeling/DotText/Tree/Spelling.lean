import DotText.Cursor.Separators
import DotText.Lexeme

set_option autoImplicit false

/- The pieces that the smaller parts of a tree are spelled with. -/
namespace DotText

/-- At most one separator. -/
inductive Lexeme.Separates (allowed : Separators) : List Lexeme → Prop where
  | none : Separates allowed []
  | one {c : Char} : allowed.allows c = true → Separates allowed [.separator c]

/-- A node, perhaps with a port, and that perhaps with a compass point. -/
inductive NodeRef.Spelled : NodeRef → List Lexeme → Prop where
  | plain {id : String} {n : Lexeme} : n.name? = some id → Spelled ⟨id, none⟩ [n]
  | port {id port : String} {n p : Lexeme} : n.name? = some id → p.name? = some port →
      Spelled ⟨id, some ⟨port, none⟩⟩ [n, .mark [':'], p]
  | compass {id port compass : String} {n p q : Lexeme} : n.name? = some id →
      p.name? = some port → q.name? = some compass →
      Spelled ⟨id, some ⟨port, some compass⟩⟩ [n, .mark [':'], p, .mark [':'], q]

/-- Lists in brackets with these entries in all; the first argument says whether a bracket is open
already. -/
inductive Attribute.Listed : Bool → List Attribute → List Lexeme → Prop where
  | done : Listed false [] []
  | opened {attrs : List Attribute} {ls : List Lexeme} : Listed true attrs ls →
      Listed false attrs (.mark ['['] :: ls)
  | closed {attrs : List Attribute} {ls : List Lexeme} : Listed false attrs ls →
      Listed true attrs (.mark [']'] :: ls)
  | entry {key : String} {value : Value} {attrs : List Attribute} {k v : Lexeme}
      {seps ls : List Lexeme} : k.name? = some key → v.value? = some value →
      Lexeme.Separates .ofEntries seps → Listed true attrs ls →
      Listed true (⟨key, value⟩ :: attrs) (k :: .mark ['='] :: v :: (seps ++ ls))

/-- What stands in front of the brace of a subgraph. -/
inductive BlockHead : Option String → List Lexeme → Prop where
  | bare : BlockHead none []
  | keyword {w : Lexeme} : w.isKeyword "subgraph" = true → BlockHead none [w]
  | named {id : String} {w n : Lexeme} : w.isKeyword "subgraph" = true → n.name? = some id →
      BlockHead (some id) [w, n]

/-- Behind an open bracket comes a name or the bracket that closes it. -/
theorem Attribute.Listed.head {attrs : List Attribute} {ls : List Lexeme}
    (listed : Listed true attrs ls) :
    ∃ piece others, ls = piece :: others ∧ (piece = .mark [']'] ∨ piece.name?.isSome = true) := by
  cases listed with
  | closed => exact ⟨_, _, rfl, .inl rfl⟩
  | entry named => exact ⟨_, _, rfl, .inr (by simp [named])⟩

/-- With no bracket open come brackets or nothing. -/
theorem Attribute.Listed.head_or_nil {attrs : List Attribute} {ls : List Lexeme}
    (listed : Listed false attrs ls) : ls = [] ∨ ∃ others, ls = .mark ['['] :: others := by
  cases listed with
  | done => exact .inl rfl
  | opened => exact .inr ⟨_, rfl⟩

end DotText
