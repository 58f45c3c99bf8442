import DotText.Edit.Marking

set_option autoImplicit false

/- Separators say nothing: a tree is still spelled when some of them are dropped. -/
namespace DotText

namespace Lexeme

/-- The first pieces are the second ones, but for separators that were dropped. -/
inductive Drops : List Lexeme → List Lexeme → Prop where
  | nil : Drops [] []
  | keep {piece : Lexeme} {pieces left : List Lexeme} : Drops pieces left →
      Drops (piece :: pieces) (piece :: left)
  | drop {c : Char} {pieces left : List Lexeme} : Drops pieces left →
      Drops (.separator c :: pieces) left

namespace Drops

theorem refl (pieces : List Lexeme) : Drops pieces pieces := by
  induction pieces with
  | nil => exact .nil
  | cons piece pieces ih => exact .keep ih

theorem trans {a b c : List Lexeme} (first : Drops a b) (second : Drops b c) : Drops a c := by
  induction first generalizing c with
  | nil => exact second
  | keep _ ih =>
    cases second with
    | keep rest => exact .keep (ih rest)
    | drop rest => exact .drop (ih rest)
  | drop _ ih => exact .drop (ih second)

theorem append {a b c d : List Lexeme} (first : Drops a b) (second : Drops c d) :
    Drops (a ++ c) (b ++ d) := by
  induction first with
  | nil => exact second
  | keep _ ih => exact .keep ih
  | drop _ ih => exact .drop ih

/-- What is left of pieces behind one another is left of each. -/
theorem split {a b left : List Lexeme} (drops : Drops (a ++ b) left) :
    ∃ c d, left = c ++ d ∧ Drops a c ∧ Drops b d := by
  induction a generalizing left with
  | nil => exact ⟨[], left, rfl, .nil, drops⟩
  | cons piece a ih =>
    cases drops with
    | keep rest =>
      obtain ⟨c, d, rfl, first, second⟩ := ih rest
      exact ⟨piece :: c, d, rfl, .keep first, second⟩
    | drop rest =>
      obtain ⟨c, d, rfl, first, second⟩ := ih rest
      exact ⟨c, d, rfl, .drop first, second⟩

/-- Nothing but separators is dropped. -/
theorem eq_of_significant {pieces left : List Lexeme} (drops : Drops pieces left)
    (significant : pieces.all (!·.isSeparator) = true) : left = pieces := by
  induction drops with
  | nil => rfl
  | keep _ ih =>
    rw [List.all_cons, Bool.and_eq_true] at significant
    rw [ih significant.2]
  | drop => cases significant

theorem filter_eq {pieces left : List Lexeme} (drops : Drops pieces left) :
    left.filter (!·.isSeparator) = pieces.filter (!·.isSeparator) := by
  induction drops with
  | nil => rfl
  | keep _ ih => rw [List.filter_cons, List.filter_cons, ih]
  | drop _ ih => simpa [isSeparator] using ih

theorem separates {allowed : Separators} {seps left : List Lexeme} (drops : Drops seps left)
    (separates : Separates allowed seps) : Separates allowed left := by
  cases separates with
  | none =>
    cases drops
    exact .none
  | one listed =>
    cases drops with
    | keep rest =>
      cases rest
      exact .one listed
    | drop rest =>
      cases rest
      exact .none

end Drops

theorem not_isSeparator_of_name? {piece : Lexeme} {s : String} (named : piece.name? = some s) :
    piece.isSeparator = false := by
  cases piece <;> first | rfl | cases named

theorem not_isSeparator_of_value? {piece : Lexeme} {value : Value}
    (valued : piece.value? = some value) : piece.isSeparator = false := by
  cases piece <;> first | rfl | cases valued

theorem not_isSeparator_of_isKeyword {piece : Lexeme} {keyword : String}
    (same : piece.isKeyword keyword = true) : piece.isSeparator = false := by
  cases piece <;> first | rfl | cases same

theorem significant_of_assignment {k v : Lexeme} {key : String} {value : Value}
    (named : k.name? = some key) (valued : v.value? = some value) :
    [k, .mark ['='], v].all (!·.isSeparator) = true := by
  simp [not_isSeparator_of_name? named, not_isSeparator_of_value? valued]

end Lexeme

open Lexeme (Drops)

theorem NodeRef.Spelled.significant {ref : NodeRef} {name : List Lexeme}
    (spelled : ref.Spelled name) : name.all (!·.isSeparator) = true := by
  cases spelled with
  | plain named => simp [Lexeme.not_isSeparator_of_name? named]
  | port named named' =>
    simp [Lexeme.not_isSeparator_of_name? named, Lexeme.not_isSeparator_of_name? named']
  | compass named named' named'' =>
    simp [Lexeme.not_isSeparator_of_name? named, Lexeme.not_isSeparator_of_name? named',
      Lexeme.not_isSeparator_of_name? named'']

theorem BlockHead.significant {id : Option String} {head : List Lexeme}
    (spelled : BlockHead id head) : head.all (!·.isSeparator) = true := by
  cases spelled with
  | bare => rfl
  | keyword same => simp [Lexeme.not_isSeparator_of_isKeyword same]
  | named same named =>
    simp [Lexeme.not_isSeparator_of_isKeyword same, Lexeme.not_isSeparator_of_name? named]

theorem DocumentHead.significant {kind : Kind} {strict : Bool} {id : Option String}
    {head : List Lexeme} (spelled : DocumentHead kind strict id head) :
    head.all (!·.isSeparator) = true := by
  induction spelled with
  | plain same => simp [Lexeme.not_isSeparator_of_isKeyword same]
  | named same named =>
    simp [Lexeme.not_isSeparator_of_isKeyword same, Lexeme.not_isSeparator_of_name? named]
  | strict same _ ih => rw [List.all_cons, Lexeme.not_isSeparator_of_isKeyword same, ih]; rfl

theorem Attribute.Listed.drops {opened : Bool} {attrs : List Attribute} {ls left : List Lexeme}
    (listed : Listed opened attrs ls) (drops : Drops ls left) : Listed opened attrs left := by
  induction listed generalizing left with
  | done =>
    cases drops
    exact .done
  | opened _ ih =>
    cases drops with
    | keep rest => exact .opened (ih rest)
  | closed _ ih =>
    cases drops with
    | keep rest => exact .closed (ih rest)
  | @entry key value attrs k v seps ls named valued separates _ ih =>
    have plain := Lexeme.significant_of_assignment named valued
    obtain ⟨start, rest, rfl, first, behind⟩ := Drops.split (a := [k, .mark ['='], v]) drops
    obtain ⟨seps', others, rfl, second, third⟩ := behind.split
    rw [first.eq_of_significant plain]
    simpa using Listed.entry named valued (second.separates separates) (ih third)

namespace Marking

variable {target : Target} {op : List Char}

mutual

theorem OfStatement.drops {s : Statement} {marks : List Mark} : OfStatement target op s marks →
    ∀ {left : List Lexeme}, Drops (Mark.lexemes marks) left →
      ∃ marks', OfStatement target op s marks' ∧ Mark.lexemes marks' = left
  | .node spelled listed, left, drops => by
    rw [Mark.lexemes_all] at drops
    obtain ⟨name, lists, rfl, first, second⟩ := drops.split
    rw [first.eq_of_significant spelled.significant]
    exact ⟨_, .node spelled (listed.drops second), by simp⟩
  | .edge endpoint links listed, left, drops => by
    rw [Mark.lexemes_append, Mark.lexemes_append, Mark.lexemes_all] at drops
    obtain ⟨chain, lists, rfl, first, third⟩ := drops.split
    obtain ⟨start, others, rfl, first, second⟩ := first.split
    obtain ⟨start', endpoint', rfl⟩ := endpoint.drops first
    obtain ⟨others', links', rfl⟩ := links.drops second
    exact ⟨_, .edge endpoint' links' (listed.drops third), by simp⟩
  | .attr (w := w) same listed, left, drops => by
    rw [Mark.lexemes_all] at drops
    obtain ⟨start, lists, rfl, first, second⟩ := Drops.split (a := [w, .mark ['[']]) drops
    rw [first.eq_of_significant (by simp [Lexeme.not_isSeparator_of_isKeyword same])]
    exact ⟨_, .attr same (listed.drops second), by simp⟩
  | .assign named valued, left, drops => by
    rw [Mark.lexemes_all] at drops
    rw [drops.eq_of_significant (Lexeme.significant_of_assignment named valued)]
    exact ⟨_, .assign named valued, by simp⟩
  | .subgraph inner, left, drops => by
    obtain ⟨marks', inner', split⟩ := inner.drops drops
    exact ⟨marks', .subgraph inner', split⟩

theorem OfEndpoint.drops {e : Endpoint} {marks : List Mark} : OfEndpoint target op e marks →
    ∀ {left : List Lexeme}, Drops (Mark.lexemes marks) left →
      ∃ marks', OfEndpoint target op e marks' ∧ Mark.lexemes marks' = left
  | .node spelled, left, drops => by
    rw [Mark.lexemes_all] at drops
    rw [drops.eq_of_significant spelled.significant]
    exact ⟨_, .node spelled, by simp⟩
  | .subgraph inner, left, drops => by
    obtain ⟨marks', inner', split⟩ := inner.drops drops
    exact ⟨marks', .subgraph inner', split⟩

theorem OfLinks.drops {e : Endpoint} {es : List Endpoint} {marks : List Mark} :
    OfLinks target op e es marks → ∀ {left : List Lexeme}, Drops (Mark.lexemes marks) left →
      ∃ marks', OfLinks target op e es marks' ∧ Mark.lexemes marks' = left
  | .nil, left, drops => by
    cases drops
    exact ⟨[], .nil, rfl⟩
  | .cons endpoint links, left, drops => by
    rw [Mark.lexemes_cons, Mark.lexemes_append] at drops
    cases drops with
    | keep rest =>
      obtain ⟨start, others, rfl, first, second⟩ := rest.split
      obtain ⟨start', endpoint', rfl⟩ := endpoint.drops first
      obtain ⟨others', links', rfl⟩ := links.drops second
      exact ⟨_, .cons endpoint' links', by simp⟩

theorem OfSubgraph.drops {id : Option String} {body : List Statement} {marks : List Mark} :
    OfSubgraph target op id body marks →
    ∀ {left : List Lexeme}, Drops (Mark.lexemes marks) left →
      ∃ marks', OfSubgraph target op id body marks' ∧ Mark.lexemes marks' = left
  | .block head block, left, drops => by
    simp only [Mark.lexemes_append, Mark.lexemes_all] at drops
    obtain ⟨rest, close, rfl, rest, third⟩ := drops.split
    obtain ⟨start, inner, rfl, first, second⟩ := rest.split
    obtain ⟨inner', block', rfl⟩ := block.drops second
    rw [first.eq_of_significant (by simp [head.significant]),
      third.eq_of_significant rfl]
    exact ⟨_, .block head block', by simp⟩

/-- A block from which some separators are dropped is the same block. -/
theorem OfBlock.drops {ss : List Statement} {marks : List Mark} : OfBlock target op ss marks →
    ∀ {left : List Lexeme}, Drops (Mark.lexemes marks) left →
      ∃ marks', OfBlock target op ss marks' ∧ Mark.lexemes marks' = left
  | .nil, left, drops => by
    cases drops
    exact ⟨[], .nil, rfl⟩
  | .cons statement separates block, left, drops => by
    simp only [Mark.lexemes_append, Mark.lexemes_all] at drops
    obtain ⟨rest, others, rfl, first, third⟩ := drops.split
    obtain ⟨start, seps, rfl, first, second⟩ := first.split
    obtain ⟨start', statement', rfl⟩ := statement.drops first
    obtain ⟨others', block', rfl⟩ := block.drops third
    exact ⟨_, .cons statement' (second.separates separates) block', by simp⟩

end

end Marking

theorem Graph.Marked.drops {g : Graph} {target : Target} {marks : List Mark}
    (marked : g.Marked target marks) {left : List Lexeme} (drops : Drops (Mark.lexemes marks) left) :
    ∃ marks', g.Marked target marks' ∧ Mark.lexemes marks' = left := by
  cases marked with
  | document opening block =>
    simp only [Mark.lexemes_append, Mark.lexemes_all] at drops
    obtain ⟨rest, close, rfl, rest, third⟩ := drops.split
    obtain ⟨start, inner, rfl, first, second⟩ := rest.split
    obtain ⟨inner', block', rfl⟩ := block.drops second
    rw [first.eq_of_significant (by simp [opening.significant]),
      third.eq_of_significant rfl]
    exact ⟨_, .document opening block', by simp⟩

end DotText
