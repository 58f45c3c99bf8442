import DotText.Edit.Pruning
import DotText.Tree.Spelling

set_option autoImplicit false

/- The pieces that a tree is spelled with, each marked as erased or not by what a target erases from
the tree. What a statement or an endpoint is decides all of it: a node goes with its port, an
operator with either of its ends, lists with the last edge of their chain, and the semicolon behind
a statement with the whole of the statement. -/
namespace DotText

/-- A piece of a text, and whether it goes. -/
structure Mark where
  lexeme : Lexeme
  erased : Bool
  deriving DecidableEq

namespace Mark

/-- Pieces that all go, or all stay. -/
def all (erased : Bool) (pieces : List Lexeme) : List Mark :=
  pieces.map (⟨·, erased⟩)

def lexemes (marks : List Mark) : List Lexeme :=
  marks.map Mark.lexeme

/-- The pieces that stay. -/
def survivors (marks : List Mark) : List Lexeme :=
  lexemes (marks.filter (!·.erased))

@[simp] theorem all_append (erased : Bool) (pieces others : List Lexeme) :
    all erased (pieces ++ others) = all erased pieces ++ all erased others :=
  List.map_append

@[simp] theorem lexemes_append (marks others : List Mark) :
    lexemes (marks ++ others) = lexemes marks ++ lexemes others :=
  List.map_append

@[simp] theorem lexemes_nil : lexemes [] = [] := rfl

@[simp] theorem lexemes_cons (mark : Mark) (marks : List Mark) :
    lexemes (mark :: marks) = mark.lexeme :: lexemes marks := rfl

@[simp] theorem lexemes_all (erased : Bool) (pieces : List Lexeme) :
    lexemes (all erased pieces) = pieces := by
  simp [lexemes, all, Function.comp_def]

@[simp] theorem survivors_append (marks others : List Mark) :
    survivors (marks ++ others) = survivors marks ++ survivors others := by
  simp [survivors]

@[simp] theorem survivors_nil : survivors [] = [] := rfl

@[simp] theorem survivors_cons (mark : Mark) (marks : List Mark) :
    survivors (mark :: marks) =
      (if mark.erased then [] else [mark.lexeme]) ++ survivors marks := by
  cases erased : mark.erased <;> simp [survivors, erased]

@[simp] theorem survivors_all (erased : Bool) (pieces : List Lexeme) :
    survivors (all erased pieces) = if erased then [] else pieces := by
  induction pieces with
  | nil => simp [all]
  | cons piece pieces ih =>
    have split : all erased (piece :: pieces) = ⟨piece, erased⟩ :: all erased pieces := rfl
    rw [split, survivors_cons, ih]
    cases erased <;> rfl

end Mark

/-- What stands in front of the first brace of a document. -/
inductive DocumentHead (kind : Kind) : Bool → Option String → List Lexeme → Prop where
  | plain {k : Lexeme} : k.isKeyword kind.keyword = true → DocumentHead kind false none [k]
  | named {id : String} {k n : Lexeme} : k.isKeyword kind.keyword = true → n.name? = some id →
      DocumentHead kind false (some id) [k, n]
  | strict {id : Option String} {w : Lexeme} {ls : List Lexeme} : w.isKeyword "strict" = true →
      DocumentHead kind false id ls → DocumentHead kind true id (w :: ls)

namespace Marking

variable (target : Target) (op : List Char)

mutual

/-- The marked pieces of a statement, without the semicolon behind it. -/
inductive OfStatement : Statement → List Mark → Prop where
  | node {ref : NodeRef} {attrs : List Attribute} {name lists : List Lexeme} : ref.Spelled name →
      Attribute.Listed false attrs lists →
      OfStatement (.node ref attrs) (Mark.all (target.erasesNode ref) (name ++ lists))
  | edge {first second : Endpoint} {others : List Endpoint} {attrs : List Attribute}
      {start links : List Mark} {lists : List Lexeme} : OfEndpoint first start →
      OfLinks first (second :: others) links → Attribute.Listed false attrs lists →
      OfStatement (.edge (first :: second :: others) attrs)
        (start ++ links ++
          Mark.all (target.erasesAttributes (first :: second :: others)) lists)
  | attr {kind : AttrTarget} {attrs : List Attribute} {w : Lexeme} {lists : List Lexeme} :
      w.isKeyword kind.keyword = true → Attribute.Listed true attrs lists →
      OfStatement (.attr kind attrs) (Mark.all false (w :: .mark ['['] :: lists))
  | assign {key : String} {value : Value} {k v : Lexeme} : k.name? = some key →
      v.value? = some value →
      OfStatement (.attr .graph [⟨key, value⟩]) (Mark.all false [k, .mark ['='], v])
  | subgraph {id : Option String} {body : List Statement} {marks : List Mark} :
      OfSubgraph id body marks → OfStatement (.subgraph id body) marks

/-- The marked pieces of one end of an edge. -/
inductive OfEndpoint : Endpoint → List Mark → Prop where
  | node {ref : NodeRef} {name : List Lexeme} : ref.Spelled name →
      OfEndpoint (.node ref) (Mark.all (target.erasesNode ref) name)
  | subgraph {id : Option String} {body : List Statement} {marks : List Mark} :
      OfSubgraph id body marks → OfEndpoint (.subgraph id body) marks

/-- The marked pieces of the endpoints behind one, each with the operator in front of it. -/
inductive OfLinks : Endpoint → List Endpoint → List Mark → Prop where
  | nil {left : Endpoint} : OfLinks left [] []
  | cons {left right : Endpoint} {others : List Endpoint} {marks links : List Mark} :
      OfEndpoint right marks → OfLinks right others links →
      OfLinks left (right :: others) (⟨.mark op, target.erasesOp left right⟩ :: (marks ++ links))

/-- The marked pieces of a block with its braces and what stands in front of them. -/
inductive OfSubgraph : Option String → List Statement → List Mark → Prop where
  | block {id : Option String} {body : List Statement} {head : List Lexeme} {marks : List Mark} :
      BlockHead id head → OfBlock body marks →
      OfSubgraph id body
        (Mark.all false (head ++ [.mark ['{']]) ++ marks ++ Mark.all false [.mark ['}']])

/-- The marked pieces of the statements of a block. -/
inductive OfBlock : List Statement → List Mark → Prop where
  | nil : OfBlock [] []
  | cons {s : Statement} {ss : List Statement} {marks others : List Mark} {seps : List Lexeme} :
      OfStatement s marks → Lexeme.Separates .ofStatements seps → OfBlock ss others →
      OfBlock (s :: ss) (marks ++ Mark.all (target.erasesStatement s) seps ++ others)

end

variable {target : Target} {op : List Char}

theorem head_of_name {ref : NodeRef} {name : List Lexeme} (spelled : ref.Spelled name) :
    ∃ piece others, name = piece :: others ∧ piece.startsStatement = true := by
  cases spelled with
  | plain named | port named | compass named =>
    exact ⟨_, _, rfl, Lexeme.startsStatement_of_name? named⟩

theorem OfSubgraph.head {id : Option String} {body : List Statement} {marks : List Mark}
    (subgraph : OfSubgraph target op id body marks) :
    ∃ piece others, Mark.lexemes marks = piece :: others ∧ piece.startsStatement = true := by
  cases subgraph with
  | block head =>
    cases head with
    | bare => exact ⟨_, _, rfl, rfl⟩
    | keyword same | named same =>
      exact ⟨_, _, rfl, Lexeme.startsStatement_of_isKeyword same⟩

theorem OfEndpoint.head {e : Endpoint} {marks : List Mark} (endpoint : OfEndpoint target op e marks) :
    ∃ piece others, Mark.lexemes marks = piece :: others ∧ piece.startsStatement = true := by
  cases endpoint with
  | node spelled => simpa using head_of_name spelled
  | subgraph inner => exact inner.head

theorem OfStatement.head {s : Statement} {marks : List Mark}
    (statement : OfStatement target op s marks) :
    ∃ piece others, Mark.lexemes marks = piece :: others ∧ piece.startsStatement = true := by
  cases statement with
  | @node _ _ _ lists spelled =>
    obtain ⟨piece, others, rfl, starts⟩ := head_of_name spelled
    exact ⟨piece, others ++ lists, by simp, starts⟩
  | @edge _ _ _ _ _ links lists first =>
    obtain ⟨piece, others, split, starts⟩ := first.head
    exact ⟨piece, others ++ (Mark.lexemes links ++ lists), by simp [split], starts⟩
  | attr same => exact ⟨_, _, rfl, Lexeme.startsStatement_of_isKeyword same⟩
  | assign named => exact ⟨_, _, rfl, Lexeme.startsStatement_of_name? named⟩
  | subgraph inner => exact inner.head

theorem OfLinks.head {left right : Endpoint} {es : List Endpoint} {links : List Mark}
    (linked : OfLinks target op left (right :: es) links) :
    ∃ behind, Mark.lexemes links = .mark op :: behind := by
  cases linked
  exact ⟨_, rfl⟩

/-- In front of a closing brace comes the brace or a statement, and neither goes on with anything
nor separates anything. -/
theorem OfBlock.head {ss : List Statement} {marks : List Mark} (block : OfBlock target op ss marks)
    (others : List Lexeme) :
    ∃ piece, (Mark.lexemes marks ++ .mark ['}'] :: others).head? = some piece ∧
      piece.goesOn = false ∧ ∀ c, piece ≠ .separator c := by
  cases block with
  | nil => exact ⟨_, rfl, rfl, by simp⟩
  | cons statement =>
    obtain ⟨piece, behind, split, starts⟩ := statement.head
    refine ⟨piece, by simp [split], Lexeme.goesOn_of_startsStatement starts, ?_⟩
    rintro c rfl
    cases starts

theorem OfBlock.ends {ss : List Statement} {marks : List Mark} (block : OfBlock target op ss marks)
    {seps : List Lexeme} {allowed : Separators} (separates : Lexeme.Separates allowed seps)
    (others : List Lexeme) :
    Lexeme.Ends (seps ++ (Mark.lexemes marks ++ .mark ['}'] :: others)) := by
  obtain ⟨piece, first, plain, -⟩ := block.head others
  rintro piece' first'
  cases separates with
  | none =>
    rw [List.nil_append, first] at first'
    cases first'
    exact plain
  | one =>
    cases first'
    rfl

end Marking

/-- The marked pieces of a document. -/
inductive Graph.Marked (target : Target) : Graph → List Mark → Prop where
  | document {g : Graph} {head : List Lexeme} {marks : List Mark} :
      DocumentHead g.kind g.strict g.id head →
      Marking.OfBlock target g.kind.edgeOp.toList g.body marks →
      Marked target g
        (Mark.all false (head ++ [.mark ['{']]) ++ marks ++ Mark.all false [.mark ['}']])

end DotText
