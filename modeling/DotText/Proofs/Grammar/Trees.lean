import DotText.Proofs.Grammar.Texts
import DotText.Proofs.Reading.Complete
import DotText.Proofs.Reading.Sound
import DotText.SyntaxError

set_option autoImplicit false

/- The pieces that spell a tree are the marked ones without their marks, and so a text is read as a
tree exactly if it is a rendering of it. -/
namespace DotText

namespace Marking

variable {target : Target} {op : List Char}

mutual

theorem OfStatement.spelled {s : Statement} {marks : List Mark} :
    OfStatement target op s marks → Statement.Spelled op s (Mark.lexemes marks)
  | .node spelled listed => by simpa using Statement.Spelled.node spelled listed
  | .edge first links listed => by
    simpa using Statement.Spelled.edge first.spelled links.spelled listed
  | .attr same listed => by simpa using Statement.Spelled.attr same listed
  | .assign named valued => by simpa using Statement.Spelled.assign named valued
  | .subgraph inner => .subgraph inner.spelled

theorem OfEndpoint.spelled {e : Endpoint} {marks : List Mark} :
    OfEndpoint target op e marks → Endpoint.Spelled op e (Mark.lexemes marks)
  | .node spelled => by simpa using Endpoint.Spelled.node spelled
  | .subgraph inner => .subgraph inner.spelled

theorem OfLinks.spelled {left : Endpoint} {es : List Endpoint} {links : List Mark} :
    OfLinks target op left es links → Endpoint.Linked op es (Mark.lexemes links)
  | .nil => .nil
  | .cons endpoint links => by simpa using Endpoint.Linked.cons endpoint.spelled links.spelled

theorem OfSubgraph.spelled {id : Option String} {body : List Statement} {marks : List Mark} :
    OfSubgraph target op id body marks → Endpoint.Braced op id body (Mark.lexemes marks)
  | .block head block => by simpa using Endpoint.Braced.block head block.spelled

theorem OfBlock.spelled {ss : List Statement} {marks : List Mark} :
    OfBlock target op ss marks → Statement.Listed op ss (Mark.lexemes marks)
  | .nil => .nil
  | .cons statement separates block => by
    simpa using Statement.Listed.cons statement.spelled separates block.spelled

end

end Marking

namespace Target

theorem erasesOp_nothing (left right : Endpoint) : nothing.erasesOp left right = false := by
  cases left <;> cases right <;> rfl

theorem erasesAttributes_nothing (endpoints : List Endpoint) :
    nothing.erasesAttributes endpoints = false := by
  have stays : nothing.erasesSomeOp endpoints = false := by
    fun_induction erasesSomeOp nothing endpoints with
    | case1 left right es ih => rw [erasesOp_nothing, ih]; rfl
    | case2 => rfl
  rw [erasesAttributes, stays, Bool.false_and]

theorem erasesStatement_nothing {op : List Char} {s : Statement} {ls : List Lexeme}
    (spelled : s.Spelled op ls) : nothing.erasesStatement s = false := by
  cases spelled with
  | @edge first => cases first <;> rfl
  | _ => rfl

end Target

section Marks

variable {op : List Char}

mutual

theorem Statement.Spelled.marked {s : Statement} {ls : List Lexeme} : s.Spelled op ls →
    Marking.OfStatement .nothing op s (Mark.all false ls)
  | .node spelled listed => .node spelled listed
  | .edge first links listed => by
    -- No operator of the chain is erased, and so its attributes stay.
    have marked := Marking.OfStatement.edge first.marked (links.marked _) listed
    rw [Target.erasesAttributes_nothing] at marked
    simpa using marked
  | .attr same listed => .attr same listed
  | .assign named valued => .assign named valued
  | .subgraph inner => .subgraph inner.marked

theorem Endpoint.Spelled.marked {e : Endpoint} {ls : List Lexeme} : e.Spelled op ls →
    Marking.OfEndpoint .nothing op e (Mark.all false ls)
  | .node spelled => .node spelled
  | .subgraph inner => .subgraph inner.marked

theorem Endpoint.Linked.marked {es : List Endpoint} {ls : List Lexeme} :
    Endpoint.Linked op es ls → ∀ left, Marking.OfLinks .nothing op left es (Mark.all false ls)
  | .nil, _ => .nil
  | .cons endpoint links, left => by
    have marked : Marking.OfLinks .nothing op left _ _ := .cons endpoint.marked (links.marked _)
    rw [Target.erasesOp_nothing] at marked
    simpa [Mark.all] using marked

theorem Endpoint.Braced.marked {id : Option String} {body : List Statement} {ls : List Lexeme} :
    Endpoint.Braced op id body ls → Marking.OfSubgraph .nothing op id body (Mark.all false ls)
  | .block head statements => by
    have marked := Marking.OfSubgraph.block head statements.marked
    simpa [Mark.all] using marked

theorem Statement.Listed.marked {ss : List Statement} {ls : List Lexeme} :
    Statement.Listed op ss ls → Marking.OfBlock .nothing op ss (Mark.all false ls)
  | .nil => .nil
  | .cons statement separates statements => by
    have marked := Marking.OfBlock.cons statement.marked separates statements.marked
    rw [Target.erasesStatement_nothing statement] at marked
    simpa using marked

end

end Marks

/-- Where nothing is to be erased, the marked pieces of a document are the pieces that spell it, and
all of them stay. -/
theorem Graph.Spelled.marked {g : Graph} {ls : List Lexeme} (spelled : g.Spelled ls) :
    g.Marked .nothing (Mark.all false ls) := by
  cases spelled with
  | document opening statements =>
    have marked := Graph.Marked.document opening statements.marked
    simpa [Mark.all] using marked

theorem Graph.Marked.spelled {target : Target} {g : Graph} {marks : List Mark}
    (marked : g.Marked target marks) : g.Spelled (Mark.lexemes marks) := by
  cases marked with
  | document opening block => simpa using Graph.Spelled.document opening block.spelled

namespace Lexeme

def isStray : Lexeme → Bool
  | stray _ => true
  | _ => false

@[simp] theorem isStray_mark (m : List Char) : (mark m).isStray = false := rfl

theorem not_isStray_of_name? {piece : Lexeme} {s : String} (named : piece.name? = some s) :
    piece.isStray = false := by
  cases piece <;> first | rfl | cases named

theorem not_isStray_of_value? {piece : Lexeme} {value : Value}
    (valued : piece.value? = some value) : piece.isStray = false := by
  cases piece <;> first | rfl | cases valued

theorem not_isStray_of_isKeyword {piece : Lexeme} {keyword : String}
    (same : piece.isKeyword keyword = true) : piece.isStray = false := by
  cases piece <;> first | rfl | cases same

/-- Whether some pieces are all of kinds that the grammar has. -/
def Known (ls : List Lexeme) : Prop :=
  ∀ piece ∈ ls, piece.isStray = false

@[simp] theorem known_nil : Known [] := by simp [Known]

@[simp] theorem known_cons {piece : Lexeme} {ls : List Lexeme} :
    Known (piece :: ls) ↔ piece.isStray = false ∧ Known ls := by
  simp [Known]

@[simp] theorem known_append {ls others : List Lexeme} :
    Known (ls ++ others) ↔ Known ls ∧ Known others := by
  simp only [Known, List.mem_append, or_imp, forall_and]

theorem Separates.known {allowed : Separators} {seps : List Lexeme}
    (separates : Separates allowed seps) : Known seps := by
  cases separates <;> simp [isStray]

theorem Known.stray_not_mem {ls : List Lexeme} (known : Known ls) (x : Char) : .stray x ∉ ls :=
  fun mem => absurd (known _ mem) (by simp [isStray])

end Lexeme

open Lexeme (Known)

theorem NodeRef.Spelled.known {ref : NodeRef} {name : List Lexeme} (spelled : ref.Spelled name) :
    Known name := by
  cases spelled with
  | plain named => simp [Lexeme.not_isStray_of_name? named]
  | port named named' =>
    simp [Lexeme.not_isStray_of_name? named, Lexeme.not_isStray_of_name? named']
  | compass named named' named'' =>
    simp [Lexeme.not_isStray_of_name? named, Lexeme.not_isStray_of_name? named',
      Lexeme.not_isStray_of_name? named'']

theorem Attribute.Listed.known {opened : Bool} {attrs : List Attribute} {ls : List Lexeme}
    (listed : Listed opened attrs ls) : Known ls := by
  induction listed with
  | done => simp
  | opened _ ih | closed _ ih => simp [ih]
  | entry named valued separates _ ih =>
    simp [Lexeme.not_isStray_of_name? named, Lexeme.not_isStray_of_value? valued, separates.known,
      ih]

theorem BlockHead.known {id : Option String} {head : List Lexeme} (spelled : BlockHead id head) :
    Known head := by
  cases spelled with
  | bare => simp
  | keyword same => simp [Lexeme.not_isStray_of_isKeyword same]
  | named same named =>
    simp [Lexeme.not_isStray_of_isKeyword same, Lexeme.not_isStray_of_name? named]

theorem DocumentHead.known {kind : Kind} {strict : Bool} {id : Option String} {head : List Lexeme}
    (spelled : DocumentHead kind strict id head) : Known head := by
  induction spelled with
  | plain same => simp [Lexeme.not_isStray_of_isKeyword same]
  | named same named =>
    simp [Lexeme.not_isStray_of_isKeyword same, Lexeme.not_isStray_of_name? named]
  | strict same _ ih => simp [Lexeme.not_isStray_of_isKeyword same, ih]

section Known

variable {op : List Char}

mutual

theorem Statement.Spelled.known {s : Statement} {ls : List Lexeme} : s.Spelled op ls → Known ls
  | .node spelled listed => by simp [spelled.known, listed.known]
  | .edge first links listed => by simp [first.known, links.known, listed.known]
  | .attr same listed => by simp [Lexeme.not_isStray_of_isKeyword same, listed.known]
  | .assign named valued => by
    simp [Lexeme.not_isStray_of_name? named, Lexeme.not_isStray_of_value? valued]
  | .subgraph inner => inner.known

theorem Endpoint.Spelled.known {e : Endpoint} {ls : List Lexeme} : e.Spelled op ls → Known ls
  | .node spelled => spelled.known
  | .subgraph inner => inner.known

theorem Endpoint.Linked.known {es : List Endpoint} {ls : List Lexeme} :
    Endpoint.Linked op es ls → Known ls
  | .nil => Lexeme.known_nil
  | .cons endpoint links => by simp [endpoint.known, links.known]

theorem Endpoint.Braced.known {id : Option String} {body : List Statement} {ls : List Lexeme} :
    Endpoint.Braced op id body ls → Known ls
  | .block head statements => by simp [head.known, statements.known]

theorem Statement.Listed.known {ss : List Statement} {ls : List Lexeme} :
    Statement.Listed op ss ls → Known ls
  | .nil => Lexeme.known_nil
  | .cons statement separates statements => by
    simp [statement.known, separates.known, statements.known]

end

end Known

theorem Graph.Spelled.known {g : Graph} {ls : List Lexeme} (spelled : g.Spelled ls) : Known ls := by
  cases spelled with
  | document opening statements => simp [opening.known, statements.known]

/-- A text is read as the tree that its pieces spell. -/
theorem Graph.read_iff_spelled (cs : List Char) (g : Graph) :
    Graph.read cs = .ok g ↔ g.Spelled (Lexeme.all cs) := by
  constructor
  · intro read
    obtain ⟨marks, marked, split⟩ := Graph.marked_of_read read .nothing
    exact split ▸ marked.spelled
  · intro spelled
    exact Graph.read_of_marked spelled.marked (Mark.lexemes_all false _).symm

theorem Graph.ofText_eq_ok {text : String} {g : Graph} :
    Graph.ofText text = .ok g ↔ Graph.read text.toList = .ok g := by
  unfold Graph.ofText
  cases Graph.read text.toList <;> simp

/-- The texts that are accepted are those of the grammar, and each is read as the tree that it is a
rendering of. -/
theorem Graph.ofText_iff_isRendering (text : String) (g : Graph) :
    Graph.ofText text = .ok g ↔ g.IsRendering text.toList := by
  rw [Graph.ofText_eq_ok, Graph.read_iff_spelled]
  constructor
  · intro spelled
    exact ⟨_, spelled, (Lexeme.make_iff _ _).mpr ⟨rfl, spelled.known.stray_not_mem⟩⟩
  · rintro ⟨pieces, spelled, make⟩
    rwa [((Lexeme.make_iff _ _).mp make).1]

end DotText
