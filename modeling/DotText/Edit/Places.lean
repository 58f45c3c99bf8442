import DotText.Edit.Moves

set_option autoImplicit false

/- The places of the statements of a document, at any depth. A walk comes to each of them behind
certain moves. -/
namespace DotText

namespace Walk.Move.Place

variable (target : Target) (op : List Char)

mutual

/-- Behind some moves over the statements of a block a walk comes to one of them, or to one inside
one of them. -/
inductive InBlock : List Statement → List Move → Statement → Prop where
  | here {s : Statement} {ss : List Statement} : InBlock (s :: ss) [] s
  | inside {t s : Statement} {ss : List Statement} {before : List Move} : InStatement t before s →
      InBlock (t :: ss) before s
  | later {t s : Statement} {ss : List Statement} {before : List Move} : InBlock ss before s →
      InBlock (t :: ss)
        (statement target op t ++ skipBlanks (target.erasesStatement t) .ofStatements :: before) s

/-- Behind some moves over a statement a walk comes to one inside it. -/
inductive InStatement : Statement → List Move → Statement → Prop where
  | subgraph {id : Option String} {body : List Statement} {before : List Move} {s : Statement} :
      InBlock body before s →
      InStatement (.subgraph id body) (header id ++ mark ['{'] false :: before) s
  | first {e : Endpoint} {es : List Endpoint} {attrs : List Attribute} {before : List Move}
      {s : Statement} : InEndpoint e before s → InStatement (.edge (e :: es) attrs) before s
  | linked {e : Endpoint} {es : List Endpoint} {attrs : List Attribute} {before : List Move}
      {s : Statement} : InLinks (!target.erasesEndpoint e) e es before s →
      InStatement (.edge (e :: es) attrs) (endpoint target op e ++ before) s

inductive InEndpoint : Endpoint → List Move → Statement → Prop where
  | subgraph {id : Option String} {body : List Statement} {before : List Move} {s : Statement} :
      InBlock body before s →
      InEndpoint (.subgraph id body) (header id ++ mark ['{'] false :: before) s

/-- The same of the endpoints behind one. -/
inductive InLinks : Bool → Endpoint → List Endpoint → List Move → Statement → Prop where
  | next {survivor : Bool} {left e : Endpoint} {es : List Endpoint} {before : List Move}
      {s : Statement} : InEndpoint e before s →
      InLinks survivor left (e :: es) (operator target op survivor left e ++ before) s
  | later {survivor : Bool} {left e : Endpoint} {es : List Endpoint} {before : List Move}
      {s : Statement} : InLinks (survivor || !target.erasesEndpoint e) e es before s →
      InLinks survivor left (e :: es)
        (operator target op survivor left e ++ endpoint target op e ++ before) s

end

end Walk.Move.Place

/-- Behind some moves over a document a walk comes to a statement of it. -/
inductive Graph.Stands (target : Target) (g : Graph) : List Walk.Move → Statement → Prop where
  | inBody {before : List Walk.Move} {s : Statement} :
      Walk.Move.Place.InBlock target g.kind.edgeOp.toList g.body before s →
      Stands target g (Walk.Move.opening g ++ before) s

end DotText
