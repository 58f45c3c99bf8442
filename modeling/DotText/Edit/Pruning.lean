import DotText.Edit.Target

set_option autoImplicit false

/- What a deletion leaves of a tree. Statements about a node that goes are dropped, and a chain
falls apart at each endpoint and operator that goes. -/
namespace DotText

namespace Target

/-- The endpoints that stay, in runs that operators which stay hold together. -/
def runs (target : Target) : List Endpoint → List (List Endpoint)
  | [] => []
  | e :: es =>
    if target.erasesEndpoint e then runs target es
    else
      match es, runs target es with
      | next :: _, run :: others =>
        if target.erasesOp e next then [e] :: run :: others else (e :: run) :: others
      | _, others => [e] :: others

/-- The statement that a run is. A run of one endpoint has no edge, and so no attributes. -/
def ofRun (attrs : List Attribute) : List Endpoint → Statement
  | [.node ref] => .node ref []
  | [.subgraph id body] => .subgraph id body
  | endpoints => .edge endpoints attrs

/-- The statements that some runs are. The attributes of the chain are those of the last run. -/
def ofRuns (attrs : List Attribute) : List (List Endpoint) → List Statement
  | [] => []
  | [run] => [ofRun attrs run]
  | run :: runs => ofRun [] run :: ofRuns attrs runs

mutual

/-- What is left of a statement. -/
def prune (target : Target) : Statement → List Statement
  | .node ref attrs => if target.erasesNode ref then [] else [.node ref attrs]
  | .edge endpoints attrs => ofRuns attrs (target.runs (pruneEndpoints target endpoints))
  | .attr kind attrs => [.attr kind attrs]
  | .subgraph id body => [.subgraph id (pruneAll target body)]

/-- An endpoint with what is left in it. -/
def pruneEndpoint (target : Target) : Endpoint → Endpoint
  | .node ref => .node ref
  | .subgraph id body => .subgraph id (pruneAll target body)

def pruneEndpoints (target : Target) : List Endpoint → List Endpoint
  | [] => []
  | e :: es => pruneEndpoint target e :: pruneEndpoints target es

def pruneAll (target : Target) : List Statement → List Statement
  | [] => []
  | s :: ss => prune target s ++ pruneAll target ss

end

/-- How many operators of a chain go. -/
def countOps (target : Target) : List Endpoint → Nat
  | left :: right :: es =>
    (if target.erasesOp left right then 1 else 0) + countOps target (right :: es)
  | _ => 0

mutual

/-- How many node statements, endpoints and operators of a statement go. -/
def countIn (target : Target) : Statement → Nat
  | .node ref _ => if target.erasesNode ref then 1 else 0
  | .edge endpoints _ => target.countOps endpoints + countInEndpoints target endpoints
  | .attr .. => 0
  | .subgraph _ body => countInAll target body

def countInEndpoint (target : Target) : Endpoint → Nat
  | .node ref => if target.erasesNode ref then 1 else 0
  | .subgraph _ body => countInAll target body

def countInEndpoints (target : Target) : List Endpoint → Nat
  | [] => 0
  | e :: es => countInEndpoint target e + countInEndpoints target es

def countInAll (target : Target) : List Statement → Nat
  | [] => 0
  | s :: ss => countIn target s + countInAll target ss

end

end Target

/-- What a deletion leaves of a document. -/
def Graph.prune (g : Graph) (target : Target) : Graph :=
  { g with body := target.pruneAll g.body }

/-- How many node statements, endpoints and operators of a document go. -/
def Graph.countErased (g : Graph) (target : Target) : Nat :=
  target.countInAll g.body

end DotText
