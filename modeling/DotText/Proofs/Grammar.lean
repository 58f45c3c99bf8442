import DotText.Edit.Marking
import DotText.Proofs.Relexing

set_option autoImplicit false

/- The grammar of documents. A text is made of pieces, with insignificant material around them; and
the pieces spell a tree. Neither says how a text is gone over: gaps, words and numerals are told by
what they look like, and words and numerals are as long as they can be. -/
namespace DotText

namespace Blank

/-- Insignificant material that is over where it ends: blanks, line ends, `//` and `#` comments with
the line end that closes them, and block comments up to the first `*/`. -/
inductive Gap : List Char → Prop where
  | nil : Gap []
  | blank {c : Char} {gap : List Char} : c ∈ [' ', '\t', '\r', '\n'] → Gap gap → Gap (c :: gap)
  | line {opener body gap : List Char} : opener ∈ [['/', '/'], ['#']] → '\n' ∉ body → Gap gap →
      Gap (opener ++ (body ++ '\n' :: gap))
  | block {body gap : List Char} : ¬ ['*', '/'] <:+: body → Gap gap →
      Gap ('/' :: '*' :: (body ++ '*' :: '/' :: gap))

/-- Insignificant material at the end of a text, of which the last comment may be left open. -/
inductive Ending : List Char → Prop where
  | closed {gap : List Char} : Gap gap → Ending gap
  | line {opener body gap : List Char} : Gap gap → opener ∈ [['/', '/'], ['#']] → '\n' ∉ body →
      Ending (gap ++ (opener ++ body))
  | block {body gap : List Char} : Gap gap → ¬ ['*', '/'] <:+: body →
      Ending (gap ++ '/' :: '*' :: body)

end Blank

/-- The start `w` of the text `w ++ r` is of a kind, and no longer start of it is. -/
def Longest (kind : List Char → Prop) (w r : List Char) : Prop :=
  kind w ∧ ∀ v, kind v → v <+: w ++ r → v.length ≤ w.length

namespace Ident

def IsWord (w : List Char) : Prop :=
  ∃ c t, w = c :: t ∧ isStart c = true ∧ t.all isRest = true

/-- A numeral, perhaps with a sign. -/
def IsNumeral (n : List Char) : Prop :=
  Unsigned n ∨ ∃ m, n = '-' :: m ∧ Unsigned m

/-- What stands between quotes, and the text it stands for: a backslash with a quote is a quote, and
a backslash with any other character is these two. -/
inductive Unescapes : List Char → List Char → Prop where
  | nil : Unescapes [] []
  | quote {body s : List Char} : Unescapes body s → Unescapes ('\\' :: '"' :: body) ('"' :: s)
  | pair {c : Char} {body s : List Char} : c ≠ '"' → Unescapes body s →
      Unescapes ('\\' :: c :: body) ('\\' :: c :: s)
  | plain {c : Char} {body s : List Char} : c ≠ '"' → c ≠ '\\' → Unescapes body s →
      Unescapes (c :: body) (c :: s)

end Ident

/-- No start of a label closes more brackets than it opens, and the label closes all it opens. -/
def Html.Balanced (s : List Char) : Prop :=
  (∀ start, start <+: s → start.count '>' ≤ start.count '<') ∧ s.count '>' = s.count '<'

namespace Lexeme

/-- A piece, how it is written, and the text behind it. -/
inductive WrittenAs : Lexeme → List Char → List Char → Prop where
  | word {w r : List Char} : Longest Ident.IsWord w r → WrittenAs (.word w) w r
  | numeral {n r : List Char} : Longest Ident.IsNumeral n r → WrittenAs (.numeral n) n r
  | quoted {body s r : List Char} : Ident.Unescapes body s →
      WrittenAs (.quoted s) ('"' :: (body ++ ['"'])) r
  | html {s r : List Char} : Html.Balanced s → WrittenAs (.html s) ('<' :: (s ++ ['>'])) r
  | op (kind : Kind) {r : List Char} : WrittenAs (.mark kind.edgeOp.toList) kind.edgeOp.toList r
  | punctuation {c : Char} {r : List Char} : c ∈ ['{', '}', '[', ']', '=', ':'] →
      WrittenAs (.mark [c]) [c] r
  | separator {c : Char} {r : List Char} : c ∈ [',', ';'] → WrittenAs (.separator c) [c] r

/-- A text that is made of these pieces in this order. -/
inductive Make : List Lexeme → List Char → Prop where
  | ending {cs : List Char} : Blank.Ending cs → Make [] cs
  | piece {gap w r : List Char} {p : Lexeme} {ps : List Lexeme} : Blank.Gap gap →
      p.WrittenAs w r → Make ps r → Make (p :: ps) (gap ++ (w ++ r))

end Lexeme

section Trees

variable (op : List Char)

mutual

/-- A statement, without the semicolon behind it. -/
inductive Statement.Spelled : Statement → List Lexeme → Prop where
  | node {ref : NodeRef} {attrs : List Attribute} {name lists : List Lexeme} : ref.Spelled name →
      Attribute.Listed false attrs lists → Statement.Spelled (.node ref attrs) (name ++ lists)
  | edge {first second : Endpoint} {others : List Endpoint} {attrs : List Attribute}
      {start links lists : List Lexeme} : Endpoint.Spelled first start →
      Endpoint.Linked (second :: others) links → Attribute.Listed false attrs lists →
      Statement.Spelled (.edge (first :: second :: others) attrs) (start ++ (links ++ lists))
  | attr {target : AttrTarget} {attrs : List Attribute} {w : Lexeme} {lists : List Lexeme} :
      w.isKeyword target.keyword = true → Attribute.Listed true attrs lists →
      Statement.Spelled (.attr target attrs) (w :: .mark ['['] :: lists)
  | assign {key : String} {value : Value} {k v : Lexeme} : k.name? = some key →
      v.value? = some value →
      Statement.Spelled (.attr .graph [⟨key, value⟩]) [k, .mark ['='], v]
  | subgraph {id : Option String} {body : List Statement} {ls : List Lexeme} :
      Endpoint.Braced id body ls → Statement.Spelled (.subgraph id body) ls

/-- One end of an edge. -/
inductive Endpoint.Spelled : Endpoint → List Lexeme → Prop where
  | node {ref : NodeRef} {name : List Lexeme} : ref.Spelled name →
      Endpoint.Spelled (.node ref) name
  | subgraph {id : Option String} {body : List Statement} {ls : List Lexeme} :
      Endpoint.Braced id body ls → Endpoint.Spelled (.subgraph id body) ls

/-- Ends of edges, each with the operator in front of it. -/
inductive Endpoint.Linked : List Endpoint → List Lexeme → Prop where
  | nil : Endpoint.Linked [] []
  | cons {e : Endpoint} {es : List Endpoint} {ls links : List Lexeme} : Endpoint.Spelled e ls →
      Endpoint.Linked es links → Endpoint.Linked (e :: es) (.mark op :: (ls ++ links))

/-- A subgraph: its braces, what stands in front of them and what is in them. -/
inductive Endpoint.Braced : Option String → List Statement → List Lexeme → Prop where
  | block {id : Option String} {body : List Statement} {head ls : List Lexeme} :
      BlockHead id head → Statement.Listed body ls →
      Endpoint.Braced id body (head ++ .mark ['{'] :: (ls ++ [.mark ['}']]))

/-- Statements, each with at most one semicolon behind it. -/
inductive Statement.Listed : List Statement → List Lexeme → Prop where
  | nil : Statement.Listed [] []
  | cons {s : Statement} {ss : List Statement} {ls seps others : List Lexeme} :
      Statement.Spelled s ls → Lexeme.Separates .ofStatements seps → Statement.Listed ss others →
      Statement.Listed (s :: ss) (ls ++ (seps ++ others))

end

end Trees

namespace Graph

/-- The pieces that a document is spelled with. -/
inductive Spelled : Graph → List Lexeme → Prop where
  | document {g : Graph} {head ls : List Lexeme} : DocumentHead g.kind g.strict g.id head →
      Statement.Listed g.kind.edgeOp.toList g.body ls →
      Spelled g (head ++ .mark ['{'] :: (ls ++ [.mark ['}']]))

/-- A text is a rendering of a document if it is made of pieces that spell the document. -/
def IsRendering (g : Graph) (cs : List Char) : Prop :=
  ∃ pieces, g.Spelled pieces ∧ Lexeme.Make pieces cs

end Graph

end DotText
