import DotText.Proofs.Grammar.Trees

set_option autoImplicit false

/- A tree that is read from a text is readable: its names and values are those of pieces of a text,
and a piece stands for nothing that could not be written. -/
namespace DotText

/-- A text with no backslash and no quote in it comes back from between quotes. -/
theorem Ident.isQuotable_of_plain {s : List Char} (plain : ∀ c ∈ s, c ≠ '\\' ∧ c ≠ '"') :
    isQuotable false s = true := by
  induction s with
  | nil => rfl
  | cons c s ih =>
    have first := plain c List.mem_cons_self
    have others := ih fun x mem => plain x (List.mem_cons_of_mem c mem)
    simp [isQuotable, first.1, others]

theorem Ident.plain_of_isRest {c : Char} (rest : isRest c = true) : c ≠ '\\' ∧ c ≠ '"' := by
  constructor <;> rintro rfl <;> exact absurd rest (by decide)

theorem Ident.IsWord.isQuotable {w : List Char} (word : IsWord w) : isQuotable false w = true :=
  isQuotable_of_plain fun c mem => plain_of_isRest (word.isRest c mem)

theorem Ident.IsNumeral.isQuotable {n : List Char} (numeral : IsNumeral n) :
    isQuotable false n = true := by
  refine isQuotable_of_plain fun c mem => ?_
  rcases numeral.mem c mem with digit | rfl | rfl
  · exact plain_of_isRest (by simp [isRest, digit])
  · decide
  · decide

namespace Lexeme

/-- Whether what a piece stands for, if it stands for anything, can be written. -/
def Readable (piece : Lexeme) : Prop :=
  ∀ value, piece.value? = some value → value.isReadable = true

theorem Readable.isSpellable {piece : Lexeme} {s : String} (readable : piece.Readable)
    (named : piece.name? = some s) : Ident.isSpellable s = true :=
  readable _ (Value.value?_of_name? named)

theorem WrittenAs.readable {piece : Lexeme} {w r : List Char} (written : piece.WrittenAs w r) :
    piece.Readable := by
  have text {s : List Char} (quotable : Ident.isQuotable false s = true) :
      (Value.text (String.ofList s)).isReadable = true := by
    simpa [Value.isReadable, Value.isWritable, Ident.isSpellable] using quotable
  intro value valued
  cases written with
  | word longest =>
    simp only [value?, name?, Option.map_eq_some_iff, Option.ite_none_left_eq_some,
      Option.some.injEq] at valued
    obtain ⟨_, ⟨-, rfl⟩, rfl⟩ := valued
    exact text longest.1.isQuotable
  | numeral longest =>
    cases valued
    exact text longest.1.isQuotable
  | quoted unescapes =>
    cases valued
    exact text (Ident.isQuotable_of_unescapes unescapes)
  | @html s _ balanced =>
    cases valued
    simpa [Value.isReadable, Value.isWritable] using (Html.isBalanced_iff s).mpr balanced
  | op | punctuation | separator => cases valued

theorem Make.readable {ls : List Lexeme} {cs : List Char} (make : Make ls cs) :
    ∀ piece ∈ ls, piece.Readable := by
  induction make with
  | ending => simp
  | piece _ written _ ih => simpa [written.readable] using ih

end Lexeme

/-- Whether some pieces stand for nothing that could not be written. -/
def AllReadable (ls : List Lexeme) : Prop :=
  ∀ piece ∈ ls, piece.Readable

@[simp] theorem allReadable_cons {piece : Lexeme} {ls : List Lexeme} :
    AllReadable (piece :: ls) ↔ piece.Readable ∧ AllReadable ls := by
  simp [AllReadable]

@[simp] theorem allReadable_append {ls others : List Lexeme} :
    AllReadable (ls ++ others) ↔ AllReadable ls ∧ AllReadable others := by
  simp only [AllReadable, List.mem_append, or_imp, forall_and]

/-- Whether a statement by itself, without those in it, is one that a text is read as. -/
def Statement.isReadable (s : Statement) : Bool :=
  s.isLinked && s.isSpellable Value.isReadable

theorem NodeRef.Spelled.isSpellable {ref : NodeRef} {name : List Lexeme}
    (spelled : ref.Spelled name) (readable : AllReadable name) :
    ref.names.all Ident.isSpellable = true := by
  cases spelled with
  | plain named =>
    simp only [allReadable_cons] at readable
    simp [NodeRef.names, readable.1.isSpellable named]
  | port named named' =>
    simp only [allReadable_cons] at readable
    obtain ⟨id, -, port, -⟩ := readable
    simp [NodeRef.names, id.isSpellable named, port.isSpellable named']
  | compass named named' named'' =>
    simp only [allReadable_cons] at readable
    obtain ⟨id, -, port, -, compass, -⟩ := readable
    simp [NodeRef.names, id.isSpellable named, port.isSpellable named',
      compass.isSpellable named'']

theorem Attribute.Listed.isReadable {opened : Bool} {attrs : List Attribute} {ls : List Lexeme}
    (listed : Listed opened attrs ls) (readable : AllReadable ls) :
    attrs.all (fun a => Ident.isSpellable a.key && a.value.isReadable) = true := by
  induction listed with
  | done => rfl
  | opened _ ih | closed _ ih => exact ih (allReadable_cons.mp readable).2
  | entry named valued _ _ ih =>
    simp only [allReadable_cons, allReadable_append] at readable
    obtain ⟨key, -, value, -, others⟩ := readable
    rw [List.all_cons, key.isSpellable named, value _ valued, ih others]
    rfl

theorem BlockHead.isSpellable {id : Option String} {head : List Lexeme} (spelled : BlockHead id head)
    (readable : AllReadable head) : id.toList.all Ident.isSpellable = true := by
  cases spelled with
  | bare | keyword => rfl
  | named _ named =>
    simp only [allReadable_cons] at readable
    simp [readable.2.1.isSpellable named]

theorem DocumentHead.isSpellable {kind : Kind} {strict : Bool} {id : Option String}
    {head : List Lexeme} (spelled : DocumentHead kind strict id head)
    (readable : AllReadable head) : id.all Ident.isSpellable = true := by
  induction spelled with
  | plain => rfl
  | named _ named =>
    simp only [allReadable_cons] at readable
    simp [readable.2.1.isSpellable named]
  | strict _ _ ih => exact ih (allReadable_cons.mp readable).2

section Trees

variable {op : List Char}

mutual

theorem Statement.Spelled.isReadable {s : Statement} {ls : List Lexeme} : s.Spelled op ls →
    AllReadable ls → s.everywhere Statement.isReadable = true
  | .node spelled listed, readable => by
    rw [allReadable_append] at readable
    have names := spelled.isSpellable readable.1
    have entries := listed.isReadable readable.2
    rw [Statement.everywhere, Statement.isReadable, Statement.isSpellable, Statement.ownNames,
      Statement.ownAttrs, names, entries]
    rfl
  | .edge first links listed, readable => by
    simp only [allReadable_append] at readable
    obtain ⟨names, inside⟩ := first.isReadable readable.1
    obtain ⟨names', inside'⟩ := links.isReadable readable.2.1
    have entries := listed.isReadable readable.2.2
    rw [Statement.everywhere, Statement.isReadable, Statement.isSpellable, Statement.ownNames,
      Statement.ownAttrs, entries, List.flatMap_cons, List.all_append, names, names',
      Endpoint.everywhereInAll, inside, inside']
    simp [Statement.isLinked]
  | .attr _ listed, readable => by
    simp only [allReadable_cons] at readable
    have entries := listed.isReadable readable.2.2
    rw [Statement.everywhere, Statement.isReadable, Statement.isSpellable, Statement.ownNames,
      Statement.ownAttrs, entries]
    rfl
  | .assign named valued, readable => by
    simp only [allReadable_cons] at readable
    obtain ⟨key, -, value, -⟩ := readable
    simp [Statement.everywhere, Statement.isReadable, Statement.isSpellable, Statement.ownNames,
      Statement.ownAttrs, Statement.isLinked, key.isSpellable named, value _ valued]
  | .subgraph inner, readable => by
    obtain ⟨names, inside⟩ := inner.isReadable readable
    rw [Statement.everywhere, Statement.isReadable, Statement.isSpellable, Statement.ownNames,
      Statement.ownAttrs, names, inside]
    rfl

theorem Endpoint.Spelled.isReadable {e : Endpoint} {ls : List Lexeme} : e.Spelled op ls →
    AllReadable ls →
    e.ownNames.all Ident.isSpellable = true ∧ e.everywhere Statement.isReadable = true
  | .node spelled, readable => ⟨spelled.isSpellable readable, rfl⟩
  | .subgraph inner, readable => inner.isReadable readable

theorem Endpoint.Linked.isReadable {es : List Endpoint} {ls : List Lexeme} :
    Endpoint.Linked op es ls → AllReadable ls →
    (es.flatMap Endpoint.ownNames).all Ident.isSpellable = true ∧
      Endpoint.everywhereInAll Statement.isReadable es = true
  | .nil, _ => ⟨rfl, rfl⟩
  | .cons endpoint links, readable => by
    simp only [allReadable_cons, allReadable_append] at readable
    obtain ⟨names, inside⟩ := endpoint.isReadable readable.2.1
    obtain ⟨names', inside'⟩ := links.isReadable readable.2.2
    rw [List.flatMap_cons, List.all_append, names, names', Endpoint.everywhereInAll, inside, inside']
    exact ⟨rfl, rfl⟩

theorem Endpoint.Braced.isReadable {id : Option String} {body : List Statement} {ls : List Lexeme} :
    Endpoint.Braced op id body ls → AllReadable ls →
    id.toList.all Ident.isSpellable = true ∧
      Statement.everywhereInAll Statement.isReadable body = true
  | .block head statements, readable => by
    simp only [allReadable_cons, allReadable_append] at readable
    exact ⟨head.isSpellable readable.1, statements.isReadable readable.2.2.1⟩

theorem Statement.Listed.isReadable {ss : List Statement} {ls : List Lexeme} :
    Statement.Listed op ss ls → AllReadable ls →
    Statement.everywhereInAll Statement.isReadable ss = true
  | .nil, _ => rfl
  | .cons statement _ statements, readable => by
    simp only [allReadable_append] at readable
    rw [Statement.everywhereInAll, statement.isReadable readable.1,
      statements.isReadable readable.2.2]
    rfl

end

end Trees

theorem Statement.everywhereInAll_append (p : Statement → Bool) (ss ts : List Statement) :
    everywhereInAll p (ss ++ ts) = (everywhereInAll p ss && everywhereInAll p ts) := by
  induction ss with
  | nil => rfl
  | cons s ss ih => rw [List.cons_append, everywhereInAll, ih, everywhereInAll, Bool.and_assoc]

/-- What is read is readable. -/
theorem Graph.isReadable_of_read {cs : List Char} {g : Graph} (found : Graph.read cs = .ok g) :
    g.isReadable = true := by
  have spelled := (Graph.read_iff_spelled cs g).mp found
  have readable : AllReadable (Lexeme.all cs) :=
    (Lexeme.make_of_all rfl spelled.known.stray_not_mem).readable
  generalize Lexeme.all cs = ls at spelled readable
  cases spelled with
  | document opening statements =>
    simp only [allReadable_cons, allReadable_append] at readable
    have body := statements.isReadable readable.2.2.1
    rw [Graph.isReadable, opening.isSpellable readable.1, Bool.true_and]
    exact body

end DotText
