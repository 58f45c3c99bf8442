import DotText.Edit.Marking
import DotText.Proofs.Reading.Attributes
import DotText.Tree.Reader

set_option autoImplicit false

/- From pieces that spell a tree the tree is read. What stands behind a part decides where the part
ends, so each lemma says what may not follow. -/
namespace DotText

open Lexeme (Takes Ends)

theorem Port.readPart_none {cs : List Char}
    (absent : (Lexeme.all cs).head? ≠ some (.mark [':'])) : readPart cs = .ok (none, cs) := by
  unfold readPart
  split
  · next t colon =>
    rw [← Lexeme.all_skip, ne_eq, ← Lexeme.head?_eq_iff_of_isPunctuation (c := ':') (by decide)
      (Blank.skip_skip cs), colon] at absent
    exact absurd rfl absent
  · rfl

theorem Port.readPart_some {cs : List Char} {n : Lexeme} {s : String} {others : List Lexeme}
    (found : Lexeme.all cs = .mark [':'] :: n :: others) (named : n.name? = some s) :
    ∃ r, readPart cs = .ok (some s, r) ∧ Takes cs [.mark [':'], n] r := by
  rw [← Lexeme.all_skip] at found
  obtain ⟨t, colon, -, takes⟩ :=
    Lexeme.char_of_all (c := ':') (by decide) .equals (Blank.skip_skip cs) found
  obtain ⟨r, read, takesName⟩ :=
    Ident.read_of_all (Blank.skip_skip t) (takes.skip.all_rest (l := _ :: _) found) named
  refine ⟨r, ?_, (takes.skip.append takesName).of_skip⟩
  simp only [readPart, colon, bind_eq_ok, pure_eq_ok]
  exact ⟨_, read, rfl⟩

theorem NodeRef.readPort_of_all {ref : NodeRef} {n : Lexeme} {ls others : List Lexeme}
    (spelled : ref.Spelled (n :: ls)) {cs : List Char} (found : Lexeme.all cs = ls ++ others)
    (ends : others.head? ≠ some (.mark [':'])) :
    ∃ r, readPort ref.id cs = .ok (ref, r) ∧ Takes cs ls r := by
  cases spelled with
  | plain named =>
    refine ⟨cs, ?_, Takes.refl cs⟩
    simp only [readPort, bind_eq_ok]
    exact ⟨_, Port.readPart_none (by rw [found]; exact ends), rfl⟩
  | port named named' =>
    obtain ⟨r, read, takes⟩ := Port.readPart_some found named'
    refine ⟨r, ?_, takes⟩
    simp only [readPort, bind_eq_ok]
    refine ⟨_, read, ?_⟩
    simp only [bind_eq_ok, pure_eq_ok]
    exact ⟨_, Port.readPart_none (by rw [takes.all_rest found]; exact ends), rfl⟩
  | compass named named' named'' =>
    obtain ⟨r, read, takes⟩ := Port.readPart_some found named'
    obtain ⟨r', read', takes'⟩ := Port.readPart_some (takes.all_rest (l := _ :: _) found) named''
    refine ⟨r', ?_, takes.append takes'⟩
    simp only [readPort, bind_eq_ok]
    refine ⟨_, read, ?_⟩
    simp only [bind_eq_ok, pure_eq_ok]
    exact ⟨_, read', rfl⟩

theorem NodeRef.Spelled.name {ref : NodeRef} {name : List Lexeme} (spelled : ref.Spelled name) :
    ∃ n ls, name = n :: ls ∧ n.name? = some ref.id := by
  cases spelled with
  | plain named | port named | compass named => exact ⟨_, _, rfl, named⟩

/-- A piece is one word of the language at most. -/
theorem Lexeme.isKeyword_unique {piece : Lexeme} {a b : String} (first : a ∈ Ident.keywords)
    (second : b ∈ Ident.keywords) (same : piece.isKeyword a = true)
    (same' : piece.isKeyword b = true) : a = b := by
  cases piece with
  | word w =>
    have folded : a.toList.map Char.toLower = b.toList.map Char.toLower :=
      (eq_of_beq same).trans (eq_of_beq same').symm
    have distinct : ∀ x ∈ Ident.keywords, ∀ y ∈ Ident.keywords,
        x.toList.map Char.toLower = y.toList.map Char.toLower → x = y := by decide
    exact distinct a first b second folded
  | _ => cases same

theorem Ident.dropWord?_of_all (keyword : String) (listed : keyword ∈ keywords) {cs : List Char}
    {piece : Lexeme} {others : List Lexeme} (solid : Blank.skip cs = cs)
    (found : Lexeme.all cs = piece :: others) :
    ∃ r, Takes cs [piece] r ∧
      dropWord? keyword.toList cs = if piece.isKeyword keyword then some r else none := by
  obtain ⟨c, t, r, rfl, first, -⟩ := Lexeme.first_of_all solid found
  exact ⟨r, Lexeme.takes_of_first first solid, dropWord?_of_first listed first⟩

theorem Endpoint.atOp_eq_false {cs : List Char} (solid : Blank.skip cs = cs)
    (other : ∀ kind : Kind, (Lexeme.all cs).head? ≠ some (.mark kind.edgeOp.toList)) :
    atOp cs = false := by
  have absent (kind : Kind) : kind.edgeOp.toList.isPrefixOf cs = false := by
    rw [← Bool.not_eq_true, Lexeme.isPrefixOf_edgeOp_iff kind solid]
    exact other kind
  simp [atOp, absent]

theorem goesOn_edgeOp (kind : Kind) : (Lexeme.mark kind.edgeOp.toList).goesOn = true := by
  cases kind <;> rfl

/-- Lists in brackets may go on with a statement, but in one way only. -/
theorem Attribute.Listed.not_mark {attrs : List Attribute} {ls others : List Lexeme}
    (listed : Listed false attrs ls) (ends : Ends others) {m : List Char}
    (goesOn : (Lexeme.mark m).goesOn = true) (other : m ≠ ['[']) :
    (ls ++ others).head? ≠ some (.mark m) := by
  rcases listed.head_or_nil with rfl | ⟨ls', rfl⟩
  · exact ends.not_mark goesOn
  · rintro same
    cases same
    exact other rfl

section Statements

variable {target : Target} {kind : Kind}

/-- A reader that reads the statements of a block in any text shorter than `n`. -/
def Agrees (kind : Kind) (n : Nat) (statements : Reader (List Statement)) : Prop :=
  ∀ {cs : List Char}, cs.length < n → statements cs = readStatements kind cs

theorem readTail_alone (kind : Kind) (statements : Reader (List Statement)) (cs : List Char)
    (other : ∀ kind : Kind, (Lexeme.all cs).head? ≠ some (.mark kind.edgeOp.toList)) :
    Reader.many (!Endpoint.atOp ·) (Endpoint.readLink kind statements) (Blank.skip cs) =
      .ok ([], Blank.skip cs) := by
  have stops : Endpoint.atOp (Blank.skip cs) = false :=
    Endpoint.atOp_eq_false (Blank.skip_skip cs) (by rwa [Lexeme.all_skip])
  rw [Reader.many]
  simp [stops]

theorem readTail_node {statements : Reader (List Statement)} {ref : NodeRef}
    {attrs : List Attribute} {lists others : List Lexeme}
    (listed : Attribute.Listed false attrs lists) {cs : List Char}
    (found : Lexeme.all cs = lists ++ others) (ends : Ends others) :
    ∃ r, Statement.readTail kind statements (.node ref) cs = .ok (.node ref attrs, r) ∧
      Takes cs lists r := by
  have found' : Lexeme.all (Blank.skip cs) = lists ++ others := by rw [Lexeme.all_skip, found]
  obtain ⟨r, readLists, takes, -⟩ :=
    Attribute.readLists_of_all listed found' (ends.not_mark (by decide))
  refine ⟨r, ?_, takes.of_skip⟩
  have alone := readTail_alone kind statements cs (by
      intro kind'
      rw [found]
      exact listed.not_mark ends (goesOn_edgeOp kind') (by cases kind' <;> decide))
  simp only [Statement.readTail, bind_eq_ok]
  refine ⟨_, alone, ?_⟩
  simp only [bind_eq_ok, pure_eq_ok]
  exact ⟨_, readLists, rfl⟩

theorem readTail_subgraph {statements : Reader (List Statement)} {id : Option String}
    {body : List Statement} {others : List Lexeme} {cs : List Char}
    (found : Lexeme.all cs = others) (ends : Ends others) :
    ∃ r, Statement.readTail kind statements (.subgraph id body) cs = .ok (.subgraph id body, r) ∧
      Takes cs [] r := by
  have alone := readTail_alone kind statements cs (by
      intro kind'
      rw [found]
      exact ends.not_mark (goesOn_edgeOp kind'))
  refine ⟨_, ?_, (Takes.refl cs).skip⟩
  simp only [Statement.readTail, bind_eq_ok]
  exact ⟨_, alone, rfl⟩

theorem readTail_edge {statements : Reader (List Statement)} {first second : Endpoint}
    {es : List Endpoint} {attrs : List Attribute} {links lists others : List Lexeme}
    (listed : Attribute.Listed false attrs lists) {cs r : List Char}
    (many : Reader.Many (!Endpoint.atOp ·) (Endpoint.readLink kind statements) (Blank.skip cs)
      (second :: es) r)
    (takes : Takes cs links r) (found : Lexeme.all r = lists ++ others) (ends : Ends others) :
    ∃ r', Statement.readTail kind statements first cs =
        .ok (.edge (first :: second :: es) attrs, r') ∧
      Takes cs (links ++ lists) r' := by
  obtain ⟨r', readLists, takesLists, -⟩ :=
    Attribute.readLists_of_all listed found (ends.not_mark (by decide))
  refine ⟨r', ?_, takes.append takesLists⟩
  simp only [Statement.readTail, bind_eq_ok]
  refine ⟨_, many.many_eq, ?_⟩
  simp only [bind_eq_ok, pure_eq_ok]
  exact ⟨_, readLists, rfl⟩

theorem dropKeyword?_of_all {attrTarget : AttrTarget} {cs : List Char} {piece : Lexeme}
    {others : List Lexeme} (solid : Blank.skip cs = cs) (found : Lexeme.all cs = piece :: others)
    (same : piece.isKeyword attrTarget.keyword = true) :
    ∃ r, Takes cs [piece] r ∧ AttrTarget.dropKeyword? cs = some (attrTarget, r) := by
  obtain ⟨c, t, r, rfl, first, -⟩ := Lexeme.first_of_all solid found
  refine ⟨r, Lexeme.takes_of_first first solid, ?_⟩
  have listed (a : AttrTarget) : a.keyword ∈ Ident.keywords := by cases a <;> decide
  have word (a : AttrTarget) := Ident.dropWord?_of_first (listed a) first
  have other (a : AttrTarget) (differs : a.keyword ≠ attrTarget.keyword) :
      piece.isKeyword a.keyword = false := by
    rw [← Bool.not_eq_true]
    exact fun same' => differs (Lexeme.isKeyword_unique (listed a) (listed attrTarget) same' same)
  cases attrTarget with
  | graph => simp [AttrTarget.dropKeyword?, word, same]
  | node => simp [AttrTarget.dropKeyword?, word, same, other .graph (by decide)]
  | edge =>
    simp [AttrTarget.dropKeyword?, word, same, other .graph (by decide), other .node (by decide)]

theorem dropKeyword?_eq_none {cs : List Char} {piece : Lexeme} {others : List Lexeme}
    (solid : Blank.skip cs = cs) (found : Lexeme.all cs = piece :: others)
    (plain : ∀ a : AttrTarget, piece.isKeyword a.keyword = false) :
    AttrTarget.dropKeyword? cs = none := by
  obtain ⟨c, t, r, rfl, first, -⟩ := Lexeme.first_of_all solid found
  have listed (a : AttrTarget) : a.keyword ∈ Ident.keywords := by cases a <;> decide
  simp [AttrTarget.dropKeyword?, Ident.dropWord?_of_first (listed _) first, plain]

/-- A name begins no subgraph. -/
theorem atSubgraph_of_name {cs : List Char} {n : Lexeme} {s : String} {others : List Lexeme}
    (solid : Blank.skip cs = cs) (found : Lexeme.all cs = n :: others)
    (named : n.name? = some s) : Endpoint.atSubgraph cs = false := by
  obtain ⟨r, -, word⟩ := Ident.dropWord?_of_all "subgraph" (by decide) solid found
  have brace : cs.head? ≠ some '{' := by
    rw [ne_eq, Lexeme.head?_eq_iff_of_isPunctuation (by decide) solid, found]
    rintro same
    cases same
    cases named
  rw [Lexeme.isKeyword_of_name? named (by decide), if_neg (by simp)] at word
  rw [Endpoint.atSubgraph, word]
  simpa using brace

variable {statements : Reader (List Statement)}

theorem endpoint_of_name (statements : Reader (List Statement)) {ref : NodeRef}
    {name others : List Lexeme} (spelled : ref.Spelled name)
    {cs : List Char} (solid : Blank.skip cs = cs) (found : Lexeme.all cs = name ++ others)
    (ends : others.head? ≠ some (.mark [':'])) :
    ∃ r, Endpoint.read statements cs = .ok (.node ref, r) ∧ Takes cs name r := by
  obtain ⟨n, ls, rfl, named⟩ := spelled.name
  obtain ⟨r₁, readName, takesName⟩ := Ident.read_of_all solid found named
  obtain ⟨r, readPort, takesPort⟩ :=
    NodeRef.readPort_of_all spelled (takesName.all_rest (l := ls ++ others) found) ends
  refine ⟨r, ?_, takesName.append takesPort⟩
  simp only [Endpoint.read, atSubgraph_of_name solid found named, Bool.false_eq_true, if_false,
    bind_eq_ok, pure_eq_ok]
  exact ⟨_, readName, _, readPort, rfl⟩

/-- A statement that begins with a node is read on from there. -/
theorem statement_of_name (statements : Reader (List Statement)) {ref : NodeRef}
    {name others : List Lexeme} (spelled : ref.Spelled name)
    {cs : List Char} (solid : Blank.skip cs = cs) (found : Lexeme.all cs = name ++ others)
    (ends : others.head? ≠ some (.mark [':'])) (other : others.head? ≠ some (.mark ['='])) :
    ∃ r, Takes cs name r ∧ Statement.read kind statements cs =
      Statement.readTail kind statements (.node ref) r := by
  obtain ⟨n, ls, rfl, named⟩ := spelled.name
  obtain ⟨r₁, readName, takesName⟩ := Ident.read_of_all solid found named
  have found₁ := takesName.skip.all_rest (l := ls ++ others) found
  obtain ⟨r, readPort, takesPort⟩ := NodeRef.readPort_of_all spelled found₁ ends
  have notEquals : ∀ t, Blank.skip r₁ ≠ '=' :: t := by
    intro t start
    have equals : (Lexeme.all (Blank.skip r₁)).head? = some (.mark ['=']) :=
      (Lexeme.head?_eq_iff_of_isPunctuation (by decide) (Blank.skip_skip r₁)).mp (by rw [start]; rfl)
    rw [found₁] at equals
    cases spelled with
    | plain => exact other equals
    | port | compass => cases equals
  refine ⟨r, takesName.skip.append takesPort, ?_⟩
  have notKeyword := dropKeyword?_eq_none solid found fun a =>
    Lexeme.isKeyword_of_name? named (by cases a <;> decide)
  simp only [Statement.read, notKeyword, atSubgraph_of_name solid found named, Bool.false_eq_true,
    if_false]
  unfold Statement.readNamed
  rw [readName]
  dsimp only [bind, Except.bind]
  split
  · next start => exact absurd start (notEquals _)
  · rw [readPort]

theorem statement_of_assignment (statements : Reader (List Statement)) {key : String}
    {value : Value} {k v : Lexeme}
    (named : k.name? = some key) (valued : v.value? = some value) {cs : List Char}
    {others : List Lexeme} (solid : Blank.skip cs = cs)
    (found : Lexeme.all cs = k :: .mark ['='] :: v :: others) :
    ∃ r, Statement.read kind statements cs = .ok (.attr .graph [⟨key, value⟩], r) ∧
      Takes cs [k, .mark ['='], v] r := by
  obtain ⟨r₁, readName, takesName⟩ := Ident.read_of_all solid found named
  have found₁ := takesName.skip.all_rest (l := _ :: _) found
  obtain ⟨r₂, start, -, takesMark⟩ :=
    Lexeme.char_of_all (c := '=') (by decide) .equals (Blank.skip_skip r₁) found₁
  obtain ⟨r, readValue, takesValue⟩ := Value.read_of_all (Blank.skip_skip r₂)
    (takesMark.skip.all_rest (l := _ :: _) found₁) valued
  refine ⟨r, ?_, (takesName.skip.append takesMark).skip.append takesValue⟩
  have notKeyword := dropKeyword?_eq_none solid found fun a =>
    Lexeme.isKeyword_of_name? named (by cases a <;> decide)
  simp only [Statement.read, notKeyword, atSubgraph_of_name solid found named, Bool.false_eq_true,
    if_false, Statement.readNamed, bind_eq_ok]
  refine ⟨_, readName, ?_⟩
  simp only [start, bind_eq_ok, pure_eq_ok]
  exact ⟨_, readValue, rfl⟩

theorem statement_of_keyword (statements : Reader (List Statement)) {attrTarget : AttrTarget}
    {attrs : List Attribute} {w : Lexeme}
    {lists others : List Lexeme} (same : w.isKeyword attrTarget.keyword = true)
    (listed : Attribute.Listed true attrs lists) {cs : List Char} (solid : Blank.skip cs = cs)
    (found : Lexeme.all cs = w :: .mark ['['] :: (lists ++ others)) (ends : Ends others) :
    ∃ r, Statement.read kind statements cs = .ok (.attr attrTarget attrs, r) ∧
      Takes cs (w :: .mark ['['] :: lists) r := by
  obtain ⟨r₁, takesWord, word⟩ := dropKeyword?_of_all solid found same
  have found₁ := takesWord.skip.all_rest (l := .mark ['['] :: lists ++ others) found
  obtain ⟨r, readLists, takes, -⟩ :=
    Attribute.readLists_of_all listed.opened found₁ (ends.not_mark (by decide))
  refine ⟨r, ?_, takesWord.skip.append takes⟩
  have start : (Blank.skip r₁).head? = some '[' :=
    (Lexeme.head?_eq_iff_of_isPunctuation (by decide) (Blank.skip_skip r₁)).mpr
      (by rw [found₁]; rfl)
  simp only [Statement.read, word, start, if_true, bind_eq_ok, pure_eq_ok]
  exact ⟨_, readLists, rfl⟩

/-- What a subgraph begins with is found where its pieces are. -/
theorem atSubgraph_of_head {id : Option String} {head others : List Lexeme}
    (spelled : BlockHead id head) {cs : List Char} (solid : Blank.skip cs = cs)
    (found : Lexeme.all cs = head ++ .mark ['{'] :: others) :
    Endpoint.atSubgraph cs = true ∧ AttrTarget.dropKeyword? cs = none := by
  cases spelled with
  | bare =>
    have start : cs.head? = some '{' :=
      (Lexeme.head?_eq_iff_of_isPunctuation (by decide) solid).mpr (by rw [found]; rfl)
    exact ⟨by simp [Endpoint.atSubgraph, start],
      dropKeyword?_eq_none solid found fun a => rfl⟩
  | keyword same | named same =>
    obtain ⟨r, -, word⟩ := Ident.dropWord?_of_all "subgraph" (by decide) solid found
    rw [same, if_pos rfl] at word
    refine ⟨by rw [Endpoint.atSubgraph, word]; simp, dropKeyword?_eq_none solid found fun a => ?_⟩
    rw [← Bool.not_eq_true]
    intro same'
    have impossible := Lexeme.isKeyword_unique (by cases a <;> decide) (by decide) same' same
    cases a <;> exact absurd impossible (by decide)

theorem readBlockId_of_brace {cs : List Char} {others : List Lexeme} (solid : Blank.skip cs = cs)
    (found : Lexeme.all cs = .mark ['{'] :: others) : readBlockId cs = .ok (none, cs) := by
  have start : cs.head? = some '{' :=
    (Lexeme.head?_eq_iff_of_isPunctuation (by decide) solid).mpr (by rw [found]; rfl)
  rw [readBlockId, if_pos start]

theorem readBlockId_of_name {cs : List Char} {n : Lexeme} {id : String} {others : List Lexeme}
    (solid : Blank.skip cs = cs) (found : Lexeme.all cs = n :: others) (named : n.name? = some id) :
    ∃ r, readBlockId cs = .ok (some id, r) ∧ Takes cs [n] r ∧ Blank.skip r = r := by
  obtain ⟨r, read, takes⟩ := Ident.read_of_all solid found named
  have brace : cs.head? ≠ some '{' := by
    rw [ne_eq, Lexeme.head?_eq_iff_of_isPunctuation (by decide) solid, found]
    rintro same
    cases same
    cases named
  refine ⟨Blank.skip r, ?_, takes.skip, Blank.skip_skip r⟩
  simp only [readBlockId, if_neg brace, bind_eq_ok, pure_eq_ok]
  exact ⟨_, read, rfl⟩

/-- What stands in front of the brace of a subgraph is read, and the braces come next. -/
theorem readSubgraph_of_head (statements : Reader (List Statement)) {id : Option String}
    {head others : List Lexeme}
    (spelled : BlockHead id head) {cs : List Char} (solid : Blank.skip cs = cs)
    (found : Lexeme.all cs = head ++ .mark ['{'] :: others) :
    ∃ r, Takes cs head r ∧ Blank.skip r = r ∧ ∀ {body : List Statement} {r' : List Char},
      readBraces statements r = .ok (body, r') →
        Endpoint.readSubgraph statements cs = .ok ((id, body), r') := by
  cases spelled with
  | bare =>
    obtain ⟨r₁, -, word⟩ := Ident.dropWord?_of_all "subgraph" (by decide) solid found
    refine ⟨cs, Takes.refl cs, solid, fun braces => ?_⟩
    rw [if_neg (by decide)] at word
    simp only [Endpoint.readSubgraph, word, bind_eq_ok, pure_eq_ok]
    exact ⟨_, rfl, _, braces, rfl⟩
  | keyword same =>
    obtain ⟨r₁, takes, word⟩ :=
      Ident.dropWord?_of_all "subgraph" (by decide) solid found
    rw [if_pos same] at word
    have readId := readBlockId_of_brace (Blank.skip_skip r₁)
      (takes.skip.all_rest (l := _ :: _) found)
    refine ⟨Blank.skip r₁, takes.skip, Blank.skip_skip r₁, fun braces => ?_⟩
    simp only [Endpoint.readSubgraph, word, bind_eq_ok, pure_eq_ok]
    exact ⟨_, readId, _, braces, rfl⟩
  | named same named =>
    obtain ⟨r₁, takes, word⟩ :=
      Ident.dropWord?_of_all "subgraph" (by decide) solid found
    rw [if_pos same] at word
    obtain ⟨r₂, readId, takesName, solid'⟩ := readBlockId_of_name (Blank.skip_skip r₁)
      (takes.skip.all_rest (l := _ :: _) found) named
    refine ⟨r₂, takes.skip.append takesName, solid', fun braces => ?_⟩
    simp only [Endpoint.readSubgraph, word, bind_eq_ok, pure_eq_ok]
    exact ⟨_, readId, _, braces, rfl⟩

/-- Braces are read around the statements of a block. -/
theorem readBraces_of_all (statements : Reader (List Statement)) {cs : List Char}
    {body : List Statement} {block others : List Lexeme} (solid : Blank.skip cs = cs)
    (found : Lexeme.all cs = .mark ['{'] :: (block ++ .mark ['}'] :: others))
    (read : ∀ {t : List Char}, t.length < cs.length →
      Lexeme.all t = block ++ .mark ['}'] :: others →
      ∃ r, statements t = .ok (body, r) ∧ Takes t block r ∧ Blank.skip r = r) :
    ∃ r, readBraces statements cs = .ok (body, r) ∧
      Takes cs (.mark ['{'] :: (block ++ [.mark ['}']])) r := by
  obtain ⟨t, rfl, readOpen, takesOpen⟩ :=
    Lexeme.char_of_all (c := '{') (by decide) .openBrace solid found
  have found₁ := takesOpen.all_rest (l := _ ++ _) found
  obtain ⟨r₁, readBody, takesBody, solid₁⟩ := read (by simp) found₁
  obtain ⟨r, rfl, readClose, takesClose⟩ :=
    Lexeme.char_of_all (c := '}') (by decide) .closeBrace solid₁ (takesBody.all_rest found₁)
  refine ⟨r, ?_, by simpa using (takesOpen.append takesBody).append takesClose⟩
  simp only [readBraces, bind_eq_ok, pure_eq_ok]
  exact ⟨_, readOpen, _, readBody, _, readClose, rfl⟩

/-- The semicolon that is there is dropped, if no other follows it. -/
theorem dropSeparator_of_all {cs : List Char} {seps others : List Lexeme}
    (solid : Blank.skip cs = cs) (found : Lexeme.all cs = seps ++ others)
    (separates : Lexeme.Separates .ofStatements seps)
    (ends : ∀ c, others.head? ≠ some (.separator c)) :
    Takes cs seps (Statement.dropSeparator cs) := by
  cases separates with
  | none =>
    unfold Statement.dropSeparator
    split
    · rw [(Lexeme.takes_of_separator (.inr rfl) _).1] at found
      rw [← List.nil_append others, ← found] at ends
      exact absurd rfl (ends ';')
    · exact Takes.refl cs
  | @one c allowed =>
    have semicolon : c = ';' := by simpa [Separators.allows, Separators.ofStatements] using allowed
    subst semicolon
    have start : cs.head? = some ';' :=
      (Lexeme.head?_eq_iff_of_separator (.inr rfl) solid).mpr (by rw [found]; rfl)
    cases cs with
    | nil => cases start
    | cons x t =>
      cases start
      exact Lexeme.takes_of_separator (.inr rfl) t

/-- Wherever these pieces stand in a text of at most `n` characters, and what follows them is as
it has to be, a reader takes them; it is given a reader for the blocks in them. -/
def Recovers (kind : Kind) (pieces : List Lexeme) (follow : List Lexeme → Prop)
    (reads : Reader (List Statement) → List Char → List Char → Prop) : Prop :=
  ∀ (n : Nat) (statements : Reader (List Statement)), Agrees kind n statements →
    ∀ (cs : List Char) (others : List Lexeme), cs.length ≤ n → Blank.skip cs = cs →
      Lexeme.all cs = pieces ++ others → follow others →
      ∃ r, Takes cs pieces r ∧ reads statements cs r

/-- The pieces behind a node at the start of a statement. -/
def FollowsNode (others : List Lexeme) : Prop :=
  others.head? ≠ some (.mark [':']) ∧ others.head? ≠ some (.mark ['='])

theorem followsNode_op (kind : Kind) (others : List Lexeme) :
    FollowsNode (.mark kind.edgeOp.toList :: others) := by
  cases kind <;> simp [FollowsNode, Kind.edgeOp]

/-- The pieces behind a chain. -/
def FollowsChain (others : List Lexeme) : Prop :=
  others.head? ≠ some (.mark [':']) ∧
    ∀ kind : Kind, others.head? ≠ some (.mark kind.edgeOp.toList)

/-- The items of a block are read as the block. -/
theorem readStatements_of_recovers {ss : List Statement} {pieces : List Lexeme}
    (items : Recovers kind pieces (fun others => others.head? = some (.mark ['}']))
      fun statements cs r =>
        Reader.Many Statement.atEnd (Statement.readItem kind statements) cs ss r ∧
          Blank.skip r = r)
    {cs : List Char} {others : List Lexeme}
    (found : Lexeme.all cs = pieces ++ .mark ['}'] :: others) :
    ∃ r, readStatements kind cs = .ok (ss, r) ∧ Takes cs pieces r ∧ Blank.skip r = r := by
  obtain ⟨r, takes, many, solid⟩ := items cs.length
    (fun r => if r.length < cs.length then readStatements kind r else .error ⟨.closeBrace, r⟩)
    (fun shorter => if_pos shorter) (Blank.skip cs) _ (Blank.skip_suffix cs).length_le
    (Blank.skip_skip cs) (by rw [Lexeme.all_skip, found]) rfl
  refine ⟨r, ?_, takes.of_skip, solid⟩
  rw [readStatements]
  exact many.many_eq

theorem readLink_of_read {t r : List Char} {e : Endpoint}
    (read : Endpoint.read statements (Blank.skip t) = .ok (e, r)) :
    Endpoint.readLink kind statements (kind.edgeOp.toList ++ t) = .ok (e, Blank.skip r) := by
  have start : kind.edgeOp.toList.isPrefixOf (kind.edgeOp.toList ++ t) = true := by simp
  have behind : (kind.edgeOp.toList ++ t).drop kind.edgeOp.length = t := by
    rw [← String.length_toList, List.drop_left]
  simp only [Endpoint.readLink, start, behind, if_true, bind_eq_ok, pure_eq_ok]
  exact ⟨_, read, rfl⟩

/-- An item is read when its statement is. -/
theorem readItem_of_read {cs r : List Char} {s : Statement}
    (read : Statement.read kind statements cs = .ok (s, r)) :
    Statement.readItem kind statements cs =
      .ok (s, Blank.skip (Statement.dropSeparator (Blank.skip r))) := by
  simp only [Statement.readItem, bind_eq_ok, pure_eq_ok]
  exact ⟨_, read, rfl⟩

mutual

theorem recovers_statement {s : Statement} {marks : List Mark} :
    Marking.OfStatement target kind.edgeOp.toList s marks →
    Recovers kind (Mark.lexemes marks) Ends fun statements cs r =>
      Statement.read kind statements cs = .ok (s, r)
  | .node spelled listed => by
    intro n statements _ cs others _ solid found ends
    rw [Mark.lexemes_all, List.append_assoc] at found
    have notMark {m : List Char} := listed.not_mark ends (m := m)
    obtain ⟨r, takes, read⟩ := statement_of_name statements spelled solid found
      (notMark (by decide) (by decide)) (notMark (by decide) (by decide))
    obtain ⟨r', readTail, takes'⟩ := readTail_node listed (takes.all_rest found) ends
    exact ⟨r', by simpa using takes.append takes', read.trans readTail⟩
  | .edge first links listed => by
    intro n statements agrees cs others short solid found ends
    simp only [Mark.lexemes_append, Mark.lexemes_all, List.append_assoc] at found
    have linked := links.head
    obtain ⟨r, takes, read⟩ := (recovers_endpoint first).2 n statements agrees cs _ short solid found
      (by obtain ⟨behind, split⟩ := linked; rw [split]; exact followsNode_op kind _)
    have found₁ := takes.skip.all_rest found
    obtain ⟨r₁, takesLinks, many, -⟩ := recovers_links links n statements agrees (Blank.skip r) _
      (Nat.le_trans takes.skip.length_le short) (Blank.skip_skip r) found₁
      ⟨listed.not_mark ends (by decide) (by decide),
        fun kind' => listed.not_mark ends (goesOn_edgeOp kind') (by cases kind' <;> decide)⟩
    obtain ⟨r₂, readTail, takesTail⟩ := readTail_edge listed many takesLinks.of_skip
      (takesLinks.all_rest found₁) ends
    exact ⟨r₂, by simpa using takes.append takesTail, read.trans readTail⟩
  | .attr same listed => by
    intro n statements _ cs others _ solid found ends
    obtain ⟨r, read, takes⟩ :=
      statement_of_keyword statements same listed solid (by simpa using found) ends
    exact ⟨r, by simpa using takes, read⟩
  | .assign named valued => by
    intro n statements _ cs others _ solid found _
    obtain ⟨r, read, takes⟩ :=
      statement_of_assignment statements named valued solid found
    exact ⟨r, takes, read⟩
  | .subgraph subgraph => by
    intro n statements agrees cs others short solid found ends
    obtain ⟨r, takes, start, keyword, read⟩ :=
      recovers_subgraph subgraph n statements agrees cs others short solid found trivial
    obtain ⟨r', readTail, takesTail⟩ := readTail_subgraph (takes.all_rest found) ends
    refine ⟨r', by simpa using takes.append takesTail, ?_⟩
    simp only [Statement.read, keyword, start, if_true, bind_eq_ok]
    exact ⟨_, read, readTail⟩

/-- An endpoint is read as one, and what it begins as a statement is read on from it. -/
theorem recovers_endpoint {e : Endpoint} {marks : List Mark} :
    Marking.OfEndpoint target kind.edgeOp.toList e marks →
    (Recovers kind (Mark.lexemes marks) (fun others => others.head? ≠ some (.mark [':']))
      fun statements cs r => Endpoint.read statements cs = .ok (e, r)) ∧
    (Recovers kind (Mark.lexemes marks) FollowsNode fun statements cs r =>
      Statement.read kind statements cs = Statement.readTail kind statements e r)
  | .node spelled => by
    rw [Mark.lexemes_all]
    constructor
    · intro n statements _ cs others _ solid found ends
      obtain ⟨r, read, takes⟩ := endpoint_of_name statements spelled solid found ends
      exact ⟨r, takes, read⟩
    · intro n statements _ cs others _ solid found ends
      exact statement_of_name _ spelled solid found ends.1 ends.2
  | .subgraph subgraph => by
    constructor
    · intro n statements agrees cs others short solid found _
      obtain ⟨r, takes, start, -, read⟩ :=
        recovers_subgraph subgraph n statements agrees cs others short solid found trivial
      refine ⟨r, takes, ?_⟩
      simp only [Endpoint.read, start, if_true, bind_eq_ok, pure_eq_ok]
      exact ⟨_, read, rfl⟩
    · intro n statements agrees cs others short solid found _
      obtain ⟨r, takes, start, keyword, read⟩ :=
        recovers_subgraph subgraph n statements agrees cs others short solid found trivial
      refine ⟨r, takes, ?_⟩
      simp only [Statement.read, keyword, start, if_true, read]
      rfl

theorem recovers_links {left : Endpoint} {es : List Endpoint} {links : List Mark} :
    Marking.OfLinks target kind.edgeOp.toList left es links →
    Recovers kind (Mark.lexemes links) FollowsChain fun statements cs r =>
      Reader.Many (!Endpoint.atOp ·) (Endpoint.readLink kind statements) cs es r ∧
        Blank.skip r = r
  | .nil => by
    intro n statements _ cs others _ solid found ends
    have stops := Endpoint.atOp_eq_false solid (by rw [found]; exact ends.2)
    exact ⟨cs, Takes.refl cs, .done (by simp [stops]), solid⟩
  | .cons endpoint links => by
    intro n statements agrees cs others short solid found ends
    simp only [Mark.lexemes_cons, Mark.lexemes_append, List.cons_append, List.append_assoc] at found
    have start := (Lexeme.isPrefixOf_edgeOp_iff kind solid).mpr (by rw [found]; rfl)
    obtain ⟨t, rfl⟩ := List.isPrefixOf_iff_prefix.mp start
    have takesOp := Lexeme.takes_of_edgeOp kind t
    have short₁ := Nat.le_trans takesOp.skip.length_le short
    have found₁ := takesOp.skip.all_rest (l := _ ++ _) found
    obtain ⟨r₁, takes, read⟩ := (recovers_endpoint endpoint).1 n statements agrees (Blank.skip t) _
      short₁ (Blank.skip_skip t) found₁ (by
        cases links with
        | nil => exact ends.1
        | cons => exact (followsNode_op kind _).1)
    obtain ⟨r, takesLinks, many, solid'⟩ := recovers_links links n statements agrees
      (Blank.skip r₁) others (Nat.le_trans takes.skip.length_le short₁) (Blank.skip_skip r₁)
      (takes.skip.all_rest found₁) ends
    have takesLink := takesOp.skip.append takes.skip
    refine ⟨r, by simpa using takesLink.append takesLinks, ?_, solid'⟩
    exact .item (by cases kind <;> simp [Endpoint.atOp, start]) (readLink_of_read read)
      takesLink.shorter many

theorem recovers_subgraph {id : Option String} {body : List Statement} {marks : List Mark} :
    Marking.OfSubgraph target kind.edgeOp.toList id body marks →
    Recovers kind (Mark.lexemes marks) (fun _ => True) fun statements cs r =>
      Endpoint.atSubgraph cs = true ∧ AttrTarget.dropKeyword? cs = none ∧
        Endpoint.readSubgraph statements cs = .ok ((id, body), r)
  | .block head block => by
    intro n statements agrees cs others short solid found _
    simp only [Mark.lexemes_append, Mark.lexemes_all, List.append_assoc, List.cons_append,
      List.nil_append] at found
    obtain ⟨start, keyword⟩ := atSubgraph_of_head head solid found
    obtain ⟨r₁, takes, solid₁, readOn⟩ :=
      readSubgraph_of_head statements head solid found
    obtain ⟨r, braces, takesBraces⟩ := readBraces_of_all statements solid₁
      (takes.all_rest found) (by
        intro t shorter found'
        rw [agrees (Nat.lt_of_lt_of_le shorter (Nat.le_trans takes.length_le short))]
        exact readStatements_of_recovers (recovers_block block) found')
    exact ⟨r, by simpa using takes.append takesBraces, start, keyword, readOn braces⟩

theorem recovers_block {ss : List Statement} {marks : List Mark} :
    Marking.OfBlock target kind.edgeOp.toList ss marks →
    Recovers kind (Mark.lexemes marks) (fun others => others.head? = some (.mark ['}']))
      fun statements cs r =>
        Reader.Many Statement.atEnd (Statement.readItem kind statements) cs ss r ∧
          Blank.skip r = r
  | .nil => by
    intro n statements _ cs others _ solid found close
    have close : cs.head? = some '}' :=
      (Lexeme.head?_eq_iff_of_isPunctuation (by decide) solid).mpr (by rw [found]; exact close)
    exact ⟨cs, Takes.refl cs, .done (by simp [Statement.atEnd, close]), solid⟩
  | .cons statement separates block => by
    intro n statements agrees cs others short solid found close
    obtain ⟨behind, rfl⟩ : ∃ behind, others = .mark ['}'] :: behind := by
      cases others <;> simp_all
    simp only [Mark.lexemes_append, Mark.lexemes_all, List.append_assoc] at found
    obtain ⟨r₁, takes, read⟩ := recovers_statement statement n statements agrees cs _ short solid
      found (block.ends separates behind)
    obtain ⟨piece, first, -, noSeparator⟩ := block.head behind
    have takesSeps := dropSeparator_of_all (Blank.skip_skip r₁) (takes.skip.all_rest found) separates
      (by rw [first]; simpa using noSeparator)
    have takesItem := (takes.skip.append takesSeps).skip
    obtain ⟨r, takesBlock, many, solid'⟩ := recovers_block block n statements agrees _ _
      (Nat.le_trans takesItem.length_le short) (Blank.skip_skip _)
      (takesItem.all_rest (by simpa using found)) close
    obtain ⟨piece', behind', split, starts⟩ := statement.head
    rw [split] at takesItem
    refine ⟨r, by simpa [split] using takesItem.append takesBlock, ?_, solid'⟩
    refine .item ?_ (readItem_of_read read) takesItem.shorter many
    have brace : cs.head? ≠ some '}' := by
      rw [ne_eq, Lexeme.head?_eq_iff_of_isPunctuation (by decide) solid, found, split]
      rintro same
      cases same
      cases starts
    cases cs with
    | nil => simp [Lexeme.all_of_skip_nil solid, split] at found
    | cons c t => simpa [Statement.atEnd] using brace

end

end Statements

theorem Kind.read_of_all {kind : Kind} {cs : List Char} {k : Lexeme} {others : List Lexeme}
    (solid : Blank.skip cs = cs) (found : Lexeme.all cs = k :: others)
    (same : k.isKeyword kind.keyword = true) :
    ∃ r, Kind.read cs = .ok (kind, r) ∧ Takes cs [k] r := by
  obtain ⟨c, t, r, rfl, first, -⟩ := Lexeme.first_of_all solid found
  have listed (kind : Kind) : kind.keyword ∈ Ident.keywords := by cases kind <;> decide
  have word (kind : Kind) := Ident.dropWord?_of_first (listed kind) first
  refine ⟨r, ?_, Lexeme.takes_of_first first solid⟩
  cases kind with
  | digraph => simp [Kind.read, word, same]
  | graph =>
    have other : k.isKeyword Kind.digraph.keyword = false := by
      rw [← Bool.not_eq_true]
      intro same'
      exact absurd (Lexeme.isKeyword_unique (listed _) (listed _) same' same) (by decide)
    simp [Kind.read, word, same, other]

namespace Graph

theorem readKind_of_head {kind : Kind} {id : Option String} {head others : List Lexeme}
    (opening : DocumentHead kind false id head) {cs : List Char} (solid : Blank.skip cs = cs)
    (found : Lexeme.all cs = head ++ .mark ['{'] :: others) :
    ∃ r₁ r, Kind.read cs = .ok (kind, r₁) ∧ readBlockId (Blank.skip r₁) = .ok (id, r) ∧
      Takes cs head r ∧ Blank.skip r = r := by
  cases opening with
  | plain same =>
    obtain ⟨r₁, read, takes⟩ := Kind.read_of_all solid found same
    have readId := readBlockId_of_brace (Blank.skip_skip r₁)
      (takes.skip.all_rest (l := _ :: _) found)
    exact ⟨r₁, _, read, readId, takes.skip, Blank.skip_skip r₁⟩
  | named same named =>
    obtain ⟨r₁, read, takes⟩ := Kind.read_of_all solid found same
    obtain ⟨r, readId, takesName, solid'⟩ := readBlockId_of_name (Blank.skip_skip r₁)
      (takes.skip.all_rest (l := _ :: _) found) named
    exact ⟨r₁, r, read, readId, takes.skip.append takesName, solid'⟩

/-- What stands in front of the first brace is read, and the braces come next. -/
theorem read_of_head {g : Graph} {head others : List Lexeme}
    (opening : DocumentHead g.kind g.strict g.id head) {cs : List Char}
    (found : Lexeme.all cs = head ++ .mark ['{'] :: others) :
    ∃ r, Takes cs head r ∧ Blank.skip r = r ∧ ∀ {r' : List Char},
      readBraces (readStatements g.kind) r = .ok (g.body, r') → Blank.skip r' = [] →
        Graph.read cs = .ok g := by
  obtain ⟨strict, kind, id, body⟩ := g
  rw [← Lexeme.all_skip] at found
  cases strict with
  | true =>
    cases opening with
    | strict same opening =>
      obtain ⟨r₁, takes, word⟩ :=
        Ident.dropWord?_of_all "strict" (by decide) (Blank.skip_skip cs) found
      rw [if_pos same] at word
      obtain ⟨r₂, r, readKind, readId, takesHead, solid⟩ := readKind_of_head opening
        (Blank.skip_skip r₁) (takes.skip.all_rest (l := _ ++ _) found)
      refine ⟨r, (takes.skip.append takesHead).of_skip, solid, fun braces ends => ?_⟩
      simp only [Graph.read, word, bind_eq_ok]
      exact ⟨_, readKind, _, readId, _, braces, by simp [ends]; rfl⟩
  | false =>
    obtain ⟨k, ls, rfl, same⟩ : ∃ k ls, head = k :: ls ∧ k.isKeyword kind.keyword = true := by
      cases opening with
      | plain same | named same => exact ⟨_, _, rfl, same⟩
    have other : k.isKeyword "strict" = false := by
      rw [← Bool.not_eq_true]
      intro same'
      have impossible :=
        Lexeme.isKeyword_unique (by decide) (by cases kind <;> decide) same' same
      cases kind <;> exact absurd impossible (by decide)
    obtain ⟨r₁, -, word⟩ :=
      Ident.dropWord?_of_all "strict" (by decide) (Blank.skip_skip cs) found
    rw [if_neg (by simp [other])] at word
    obtain ⟨r₂, r, readKind, readId, takesHead, solid⟩ :=
      readKind_of_head opening (Blank.skip_skip cs) found
    refine ⟨r, takesHead.of_skip, solid, fun braces ends => ?_⟩
    simp only [Graph.read, word, bind_eq_ok]
    exact ⟨_, readKind, _, readId, _, braces, by simp [ends]; rfl⟩

/-- A document is read from any text that its pieces spell. -/
theorem read_of_marked {g : Graph} {target : Target} {marks : List Mark}
    (marked : g.Marked target marks) {cs : List Char}
    (found : Lexeme.all cs = Mark.lexemes marks) : Graph.read cs = .ok g := by
  cases marked with
  | @document head marks opening block =>
    simp only [Mark.lexemes_append, Mark.lexemes_all, List.append_assoc, List.cons_append,
      List.nil_append] at found
    obtain ⟨r, takes, solid, readOn⟩ := read_of_head opening found
    obtain ⟨r', braces, takesBraces⟩ := readBraces_of_all _ solid (takes.all_rest found)
      fun _ found' => readStatements_of_recovers (recovers_block block) found'
    refine readOn braces ?_
    rw [← Lexeme.all_eq_nil]
    exact takesBraces.all_rest (by simpa using takes.all_rest found)

end Graph

end DotText
