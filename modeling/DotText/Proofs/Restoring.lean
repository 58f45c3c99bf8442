import DotText.Proofs.Joining
import DotText.Proofs.Matches
import DotText.Proofs.Retracting

set_option autoImplicit false

/- A new node goes from a document with the bytes that came with it. The walk stops at the indent in
front of it, takes its line away, and finds the closing brace where it was. -/
namespace DotText

open DotText.Part (textOf pieces apart)
open Walk (Move)

theorem Blank.gap_of_spaces {cs : List Char} (blank : ∀ x ∈ cs, x = ' ' ∨ x = '\t') : Gap cs := by
  apply gap_of_forall_mem
  intro x mem
  rcases blank x mem with rfl | rfl <;> decide

namespace Part

/-- The insignificant material at the start of a text is parts of it by itself. -/
theorem ofText_skip (cs : List Char) :
    ∃ took, ofText cs = took ++ ofText (Blank.skip cs) ∧ pieces took = [] := by
  fun_induction Blank.skip cs with
  | case1 cs l r found ih =>
    obtain ⟨took, splits, nothing⟩ := ih
    exact ⟨blank l :: took, by rw [ofText_of_landmark found, splits]; rfl, nothing⟩
  | case2 => exact ⟨[], rfl, rfl⟩
  | case3 c r missing inline ih =>
    obtain ⟨took, splits, nothing⟩ := ih
    exact ⟨blank [c] :: took, by rw [ofText_of_isInline inline, splits]; rfl, nothing⟩
  | case4 => exact ⟨[], rfl, rfl⟩

theorem Whole.ofText_append {p : Lexeme} (whole : (piece p).Whole) {r : List Char}
    (ends : r.head?.any p.extendedBy = false) :
    Blank.skip (p.written ++ r) = p.written ++ r ∧
      ofText (p.written ++ r) = piece p :: ofText r := by
  obtain ⟨known, c, cs, r', first⟩ := whole
  obtain ⟨t, split, again⟩ := Lexeme.first_append first known ends
  have opens := Lexeme.opens_first c t
  rw [again] at opens
  have solid := Blank.skip_of_not_mayBegin (Lexeme.not_mayBegin_of_opens opens known) t
  rw [split]
  refine ⟨solid, ?_⟩
  rw [ofText_of_skip solid, again]

theorem ofText_skip_textOf {parts : List Part} (whole : ∀ part ∈ parts, part.Whole)
    {tail : List Char} (separate : apart tail parts = true) :
    ∃ took, ofText (Blank.skip (textOf parts ++ tail)) = took ++ ofText (Blank.skip tail) ∧
      pieces took = pieces parts := by
  induction parts with
  | nil => exact ⟨[], rfl, rfl⟩
  | cons part parts ih =>
    have rest := fun part mem => whole part (List.mem_cons_of_mem _ mem)
    have this := whole part List.mem_cons_self
    rw [textOf_cons, List.append_assoc]
    cases part with
    | blank cs =>
      rw [text, this.2]
      exact ih rest separate
    | piece p =>
      rw [apart, Bool.and_eq_true, Bool.not_eq_true'] at separate
      obtain ⟨took, splits, said⟩ := ih rest separate.2
      obtain ⟨lead, skipped, nothing⟩ := ofText_skip (textOf parts ++ tail)
      obtain ⟨solid, first⟩ := this.ofText_append separate.1
      rw [text, solid, first, skipped, splits]
      exact ⟨piece p :: (lead ++ took), by simp, by simp [nothing, said]⟩

/-- Where a text begins with parts that are apart, there is a place behind their pieces, and nothing
insignificant follows it. -/
theorem ofText_textOf {parts : List Part} (whole : ∀ part ∈ parts, part.Whole) {tail : List Char}
    (separate : apart tail parts = true) :
    ∃ took, ofText (textOf parts ++ tail) = took ++ ofText (Blank.skip tail) ∧
      pieces took = pieces parts := by
  obtain ⟨lead, skipped, nothing⟩ := ofText_skip (textOf parts ++ tail)
  obtain ⟨took, splits, said⟩ := ofText_skip_textOf whole separate
  exact ⟨lead ++ took, by simp [skipped, splits], by simp [nothing, said]⟩

/-- Two places in a text with as many pieces in front of them are the same place, if a piece is behind
each of them. -/
theorem eq_of_pieces {took took' parts parts' : List Part} {p p' : Lexeme}
    (same : took ++ piece p :: parts = took' ++ piece p' :: parts')
    (said : pieces took = pieces took') : piece p :: parts = piece p' :: parts' := by
  rcases List.append_eq_append_iff.mp same with ⟨more, rfl, split⟩ | ⟨more, rfl, split⟩
  · cases more with
    | nil => exact split
    | cons part more =>
      obtain ⟨rfl, -⟩ := List.cons.inj split
      simp at said
  · cases more with
    | nil => exact split.symm
    | cons part more =>
      obtain ⟨rfl, -⟩ := List.cons.inj split
      simp at said

theorem exists_piece {cs : List Char} (solid : Blank.skip cs = cs) (some : Lexeme.all cs ≠ []) :
    ∃ p parts, ofText cs = piece p :: parts := by
  cases cs with
  | nil => exact absurd (Lexeme.all_of_skip_nil solid) some
  | cons c t => exact ⟨_, _, ofText_of_skip solid⟩

/-- There is one place only in a text behind so many pieces that something significant follows. -/
theorem rest_unique {cs r r' : List Char} {took took' : List Part}
    (splits : ofText cs = took ++ ofText r) (splits' : ofText cs = took' ++ ofText r')
    (said : pieces took = pieces took') (solid : Blank.skip r = r) (solid' : Blank.skip r' = r')
    (some : Lexeme.all r ≠ []) (some' : Lexeme.all r' ≠ []) : r = r' := by
  obtain ⟨p, parts, first⟩ := exists_piece solid some
  obtain ⟨p', parts', first'⟩ := exists_piece solid' some'
  have same : ofText r = ofText r' := by
    have together := splits.symm.trans splits'
    rw [first, first'] at together ⊢
    exact eq_of_pieces together said
  rw [← textOf_ofText r, same, textOf_ofText]

end Part

namespace Cursor

variable {c : Cursor} {front lead : List Char}

/-- What is settled in front of a place ends where the last solid character in front of it does. -/
theorem settled_eq (ends : c.EndsSettled) (passes : c.gapPasses = true) (solid : EndsSolid front)
    (blank : lead.all Separators.ofEntries.passes = true) (before : c.before = front ++ lead) :
    c.settled = front ∧ c.gap = lead := by
  have inside := solid.isPrefix passes before
  have settled : c.settled = front := by
    rcases ends with nothing | ends
    · rw [nothing] at inside ⊢
      exact (List.prefix_nil.mp inside).symm
    · have outside := ends.isPrefix blank before.symm
      exact outside.eq_of_length_le inside.length_le
  refine ⟨settled, ?_⟩
  rw [Cursor.before, settled] at before
  exact List.append_cancel_left before

end Cursor

namespace Walk.Move

open Marking

variable {target : Target} {op : List Char}

/-- The moves over a block are those over its statements one by one. -/
theorem statements_eq (target : Target) (op : List Char) (ss : List Statement) :
    statements target op ss = ss.flatMap (entire target op) ++ [trim] := by
  induction ss with
  | nil =>
    rw [statements]
    rfl
  | cons s ss ih => simp [statements, ih, entire]

/-- The statements of a block are gone over up to any statement behind them. -/
theorem InStep.entires {ss : List Statement} {marks : List Mark}
    (ofBlock : OfBlock target op ss marks) :
    InStep true (ss.flatMap (entire target op)) marks true BehindStatement := by
  cases ofBlock with
  | nil => exact .nil true _
  | cons statement separates block =>
    have steps := (InStep.statement statement separates).append (InStep.entires block)
      fun tail behind _ => (behindStatement_of_block block []).start behind
    simpa [entire] using steps

/-- A token that comes next stays. -/
theorem apply_skip_keep {c : Cursor} {token : Token} {w r : List Char} (begins : BeginsSolid c.rest)
    (found : token.split? c.rest = some (w, r)) (allowed : Separators) (isOptional : Bool) :
    (skip token false allowed isOptional).apply c = .ok (c.keepToken w r) := by
  have approached : c.approach false allowed = c := Cursor.passBlanks_of_beginsSolid begins allowed
  rw [apply, Walk.skip, Cursor.skip]
  simp only [approached, found]
  rfl

/-- The last brace stays, and so does all that is in front of it, if no gap is. -/
theorem run_brace {c : Cursor} {r : List Char} (next : c.rest = '}' :: r) (noGap : c.gap = []) :
    ∃ c', run [trim, mark ['}'] false] c = .ok c' ∧ c'.text = c.text ∧ c'.erased = c.erased := by
  have trimmed : Cursor.Keeps c c.trim := keeps_trim (by simp [keepsGap, noGap])
  have ahead : c.trim.rest = ['}'] ++ r := by
    rw [Cursor.trim]
    split <;> exact next
  have brace : (mark ['}'] false).apply c.trim = .ok (c.trim.keepToken ['}'] r) :=
    apply_skip_keep (ahead ▸ .cons rfl r) (ahead ▸ Token.split?_mark ['}'] r) .none false
  have keeps := trimmed.trans (Cursor.keeps_keepToken ahead.symm)
  refine ⟨_, ?_, keeps.text, keeps.erased⟩
  exact (run_cons_of_apply rfl).trans (run_cons_of_apply brace)

end Walk.Move

/-- A statement that can be written begins with a piece that is behind any other statement. -/
theorem Statement.behind_of_render (kind : Kind) {s : Statement}
    (writable : s.everywhere Statement.isWritable = true) (r : List Char) :
    Walk.Move.BehindStatement (Lexeme.all (s.render kind.edgeOp.toList ++ '\n' :: r)) := by
  obtain ⟨ls, spelled, writes⟩ := Statement.spelled_of_render kind s writable
  obtain ⟨p, others, rfl, starts⟩ := spelled.head
  have solid : p.isSeparator = false := by
    cases p with
    | separator => cases starts
    | _ => rfl
  rw [writes _ (stops_cons (by decide) r)]
  exact ⟨p, _, rfl, Lexeme.goesOn_of_startsStatement starts, solid⟩

namespace Graph

open Walk.Move

variable {g : Graph} {front behind lead rest : List Char} {target : Target}

/-- The parts in front of the closing brace, with the marks of the statements. -/
theorem ClosesAt.marked (closes : g.ClosesAt front behind) (target : Target) :
    ∃ parts head marks, (∀ part ∈ parts, part.Whole) ∧ textOf parts = front ∧
      apart [] parts = true ∧ DocumentHead g.kind g.strict g.id head ∧
      Marking.OfBlock target g.kind.edgeOp.toList g.body marks ∧
      pieces parts = Mark.lexemes (Mark.all false (head ++ [.mark ['{']]) ++ marks) := by
  obtain ⟨parts, whole, made, separate, -⟩ := closes.parts
  obtain ⟨marks, marked, said⟩ := marked_of_read closes.read target
  rw [← made, Part.all_textOf whole separate, all_brace closes.all_behind] at said
  cases marked with
  | document opening block =>
    refine ⟨parts, _, _, whole, made, Part.apart_nil_of_apart separate, opening, block, ?_⟩
    rw [Mark.lexemes_append, Mark.lexemes_all _ [_]] at said
    exact List.append_cancel_right said

theorem calm_statements (closes : g.ClosesAt front behind) (zero : g.countErased target = 0) :
    Calm (opening g ++ g.body.flatMap (entire target g.kind.edgeOp.toList)) := by
  obtain ⟨_, _, _, _, _, _, _, block, _⟩ := closes.marked target
  have calm := calm_of_countErased (isLinked_of_block block) zero
  rw [whole, document, statements_eq, ← List.append_assoc] at calm
  exact (calm_append.mp (calm_append.mp calm).1).1

/-- Where nothing of the document matches the target, the walk comes to the end of the statements and
stops at what stands in the place of the brace. -/
theorem ClosesAt.walk (closes : g.ClosesAt front behind) (line : front.getLast? = some '\n')
    (zero : g.countErased target = 0) (gapped : Blank.Gap lead)
    (begins : BeginsSolid rest) (starts : BehindStatement (Lexeme.all rest)) :
    ∃ c, run (opening g ++ g.body.flatMap (entire target g.kind.edgeOp.toList))
        (.ofText (front ++ (lead ++ rest))) = .ok c ∧
      (c.passBlanks .none).rest = rest ∧ (c.passBlanks .none).EndsSettled := by
  obtain ⟨parts, head, marks, whole, rfl, separate, opening, block, pieces⟩ := closes.marked target
  have calm := calm_statements closes zero
  have apart := Part.apart_of_newline whole line separate (lead ++ rest)
  have found := Part.all_textOf whole apart
  rw [Lexeme.all_append_of_gap gapped, pieces] at found
  have steps := (InStep.opening opening).append ((InStep.entires block).fresh false)
    (fun _ _ _ => trivial)
  obtain ⟨left, c, -, -, next, goes⟩ := steps (.ofText (textOf parts ++ (lead ++ rest))) []
    (Lexeme.all rest) rfl (fun _ => rfl) starts starts.tells found (.inr ⟨rfl, calm⟩)
  obtain ⟨ev, follows, -, exact⟩ := goes.follows
  obtain ⟨rfl, rfl⟩ := exact rfl (allAlong_sweeps calm _)
  -- Nothing is passed behind the statements but the gap.
  have some : Lexeme.all rest ≠ [] := by
    obtain ⟨piece, others, split, -⟩ := starts
    simp [split]
  obtain ⟨piece, mem, solid⟩ := starts.tells
  obtain ⟨seps, listed, passed, clean⟩ := Cursor.follows_passBlanks .none c
    (Cursor.significant_ne_nil (by rw [next]; exact mem) solid)
  obtain rfl := Separators.eq_nil_of_none listed
  have both := follows.trans passed
  obtain ⟨took, splits, said⟩ := both.splits
  obtain ⟨took', splits', said'⟩ := Part.ofText_textOf whole apart
  rw [gapped.skip_append, begins.skip_eq_self] at splits'
  have left : Lexeme.all (c.passBlanks .none).rest = Lexeme.all rest := by
    rw [← List.nil_append (Lexeme.all rest), ← next, passed.takes]
    rfl
  refine ⟨c, goes.ran, ?_, both.ends (.inl rfl)⟩
  refine Part.rest_unique splits splits' ?_ clean.1 begins.skip_eq_self (left ▸ some) some
  rw [said, said', pieces]
  simp

/-- All in front of the indent is settled there, and nothing has been taken away. -/
theorem ClosesAt.place (closes : g.ClosesAt front behind) (line : front.getLast? = some '\n')
    (zero : g.countErased target = 0) (blank : ∀ x ∈ lead, x = ' ' ∨ x = '\t')
    (begins : BeginsSolid rest) (starts : BehindStatement (Lexeme.all rest)) :
    ∃ c, run (opening g ++ g.body.flatMap (entire target g.kind.edgeOp.toList))
        (.ofText (front ++ (lead ++ rest))) = .ok c ∧
      c.passBlanks .none = ⟨front, lead, rest, none, 0⟩ := by
  have gapped := Blank.gap_of_spaces blank
  have passes : lead.all Separators.ofEntries.passes = true := List.all_eq_true.mpr fun x mem => by
    rcases blank x mem with rfl | rfl <;> decide
  have solid : EndsSolid front := by
    obtain ⟨start, rfl⟩ := List.getLast?_eq_some_iff.mp line
    exact ⟨start, '\n', rfl, rfl⟩
  obtain ⟨c, ran, ahead, ends⟩ := closes.walk line zero gapped begins starts
  have calm := calm_statements closes zero
  have keeps := (keeps_run calm (allAlong_keepsGap calm rfl) ran).trans
    (Cursor.keeps_passBlanks .none c)
  have settles := (settles_run ran).trans (Cursor.settles_passBlanks .none c)
  refine ⟨c, ran, ?_⟩
  generalize c.passBlanks .none = reached at ahead ends keeps settles
  have before : reached.before = front ++ lead := by
    have text : reached.before ++ reached.rest = front ++ (lead ++ rest) := keeps.text
    rw [ahead, ← List.append_assoc] at text
    exact List.append_cancel_right text
  obtain ⟨settled, gap⟩ := Cursor.settled_eq ends (settles.passes rfl) solid passes before
  obtain ⟨_, _, _, removal, erased⟩ := reached
  obtain rfl : removal = none := keeps.removal
  obtain rfl : erased = 0 := keeps.erased
  subst settled gap ahead
  rfl

/-- The moves over a document with one statement more come to that statement behind all others. -/
theorem whole_append (target : Target) (g : Graph) (s : Statement) :
    whole target (g.append s) =
      (opening g ++ g.body.flatMap (entire target g.kind.edgeOp.toList)) ++
        (entire target g.kind.edgeOp.toList s ++ [trim, mark ['}'] false]) := by
  have head : opening (g.append s) = opening g := rfl
  rw [whole, document, head, append, statements_eq]
  simp

/-- The line that a node was put on in front of the closing brace goes, and nothing else does. -/
theorem ClosesAt.eraseFrom_line (closes : g.ClosesAt front behind)
    (line : front.getLast? = some '\n') {name : String} (zero : g.countErased (.node name) = 0)
    (blank : ∀ x ∈ lead, x = ' ' ∨ x = '\t') {attrs : List Attribute}
    (writable : (Statement.node ⟨name, none⟩ attrs).everywhere Statement.isWritable = true) :
    (g.append (.node ⟨name, none⟩ attrs)).eraseFrom (.node name) (front ++ (lead ++
        ((Statement.node ⟨name, none⟩ attrs).render g.kind.edgeOp.toList ++ '\n' :: '}' :: behind))) =
      .ok ⟨front ++ '}' :: behind, 1⟩ := by
  have starts := Statement.behind_of_render g.kind writable ('}' :: behind)
  generalize written : (Statement.node ⟨name, none⟩ attrs).render g.kind.edgeOp.toList ++
    '\n' :: '}' :: behind = rest at starts
  have begins : BeginsSolid rest := by
    rw [← written, Statement.render_node, List.append_assoc]
    exact (Ident.beginsSolid_spell name.toList).1.append _
  obtain ⟨c, ran, passed⟩ := closes.place line zero blank begins starts
  have taken := run_node passed written.symm (.cons (by decide) behind) (by simp) line
  generalize reached : (Cursor.closeLine _ _).countErased.cut _ = c' at taken
  obtain ⟨c'', done, text, erased⟩ := run_brace (c := c') (r := behind) (by rw [← reached]; rfl)
    (by rw [← reached]; rfl)
  rw [eraseFrom_eq_run, whole_append, run_append_of_run ran, run_append_of_run taken, done]
  rw [Except.map, text, erased, ← reached]
  simp [Cursor.text, Cursor.before, Cursor.closeLine, Cursor.countErased, Cursor.cut]

/-- A statement that can be written is read back from a line of its own in front of the closing
brace. -/
theorem ClosesAt.read_line (closes : g.ClosesAt front behind) (line : front.getLast? = some '\n')
    (gapped : Blank.Gap lead) {s : Statement} (writable : s.everywhere Statement.isWritable = true) :
    Graph.read (front ++ (lead ++ (s.render g.kind.edgeOp.toList ++ '\n' :: '}' :: behind))) =
      .ok (g.append s.normal) := by
  obtain ⟨parts, whole, rfl, separate, spelled⟩ := closes.parts
  exact read_of_parts whole spelled writable gapped
    (fun tail => Part.apart_of_newline whole line (Part.apart_nil_of_apart separate) (lead ++ tail))
    closes.all_behind

end Graph

namespace Document

variable {d : Document} {front behind : List Char} {name : String}
  {entries : List (String × Option String)}

/-- A statement that can be written gets a line of its own, whatever the layout, where the closing
brace begins a line. -/
theorem append_line (text : d.text.toList = front ++ '}' :: behind)
    (closes : d.tree.ClosesAt front behind) (line : front.getLast? = some '\n')
    (gapped : Blank.Gap d.layout.indent.toList) {s : Statement}
    (writable : s.everywhere Statement.isWritable = true) :
    d.append s = .ok ⟨String.ofList (front ++ (d.layout.indent.toList ++
        (s.render d.tree.kind.edgeOp.toList ++ '\n' :: '}' :: behind))),
      d.tree.append s.normal, (d.tree.append s.normal).index, d.layout⟩ := by
  have read := closes.read_line line gapped writable
  rw [append, text, closes.insertInto, line, ← commit_of_read read]
  simp [Document.line]

/-- A new node that is inserted where the closing brace begins a line, and deleted again, leaves the
document as it was, to the last byte. -/
theorem deleteNode_of_insertNode (reachable : d.Reachable)
    (text : d.text.toList = front ++ '}' :: behind) (closes : d.tree.ClosesAt front behind)
    (line : front.getLast? = some '\n') (blank : ∀ x ∈ d.layout.indent.toList, x = ' ' ∨ x = '\t')
    (new : d.index.nodes.get? name = none) (named : Ident.isSpellable name = true)
    (spellable : Spellable entries) :
    ∃ d', d.insertNode name entries = .ok d' ∧ d'.deleteNode name = .ok (d, 1) := by
  have current := reachable.current
  have writable := (isWritable_node_iff name entries).mpr ⟨named, spellable⟩
  have zero : d.tree.countErased (.node name) = 0 := by
    rw [Graph.countErased_node_eq_zero_iff, ← current.index]
    exact new
  refine ⟨_, append_line text closes line (Blank.gap_of_spaces blank) writable, ?_⟩
  have erased := closes.eraseFrom_line line zero blank writable
  have same : (⟨String.ofList (front ++ '}' :: behind), d.tree, d.tree.index, d.layout⟩ : Document) =
      d := by
    rw [← text, String.ofList_toList, ← current.index]
  rw [node_normal, deleteNode, erase]
  simp only [String.toList_ofList, erased, commit_of_read closes.read, same]
  rfl

/-- The line of a node goes from behind a comment, with a name and a value that need quotes. -/
theorem deleteNode_of_quoted_name :
    ∃ d d' : Document, d.Reachable ∧ d.layout = ⟨" \t", false⟩ ∧
      d.text = "digraph \x7b\n  a -> \x7b b; c \x7d // \x7d\r\n\x7d # end" ∧
      d.insertNode "\x7d; //" [("k", some "\n"), ("x", none)] = .ok d' ∧
      d'.text = "digraph \x7b\n  a -> \x7b b; c \x7d // \x7d\r\n \t\"\x7d; //\" [k=\"\n\"]\n\x7d # end" ∧
      d'.deleteNode "\x7d; //" = .ok (d, 1) := by
  let layout : Layout := ⟨" \t", false⟩
  let text := "digraph \x7b\n  a -> \x7b b; c \x7d // \x7d\r\n\x7d # end"
  let block : Endpoint := .subgraph none [.node ⟨"b", none⟩ [], .node ⟨"c", none⟩ []]
  let g : Graph := ⟨false, .digraph, none, [.edge [.node ⟨"a", none⟩, block] []]⟩
  have read : Graph.read text.toList = .ok g := by decide +kernel
  let d : Document := ⟨text, g, g.index, layout⟩
  have opened : ofText layout text = .ok d := ofText_eq_ok.mpr ⟨g, read, rfl⟩
  obtain ⟨c, front, behind, ran, before, -, split, closes⟩ := Graph.closesAt_of_walk read
  have line : (Walk.document .nothing g (.ofText text.toList)).map
      (fun c => (c.passBlanks .none).before.getLast?) = .ok (some '\n') := by
    decide +kernel
  rw [ran, Except.map, before] at line
  have reachable : d.Reachable := ⟨_, _, d, [], opened, rfl⟩
  have spellable : Spellable [("k", some "\n"), ("x", none)] := by
    simp [Spellable]
    decide
  have restored : ∃ d', d.insertNode "\x7d; //" [("k", some "\n"), ("x", none)] = .ok d' ∧
      d'.deleteNode "\x7d; //" = .ok (d, 1) :=
    deleteNode_of_insertNode reachable split closes (Except.ok.inj line) (by simp [d, layout])
      (by decide +kernel) (by decide) spellable
  obtain ⟨d', inserted, deleted⟩ := restored
  have written : (d.insertNode "\x7d; //" [("k", some "\n"), ("x", none)]).map Document.text =
      .ok "digraph \x7b\n  a -> \x7b b; c \x7d // \x7d\r\n \t\"\x7d; //\" [k=\"\n\"]\n\x7d # end" := by
    decide +kernel
  rw [inserted] at written
  exact ⟨d, d', reachable, rfl, rfl, inserted, Except.ok.inj written, deleted⟩

end Document

end DotText
