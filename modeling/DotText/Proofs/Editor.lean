import DotText.Editor
import DotText.Proofs.Agreement
import DotText.Proofs.Documents

set_option autoImplicit false

/- Edits in place. Nothing is changed before all that can fail has been done, and so an edit in place
is the edit, or leaves the document as it was; an insertion adds the one statement that it is asked
for exactly where all that is given can be spelled. -/
namespace DotText

namespace Document

variable {α : Type}

/-- What comes of an edit in place if one that fails changes nothing. -/
def settle (d : Document) : Except EditError (Document × α) → EStateM.Result EditError Document α
  | .ok (d', a) => .ok a d'
  | .error e => .error e d

variable {d d' : Document} {x : Except EditError (Document × α)}

theorem settle_eq_ok {a : α} : d.settle x = .ok a d' ↔ x = .ok (d', a) := by
  cases x <;> simp [settle, and_comm, Prod.ext_iff]

theorem settle_eq_error {e : EditError} : d.settle x = .error e d' ↔ x = .error e ∧ d' = d := by
  cases x <;> simp [settle, eq_comm]

end Document

namespace Editor

variable (d : Document)

theorem commit_eq (text : List Char) :
    commit (String.ofList text) d = d.settle ((d.commit text).map (·, ())) := by
  unfold commit Document.commit Document.ofText
  cases Graph.ofText (String.ofList text) <;> rfl

theorem get_eq : (get : Editor Document) d = .ok d d := rfl

theorem append_eq (s : Statement) : append s d = d.settle ((d.append s).map (·, ())) := by
  simp only [append, Document.append, bind, EStateM.bind, get_eq]
  cases d.tree.insertInto (d.line s) d.layout.freshLine d.text.toList with
  | error m => rfl
  | ok text => exact commit_eq d text

theorem erase_eq (target : Target) : erase target d = d.settle (d.erase target) := by
  simp only [erase, Document.erase, bind, EStateM.bind, get_eq]
  cases d.tree.eraseFrom target d.text.toList with
  | error m => rfl
  | ok erasure =>
    simp only []
    split
    · rfl
    · simp only [EStateM.bind, commit_eq]
      cases d.commit erasure.text <;> rfl

end Editor

/-- An edit in place comes to what the edit comes to. -/
theorem Edit.perform_eq (edit : Edit) (d : Document) : edit.perform d = d.settle (edit.apply d) := by
  cases edit with
  | insertNode name entries =>
    simp only [perform, bind, EStateM.bind, Editor.append_eq, apply, Document.insertNode]
    cases d.append (.node ⟨name, none⟩ (Document.attributes entries)) <;> rfl
  | insertEdge tail head entries =>
    simp only [perform, bind, EStateM.bind, Editor.append_eq, apply, Document.insertEdge]
    cases d.append _ <;> rfl
  | deleteNode name =>
    simp only [perform, bind, EStateM.bind, Editor.erase_eq, apply, Document.deleteNode]
    cases d.erase (.node name) <;> rfl
  | deleteEdge name =>
    simp only [perform, apply, Document.deleteEdge]
    cases EdgeName.split? name.toList with
    | none => rfl
    | some ends =>
      simp only [bind, EStateM.bind, Editor.erase_eq]
      cases d.erase (.edge (String.ofList ends.1) (String.ofList ends.2)) <;> rfl
  | reread =>
    have start : perform .reread d =
        (do Editor.commit d.text; return none : Editor (Option Nat)) d := rfl
    have read := Editor.commit_eq d d.text.toList
    rw [String.ofList_toList] at read
    rw [start, apply, Document.reread]
    simp only [bind, EStateM.bind, read]
    cases d.commit d.text.toList <;> rfl

namespace Document

open Walk (Move)

variable {d d' : Document}

theorem serve_edit (d : Document) (edit : Edit) :
    (Request.edit edit).serve d =
      d.settle ((edit.apply d).map fun (d', count) => (d', .edited count)) := by
  simp only [Request.serve, bind, EStateM.bind, edit.perform_eq d]
  cases edit.apply d <;> rfl

theorem serve_ask (d : Document) (question : Question) :
    (Request.ask question).serve d = .ok (.answered (d.answer question)) d := rfl

/-- What a request leaves is what the attempt at the edit leaves, if it is one. -/
theorem after_edit (d : Document) (edit : Edit) : d.after (.edit edit) = (d.attempt edit).1 := by
  rw [after, serve_edit, attempt]
  cases edit.apply d <;> rfl

/-- A request leaves the tree and the index those of the text, and the layout as it is. -/
theorem Current.after (current : d.Current) (request : Request) :
    (d.after request).Current ∧ (d.after request).layout = d.layout := by
  cases request with
  | edit edit =>
    rw [after_edit]
    exact current.attempt edit
  | ask question => exact ⟨current, rfl⟩

theorem Current.afterAll (current : d.Current) (requests : List Request) :
    (d.afterAll requests).Current ∧ (d.afterAll requests).layout = d.layout := by
  induction requests generalizing d with
  | nil => exact ⟨current, rfl⟩
  | cons request requests ih =>
    obtain ⟨current', layout⟩ := current.after request
    obtain ⟨last, layout'⟩ := ih current'
    exact ⟨last, layout'.trans layout⟩

/-- An edit that fails leaves the document as it is. -/
theorem serve_edit_eq_error {edit : Edit} {e : EditError} :
    (Request.edit edit).serve d = .error e d' ↔ edit.apply d = .error e ∧ d' = d := by
  rw [serve_edit, settle_eq_error, map_eq_error]

/-- A request fails as the edit does, and leaves the document as it is. -/
theorem serve_eq_error {request : Request} {e : EditError} :
    request.serve d = .error e d' ↔
      (∃ edit, request = .edit edit ∧ edit.apply d = .error e) ∧ d' = d := by
  cases request with
  | edit edit => simp [serve_edit_eq_error]
  | ask question => simp [serve_ask]

theorem eq_of_erase_zero {target : Target} (erased : d.erase target = .ok (d', 0)) : d' = d := by
  unfold erase at erased
  split at erased
  · cases erased
  split at erased
  · cases erased
    rfl
  · next some =>
    obtain ⟨_, _, same⟩ := map_eq_ok.mp erased
    exact absurd (congrArg Prod.snd same) some

/-- A deletion that counts nothing leaves the document as it is. -/
theorem eq_of_apply_zero {edit : Edit} (applied : edit.apply d = .ok (d', some 0)) : d' = d := by
  cases edit with
  | insertNode | insertEdge | reread =>
    obtain ⟨_, -, same⟩ := map_eq_ok.mp applied
    cases same
  | deleteNode name =>
    obtain ⟨⟨d'', n⟩, deleted, same⟩ := map_eq_ok.mp applied
    cases same
    exact eq_of_erase_zero deleted
  | deleteEdge name =>
    obtain ⟨⟨d'', n⟩, deleted, same⟩ := map_eq_ok.mp applied
    cases same
    unfold deleteEdge at deleted
    split at deleted
    · cases deleted
    · exact eq_of_erase_zero deleted

theorem serve_eq_edited {request : Request} {count : Option Nat} :
    request.serve d = .ok (.edited count) d' ↔
      ∃ edit, request = .edit edit ∧ edit.apply d = .ok (d', count) := by
  cases request with
  | edit edit =>
    rw [serve_edit, settle_eq_ok, map_eq_ok]
    simp
  | ask question => simp [serve_ask]

theorem commit_ne_mismatch (text : List Char) (m : Mismatch) :
    d.commit text ≠ .error (.mismatch m) := by
  unfold commit
  split <;> simp

/-- What is read once more is what the document has. -/
theorem Current.reread (current : d.Current) : d.reread = .ok d := by
  refine commit_eq_ok.mpr (ofText_eq_ok.mpr ⟨d.tree, ?_, ?_⟩)
  · rw [String.toList_ofList]
    exact current.tree
  · rw [String.ofList_toList, ← current.index]

/-- The text of a document has what the tree has, up to the last brace. -/
theorem append_ne_mismatch (current : d.Current) (s : Statement) (m : Mismatch) :
    d.append s ≠ .error (.mismatch m) := by
  obtain ⟨text, inserted⟩ := Graph.insertInto_of_read current.tree (d.line s) d.layout.freshLine
  rw [append, inserted]
  exact commit_ne_mismatch text m

theorem erase_eq_mismatch_iff (target : Target) (m : Mismatch) :
    d.erase target = .error (.mismatch m) ↔
      d.tree.eraseFrom target d.text.toList = .error m := by
  unfold erase
  cases d.tree.eraseFrom target d.text.toList with
  | error m' => simp
  | ok erasure =>
    simp only []
    split
    · simp
    · simpa [map_eq_error] using commit_ne_mismatch erasure.text m

/-- An edit with a target is a deletion. -/
theorem apply_of_target? {edit : Edit} {target : Target} (found : edit.target? = some target) :
    edit.apply d = (d.erase target).map fun (d', n) => (d', some n) := by
  cases edit with
  | insertNode | insertEdge | reread => cases found
  | deleteNode name =>
    cases found
    rfl
  | deleteEdge name =>
    obtain ⟨ends, split, rfl⟩ := Option.map_eq_some_iff.mp found
    rw [Edit.apply, deleteEdge, split]

/-- Only a deletion can find in the text what the tree does not have. -/
theorem apply_eq_mismatch_iff (current : d.Current) (edit : Edit) (m : Mismatch) :
    edit.apply d = .error (.mismatch m) ↔
      ∃ target, edit.target? = some target ∧
        d.tree.eraseFrom target d.text.toList = .error m := by
  cases found : edit.target? with
  | some target =>
    rw [apply_of_target? found, map_eq_error, erase_eq_mismatch_iff]
    simp
  | none =>
    refine iff_of_false ?_ (by simp)
    cases edit with
    | insertNode | insertEdge =>
      rw [Edit.apply, map_eq_error]
      exact append_ne_mismatch current _ m
    | deleteNode name => cases found
    | deleteEdge name =>
      have split := Option.map_eq_none_iff.mp found
      simp [Edit.apply, map_eq_error, deleteEdge, split]
    | reread => simp [Edit.apply, map_eq_error, current.reread]

/-- Under the default layout an insertion appends the very statement that is asked for exactly if all
that is given can be spelled; an edit that fails leaves the document as it is. -/
theorem insert_iff_spellable (reachable : d.Reachable) (default_ : d.layout = {}) :
    (∀ name entries,
      (∃ d' attrs, d.insertNode name entries = .ok d' ∧ Gives entries attrs ∧
          d'.tree = d.tree.append (.node ⟨name, none⟩ attrs)) ↔
        Ident.isSpellable name = true ∧ Spellable entries) ∧
      (∀ tail head entries,
        (∃ d' attrs, d.insertEdge tail head entries = .ok d' ∧ Gives entries attrs ∧
            d'.tree = d.tree.append (.edge [.node ⟨tail, none⟩, .node ⟨head, none⟩] attrs)) ↔
          (Ident.isSpellable tail = true ∧ Ident.isSpellable head = true) ∧ Spellable entries) ∧
      ∀ edit e d', (Request.edit edit).serve d = .error e d' ↔
        edit.apply d = .error e ∧ d' = d := by
  have current := reachable.current
  have spaced : Layout.Spaced d.layout := default_ ▸ Layout.spaced_default
  refine ⟨fun name entries => ?_, fun tail head entries => ?_, fun _ _ _ => serve_edit_eq_error⟩
  · simpa only [gives_iff, exists_and_left, exists_eq_left] using
      insertNode_iff current spaced name entries
  · simpa only [gives_iff, exists_and_left, exists_eq_left] using
      insertEdge_iff current spaced tail head entries

/-- A name with a backslash in front of a quote is refused, and the document stays as it is; a name
without them is what the document gets. -/
theorem insert_into_braces :
    ∃ d, ofText {} "digraph \x7b\n\x7d" = .ok d ∧
      (¬ ∃ d', d.insertNode "a\\\"" [] = .ok d' ∧
        d'.tree = d.tree.append (.node ⟨"a\\\"", none⟩ [])) ∧
      (∃ d', d.insertEdge "a" "b" [("k", some "//")] = .ok d' ∧
        d'.tree = d.tree.append
          (.edge [.node ⟨"a", none⟩, .node ⟨"b", none⟩] [⟨"k", .text "//"⟩])) ∧
      (Request.edit (.insertNode "a\\\"" [])).serve d =
        .error (.unreadable ⟨⟨3, 2⟩, .closingQuote, []⟩) d := by
  let g : Graph := ⟨false, .digraph, none, []⟩
  let d : Document := ⟨"digraph \x7b\n\x7d", g, g.index, {}⟩
  have opened : ofText {} "digraph \x7b\n\x7d" = .ok d :=
    ofText_eq_ok.mpr ⟨g, by decide +kernel, rfl⟩
  have spellable : Spellable [("k", some "//")] := by
    simp [Spellable]
    decide
  have refused : (Edit.insertNode "a\\\"" []).apply d =
      .error (.unreadable ⟨⟨3, 2⟩, .closingQuote, []⟩) := by
    have unread : ((Edit.insertNode "a\\\"" []).apply d).map Prod.snd =
        .error (.unreadable ⟨⟨3, 2⟩, .closingQuote, []⟩) := by decide +kernel
    exact map_eq_error.mp unread
  obtain ⟨node, edge, fails⟩ := insert_iff_spellable ⟨{}, _, d, [], opened, rfl⟩ rfl
  obtain ⟨d', attrs, inserted, gives, tree⟩ := (edge "a" "b" _).mpr ⟨by decide, spellable⟩
  obtain rfl := gives_iff.mp gives
  refine ⟨d, opened, ?_, ⟨d', inserted, tree⟩, (fails _ _ _).mpr ⟨refused, rfl⟩⟩
  rintro ⟨d', inserted, tree⟩
  exact absurd ((node "a\\\"" []).mp ⟨d', [], inserted, .nil, tree⟩).1 (by decide)

/-- A backslash and a quote in a name close the name early, and what is behind them declares a
second node. -/
theorem two_nodes_of_backslash :
    ∃ d d' : Document, d.Reachable ∧ d.layout = {} ∧ d.tree.body = [] ∧
      d.insertNode "a\\\" b #" [] = .ok d' ∧
      d'.tree.body = [.node ⟨"a\\\\", none⟩ [], .node ⟨"b", none⟩ []] := by
  let g : Graph := ⟨false, .digraph, none, []⟩
  let d : Document := ⟨"digraph \x7b\n\x7d", g, g.index, {}⟩
  have opened : ofText {} "digraph \x7b\n\x7d" = .ok d :=
    ofText_eq_ok.mpr ⟨g, by decide +kernel, rfl⟩
  have inserted : (d.insertNode "a\\\" b #" []).map Document.tree =
      .ok ⟨false, .digraph, none, [.node ⟨"a\\\\", none⟩ [], .node ⟨"b", none⟩ []]⟩ := by
    decide +kernel
  obtain ⟨d', inserted, tree⟩ := map_eq_ok.mp inserted
  exact ⟨d, d', ⟨{}, _, d, [], opened, rfl⟩, rfl, rfl, inserted, by rw [tree]⟩

/-- What holds of a document that was opened under a layout, and of all that it can be asked to do:
the tree and the index are those of the text, what fails or deletes nothing changes nothing, and
nothing but a deletion with a token to find that is not there comes upon a mismatch. -/
structure Steady (layout : Layout) (d : Document) : Prop where
  tree : Graph.ofText d.text = .ok d.tree
  index : d.index = d.tree.index
  layout : d.layout = layout
  failed : ∀ (request : Request) e d', request.serve d = .error e d' → d' = d
  nothing : ∀ (request : Request) d', request.serve d = .ok (.edited (some 0)) d' → d' = d
  asked : ∀ question, (Request.ask question).serve d = .ok (.answered (d.answer question)) d
  reread : (Request.edit .reread).serve d = .ok (.edited none) d
  mismatch : ∀ request : Request, (∃ m d', request.serve d = .error (.mismatch m) d') ↔
    ∃ target, request.target? = some target ∧
      Move.allAlong Move.finds (Move.whole target d.tree) (.ofText d.text.toList) = false
  absent : ∀ (request : Request) target, request.target? = some target →
    d.tree.countErased target = 0 → request.serve d = .ok (.edited (some 0)) d
  reached : ∀ (request : Request) target, request.target? = some target →
    Move.allAlong Move.reaches (Move.whole target d.tree) (.ofText d.text.toList) = true →
    ∀ m d', request.serve d ≠ .error (.mismatch m) d'

/-- A request comes upon a mismatch if erasing its target from the text does. -/
theorem serve_mismatch_iff (current : d.Current) (request : Request) (m : Mismatch) :
    request.serve d = .error (.mismatch m) d' ↔
      (∃ target, request.target? = some target ∧
        d.tree.eraseFrom target d.text.toList = .error m) ∧ d' = d := by
  rw [serve_eq_error]
  cases request with
  | edit edit => simp [apply_eq_mismatch_iff current, Request.target?]
  | ask question => simp [Request.target?]

theorem serve_of_absent (current : d.Current) {request : Request} {target : Target}
    (found : request.target? = some target) (absent : d.tree.countErased target = 0) :
    request.serve d = .ok (.edited (some 0)) d := by
  cases request with
  | edit edit =>
    have erased := Graph.eraseFrom_of_countErased current.tree absent
    rw [serve_edit, apply_of_target? found, erase, erased]
    rfl
  | ask question => cases found

theorem Current.steady (current : d.Current) : d.Steady d.layout where
  tree := Graph.ofText_eq_ok.mpr current.tree
  index := current.index
  layout := rfl
  failed _ _ _ failed := (serve_eq_error.mp failed).2
  nothing _ _ served := by
    obtain ⟨_, -, applied⟩ := serve_eq_edited.mp served
    exact eq_of_apply_zero applied
  asked := d.serve_ask
  reread := by
    rw [serve_edit, Edit.apply, current.reread]
    rfl
  mismatch request := by
    have missing (target : Target) :
        Move.allAlong Move.finds (Move.whole target d.tree) (.ofText d.text.toList) = false ↔
          ∃ m, d.tree.eraseFrom target d.text.toList = .error m := by
      rw [← Bool.not_eq_true, ← Graph.eraseFrom_eq_ok_iff]
      cases d.tree.eraseFrom target d.text.toList <;> simp
    simp only [serve_mismatch_iff current, missing]
    constructor
    · rintro ⟨m, _, ⟨target, found, failed⟩, -⟩
      exact ⟨target, found, m, failed⟩
    · rintro ⟨target, found, m, failed⟩
      exact ⟨m, d, ⟨target, found, failed⟩, rfl⟩
  absent _ _ := serve_of_absent current
  reached request target found reaches m d' served := by
    obtain ⟨⟨target', found', failed⟩, -⟩ := (serve_mismatch_iff current request m).mp served
    obtain rfl : target = target' := by simpa [found] using found'
    obtain ⟨e, erased⟩ := Graph.eraseFrom_of_reaches current.tree reaches
    rw [erased] at failed
    cases failed

/-- However a document is used once it is open, it stays in step with its text. -/
theorem steady_of_requests {layout : Layout} {text : String} {opened : Document}
    (open_ : ofText layout text = .ok opened) (requests : List Request) :
    (opened.afterAll requests).Steady layout := by
  obtain ⟨current, same⟩ := current_of_ofText open_
  obtain ⟨current', same'⟩ := current.afterAll requests
  have steady := current'.steady
  rwa [same', same] at steady

/-- Edits that go through, one that fails, one that finds nothing, and questions in between. -/
theorem steady_of_mixed_requests :
    ∃ opened, ofText {} "digraph{a->b; c}" = .ok opened ∧
      let requests := [.edit (.deleteNode "z"), .ask .index, .edit (.insertNode "d" []),
        .edit (.deleteEdge "a"), .edit (.deleteNode "a"), .ask (.nodeAttributes "d"), .edit .reread]
      (opened.afterAll requests).Steady {} ∧
        (opened.afterAll requests).text = "digraph\x7bb; c\n    d\n\x7d" := by
  let g : Graph := ⟨false, .digraph, none,
    [.edge [.node ⟨"a", none⟩, .node ⟨"b", none⟩] [], .node ⟨"c", none⟩ []]⟩
  let d : Document := ⟨"digraph{a->b; c}", g, g.index, {}⟩
  have opened : ofText {} "digraph{a->b; c}" = .ok d :=
    ofText_eq_ok.mpr ⟨g, by decide +kernel, rfl⟩
  exact ⟨d, opened, steady_of_requests opened _, by decide +kernel⟩

/-- A document that can be read from which a node cannot be deleted. -/
theorem serve_mismatch_of_blank_line :
    ∃ opened, ofText {} "digraph\x7bx  \n  \n;y\x7d" = .ok opened ∧
      (Request.edit (.deleteNode "x")).serve opened =
        .error (.mismatch ⟨"y".toList, ";y\x7d".toList⟩) opened := by
  let g : Graph := ⟨false, .digraph, none, [.node ⟨"x", none⟩ [], .node ⟨"y", none⟩ []]⟩
  let d : Document := ⟨"digraph\x7bx  \n  \n;y\x7d", g, g.index, {}⟩
  have opened : ofText {} "digraph\x7bx  \n  \n;y\x7d" = .ok d :=
    ofText_eq_ok.mpr ⟨g, by decide +kernel, rfl⟩
  refine ⟨d, opened, ?_⟩
  have current := (current_of_ofText opened).1
  exact (serve_mismatch_iff current _ _).mpr ⟨⟨.node "x", rfl, by decide +kernel⟩, rfl⟩

end Document

end DotText
