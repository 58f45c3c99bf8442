import DotText.Proofs.Insertion

set_option autoImplicit false

/- The brace that closes a document: where it stands in a text, that it stands in one place only, and
that what is inserted comes right in front of it. -/
namespace DotText

open DotText.Part (textOf pieces apart)

/-- The text `cs`, in front of `tail`, is filled by these pieces, with gaps in front of them, between
them and behind them. -/
inductive Lexeme.Fill (tail : List Char) : List Lexeme → List Char → Prop where
  | gap {gap : List Char} : Blank.Gap gap → Fill tail [] gap
  | piece {gap w cs : List Char} {p : Lexeme} {ps : List Lexeme} : Blank.Gap gap →
      p.WrittenAs w (cs ++ tail) → Fill tail ps cs → Fill tail (p :: ps) (gap ++ (w ++ cs))

/-- The brace between `front` and `behind` closes the document: what is in front of it is filled by
pieces that spell the document with the brace behind them, and what is behind it does not matter. -/
structure Graph.ClosesAt (g : Graph) (front behind : List Char) : Prop where
  spelled : ∃ ls, g.Spelled (ls ++ [.mark ['}']]) ∧ Lexeme.Fill ('}' :: behind) ls front
  ending : Blank.Ending behind

namespace Part

/-- The insignificant parts of a text are its gaps. -/
theorem whole_blank_iff {cs : List Char} : (blank cs).Whole ↔ cs ≠ [] ∧ Blank.Gap cs := by
  refine and_congr_right fun _ => ⟨fun vanishes => ?_, fun gapped => gapped.skip_append⟩
  have brace : Blank.skip ['}'] = ['}'] := Blank.skip_of_not_mayBegin rfl []
  have skipped := vanishes ['}']
  rw [brace] at skipped
  obtain ⟨gap, gapped, split⟩ := (Blank.gap_of_skip (cs ++ ['}'])).1 (by simp [skipped])
  rw [skipped] at split
  rwa [List.append_cancel_right split]

theorem Whole.writtenAs {p : Lexeme} (whole : (piece p).Whole) {r : List Char}
    (ends : r.head?.any p.extendedBy = false) : p.WrittenAs p.written r := by
  obtain ⟨known, c, cs, r', first⟩ := whole
  obtain ⟨t, -, again⟩ := Lexeme.first_append first known ends
  exact Lexeme.writtenAs_of_opens (again ▸ Lexeme.opens_first c t) known

theorem whole_of_writtenAs {p : Lexeme} {w r : List Char} (written : p.WrittenAs w r) :
    (piece p).Whole ∧ w = p.written ∧ r.head?.any p.extendedBy = false := by
  obtain ⟨known, c, t, split, opens⟩ := Lexeme.opens_of_writtenAs written
  have first := Lexeme.first_of_opens p opens known
  refine ⟨⟨known, c, t, r, first⟩, ?_, Lexeme.ends_of_first first⟩
  exact List.append_cancel_right (split.trans (Lexeme.written_of_first first))

theorem fill_lead {gap cs tail : List Char} {ps : List Lexeme} (gapped : Blank.Gap gap)
    (fill : Lexeme.Fill tail ps cs) : Lexeme.Fill tail ps (gap ++ cs) := by
  cases fill with
  | gap more => exact .gap (gapped.append more)
  | piece more written fill =>
    rw [← List.append_assoc]
    exact .piece (gapped.append more) written fill

/-- Whole parts that are apart fill their text with their pieces. -/
theorem fill_textOf {parts : List Part} (whole : ∀ part ∈ parts, part.Whole) {tail : List Char}
    (separate : apart tail parts = true) : Lexeme.Fill tail (pieces parts) (textOf parts) := by
  induction parts with
  | nil => exact .gap .nil
  | cons part parts ih =>
    have rest := fun part mem => whole part (List.mem_cons_of_mem _ mem)
    have this := whole part List.mem_cons_self
    cases part with
    | blank cs => exact fill_lead (whole_blank_iff.mp this).2 (ih rest separate)
    | piece p =>
      rw [apart, Bool.and_eq_true, Bool.not_eq_true'] at separate
      exact .piece .nil (this.writtenAs separate.1) (ih rest separate.2)

/-- A text that is filled by some pieces is made of parts that are apart. -/
theorem exists_of_fill {cs tail : List Char} {ps : List Lexeme} (fill : Lexeme.Fill tail ps cs) :
    ∃ parts, (∀ part ∈ parts, part.Whole) ∧ textOf parts = cs ∧ pieces parts = ps ∧
      apart tail parts = true := by
  -- A gap is one part, if there is anything to it.
  have lead : ∀ {gap : List Char}, Blank.Gap gap → ∃ parts, (∀ part ∈ parts, part.Whole) ∧
      textOf parts = gap ∧ pieces parts = [] ∧ ∀ tail, apart tail parts = true := by
    intro gap gapped
    cases gap with
    | nil => exact ⟨[], by simp, rfl, rfl, fun _ => rfl⟩
    | cons c t =>
      refine ⟨[blank (c :: t)], ?_, by simp [text], rfl, fun _ => rfl⟩
      intro part mem
      rw [List.mem_singleton.mp mem]
      exact whole_blank_iff.mpr ⟨by simp, gapped⟩
  induction fill with
  | gap gapped =>
    obtain ⟨parts, whole, made, none, separate⟩ := lead gapped
    exact ⟨parts, whole, made, none, separate tail⟩
  | @piece gap w cs p ps gapped written _ ih =>
    obtain ⟨first, whole, made, none, separate⟩ := lead gapped
    obtain ⟨parts, whole', rfl, rfl, separate'⟩ := ih
    obtain ⟨here, rfl, ends⟩ := whole_of_writtenAs written
    refine ⟨first ++ .piece p :: parts, ?_, by simp [made, text], by simp [none], ?_⟩
    · intro part mem
      rw [List.mem_append, List.mem_cons] at mem
      rcases mem with mem | rfl | mem
      · exact whole part mem
      · exact here
      · exact whole' part mem
    · rw [apart_append, separate, apart, ends, separate']
      rfl

end Part

namespace Graph

variable {g : Graph} {cs front behind : List Char}

/-- What is in front of the closing brace, as parts. -/
theorem ClosesAt.parts (closes : g.ClosesAt front behind) :
    ∃ parts, (∀ part ∈ parts, part.Whole) ∧ textOf parts = front ∧
      apart ('}' :: behind) parts = true ∧ g.Spelled (pieces parts ++ [.mark ['}']]) := by
  obtain ⟨ls, spelled, fill⟩ := closes.spelled
  obtain ⟨parts, whole, made, rfl, separate⟩ := Part.exists_of_fill fill
  exact ⟨parts, whole, made, separate, spelled⟩

theorem ClosesAt.all_behind (closes : g.ClosesAt front behind) : Lexeme.all behind = [] :=
  Lexeme.all_of_skip_nil closes.ending.skip_eq_nil

theorem ClosesAt.read (closes : g.ClosesAt front behind) :
    Graph.read (front ++ '}' :: behind) = .ok g := by
  obtain ⟨parts, whole, rfl, separate, spelled⟩ := closes.parts
  rwa [Graph.read_iff_spelled, Part.all_textOf whole separate, all_brace closes.all_behind]

/-- The brace is a piece by itself, whatever comes behind it. -/
theorem ClosesAt.all_append (closes : g.ClosesAt front behind) (r : List Char) :
    Lexeme.all (front ++ '}' :: r) = Lexeme.all front ++ .mark ['}'] :: Lexeme.all r := by
  obtain ⟨parts, whole, rfl, separate, -⟩ := closes.parts
  have separate' := Part.apart_nil_of_apart separate
  have alone := Part.all_textOf whole separate'
  have brace := (Lexeme.takes_of_isPunctuation (c := '}') (by decide) r).1
  have ends : ∀ c, ('}' :: r).head? = some c → Part.endsPieces c = true := by simp; decide
  rw [← Part.apart_of_endsPieces ends] at separate'
  rw [List.append_nil, Lexeme.all_of_skip_nil (Blank.Ending.closed .nil).skip_eq_nil,
    List.append_nil] at alone
  rw [Part.all_textOf whole separate', brace, alone]
  rfl

theorem ClosesAt.not_longer {x behind' : List Char} (closes : g.ClosesAt front behind)
    (closes' : g.ClosesAt (front ++ '}' :: x) behind') : behind ≠ x ++ '}' :: behind' := by
  rintro rfl
  have first := closes.all_append (x ++ '}' :: behind')
  have second := closes'.all_append behind'
  -- Either brace is the last piece of the text, and so as many pieces are in front of both.
  rw [closes.all_behind] at first
  rw [closes'.all_behind, List.append_assoc, List.cons_append, first, closes.all_append] at second
  have lengths := congrArg List.length second
  simp at lengths

/-- No text is closed by two of its braces. -/
theorem ClosesAt.unique {front' behind' : List Char} (closes : g.ClosesAt front behind)
    (closes' : g.ClosesAt front' behind')
    (same : front ++ '}' :: behind = front' ++ '}' :: behind') :
    front = front' ∧ behind = behind' := by
  rcases List.append_eq_append_iff.mp same with ⟨x, rfl, split⟩ | ⟨x, rfl, split⟩
  · cases x with
    | nil => exact ⟨by simp, by simpa using split⟩
    | cons c x =>
      obtain ⟨rfl, rest⟩ := List.cons.inj split
      exact absurd rest (closes.not_longer closes')
  · cases x with
    | nil => exact ⟨by simp, by simpa using split.symm⟩
    | cons c x =>
      obtain ⟨rfl, rest⟩ := List.cons.inj split
      exact absurd rest (closes'.not_longer closes)

/-- The walk up to the closing brace. -/
theorem closesAt_of_walk (found : Graph.read cs = .ok g) :
    ∃ c front behind, Walk.document .nothing g (.ofText cs) = .ok c ∧
      (c.passBlanks .none).before = front ∧ (c.passBlanks .none).rest = '}' :: behind ∧
      cs = front ++ '}' :: behind ∧ g.ClosesAt front behind := by
  obtain ⟨c, parts, r, ran, before, brace, split, nothing, whole, separate⟩ :=
    parts_before_brace found
  have separate : apart ('}' :: r) parts = true := by
    rwa [Part.apart_of_endsPieces (by simp; decide)]
  rw [Graph.read_iff_spelled, split, Part.all_textOf whole separate, all_brace nothing] at found
  exact ⟨c, textOf parts, r, ran, before, brace, split, ⟨_, found, Part.fill_textOf whole separate⟩,
    (Blank.gap_of_skip r).2 (Lexeme.all_eq_nil.mp nothing)⟩

/-- What is inserted comes right in front of the closing brace. -/
theorem ClosesAt.insertInto (closes : g.ClosesAt front behind) (snippet : List Char)
    (freshLine : Bool) :
    g.insertInto snippet freshLine (front ++ '}' :: behind) =
      .ok (front ++ ((if freshLine && front.getLast? != some '\n' then ['\n'] else []) ++
        (snippet ++ '}' :: behind))) := by
  obtain ⟨c, front', behind', ran, before, brace, split, closes'⟩ := closesAt_of_walk closes.read
  obtain ⟨rfl, rfl⟩ := closes'.unique closes split.symm
  rw [insertInto_eq ran brace, Cursor.followsNewline, before]
  rfl

/-- To insert is to put a text in front of the one brace that closes the document, with a line end
in front of the text where it is to have a line of its own and does not begin one. -/
theorem insertInto_of_closing_brace (found : Graph.read cs = .ok g) :
    ∃ front behind, cs = front ++ '}' :: behind ∧ g.ClosesAt front behind ∧
      ∀ snippet freshLine, g.insertInto snippet freshLine cs =
        .ok (front ++ ((if freshLine && front.getLast? != some '\n' then ['\n'] else []) ++
          (snippet ++ '}' :: behind))) := by
  obtain ⟨-, front, behind, -, -, -, rfl, closes⟩ := closesAt_of_walk found
  exact ⟨front, behind, rfl, closes, closes.insertInto⟩

/-- Braces in labels, subgraphs, names and comments are not the ones that close the document. -/
theorem insertInto_of_many_braces :
    ∃ cs g, cs = "graph \x7ba [b=<\x7d>] \x7b\"\x7d\"\x7d // \x7d\n/* \x7d */\x7d # \x7d".toList ∧
      Graph.read cs = .ok g ∧
      ∃ front behind, cs = front ++ '}' :: behind ∧ g.ClosesAt front behind ∧
        g.insertInto "\x7d;".toList false cs = .ok (front ++ ("\x7d;".toList ++ '}' :: behind)) ∧
        front ++ ("\x7d;".toList ++ '}' :: behind) =
          "graph \x7ba [b=<\x7d>] \x7b\"\x7d\"\x7d // \x7d\n/* \x7d */\x7d;\x7d # \x7d".toList := by
  let cs := "graph \x7ba [b=<\x7d>] \x7b\"\x7d\"\x7d // \x7d\n/* \x7d */\x7d # \x7d".toList
  let body : List Statement :=
    [.node ⟨"a", none⟩ [⟨"b", .html "\x7d"⟩], .subgraph none [.node ⟨"\x7d", none⟩ []]]
  have found : Graph.read cs = .ok ⟨false, .graph, none, body⟩ := by decide +kernel
  obtain ⟨front, behind, split, closes, inserted⟩ := insertInto_of_closing_brace found
  have here := inserted "\x7d;".toList false
  refine ⟨cs, _, rfl, found, front, behind, split, closes, here, Except.ok.inj (here.symm.trans ?_)⟩
  decide +kernel

end Graph

end DotText
