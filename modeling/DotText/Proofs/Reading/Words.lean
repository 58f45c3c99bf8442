import DotText.Proofs.Lexing
import DotText.Tree.Reader.Attribute
import DotText.Tree.Reader.Statement

set_option autoImplicit false

/- What the readers of single words take is the first piece of the text, and they take every piece
that is such a word. Texts are looked at behind the insignificant material at their start. -/
namespace DotText

namespace Lexeme

theorem first_of_all {cs : List Char} {piece : Lexeme} {pieces : List Lexeme}
    (solid : Blank.skip cs = cs) (found : all cs = piece :: pieces) :
    ∃ c t r, cs = c :: t ∧ first c t = (piece, r) ∧ all r = pieces := by
  cases cs with
  | nil => simp [all_of_skip_nil solid] at found
  | cons c t =>
    rw [all_of_skip_cons solid, List.cons.injEq] at found
    exact ⟨c, t, (first c t).2, rfl, by rw [← found.1], found.2⟩

/-- The pieces behind those that were taken. -/
theorem Takes.all_rest {cs r : List Char} {pieces l : List Lexeme}
    (takes : Takes cs pieces r) (found : all cs = pieces ++ l) : all r = l :=
  List.append_cancel_left (takes.1.symm.trans found)

theorem Takes.length_le {cs r : List Char} {pieces : List Lexeme} (takes : Takes cs pieces r) :
    r.length ≤ cs.length := by
  have whole := takes.2
  omega

theorem Takes.shorter {cs r : List Char} {piece : Lexeme} {pieces : List Lexeme}
    (takes : Takes cs (piece :: pieces) r) : r.length < cs.length := by
  have whole := takes.2
  rw [List.length_cons] at whole
  omega

theorem opens_of_first {piece : Lexeme} {c : Char} {cs r : List Char}
    (first : first c cs = (piece, r)) : piece.Opens c cs r := by
  have opens := opens_first c cs
  rwa [first] at opens

/-- The text `cs` begins with this piece, which is known, and `r` is behind it. -/
def Heads (piece : Lexeme) (cs r : List Char) : Prop :=
  (∀ x, piece ≠ .stray x) ∧ ∃ c t, cs = c :: t ∧ piece.Opens c t r

theorem Heads.takes {piece : Lexeme} {cs r : List Char} (heads : piece.Heads cs r) :
    Takes cs [piece] r := by
  obtain ⟨known, c, t, rfl, opens⟩ := heads
  exact takes_of_opens opens known

theorem heads_of_isPunctuation {c : Char} (punctuation : isPunctuation c = true)
    (cs : List Char) : (mark [c]).Heads (c :: cs) cs :=
  ⟨by simp, c, cs, rfl, .inr ⟨punctuation, rfl, rfl⟩⟩

theorem takes_of_isPunctuation {c : Char} (punctuation : isPunctuation c = true)
    (cs : List Char) : Takes (c :: cs) [.mark [c]] cs :=
  (heads_of_isPunctuation punctuation cs).takes

/-- A punctuation mark comes next exactly where its character does. -/
theorem head?_eq_iff_of_isPunctuation {c : Char} (punctuation : isPunctuation c = true)
    {cs : List Char} (solid : Blank.skip cs = cs) :
    cs.head? = some c ↔ (all cs).head? = some (.mark [c]) := by
  cases cs with
  | nil => simp [all_of_skip_nil solid]
  | cons x t =>
    rw [all_of_skip_cons solid]
    simp only [List.head?_cons, Option.some.injEq]
    constructor
    · rintro rfl
      rw [first_of_opens (.mark [x]) (.inr ⟨punctuation, rfl, rfl⟩) (by simp)]
    · intro mark
      have opens := opens_first x t
      rw [mark] at opens
      rcases opens with ⟨op, same, -⟩ | ⟨-, same, -⟩
      · cases t <;> simp_all [startsOp]
      · simp_all

theorem heads_of_char {c : Char} (punctuation : isPunctuation c = true) {missing : Expected}
    {cs r : List Char} (read : Reader.char c missing cs = .ok r) : (mark [c]).Heads cs r := by
  unfold Reader.char at read
  split at read
  · next start =>
    cases cs with
    | nil => simp at start
    | cons x t =>
      simp only [List.head?_cons, Option.some.injEq, List.tail_cons, Except.ok.injEq] at start read
      subst start read
      exact heads_of_isPunctuation punctuation t
  · cases read

theorem takes_of_char {c : Char} (punctuation : isPunctuation c = true) {missing : Expected}
    {cs r : List Char} (read : Reader.char c missing cs = .ok r) : Takes cs [.mark [c]] r :=
  (heads_of_char punctuation read).takes

theorem char_of_all {c : Char} (punctuation : isPunctuation c = true) (missing : Expected)
    {cs : List Char} {pieces : List Lexeme} (solid : Blank.skip cs = cs)
    (found : all cs = .mark [c] :: pieces) :
    ∃ r, cs = c :: r ∧ Reader.char c missing cs = .ok r ∧ Takes cs [.mark [c]] r := by
  have start : cs.head? = some c :=
    (head?_eq_iff_of_isPunctuation punctuation solid).mpr (by rw [found]; rfl)
  cases cs with
  | nil => simp at start
  | cons x r =>
    cases start
    exact ⟨r, rfl, by simp [Reader.char], takes_of_isPunctuation punctuation r⟩

/-- A comma or a semicolon comes next exactly where its character does. -/
theorem head?_eq_iff_of_separator {c : Char} (listed : c = ',' ∨ c = ';')
    {cs : List Char} (solid : Blank.skip cs = cs) :
    cs.head? = some c ↔ (all cs).head? = some (.separator c) := by
  cases cs with
  | nil => simp [all_of_skip_nil solid]
  | cons x t =>
    rw [all_of_skip_cons solid]
    simp only [List.head?_cons, Option.some.injEq]
    constructor
    · rintro rfl
      rw [first_of_opens (.separator x) ⟨listed, rfl, rfl⟩ (by simp)]
    · intro separator
      have opens := opens_first x t
      rw [separator] at opens
      exact opens.2.1.symm

theorem heads_of_separator {c : Char} (listed : c = ',' ∨ c = ';') (cs : List Char) :
    (separator c).Heads (c :: cs) cs :=
  ⟨by simp, c, cs, rfl, listed, rfl, rfl⟩

theorem takes_of_separator {c : Char} (listed : c = ',' ∨ c = ';') (cs : List Char) :
    Takes (c :: cs) [.separator c] cs :=
  (heads_of_separator listed cs).takes

theorem edgeOp_toList (kind : Kind) :
    ∃ x, kind.edgeOp.toList = ['-', x] ∧ (x = '-' ∨ x = '>') := by
  cases kind
  · exact ⟨'-', rfl, .inl rfl⟩
  · exact ⟨'>', rfl, .inr rfl⟩

theorem heads_of_edgeOp (kind : Kind) (cs : List Char) :
    (mark kind.edgeOp.toList).Heads (kind.edgeOp.toList ++ cs) cs := by
  obtain ⟨x, op, listed⟩ := edgeOp_toList kind
  rw [op]
  refine ⟨by simp, '-', x :: cs, rfl, .inl ⟨?_, rfl, rfl⟩⟩
  simpa [startsOp] using listed

theorem takes_of_edgeOp (kind : Kind) (cs : List Char) :
    Takes (kind.edgeOp.toList ++ cs) [.mark kind.edgeOp.toList] cs :=
  (heads_of_edgeOp kind cs).takes

/-- An edge operator comes next exactly where its characters do. -/
theorem isPrefixOf_edgeOp_iff (kind : Kind) {cs : List Char} (solid : Blank.skip cs = cs) :
    kind.edgeOp.toList.isPrefixOf cs = true ↔
      (all cs).head? = some (.mark kind.edgeOp.toList) := by
  rw [List.isPrefixOf_iff_prefix]
  constructor
  · rintro ⟨r, rfl⟩
    rw [(takes_of_edgeOp kind r).1]
    rfl
  · intro op
    obtain ⟨x, spelled, -⟩ := edgeOp_toList kind
    cases found : all cs with
    | nil => simp [found] at op
    | cons piece pieces =>
      obtain ⟨c, t, r, rfl, first, -⟩ := first_of_all solid found
      rw [found, List.head?_cons, Option.some.injEq] at op
      rw [op, spelled] at first
      rw [spelled]
      rcases opens_of_first first with ⟨-, same, -⟩ | ⟨-, same, -⟩
      · refine ⟨t.drop 1, ?_⟩
        rw [same, List.cons_append, List.take_append_drop]
      · simp at same

/-- A piece with a name is no word of the language. -/
theorem isKeyword_of_name? {piece : Lexeme} {s keyword : String}
    (named : piece.name? = some s) (listed : keyword ∈ Ident.keywords) :
    piece.isKeyword keyword = false := by
  cases piece with
  | word w =>
    simp only [name?, Ident.isKeyword, Option.ite_none_left_eq_some, List.any_eq_true,
      not_exists, not_and, Bool.not_eq_true] at named
    exact named.1 keyword listed
  | _ => rfl

end Lexeme

namespace Ident

/-- An identifier is read from the piece that the text begins with. -/
theorem heads_of_read {cs r : List Char} {s : String} (read : Ident.read cs = .ok (s, r)) :
    ∃ piece : Lexeme, piece.name? = some s ∧ piece.Heads cs r := by
  unfold Ident.read at read
  split at read
  case h_2 => cases read
  next text r' read' =>
  cases read
  unfold readText at read'
  split at read'
  · next t =>
    split at read'
    · next found split =>
      cases read'
      exact ⟨.quoted text, rfl, by simp, '"', t, rfl, rfl, split⟩
    · cases read'
  split at read'
  · next digit =>
    cases cs with
    | nil => simp at digit
    | cons c t =>
      have digit : startsNumeral c = true := by simpa using digit
      exact ⟨.numeral text, rfl, by simp, c, t, rfl, digit, read'⟩
  split at read'
  · cases read'
  · next free =>
    unfold readBare at read'
    split at read'
    · next start =>
      cases read'
      cases cs with
      | nil => simp at start
      | cons c t =>
        have start : isStart c = true := by simpa using start
        have inside : isRest c = true := by simp [isRest, start]
        have free : isKeyword (c :: t.takeWhile isRest) = false := by
          rw [← atKeyword_of_isStart start]
          simpa using free
        refine ⟨.word (c :: t.takeWhile isRest), ?_, by simp, c, t, rfl, start, rfl, ?_⟩
        · simp [Lexeme.name?, free, inside]
        · simp only [List.dropWhile_cons, inside, ↓reduceIte]
    · cases read'

/-- What an identifier is read from is one piece. -/
theorem takes_of_read {cs r : List Char} {s : String} (read : Ident.read cs = .ok (s, r)) :
    ∃ piece : Lexeme, piece.name? = some s ∧ Lexeme.Takes cs [piece] r := by
  obtain ⟨piece, named, heads⟩ := heads_of_read read
  exact ⟨piece, named, heads.takes⟩

/-- A piece that stands for an identifier is read as one. -/
theorem read_of_first {piece : Lexeme} {c : Char} {t r : List Char} {s : String}
    (first : Lexeme.first c t = (piece, r)) (named : piece.name? = some s) :
    Ident.read (c :: t) = .ok (s, r) := by
  have opens := Lexeme.opens_of_first first
  cases piece with
  | quoted text =>
    obtain ⟨rfl, split⟩ := opens
    cases named
    simp [Ident.read, readText, split]
  | numeral text =>
    obtain ⟨digit, read⟩ := opens
    have quote : c ≠ '"' := by rintro rfl; exact absurd digit (by decide)
    cases named
    simp [Ident.read, readText, quote, digit, read]
  | word text =>
    obtain ⟨start, rfl, rfl⟩ := opens
    have quote : c ≠ '"' := by rintro rfl; exact absurd start (by decide)
    have inside : isRest c = true := by simp [isRest, start]
    simp only [Lexeme.name?, Option.ite_none_left_eq_some, Option.some.injEq] at named
    obtain ⟨other, rfl⟩ := named
    simp [Ident.read, readText, quote, startsNumeral_of_isStart start, atKeyword_of_isStart start,
      other, readBare,
      start, inside]
  | html | mark | separator | stray => cases named

theorem keywords_ne_nil {keyword : String} (listed : keyword ∈ keywords) :
    keyword.toList ≠ [] := by
  simp only [keywords, List.mem_cons, List.not_mem_nil, or_false] at listed
  rcases listed with rfl | rfl | rfl | rfl | rfl | rfl <;> decide

theorem read_of_all {cs : List Char} {piece : Lexeme} {pieces : List Lexeme} {s : String}
    (solid : Blank.skip cs = cs) (found : Lexeme.all cs = piece :: pieces)
    (named : piece.name? = some s) :
    ∃ r, Ident.read cs = .ok (s, r) ∧ Lexeme.Takes cs [piece] r := by
  obtain ⟨c, t, r, rfl, first, -⟩ := Lexeme.first_of_all solid found
  exact ⟨r, read_of_first first named, Lexeme.takes_of_first first solid⟩

/-- A word of the language comes next exactly where it is the first piece. -/
theorem dropWord?_of_first {keyword : String} (listed : keyword ∈ keywords) {piece : Lexeme}
    {c : Char} {t r : List Char} (first : Lexeme.first c t = (piece, r)) :
    dropWord? keyword.toList (c :: t) = if piece.isKeyword keyword then some r else none := by
  by_cases start : isStart c = true
  · have word : Lexeme.first c t = (.word (c :: t.takeWhile isRest), t.dropWhile isRest) :=
      Lexeme.first_of_opens (.word _) ⟨start, rfl, rfl⟩ (by simp)
    rw [word, Prod.mk.injEq] at first
    obtain ⟨rfl, rfl⟩ := first
    obtain ⟨inside, split⟩ := word_of_isStart start t
    rw [split]
    exact dropWord?_of_boundary (keywords_isLower listed) inside (head?_dropWhile_any isRest t)
  · have plain : piece.isKeyword keyword = false := by
      cases piece with
      | word w => exact absurd (Lexeme.opens_of_first first).1 start
      | _ => rfl
    rw [plain, if_neg (by simp), Option.eq_none_iff_forall_ne_some]
    intro r' found
    obtain ⟨w, split, same, -⟩ := dropWord?_eq_some.mp found
    have letters := isAlpha_of_eqIgnoringCase (keywords_isLower listed) same
    cases w with
    | nil => simp [eqIgnoringCase, keywords_ne_nil listed] at same
    | cons x w =>
      rw [List.cons_append, List.cons.injEq] at split
      simp only [List.all_cons, Bool.and_eq_true] at letters
      simp [isStart, split.1, letters] at start

theorem dropWord?_nil {keyword : String} (listed : keyword ∈ keywords) :
    dropWord? keyword.toList [] = none := by
  rw [Option.eq_none_iff_forall_ne_some]
  intro r found
  obtain ⟨w, split, same, -⟩ := dropWord?_eq_some.mp found
  obtain ⟨rfl, -⟩ := List.append_eq_nil_iff.mp split.symm
  simp [eqIgnoringCase, keywords_ne_nil listed] at same

/-- A word of the language is found as the piece that the text begins with. -/
theorem heads_of_dropWord? {keyword : String} (listed : keyword ∈ keywords) {cs r : List Char}
    (found : dropWord? keyword.toList cs = some r) :
    ∃ piece : Lexeme, piece.isKeyword keyword = true ∧ piece.Heads cs r := by
  cases cs with
  | nil => simp [dropWord?_nil listed] at found
  | cons c t =>
    obtain ⟨piece, r', first⟩ : ∃ piece r', Lexeme.first c t = (piece, r') := ⟨_, _, rfl⟩
    rw [dropWord?_of_first listed first] at found
    simp only [Option.ite_none_right_eq_some, Option.some.injEq] at found
    obtain ⟨same, rfl⟩ := found
    have opens := Lexeme.opens_of_first first
    cases piece with
    | word w => exact ⟨.word w, same, by simp, c, t, rfl, opens⟩
    | _ => cases same

/-- Where insignificant material comes next, no word of the language does. -/
theorem takes_of_dropWord? {keyword : String} (listed : keyword ∈ keywords) {cs r : List Char}
    (found : dropWord? keyword.toList cs = some r) :
    ∃ piece : Lexeme, piece.isKeyword keyword = true ∧ Lexeme.Takes cs [piece] r := by
  obtain ⟨piece, same, heads⟩ := heads_of_dropWord? listed found
  exact ⟨piece, same, heads.takes⟩

end Ident

namespace Value

theorem value?_of_name? {piece : Lexeme} {s : String} (named : piece.name? = some s) :
    piece.value? = some (.text s) := by
  cases piece with
  | html label => cases named
  | _ => simp only [Lexeme.value?, named, Option.map_some]

/-- A value is read from the piece that the text begins with. -/
theorem heads_of_read {cs r : List Char} {value : Value} (read : Value.read cs = .ok (value, r)) :
    ∃ piece : Lexeme, piece.value? = some value ∧ piece.Heads cs r := by
  unfold Value.read at read
  split at read
  · next t =>
    split at read
    · next label r' split =>
      cases read
      exact ⟨.html label, rfl, by simp, '<', t, rfl, rfl, split⟩
    · cases read
  · obtain ⟨⟨s, r'⟩, inner, done⟩ := bind_eq_ok.mp read
    cases done
    obtain ⟨piece, named, heads⟩ := Ident.heads_of_read inner
    exact ⟨piece, value?_of_name? named, heads⟩

theorem takes_of_read {cs r : List Char} {value : Value} (read : Value.read cs = .ok (value, r)) :
    ∃ piece : Lexeme, piece.value? = some value ∧ Lexeme.Takes cs [piece] r := by
  obtain ⟨piece, valued, heads⟩ := heads_of_read read
  exact ⟨piece, valued, heads.takes⟩

theorem read_of_name? {piece : Lexeme} {c : Char} {t r : List Char} {s : String}
    (first : Lexeme.first c t = (piece, r)) (named : piece.name? = some s) :
    Value.read (c :: t) = .ok (.text s, r) := by
  have plain : c ≠ '<' := by
    rintro rfl
    have opens := Lexeme.opens_of_first first
    cases piece with
    | quoted | numeral | word => exact absurd opens.1 (by decide)
    | html | mark | separator | stray => cases named
  unfold Value.read
  split
  · next same => exact absurd (List.cons.inj same).1 plain
  · simp [Ident.read_of_first first named, bind, Except.bind, pure, Except.pure]

/-- A piece that stands for a value is read as one. -/
theorem read_of_first {piece : Lexeme} {c : Char} {t r : List Char} {value : Value}
    (first : Lexeme.first c t = (piece, r)) (valued : piece.value? = some value) :
    Value.read (c :: t) = .ok (value, r) := by
  cases piece with
  | html label =>
    obtain ⟨rfl, split⟩ := Lexeme.opens_of_first first
    cases valued
    simp [Value.read, split]
  | _ =>
    simp only [Lexeme.value?, Option.map_eq_some_iff] at valued
    obtain ⟨s, named, rfl⟩ := valued
    exact read_of_name? first named

theorem read_of_all {cs : List Char} {piece : Lexeme} {pieces : List Lexeme} {value : Value}
    (solid : Blank.skip cs = cs) (found : Lexeme.all cs = piece :: pieces)
    (valued : piece.value? = some value) :
    ∃ r, Value.read cs = .ok (value, r) ∧ Lexeme.Takes cs [piece] r := by
  obtain ⟨c, t, r, rfl, first, -⟩ := Lexeme.first_of_all solid found
  exact ⟨r, read_of_first first valued, Lexeme.takes_of_first first solid⟩

end Value

end DotText
