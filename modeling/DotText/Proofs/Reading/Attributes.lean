import DotText.Proofs.Reading.Words
import DotText.Tree.Spelling

set_option autoImplicit false

/- Attribute lists are read from the pieces that spell them, and from no others. -/
namespace DotText.Attribute

open Lexeme (Takes Separates)

theorem takes_dropSeparator (cs : List Char) :
    ∃ seps, Separates .ofEntries seps ∧ Takes cs seps (dropSeparator cs) := by
  unfold dropSeparator
  split
  · exact ⟨_, .one (by decide), Lexeme.takes_of_separator (.inl rfl) _⟩
  · exact ⟨_, .one (by decide), Lexeme.takes_of_separator (.inr rfl) _⟩
  · exact ⟨[], .none, Takes.refl cs⟩

/-- The separators that are there are dropped, if no other follows them. -/
theorem dropSeparator_of_all {cs : List Char} {seps others : List Lexeme}
    (solid : Blank.skip cs = cs) (found : Lexeme.all cs = seps ++ others)
    (separates : Separates .ofEntries seps) (ends : ∀ c, others.head? ≠ some (.separator c)) :
    Takes cs seps (dropSeparator cs) := by
  cases separates with
  | none =>
    have plain : ∀ c, (c = ',' ∨ c = ';') → cs.head? ≠ some c := by
      intro c listed start
      rw [Lexeme.head?_eq_iff_of_separator listed solid, found] at start
      exact ends c start
    unfold dropSeparator
    split
    · exact absurd rfl (plain ',' (.inl rfl))
    · exact absurd rfl (plain ';' (.inr rfl))
    · exact Takes.refl cs
  | @one c allowed =>
    have listed := Separators.eq_of_allows allowed
    have start : cs.head? = some c :=
      (Lexeme.head?_eq_iff_of_separator listed solid).mpr (by rw [found]; rfl)
    cases cs with
    | nil => cases start
    | cons x t =>
      cases start
      rcases listed with rfl | rfl
      · exact Lexeme.takes_of_separator (.inl rfl) t
      · exact Lexeme.takes_of_separator (.inr rfl) t

/-- An entry is read from a name, `=`, a value and at most one separator. -/
theorem takes_of_read {cs r : List Char} {a : Attribute} (found : read cs = .ok (a, r)) :
    ∃ k v seps, k.name? = some a.key ∧ v.value? = some a.value ∧ Separates .ofEntries seps ∧
      Takes cs (k :: .mark ['='] :: v :: seps) r ∧ Blank.skip r = r := by
  simp only [read, bind_eq_ok, pure_eq_ok] at found
  obtain ⟨⟨key, r₁⟩, readKey, r₂, readMark, ⟨value, r₃⟩, readValue, done⟩ := found
  cases done
  obtain ⟨k, named, takesKey⟩ := Ident.takes_of_read readKey
  obtain ⟨v, valued, takesValue⟩ := Value.takes_of_read readValue
  obtain ⟨seps, separates, takesSeps⟩ := takes_dropSeparator (Blank.skip r₃)
  have takesMark := Lexeme.takes_of_char (by decide) readMark
  exact ⟨k, v, seps, named, valued, separates,
    (((takesKey.skip.append takesMark).skip.append takesValue).skip.append takesSeps).skip,
    Blank.skip_skip _⟩

theorem read_of_all {cs : List Char} {key : String} {value : Value} {k v : Lexeme}
    {seps others : List Lexeme} (solid : Blank.skip cs = cs)
    (found : Lexeme.all cs = k :: .mark ['='] :: v :: (seps ++ others))
    (named : k.name? = some key) (valued : v.value? = some value)
    (separates : Separates .ofEntries seps) (ends : ∀ c, others.head? ≠ some (.separator c)) :
    ∃ r, read cs = .ok (⟨key, value⟩, r) ∧ Takes cs (k :: .mark ['='] :: v :: seps) r ∧
      Blank.skip r = r := by
  obtain ⟨r₁, readKey, takesKey⟩ := Ident.read_of_all solid found named
  have found₁ := (takesKey.skip).all_rest (l := _ :: _) found
  obtain ⟨r₂, -, readMark, takesMark⟩ :=
    Lexeme.char_of_all (by decide) .equals (Blank.skip_skip r₁) found₁
  have found₂ := (takesMark.skip).all_rest (l := _ :: _) found₁
  obtain ⟨r₃, readValue, takesValue⟩ := Value.read_of_all (Blank.skip_skip r₂) found₂ valued
  have found₃ := (takesValue.skip).all_rest (l := seps ++ others) found₂
  have takesSeps := dropSeparator_of_all (Blank.skip_skip r₃) found₃ separates ends
  refine ⟨Blank.skip (dropSeparator (Blank.skip r₃)), ?_, ?_, Blank.skip_skip _⟩
  · simp only [read, bind_eq_ok, pure_eq_ok]
    exact ⟨_, readKey, _, readMark, _, readValue, rfl⟩
  · exact (((takesKey.skip.append takesMark).skip.append takesValue).skip.append takesSeps).skip

/-- Whether a list ends here. -/
def atClose (cs : List Char) : Bool :=
  cs.head? == some ']'

/-- Whether no further list begins here. -/
def pastLists (cs : List Char) : Bool :=
  cs.head? != some '['

/-- The entries of a list stand in front of whatever else is in lists behind them. -/
theorem takes_of_entries {cs r : List Char} {attrs : List Attribute}
    (found : Reader.Many atClose read cs attrs r) :
    ∃ ls, Takes cs ls r ∧ ∀ {others : List Attribute} {ls' : List Lexeme},
      Listed true others ls' → Listed true (attrs ++ others) (ls ++ ls') := by
  induction found with
  | @done cs _ => exact ⟨[], Takes.refl cs, id⟩
  | item _ item _ _ ih =>
    obtain ⟨k, v, seps, named, valued, separates, takes, -⟩ := takes_of_read item
    obtain ⟨ls, takes', listed⟩ := ih
    refine ⟨k :: .mark ['='] :: v :: seps ++ ls, takes.append takes', ?_⟩
    intro others ls' behind
    have entry := Listed.entry named valued separates (listed behind)
    simpa using entry

theorem takes_of_readList {cs r : List Char} {attrs : List Attribute}
    (found : readList cs = .ok (attrs, r)) :
    ∃ ls, Takes cs (.mark ['['] :: ls) r ∧ Blank.skip r = r ∧
      ∀ {others : List Attribute} {ls' : List Lexeme}, Listed false others ls' →
        Listed true (attrs ++ others) (ls ++ ls') := by
  simp only [readList, bind_eq_ok, pure_eq_ok] at found
  obtain ⟨r₁, readOpen, ⟨attrs', r₂⟩, readEntries, done⟩ := found
  cases done
  have many : Reader.Many atClose _ _ _ _ := Reader.Many.of_many
    (fun cs a r item => by
      obtain ⟨k, v, seps, -, -, -, takes, -⟩ := takes_of_read item
      exact takes.shorter) readEntries
  obtain ⟨ls, takes, listed⟩ := takes_of_entries many
  have close : r₂.head? = some ']' := by simpa [atClose] using many.stop_rest
  obtain ⟨t, rfl⟩ : ∃ t, r₂ = ']' :: t := by
    cases r₂ <;> simp_all
  have takesOpen := Lexeme.takes_of_char (by decide) readOpen
  have takesClose := Lexeme.takes_of_isPunctuation (c := ']') (by decide) t
  refine ⟨ls ++ [Lexeme.mark [']']], ?_, Blank.skip_skip t, ?_⟩
  · simpa using ((takesOpen.skip.append takes).append takesClose).skip
  intro others ls' behind
  simpa using listed behind.closed

theorem takes_of_lists {cs r : List Char} {lists : List (List Attribute)}
    (found : Reader.Many pastLists readList cs lists r) (solid : Blank.skip cs = cs) :
    ∃ ls, Takes cs ls r ∧ Listed false lists.flatten ls ∧ Blank.skip r = r := by
  induction found with
  | @done cs _ => exact ⟨[], Takes.refl cs, .done, solid⟩
  | item _ item _ _ ih =>
    obtain ⟨ls, takes, solid', listed⟩ := takes_of_readList item
    obtain ⟨ls', takes', listed', solid''⟩ := ih solid'
    refine ⟨.mark ['['] :: ls ++ ls', takes.append takes', ?_, solid''⟩
    simpa using (listed listed').opened

/-- Lists are read from pieces that spell them, and none begins behind them. -/
theorem takes_of_readLists {cs r : List Char} {attrs : List Attribute}
    (found : readLists cs = .ok (attrs, r)) :
    ∃ ls, Takes cs ls r ∧ Listed false attrs ls ∧ Blank.skip r = r ∧ r.head? ≠ some '[' := by
  simp only [readLists, bind_eq_ok, pure_eq_ok] at found
  obtain ⟨⟨lists, r'⟩, read, done⟩ := found
  cases done
  have many : Reader.Many pastLists _ _ _ _ := Reader.Many.of_many
    (fun cs a r item => by
      obtain ⟨ls, takes, -, -⟩ := takes_of_readList item
      exact takes.shorter) read
  obtain ⟨ls, takes, listed, solid⟩ := takes_of_lists many (Blank.skip_skip cs)
  exact ⟨ls, takes.of_skip, listed, solid, by simpa [pastLists] using many.stop_rest⟩

/-- One list is read where its entries are, up to the bracket that closes it. -/
theorem item_of_entries {t t' : List Char} {attrs : List Attribute}
    (readOpen : Reader.char '[' .openBracket ('[' :: t) = .ok t)
    (entries : Reader.Many atClose read (Blank.skip t) attrs (']' :: t'))
    {lists : List (List Attribute)} {r : List Char}
    (many : Reader.Many pastLists readList (Blank.skip t') lists r) :
    Reader.Many pastLists readList ('[' :: t) (attrs :: lists) r := by
  refine .item (by simp [pastLists]) ?_ ?_ many
  · simp only [readList, bind_eq_ok, pure_eq_ok]
    exact ⟨_, readOpen, _, entries.many_eq, rfl⟩
  · have shorter := entries.length_le
    have skipped := (Blank.skip_suffix t').length_le
    have skipped' := (Blank.skip_suffix t).length_le
    simp only [List.length_cons] at shorter ⊢
    omega

theorem not_atClose_of_name? {cs : List Char} {k : Lexeme} {key : String} {pieces : List Lexeme}
    (solid : Blank.skip cs = cs) (found : Lexeme.all cs = k :: pieces)
    (named : k.name? = some key) : atClose cs = false := by
  have open_ : cs.head? ≠ some ']' := by
    rw [ne_eq, Lexeme.head?_eq_iff_of_isPunctuation (by decide) solid, found]
    intro same
    cases same
    cases named
  simpa [atClose] using open_

/-- From pieces that spell lists the lists are read: with a bracket open the rest of one list and
then the others, else all of them. -/
theorem lists_of_all {opened : Bool} {attrs : List Attribute} {ls : List Lexeme}
    (listed : Listed opened attrs ls) {cs : List Char} {others : List Lexeme}
    (solid : Blank.skip cs = cs) (found : Lexeme.all cs = ls ++ others)
    (ends : others.head? ≠ some (.mark ['['])) :
    ∃ first lists r, attrs = first ++ lists.flatten ∧ Takes cs ls r ∧ Blank.skip r = r ∧
      if opened then
        ∃ t, Reader.Many atClose read cs first (']' :: t) ∧
          Reader.Many pastLists readList (Blank.skip t) lists r
      else first = [] ∧ Reader.Many pastLists readList cs lists r := by
  induction listed generalizing cs with
  | done =>
    refine ⟨[], [], cs, rfl, Takes.refl cs, solid, rfl, .done ?_⟩
    rw [List.nil_append] at found
    simp only [pastLists, bne_iff_ne, ne_eq,
      Lexeme.head?_eq_iff_of_isPunctuation (c := '[') (by decide) solid, found]
    exact ends
  | opened inner ih =>
    obtain ⟨t, rfl, readOpen, takesOpen⟩ :=
      Lexeme.char_of_all (c := '[') (by decide) .openBracket solid found
    obtain ⟨first, lists, r, rfl, takes, solid', t', entries, many⟩ :=
      ih (Blank.skip_skip t) (takesOpen.skip.all_rest (l := _ ++ _) found)
    exact ⟨[], first :: lists, r, rfl, takesOpen.append takes.of_skip, solid', rfl,
      item_of_entries readOpen entries many⟩
  | closed inner ih =>
    obtain ⟨t, rfl, -, takesClose⟩ :=
      Lexeme.char_of_all (c := ']') (by decide) .closeBrace solid found
    obtain ⟨first, lists, r, rfl, takes, solid', rfl, many⟩ :=
      ih (Blank.skip_skip t) (takesClose.skip.all_rest (l := _ ++ _) found)
    exact ⟨[], lists, r, rfl, takesClose.append takes.of_skip, solid', t,
      .done (by simp [atClose]), many⟩
  | @entry _ _ _ k v seps ls named valued separates inner ih =>
    obtain ⟨piece, behind, rfl, start⟩ := inner.head
    have separated : ∀ c, (piece :: (behind ++ others)).head? ≠ some (.separator c) := by
      rintro c same
      cases same
      rcases start with mark | name
      · cases mark
      · cases name
    have found' : Lexeme.all cs = k :: .mark ['='] :: v :: (seps ++ piece :: (behind ++ others)) := by
      simpa using found
    obtain ⟨r₁, readEntry, takesEntry, solid₁⟩ :=
      read_of_all solid found' named valued separates separated
    obtain ⟨first, lists, r, rfl, takes, solid', t, entries, many⟩ :=
      ih solid₁ (takesEntry.all_rest (by simpa using found))
    refine ⟨_ :: first, lists, r, rfl, by simpa using takesEntry.append takes, solid', t, ?_, many⟩
    exact .item (not_atClose_of_name? solid found' named) readEntry takesEntry.shorter entries

/-- Lists are read from any pieces that spell them. -/
theorem readLists_of_all {attrs : List Attribute} {ls : List Lexeme} (listed : Listed false attrs ls)
    {cs : List Char} {others : List Lexeme} (found : Lexeme.all cs = ls ++ others)
    (ends : others.head? ≠ some (.mark ['['])) :
    ∃ r, readLists cs = .ok (attrs, r) ∧ Takes cs ls r ∧ Blank.skip r = r := by
  obtain ⟨first, lists, r, rfl, takes, solid, rfl, many⟩ :=
    lists_of_all listed (Blank.skip_skip cs) (by rw [Lexeme.all_skip, found]) ends
  refine ⟨r, ?_, takes.of_skip, solid⟩
  simp only [readLists, bind_eq_ok, pure_eq_ok]
  exact ⟨_, many.many_eq, rfl⟩

end DotText.Attribute
