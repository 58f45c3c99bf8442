import DotText.Proofs.Grammar.Trees
import DotText.Proofs.Parts
import DotText.Tree.Normal

set_option autoImplicit false

/- What a tree is written as and the pieces of that text: every part of a writable tree is written as
pieces that spell the part of its normal form, whatever stands behind them that no piece goes on
with. -/
namespace DotText

/-- Whether a text, if it begins at all, begins with a character that no piece goes on with. -/
def Stops (cs : List Char) : Prop :=
  ∀ c, cs.head? = some c → Part.endsPieces c = true

theorem stops_nil : Stops [] := by simp [Stops]

theorem stops_cons {c : Char} (ends : Part.endsPieces c = true) (cs : List Char) :
    Stops (c :: cs) := by
  simpa [Stops] using ends

theorem Stops.append {cs r : List Char} (stops : Stops cs) (behind : Stops r) : Stops (cs ++ r) := by
  cases cs with
  | nil => exact behind
  | cons c cs => exact stops_cons (stops c rfl) _

/-- The text `cs` says these pieces in front of any text that stops them. -/
def Writes (cs : List Char) (ls : List Lexeme) : Prop :=
  ∀ r, Stops r → Lexeme.all (cs ++ r) = ls ++ Lexeme.all r

namespace Writes

variable {cs cs' : List Char} {ls ls' : List Lexeme}

theorem nil : Writes [] [] := fun _ _ => rfl

theorem append (first : Writes cs ls) (second : Writes cs' ls') (stops : Stops cs') :
    Writes (cs ++ cs') (ls ++ ls') := by
  intro r behind
  rw [List.append_assoc, first _ (stops.append behind), second r behind, List.append_assoc]

/-- The pieces of a text that stands alone. -/
theorem all_eq (writes : Writes cs ls) : Lexeme.all cs = ls := by
  have nothing : Lexeme.all [] = [] :=
    Lexeme.all_of_skip_nil (by simp [Blank.skip, Blank.landmark?])
  simpa [nothing] using writes [] stops_nil

theorem space (writes : Writes cs ls) : Writes (' ' :: cs) ls := by
  intro r behind
  rw [List.cons_append, ← Lexeme.all_skip, Blank.skip_of_isInline rfl, Lexeme.all_skip,
    writes r behind]

theorem punctuation {c : Char} (listed : Lexeme.isPunctuation c = true) (writes : Writes cs ls) :
    Writes (c :: cs) (.mark [c] :: ls) := by
  intro r behind
  have takes := Lexeme.takes_of_isPunctuation listed (cs ++ r)
  rw [List.cons_append, takes.1, writes r behind]
  rfl

theorem edgeOp (kind : Kind) (writes : Writes cs ls) :
    Writes (kind.edgeOp.toList ++ cs) (.mark kind.edgeOp.toList :: ls) := by
  intro r behind
  have takes := Lexeme.takes_of_edgeOp kind (cs ++ r)
  rw [List.append_assoc, takes.1, writes r behind]
  rfl

theorem of_whole {p : Lexeme} (whole : (Part.piece p).Whole) : Writes p.written [p] := by
  intro r behind
  refine whole.all_append ?_
  cases r with
  | nil => rfl
  | cons c r => exact Part.extendedBy_of_endsPieces (behind c rfl) p

theorem word {c : Char} {t : List Char} (start : Ident.isStart c = true)
    (inside : t.all Ident.isRest = true) : Writes (c :: t) [.word (c :: t)] := by
  have boundary := takeWhile_of_boundary (r := []) inside rfl
  rw [List.append_nil] at boundary
  have opens : (Lexeme.word (c :: t)).Opens c t [] := by
    refine ⟨start, ?_, ?_⟩
    · rw [boundary.1]
    · rw [boundary.2]
  exact of_whole ⟨by simp, c, t, [], Lexeme.first_of_opens _ opens (by simp)⟩

/-- A word of the language is written as it is. -/
theorem keyword (word : String) (listed : word ∈ Ident.keywords) :
    ∃ w, w.isKeyword word = true ∧ Writes word.toList [w] := by
  have inside := Ident.isRest_of_eqIgnoringCase (Ident.keywords_isLower listed) (beq_self_eq_true _)
  have alpha := Ident.isAlpha_of_eqIgnoringCase (Ident.keywords_isLower listed)
    (beq_self_eq_true _)
  refine ⟨.word word.toList, by simp [Lexeme.isKeyword, Ident.eqIgnoringCase], ?_⟩
  cases letters : word.toList with
  | nil => exact absurd letters (Ident.keywords_ne_nil listed)
  | cons c t =>
    rw [letters] at inside alpha
    simp only [List.all_cons, Bool.and_eq_true] at inside alpha
    exact Writes.word (by simp [Ident.isStart, alpha.1]) inside.2

/-- A text that quoting keeps is written as a piece that stands for it. -/
theorem spell {name : String} (spellable : Ident.isSpellable name = true) :
    ∃ n : Lexeme, n.name? = some name ∧ Writes (Ident.spell name.toList) [n] := by
  unfold Ident.spell
  split
  · next bare =>
    cases letters : name.toList with
    | nil => simp [letters, Ident.isBare] at bare
    | cons c t =>
      rw [letters] at bare
      simp only [Ident.isBare, Bool.and_eq_true, Bool.not_eq_true', List.all_eq_true] at bare
      obtain ⟨⟨start, inside⟩, plain⟩ := bare
      have named : (Lexeme.word (c :: t)).name? = some name := by
        rw [Lexeme.name?, plain, ← letters, String.ofList_toList]
        rfl
      refine ⟨_, named, Writes.word ?_ ?_⟩
      · exact Ident.isStart_of_isWrittenStart c start
      · rw [List.all_eq_true]
        intro x mem
        have written := inside x mem
        simp only [Ident.isWrittenRest, Bool.or_eq_true] at written
        rw [Ident.isRest, Bool.or_eq_true]
        exact written.imp_left (Ident.isStart_of_isWrittenStart x)
  · have split := Ident.splitQuoted?_escape spellable []
    have whole : (Part.piece (.quoted name.toList)).Whole :=
      ⟨by simp, '"', _, [], Lexeme.first_of_opens (.quoted name.toList) ⟨rfl, split⟩ (by simp)⟩
    exact ⟨.quoted name.toList, by simp [Lexeme.name?], of_whole whole⟩

theorem html {label : List Char} (balanced : Html.isBalanced 0 label = true) :
    Writes ('<' :: (label ++ ['>'])) [.html label] := by
  have split := Html.splitClosed?_of_isBalanced balanced []
  have whole : (Part.piece (.html label)).Whole :=
    ⟨by simp, '<', _, [], Lexeme.first_of_opens (.html label) ⟨rfl, split⟩ (by simp)⟩
  exact of_whole whole

end Writes

theorem Value.writes {value : Value} (writable : value.isWritable = true) :
    ∃ v : Lexeme, v.value? = some value.normal ∧ Writes value.render [v] := by
  cases value with
  | text s | ident s =>
    obtain ⟨n, named, writes⟩ := Writes.spell writable
    exact ⟨n, Value.value?_of_name? named, writes⟩
  | html s => exact ⟨.html s.toList, by simp [Lexeme.value?, Value.normal], Writes.html writable⟩

theorem Attribute.writes {a : Attribute} (key : Ident.isSpellable a.key = true)
    (value : a.value.isWritable = true) :
    ∃ k v : Lexeme, k.name? = some a.key ∧ v.value? = some a.value.normal ∧
      Writes a.render [k, .mark ['='], v] := by
  obtain ⟨k, named, first⟩ := Writes.spell key
  obtain ⟨v, valued, second⟩ := Value.writes value
  refine ⟨k, v, named, valued, ?_⟩
  exact first.append (second.punctuation (by decide)) (stops_cons (by decide) _)

/-- Texts that are put one behind another with something in between. -/
theorem intercalate_cons (sep cs : List Char) (texts : List (List Char)) :
    sep.intercalate (cs :: texts) = cs ++ texts.flatMap (sep ++ ·) := by
  induction texts generalizing cs with
  | nil => simp [List.intercalate]
  | cons t texts ih => rw [List.intercalate_cons_cons, ih, List.flatMap_cons, List.append_assoc,
      List.append_assoc]

theorem stops_flatMap {sep : List Char} (stops : Stops sep) (some : sep ≠ [])
    (texts : List (List Char)) : Stops (texts.flatMap (sep ++ ·)) := by
  cases texts with
  | nil => exact stops_nil
  | cons t texts =>
    cases sep with
    | nil => exact absurd rfl some
    | cons c sep => exact stops_cons (stops c rfl) _

/-- A space in front of the first of some texts says as little as the spaces between them. -/
theorem Writes.spaced {texts : List (List Char)} {ls : List Lexeme}
    (writes : Writes (texts.flatMap ([' '] ++ ·)) ls) : Writes ([' '].intercalate texts) ls := by
  cases texts with
  | nil => exact writes
  | cons t texts =>
    intro r behind
    have whole := writes r behind
    rw [List.flatMap_cons, List.append_assoc, List.append_assoc, List.singleton_append,
      ← Lexeme.all_skip, Blank.skip_of_isInline rfl, Lexeme.all_skip, ← List.append_assoc,
      ← intercalate_cons] at whole
    exact whole

/-- Attributes that are written in brackets spell their list, with the bracket that closes it. -/
theorem Attribute.listed_of_render {attrs : List Attribute}
    (writable : attrs.all (fun a => Ident.isSpellable a.key && a.value.isWritable) = true) :
    ∃ ls, Listed true (attrs.map Attribute.normal) (ls ++ [.mark [']']]) ∧
      Writes ((attrs.map Attribute.render).flatMap ([' '] ++ ·)) ls := by
  induction attrs with
  | nil => exact ⟨[], .closed .done, Writes.nil⟩
  | cons a attrs ih =>
    simp only [List.all_cons, Bool.and_eq_true] at writable
    obtain ⟨ls, listed, writes⟩ := ih (by simpa using writable.2)
    obtain ⟨k, v, named, valued, first⟩ := a.writes writable.1.1 writable.1.2
    have entry := Listed.entry named valued .none listed
    refine ⟨[k, .mark ['='], v] ++ ls, entry, ?_⟩
    refine (first.append writes (stops_flatMap ?_ (by simp) _)).space
    exact stops_cons (by decide) _

/-- The list of attributes behind a statement. -/
theorem Attribute.listed_of_renderList {attrs : List Attribute}
    (writable : attrs.all (fun a => Ident.isSpellable a.key && a.value.isWritable) = true) :
    ∃ ls, Listed false (attrs.map Attribute.normal) ls ∧ Writes (renderList attrs) ls ∧
      Stops (renderList attrs) := by
  unfold renderList
  split
  · next none =>
    obtain rfl : attrs = [] := by simpa using none
    exact ⟨[], .done, Writes.nil, stops_nil⟩
  · obtain ⟨ls, listed, writes⟩ := listed_of_render writable
    refine ⟨.mark ['['] :: (ls ++ [.mark [']']]), .opened listed, ?_, stops_cons (by decide) _⟩
    have closes := writes.spaced.append (Writes.nil.punctuation (c := ']') (by decide))
      (stops_cons (by decide) _)
    exact (closes.punctuation (by decide)).space

theorem Port.writes {name : String} (spellable : Ident.isSpellable name = true) :
    ∃ p : Lexeme, p.name? = some name ∧ Writes (renderPart (some name)) [.mark [':'], p] := by
  obtain ⟨p, named, writes⟩ := Writes.spell spellable
  exact ⟨p, named, writes.punctuation (by decide)⟩

theorem NodeRef.writes {ref : NodeRef} (spellable : ref.names.all Ident.isSpellable = true) :
    ∃ name, ref.Spelled name ∧ Writes ref.render name := by
  obtain ⟨id, port⟩ := ref
  have colon (cs : List Char) : Stops (':' :: cs) := stops_cons (by decide) cs
  match port with
  | none =>
    have spellable : Ident.isSpellable id = true := by simpa [names] using spellable
    obtain ⟨n, named, writes⟩ := Writes.spell spellable
    exact ⟨[n], .plain named, by simpa [render] using writes⟩
  | some ⟨port, none⟩ =>
    simp only [names, Option.toList_none, List.all_cons, List.all_nil, Bool.and_true,
      Bool.and_eq_true] at spellable
    obtain ⟨n, named, first⟩ := Writes.spell spellable.1
    obtain ⟨p, named', second⟩ := Port.writes spellable.2
    refine ⟨_, .port named named', ?_⟩
    simpa [render, Port.render, Port.renderPart] using first.append second (colon _)
  | some ⟨port, some compass⟩ =>
    simp only [names, Option.toList_some, List.all_cons, List.all_nil, Bool.and_true,
      Bool.and_eq_true] at spellable
    obtain ⟨n, named, first⟩ := Writes.spell spellable.1
    obtain ⟨p, named', second⟩ := Port.writes spellable.2.1
    obtain ⟨q, named'', third⟩ := Port.writes spellable.2.2
    refine ⟨_, .compass named named' named'', ?_⟩
    have both := second.append third (colon _)
    simpa [render, Port.render] using first.append both (colon _)

theorem Endpoint.renderHeader_none : renderHeader none = [] := rfl

theorem Endpoint.renderHeader_some (id : String) :
    renderHeader (some id) = "subgraph".toList ++ ' ' :: (Ident.spell id.toList ++ [' ']) := rfl

/-- What stands in front of the brace of a subgraph, with the brace and what comes behind it. -/
theorem Endpoint.header_writes {id : Option String}
    (spellable : id.toList.all Ident.isSpellable = true)
    {cs : List Char} {ls : List Lexeme} (writes : Writes ('{' :: cs) ls) :
    ∃ head, BlockHead id head ∧ Writes (renderHeader id ++ '{' :: cs) (head ++ ls) := by
  cases id with
  | none => exact ⟨[], .bare, by rwa [renderHeader_none, List.nil_append, List.nil_append]⟩
  | some id =>
    have spellable : Ident.isSpellable id = true := by simpa using spellable
    obtain ⟨w, same, first⟩ := Writes.keyword "subgraph" (by decide)
    obtain ⟨n, named, second⟩ := Writes.spell spellable
    refine ⟨[w, n], .named same named, ?_⟩
    have space (cs : List Char) : Stops (' ' :: cs) := stops_cons (by decide) cs
    have behind := (second.append writes.space (space _)).space
    have whole := first.append behind (space _)
    simpa [renderHeader_some] using whole

end DotText
