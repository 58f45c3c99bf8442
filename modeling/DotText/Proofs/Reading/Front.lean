import DotText.Proofs.Grammar.Trees
import DotText.Proofs.Insertion

set_option autoImplicit false

/- Statements at the start of a block are read as they are without the statements behind them. -/
namespace DotText

open Lexeme (Ends)

/-- What is behind some pieces of a text is what another text is made of. -/
theorem Lexeme.exists_rest {cs : List Char} {ps qs : List Lexeme} (found : all cs = ps ++ qs) :
    ∃ r, all r = qs := by
  induction ps generalizing cs with
  | nil => exact ⟨cs, found⟩
  | cons p ps ih =>
    cases start : Blank.skip cs with
    | nil => simp [all_of_skip_nil start] at found
    | cons c t =>
      rw [all_of_skip_cons start, List.cons_append, List.cons.injEq] at found
      exact ih found.2

namespace Lexeme

/-- A piece of two texts that are one behind another stands in the one or in the other. -/
theorem split_at {before behind first second : List Lexeme} {p : Lexeme}
    (same : before ++ p :: behind = first ++ second) :
    (∃ more, first = before ++ p :: more ∧ behind = more ++ second) ∨
      ∃ more, before = first ++ more ∧ second = more ++ p :: behind := by
  rcases List.append_eq_append_iff.mp same with ⟨more, rfl, split⟩ | ⟨more, rfl, split⟩
  · cases more with
    | nil => exact .inr ⟨[], by simp, split.symm⟩
    | cons q more =>
      obtain ⟨rfl, rfl⟩ := List.cons.inj split
      exact .inl ⟨more, rfl, rfl⟩
  · exact .inr ⟨more, rfl, split⟩

/-- Pieces that begin as a statement does, if there are any. -/
def Begins (ls : List Lexeme) : Prop :=
  ∀ p, ls.head? = some p → p.startsStatement = true

variable {allowed : Separators} {seps seps' ls ls' : List Lexeme}

theorem Begins.ends (begins : Begins ls) (separates : Separates allowed seps)
    (behind : List Lexeme) : Ends (seps ++ (ls ++ .mark ['}'] :: behind)) := by
  intro p first
  cases separates with
  | none =>
    cases ls with
    | nil =>
      cases first
      rfl
    | cons q ls =>
      cases first
      exact goesOn_of_startsStatement (begins p rfl)
  | one =>
    cases first
    rfl

theorem Begins.of_append {others : List Lexeme} (begins : Begins (ls ++ others)) : Begins ls := by
  intro p first
  exact begins p (by rw [List.head?_append, first]; rfl)

theorem Begins.not_separator (begins : Begins ls) (c : Char) (behind : List Lexeme) :
    ls ≠ .separator c :: behind := by
  rintro rfl
  cases begins _ rfl

/-- The separator in front of a statement is no part of it. -/
theorem Separates.same (first : Separates allowed seps) (second : Separates allowed seps')
    (begins : Begins ls) (begins' : Begins ls') (same : seps ++ ls = seps' ++ ls') :
    seps = seps' ∧ ls = ls' := by
  cases first with
  | none =>
    cases second with
    | none => exact ⟨rfl, same⟩
    | one => exact absurd same (begins.not_separator _ _)
  | one =>
    cases second with
    | none => exact absurd same.symm (begins'.not_separator _ _)
    | one => simpa using same

end Lexeme

namespace Statement

variable {kind : Kind}

/-- A text begins with one statement only. -/
theorem Spelled.same {s s' : Statement} {ls ls' others others' : List Lexeme}
    (spelled : s.Spelled kind.edgeOp.toList ls) (spelled' : s'.Spelled kind.edgeOp.toList ls')
    {cs : List Char} (found : Lexeme.all cs = ls ++ others)
    (found' : Lexeme.all cs = ls' ++ others') (ends : Ends others) (ends' : Ends others') :
    s = s' ∧ ls = ls' := by
  rw [← Lexeme.all_skip] at found found'
  have solid := Blank.skip_skip cs
  obtain ⟨r, takes, read⟩ := recovers_statement spelled.marked _ (readStatements kind)
    (fun _ => rfl) _ others (Nat.le_refl _) solid (by rw [Mark.lexemes_all, found]) ends
  obtain ⟨r', takes', read'⟩ := recovers_statement spelled'.marked _ (readStatements kind)
    (fun _ => rfl) _ others' (Nat.le_refl _) solid (by rw [Mark.lexemes_all, found']) ends'
  rw [Mark.lexemes_all] at takes takes'
  have same := Except.ok.inj (read.symm.trans read')
  obtain ⟨rfl, rfl⟩ := Prod.mk.inj same
  exact ⟨rfl, List.append_cancel_right (takes.1.symm.trans takes'.1)⟩

theorem Spelled.head {op : List Char} {s : Statement} {ls : List Lexeme} (spelled : s.Spelled op ls) :
    ∃ p others, ls = p :: others ∧ p.startsStatement = true := by
  simpa using spelled.marked.head

theorem Listed.begins_append {op : List Char} {ss : List Statement} {ls : List Lexeme}
    (listed : Listed op ss ls) {more : List Lexeme} (begins : Lexeme.Begins more) :
    Lexeme.Begins (ls ++ more) := by
  cases listed with
  | nil => exact begins
  | cons spelled =>
    obtain ⟨p, others, rfl, starts⟩ := spelled.head
    intro q first
    cases first
    exact starts

theorem Listed.begins {op : List Char} {ss : List Statement} {ls : List Lexeme}
    (listed : Listed op ss ls) : Lexeme.Begins ls := by
  rw [← List.append_nil ls]
  exact listed.begins_append (by simp [Lexeme.Begins])

theorem Listed.of_append {op : List Char} {ss ts : List Statement} {ls : List Lexeme}
    (listed : Listed op (ss ++ ts) ls) :
    ∃ first second, ls = first ++ second ∧ Listed op ss first ∧ Listed op ts second := by
  induction ss generalizing ls with
  | nil => exact ⟨[], ls, rfl, .nil, listed⟩
  | cons s ss ih =>
    cases listed with
    | cons spelled separates listed =>
      obtain ⟨first, second, rfl, front, rest⟩ := ih listed
      exact ⟨_, second, by simp, .cons spelled separates front, rest⟩

/-- Two spellings of the same statements that differ first in words or numerals have there what may
stand for each other in front of another statement. -/
theorem Listed.not_alters {ss : List Statement} {before behind : List Lexeme}
    {p other : Lexeme} (listed : Listed kind.edgeOp.toList ss (before ++ [p]))
    (listed' : Listed kind.edgeOp.toList ss (before ++ other :: behind)) : ¬p.Alters other := by
  intro alters
  -- A statement behind both tells them apart, as no mark comes right behind the first one.
  let name : Lexeme := .word ['a']
  have added : Listed kind.edgeOp.toList [.node ⟨"a", none⟩ []] [name] :=
    .cons (.node (.plain (by decide)) .done) .none .nil
  have nothing : Lexeme.Alike [] [] := trivial
  have close := nothing.cons (.mark ['}'])
  have alike := (listed.append added).marked.alike (listed'.append added).marked close
    ⟨_, rfl⟩ ⟨_, rfl⟩
  simp only [Mark.lexemes_all, List.append_assoc, List.cons_append, List.nil_append] at alike
  exact alters.not_exchanges rfl _ _
    (alike.exchanges alters.ne alters.isRunning.1 alters.isRunning.2)

/-- Statements at the start of a block are the first of the block, and what begins as a statement
behind them is the rest of it. -/
theorem Listed.front {ss body : List Statement} {ls more : List Lexeme} :
    Listed kind.edgeOp.toList ss ls → Listed kind.edgeOp.toList body (ls ++ more) →
      Lexeme.Begins more → ∀ {cs : List Char} {behind : List Lexeme},
      Lexeme.all cs = ls ++ (more ++ .mark ['}'] :: behind) →
      ∃ ts, body = ss ++ ts ∧ Listed kind.edgeOp.toList ts more
  | .nil, whole, _, _, _, _ => ⟨_, rfl, whole⟩
  | @Listed.cons _ _ _ l seps others spelled separates listed, whole, begins, cs, behind,
      found => by
    generalize shape : l ++ (seps ++ others) ++ more = pieces at whole
    cases whole with
    | nil =>
      obtain ⟨p, behind, rfl, -⟩ := spelled.head
      cases shape
    | @cons s' ss' l' seps' others' spelled' separates' listed' =>
      have begins₁ := listed.begins_append begins
      have begins₂ := listed'.begins
      simp only [List.append_assoc] at shape found
      have found' : Lexeme.all cs = l' ++ (seps' ++ (others' ++ .mark ['}'] :: behind)) := by
        rw [found]
        simpa using congrArg (· ++ Lexeme.mark ['}'] :: behind) shape
      obtain ⟨rfl, rfl⟩ := spelled.same spelled' found found'
        (by simpa using begins₁.ends separates behind) (begins₂.ends separates' behind)
      obtain ⟨rfl, rfl⟩ := separates.same separates' begins₁ begins₂ (List.append_cancel_left shape)
      rw [← List.append_assoc] at found
      obtain ⟨r, rest⟩ := Lexeme.exists_rest found
      obtain ⟨ts, rfl, rest⟩ := listed.front listed' begins rest
      exact ⟨ts, rfl, rest⟩

/-- No statement begins behind the statements of a block. -/
theorem Listed.eq_nil {ss : List Statement} {ls more : List Lexeme}
    (listed : Listed kind.edgeOp.toList ss ls) (whole : Listed kind.edgeOp.toList ss (ls ++ more))
    (begins : Lexeme.Begins more) {cs : List Char} {behind : List Lexeme}
    (found : Lexeme.all cs = ls ++ (more ++ .mark ['}'] :: behind)) : more = [] := by
  obtain ⟨ts, same, rest⟩ := listed.front whole begins found
  obtain rfl : ts = [] := by simpa using same
  cases rest
  rfl

end Statement

/-- What stands in front of the first brace of a document tells its kind and its name. -/
theorem DocumentHead.same {kind kind' : Kind} {strict strict' : Bool} {id id' : Option String}
    {head : List Lexeme} (opening : DocumentHead kind strict id head)
    (opening' : DocumentHead kind' strict' id' head) : kind' = kind ∧ strict' = strict ∧ id' = id := by
  have listed (kind : Kind) : kind.keyword ∈ Ident.keywords := by cases kind <;> decide
  have kinds {k : Lexeme} (same : k.isKeyword kind.keyword = true)
      (same' : k.isKeyword kind'.keyword = true) : kind' = kind := by
    have words := Lexeme.isKeyword_unique (listed kind) (listed kind') same same'
    revert words
    cases kind <;> cases kind' <;> decide
  have plain {k : Lexeme} {kind : Kind} (same : k.isKeyword kind.keyword = true) :
      k.isKeyword "strict" ≠ true := fun strict => by
    have words := Lexeme.isKeyword_unique (listed kind) (by decide) same strict
    revert words
    cases kind <;> decide
  induction opening generalizing strict' with
  | plain same =>
    cases opening' with
    | plain same' => exact ⟨kinds same same', rfl, rfl⟩
    | strict same' => exact absurd same' (plain same)
  | named same named =>
    cases opening' with
    | named same' named' => exact ⟨kinds same same', rfl, named'.symm.trans named⟩
    | strict same' => exact absurd same' (plain same)
  | strict same _ ih =>
    cases opening' with
    | plain same' | named same' => exact absurd same (plain same')
    | strict _ opening' =>
      obtain ⟨kind, -, id⟩ := ih opening'
      exact ⟨kind, rfl, id⟩

namespace Graph

/-- Two documents of the same kind and name. -/
structure SameHead (g g' : Graph) : Prop where
  strict : g'.strict = g.strict
  kind : g'.kind = g.kind
  id : g'.id = g.id

variable {g g' : Graph} {before : List Lexeme}

/-- The first brace of a document is none of its last pieces if those have no such brace. -/
theorem Spelled.split {others : List Lexeme} (spelled : g.Spelled (before ++ others))
    (absent : .mark ['{'] ∉ others) :
    ∃ head inner, before = head ++ .mark ['{'] :: inner ∧
      DocumentHead g.kind g.strict g.id head ∧
      ∃ ls, inner ++ others = ls ++ [.mark ['}']] ∧
        Statement.Listed g.kind.edgeOp.toList g.body ls := by
  generalize whole : before ++ others = pieces at spelled
  cases spelled with
  | @document head ls opening statements =>
    rcases Lexeme.split_at whole.symm with ⟨inner, rfl, rest⟩ | ⟨more, -, rfl⟩
    · exact ⟨head, inner, rfl, opening, ls, rest.symm, statements⟩
    · simp at absent

/-- A document that begins as this one does, with other pieces behind the first brace. -/
theorem Spelled.of_head {head ls : List Lexeme} (opening : DocumentHead g.kind g.strict g.id head)
    (spelled : g'.Spelled (head ++ .mark ['{'] :: ls)) :
    SameHead g g' ∧ ∃ ms, ls = ms ++ [.mark ['}']] ∧
      Statement.Listed g.kind.edgeOp.toList g'.body ms := by
  generalize whole : head ++ .mark ['{'] :: ls = pieces at spelled
  cases spelled with
  | @document head' ms opening' statements =>
    have behind := opening.dropWhile ls
    rw [whole, opening'.dropWhile, List.cons.injEq] at behind
    obtain ⟨-, rfl⟩ := behind
    obtain rfl := List.append_cancel_right whole
    obtain ⟨kind, strict, id⟩ := opening.same opening'
    exact ⟨⟨strict, kind, id⟩, ms, rfl, kind ▸ statements⟩

/-- Where pieces that begin as a statement stand in the place of the last brace, the statements in
front of them stay the first ones. -/
theorem Spelled.isPrefix_body (spelled : g.Spelled (before ++ [.mark ['}']])) {cs : List Char}
    {behind : List Lexeme} (found : Lexeme.all cs = before ++ behind) (some : behind ≠ [])
    (begins : Lexeme.Begins behind) (spelled' : g'.Spelled (Lexeme.all cs)) :
    SameHead g g' ∧ g.body <+: g'.body := by
  obtain ⟨head, inner, rfl, opening, ⟨ls, split, statements⟩⟩ := spelled.split (by simp)
  obtain rfl := List.append_cancel_right split
  rw [List.append_assoc, List.cons_append] at found
  rw [found] at spelled'
  obtain ⟨same, ms, split, statements'⟩ := spelled'.of_head opening
  obtain ⟨others, p, rfl⟩ := (List.eq_nil_or_concat behind).resolve_left some
  rw [List.concat_eq_append, ← List.append_assoc] at split
  obtain ⟨rfl, closing⟩ := List.append_inj' split rfl
  rw [List.concat_eq_append, closing, ← List.singleton_append, ← List.append_assoc] at found
  obtain ⟨r, rest⟩ := Lexeme.exists_rest found
  rw [List.concat_eq_append] at begins
  obtain ⟨ts, body, -⟩ := statements.front statements' begins.of_append rest
  exact ⟨same, ts, body.symm⟩

/-- Where another word stands in the place of the last piece in front of the last brace, the last
statement does not stay what it is. -/
theorem Spelled.not_isPrefix_body {cs : List Char} (spelled : g.Spelled (Lexeme.all cs))
    {p other : Lexeme} (found : Lexeme.all cs = before ++ [p, .mark ['}']])
    (alters : p.Alters other) {behind : List Lexeme}
    (spelled' : g'.Spelled (before ++ other :: behind)) :
    SameHead g g' ∧ ¬g.body <+: g'.body := by
  rw [found] at spelled
  have absent : .mark ['{'] ∉ [p, .mark ['}']] := by
    cases alters <;> simp
  obtain ⟨head, inner, rfl, opening, ⟨ls, split, statements⟩⟩ := spelled.split absent
  obtain rfl : ls = inner ++ [p] := by
    have close : [p, .mark ['}']] = [p] ++ [Lexeme.mark ['}']] := rfl
    rw [close, ← List.append_assoc] at split
    exact (List.append_cancel_right split).symm
  rw [List.append_assoc, List.cons_append] at found spelled'
  obtain ⟨same, ms, split, statements'⟩ := spelled'.of_head opening
  refine ⟨same, ?_⟩
  rintro ⟨ts, body⟩
  rw [← body] at statements'
  obtain ⟨first, second, rfl, listed, others⟩ := statements'.of_append
  rw [List.append_assoc] at split
  rcases Lexeme.split_at split with ⟨more, rfl, -⟩ | ⟨more, rfl, rest⟩
  · exact statements.not_alters listed alters
  · -- The statements are over in front of the piece, and yet a statement begins there.
    rw [List.append_assoc] at statements
    have begins : Lexeme.Begins (more ++ [p]) := by
      rintro q here
      cases more with
      | nil =>
        cases here
        cases alters <;> rfl
      | cons x more =>
        cases here
        cases second with
        | nil => simp at rest
        | cons y second =>
          obtain ⟨rfl, -⟩ := List.cons.inj rest
          exact others.begins y rfl
    rw [← List.singleton_append, ← List.append_assoc] at found
    obtain ⟨r, rest⟩ := Lexeme.exists_rest found
    have none := listed.eq_nil statements begins (by simpa using rest)
    simp at none

end Graph

end DotText
