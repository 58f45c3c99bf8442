import DotText.Proofs.Passing
import DotText.Proofs.Trimming

set_option autoImplicit false

/- An operation that puts nothing in goes over a part of the text, of which it leaves some characters
behind it, in their order. What it has not gone over is as it was. -/
namespace DotText.Cursor

theorem rest_cutToLandmark (c : Cursor) (l r : List Char) : (c.cutToLandmark l r).rest = r := by
  unfold cutToLandmark
  split <;> rfl

/-- The way from one place to another, with some of what lies in front taken away. -/
def Traverses (c c' : Cursor) : Prop :=
  ∃ w, w ++ c'.rest = c.rest ∧ c'.before.Sublist (c.before ++ w)

namespace Traverses

variable {c c' c'' : Cursor}

theorem refl (c : Cursor) : Traverses c c :=
  ⟨[], rfl, List.sublist_append_left ..⟩

theorem trans (first : Traverses c c') (second : Traverses c' c'') : Traverses c c'' := by
  obtain ⟨v, restV, beforeV⟩ := first
  obtain ⟨w, restW, beforeW⟩ := second
  refine ⟨v ++ w, by rw [List.append_assoc, restW, restV], ?_⟩
  rw [← List.append_assoc]
  exact beforeW.trans (beforeV.append_right w)

theorem suffix (traverses : Traverses c c') : c'.rest <:+ c.rest := by
  obtain ⟨w, rest, -⟩ := traverses
  exact ⟨w, rest⟩

/-- An operation that takes nothing away goes over what it passes. -/
theorem of_onward {settles : Bool} (onward : Onward settles c c') (same : c'.text = c.text) :
    Traverses c c' := by
  obtain ⟨w, before⟩ := onward.before
  refine ⟨w, ?_, before ▸ List.Sublist.refl _⟩
  rw [text, text, ← before, List.append_assoc] at same
  exact List.append_cancel_left same

theorem keep {kept r : List Char} (start : kept ++ r = c.rest) : Traverses c (c.keep kept r) :=
  ⟨kept, start, by simp [Cursor.keep, before]⟩

theorem cut {r : List Char} (suffix : r <:+ c.rest) : Traverses c (c.cut r) := by
  obtain ⟨w, rest⟩ := suffix
  exact ⟨w, rest, List.sublist_append_left ..⟩

theorem trim (c : Cursor) : Traverses c c.trim := by
  unfold Cursor.trim
  split
  · exact ⟨[], rfl, by simp [before]⟩
  · exact refl c

theorem passBlanks (allowed : Separators) (c : Cursor) : Traverses c (c.passBlanks allowed) :=
  of_onward (onward_passBlanks allowed c) (text_passBlanks allowed c)

theorem finishRound (rank : Nat) (c : Cursor) : Traverses c (c.finishRound rank) := by
  obtain ⟨_, onward⟩ := onward_finishRound rank c
  exact of_onward onward (text_finishRound rank c)

/-- A line end in front of the gap goes only where another is gone over, whose place it then has. -/
theorem cutToLandmark {l r : List Char} (suffix : l ++ r <:+ c.rest) :
    Traverses c (c.cutToLandmark l r) := by
  obtain ⟨w, rest⟩ := suffix
  refine ⟨w ++ l, ?_, ?_⟩
  · rw [rest_cutToLandmark, List.append_assoc, rest]
  · unfold Cursor.cutToLandmark
    split
    · simp [before]
    · simp [before, Cursor.keep, Cursor.cut]

theorem cutRounds (allowed : Separators) {r : List Char} (suffix : r <:+ c.rest) :
    Traverses c (c.cutRounds allowed r) := by
  have shorter (r : List Char) : allowed.afterRound r <:+ r := by
    obtain ⟨w, split, -⟩ := afterRound_split allowed r
    exact ⟨w, split.symm⟩
  fun_induction Cursor.cutRounds allowed c r with
  | case1 r r' l rest found =>
    have ahead : l ++ rest <:+ c.rest := Blank.landmark?_append found ▸ (shorter r).trans suffix
    exact (cutToLandmark ahead).trans (finishRound _ _)
  | case2 r r' l rest found reached =>
    have ahead : l ++ rest <:+ c.rest := Blank.landmark?_append found ▸ (shorter r).trans suffix
    exact ((cutToLandmark ahead).trans (finishRound _ _)).trans (passBlanks allowed _)
  | case3 r r' missing less ih => exact ih ((shorter r).trans suffix)
  | case4 => exact cut suffix

theorem skipBlanks (erase : Bool) (allowed : Separators) (c : Cursor) :
    Traverses c (c.skipBlanks erase allowed) := by
  cases erase with
  | false => exact passBlanks allowed c
  | true => exact cutRounds allowed List.suffix_rfl

theorem cutToken {r : List Char} (suffix : r <:+ c.rest) : Traverses c (c.cutToken r) :=
  (cut suffix).trans (skipBlanks true .none _)

theorem keepToken {written r : List Char} (start : written ++ r = c.rest) :
    Traverses c (c.keepToken written r) := by
  unfold Cursor.keepToken
  split
  · exact refl c
  · exact keep start

theorem skip (token : Token) (erase : Bool) (allowed : Separators) (isOptional : Bool) (c : Cursor) :
    Traverses c (c.skip token erase allowed isOptional).1 := by
  have approach : Traverses c (c.approach erase allowed) := skipBlanks _ allowed c
  unfold Cursor.skip
  generalize c.approach erase allowed = c' at approach
  dsimp only
  split
  · next written r found =>
    have start := Token.split?_append found
    cases erase with
    | false => exact approach.trans (keepToken start)
    | true => exact approach.trans (cutToken ⟨written, start⟩)
  · cases isOptional <;> cases erase
    · exact approach
    · exact approach
    · exact approach
    · exact approach.trans (cutToken List.suffix_rfl)

end Traverses

theorem traverses_step (c : Cursor) {s : Step} (steady : s.isInsert = false) :
    Traverses c (c.step s).1 := by
  cases s with
  | skip token erase allowed isOptional => exact .skip token erase allowed isOptional c
  | seek token => exact .passBlanks .none c
  | skipBlanks erase allowed => exact .skipBlanks erase allowed c
  | trim => exact .trim c
  | insert s => cases steady
  | _ => exact .refl c

/-- No operation puts anything in behind the place. -/
theorem suffix_step (c : Cursor) (s : Step) : (c.step s).1.rest <:+ c.rest := by
  cases steady : s.isInsert with
  | false => exact (c.traverses_step steady).suffix
  | true =>
    cases s with
    | insert s => exact List.suffix_rfl
    | _ => cases steady

theorem suffix_run (c : Cursor) (steps : List Step) : (c.run steps).rest <:+ c.rest := by
  induction steps generalizing c with
  | nil => exact List.suffix_rfl
  | cons s steps ih => exact (ih (c.step s).1).trans (c.suffix_step s)

theorem traverses_run (c : Cursor) {steps : List Step} (steady : steps.all (!·.isInsert) = true) :
    Traverses c (c.run steps) := by
  induction steps generalizing c with
  | nil => exact .refl c
  | cons s steps ih =>
    rw [List.all_cons, Bool.and_eq_true, Bool.not_eq_true'] at steady
    exact (c.traverses_step steady.1).trans (ih _ steady.2)

end DotText.Cursor
