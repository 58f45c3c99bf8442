import DotText.Edit.Walk
import DotText.Proofs.Reading.Words

set_option autoImplicit false

/- The tokens that are looked for and the pieces of a text: what a token is found as is the first
piece, and a mark or a word that is found is one. -/
namespace DotText

namespace Lexeme

theorem written_of_first {piece : Lexeme} {c : Char} {t r : List Char}
    (first : Lexeme.first c t = (piece, r)) : c :: t = piece.written ++ r := by
  have whole := written_append_first c t
  rw [first] at whole
  exact whole.symm

end Lexeme

namespace Token

/-- Whether a piece is the token. -/
def Spells : Token → Lexeme → Prop
  | keyword word, piece => piece.isKeyword (String.ofList word) = true
  | ident name, piece => piece.name? = some (String.ofList name)
  | html label, piece => piece = .html label
  | mark text, piece => piece = .mark text

theorem spells_keyword {keyword : String} {piece : Lexeme}
    (same : piece.isKeyword keyword = true) : (Token.keyword keyword.toList).Spells piece := by
  simpa [Spells] using same

theorem spells_ident {name : String} {piece : Lexeme} (named : piece.name? = some name) :
    (Token.ident name.toList).Spells piece := by
  simpa [Spells] using named

theorem spells_mark (m : List Char) : (Token.mark m).Spells (.mark m) := rfl

theorem Spells.known {token : Token} {piece : Lexeme} (spells : token.Spells piece) (x : Char) :
    piece ≠ .stray x := by
  rintro rfl
  cases token <;> cases spells

theorem Spells.not_isSeparator {token : Token} {piece : Lexeme} (spells : token.Spells piece) :
    piece.isSeparator = false := by
  cases piece with
  | separator x => cases token <;> cases spells
  | _ => rfl

theorem split?_of_spelling {token : Token} {cs written r : List Char} (at_ : token.isAt cs = true)
    (size : (token.spelling cs).length = written.length) (split : cs = written ++ r) :
    token.split? cs = some (written, r) := by
  rw [split?, if_pos at_, size, split]
  simp

theorem split?_of_text {token : Token} {cs written r : List Char}
    (plain : token.isAt cs = (token.spelling cs).isPrefixOf cs)
    (spelled : token.spelling cs = written) (split : cs = written ++ r) :
    token.split? cs = some (written, r) := by
  refine split?_of_spelling ?_ (by rw [spelled]) split
  rw [plain, spelled, split]
  simp

/-- An identifier is written with quotes exactly where its piece is quoted. -/
theorem spelling_ident {piece : Lexeme} {c : Char} {t r name : List Char}
    (first : Lexeme.first c t = (piece, r)) (named : piece.name? = some (String.ofList name)) :
    (ident name).spelling (c :: t) = piece.written := by
  have opens := Lexeme.opens_of_first first
  simp only [spelling, List.head?_cons, Option.some.injEq]
  cases piece with
  | quoted s =>
    have same : s = name := String.ofList_injective (Option.some.inj named)
    rw [if_pos opens.1, Lexeme.written, same]
  | numeral n =>
    have plain : c ≠ '"' := by rintro rfl; exact absurd opens.1 (by decide)
    have same : n = name := String.ofList_injective (Option.some.inj named)
    rw [if_neg plain, Lexeme.written, same]
  | word w =>
    have plain : c ≠ '"' := by rintro rfl; exact absurd opens.1 (by decide)
    simp only [Lexeme.name?, Option.ite_none_left_eq_some, Option.some.injEq] at named
    have same : w = name := String.ofList_injective named.2
    rw [if_neg plain, Lexeme.written, same]
  | html | mark | separator | stray => cases named

/-- A token is found as the first piece of a text. -/
theorem Spells.split?_eq {token : Token} {piece : Lexeme} {c : Char} {t r : List Char}
    (spells : token.Spells piece) (first : Lexeme.first c t = (piece, r)) :
    token.split? (c :: t) = some (piece.written, r) := by
  have split := Lexeme.written_of_first first
  cases token with
  | keyword word =>
    cases piece with
    | word w =>
      have same : Ident.eqIgnoringCase word w = true := by
        simpa [Spells, Lexeme.isKeyword] using spells
      have ends : r.head?.any Ident.isRest = false := by
        rw [(Lexeme.opens_of_first first).2.2]
        exact head?_dropWhile_any Ident.isRest t
      have found : Ident.dropWord? word (c :: t) = some r :=
        Ident.dropWord?_eq_some.mpr ⟨w, split, same, ends⟩
      have size : word.length = w.length := by
        simpa using congrArg List.length (eq_of_beq same)
      exact split?_of_spelling (by simp [isAt, found]) size split
    | _ => cases spells
  | ident name => exact split?_of_text rfl (spelling_ident first spells) split
  | html label =>
    cases spells
    exact split?_of_text rfl rfl split
  | mark text =>
    cases spells
    exact split?_of_text rfl rfl split

/-- The tokens that are found only where they are a piece. -/
def isPlain : Token → Bool
  | keyword word => Ident.keywords.contains (String.ofList word)
  | mark [c] => Lexeme.isPunctuation c
  | _ => false

theorem Spells.of_isAt {token : Token} (plain : token.isPlain = true) {cs : List Char}
    (at_ : token.isAt cs = true) :
    ∃ piece others, Lexeme.all cs = piece :: others ∧ token.Spells piece := by
  cases token with
  | keyword word =>
    have listed : String.ofList word ∈ Ident.keywords := by simpa [isPlain] using plain
    obtain ⟨r, found⟩ := Option.isSome_iff_exists.mp at_
    obtain ⟨piece, same, takes⟩ :=
      Ident.takes_of_dropWord? listed (by rw [String.toList_ofList]; exact found)
    exact ⟨piece, Lexeme.all r, takes.1, same⟩
  | mark text =>
    match text, plain with
    | [x], punctuation =>
      obtain ⟨r, split⟩ := List.isPrefixOf_iff_prefix.mp at_
      have takes := Lexeme.takes_of_isPunctuation punctuation r
      rw [show cs = x :: r from split.symm]
      exact ⟨.mark [x], Lexeme.all r, takes.1, rfl⟩
  | ident => cases plain
  | html => cases plain

end Token

namespace Walk

theorem spells_valueToken {value : Value} {piece : Lexeme} (valued : piece.value? = some value) :
    (valueToken value).Spells piece := by
  cases piece with
  | html label =>
    cases valued
    simp [valueToken, Token.Spells]
  | _ =>
    simp only [Lexeme.value?, Option.map_eq_some_iff] at valued
    obtain ⟨s, named, rfl⟩ := valued
    exact Token.spells_ident named

end Walk

end DotText
