import DotText.Proofs.Grammar.Trees
import DotText.Proofs.Reading.Leaving

set_option autoImplicit false

/- What is in front of the place where a reader fails is the start of something it would have read:
there are pieces that complete the ones in front of the place. Each reader is gone over once, with
one case for each way to fail. -/
namespace DotText

open Lexeme (Takes)

/-- Some pieces that any text can be completed with. -/
def Lexeme.stock : List Lexeme :=
  .word ['x'] :: .word "graph".toList :: .word "digraph".toList :: .mark ['-', '-'] ::
    .mark ['-', '>'] :: ['{', '}', '[', ']', '='].map fun c => .mark [c]

theorem Lexeme.whole_of_stock : ∀ p ∈ stock, (Part.piece p).Whole := by
  have known : ∀ p ∈ stock, ∀ x, p ≠ .stray x := by simp [stock]
  have firsts : ∀ p ∈ stock, ∃ c cs, p.written = c :: cs ∧ first c cs = (p, []) := by
    simp only [stock, List.map_cons, List.map_nil, List.forall_mem_cons]
    exact ⟨⟨_, _, rfl, rfl⟩, ⟨_, _, rfl, rfl⟩, ⟨_, _, rfl, rfl⟩, ⟨_, _, rfl, rfl⟩,
      ⟨_, _, rfl, rfl⟩, ⟨_, _, rfl, rfl⟩, ⟨_, _, rfl, rfl⟩, ⟨_, _, rfl, rfl⟩, ⟨_, _, rfl, rfl⟩,
      ⟨_, _, rfl, rfl⟩, by simp⟩
  intro p mem
  obtain ⟨c, cs, -, first⟩ := firsts p mem
  exact ⟨known p mem, c, cs, [], first⟩

theorem Lexeme.edgeOp_mem_stock (kind : Kind) : mark kind.edgeOp.toList ∈ stock := by
  cases kind <;> decide

/-- The text in front of `rest` is the start of something of the kind. -/
def Unfinished (kind : List Lexeme → Prop) (cs rest : List Char) : Prop :=
  ∃ ls more, Halts cs ls rest ∧ more ⊆ Lexeme.stock ∧ kind (ls ++ more)

namespace Unfinished

variable {kind kind' : List Lexeme → Prop} {cs rest : List Char}

/-- Nothing has been read yet. -/
theorem here (rest : List Char) (more : List Lexeme) (listed : more ⊆ Lexeme.stock)
    (whole : kind more) : Unfinished kind rest rest :=
  ⟨[], more, .here rest, listed, whole⟩

theorem skip (unfinished : Unfinished kind (Blank.skip cs) rest) : Unfinished kind cs rest := by
  obtain ⟨ls, more, halts, listed, whole⟩ := unfinished
  exact ⟨ls, more, halts.behind_blank, listed, whole⟩

/-- Some pieces have been read, and nothing behind them. -/
theorem at_ {ps : List Lexeme} (leaves : Leaves cs rest) (takes : Takes cs ps rest)
    (more : List Lexeme) (listed : more ⊆ Lexeme.stock) (whole : kind (ps ++ more)) :
    Unfinished kind cs rest :=
  ⟨ps, more, by simpa using leaves.halts takes (.here rest), listed, whole⟩

/-- What is unfinished behind some pieces is the unfinished end of something that begins with
these. -/
theorem behind {r : List Char} {ps : List Lexeme} (leaves : Leaves cs r) (takes : Takes cs ps r)
    (unfinished : Unfinished kind r rest)
    (completes : ∀ ls, kind ls → ∃ more, more ⊆ Lexeme.stock ∧ kind' (ps ++ (ls ++ more))) :
    Unfinished kind' cs rest := by
  obtain ⟨ls, more, halts, listed, whole⟩ := unfinished
  obtain ⟨more', listed', whole'⟩ := completes _ whole
  refine ⟨ps ++ ls, more ++ more', leaves.halts takes halts, ?_, by simpa using whole'⟩
  exact List.append_subset.mpr ⟨listed, listed'⟩

/-- What is unfinished is the unfinished start of something longer. -/
theorem longer (unfinished : Unfinished kind cs rest)
    (completes : ∀ ls, kind ls → ∃ more, more ⊆ Lexeme.stock ∧ kind' (ls ++ more)) :
    Unfinished kind' cs rest :=
  behind (.refl cs) (Takes.refl cs) unfinished completes

theorem imp (unfinished : Unfinished kind cs rest) (implies : ∀ ls, kind ls → kind' ls) :
    Unfinished kind' cs rest :=
  unfinished.longer fun ls whole => ⟨[], by simp, by simpa using implies ls whole⟩

end Unfinished

/-- A reader that fails behind the start of something of the kind. -/
def Reader.Failing {α : Type} (reader : Reader α) (kind : List Lexeme → Prop) : Prop :=
  ∀ ⦃cs : List Char⦄ ⦃f : Failure⦄, reader cs = .error f → Unfinished kind cs f.rest

/-- Where one of many items fails, the items in front of it have been read. -/
theorem Reader.failing_many {α : Type} {stop : List Char → Bool} {item : Reader α}
    {kind : List Lexeme → Prop}
    (first : ∀ cs f, stop cs = false → item cs = .error f → Unfinished kind cs f.rest)
    (later : ∀ cs a r rest, item cs = .ok (a, r) → Unfinished kind r rest → Unfinished kind cs rest) :
    Reader.Failing (Reader.many stop item) kind := by
  intro cs f failed
  fun_induction Reader.many stop item cs with
  | case1 => cases failed
  | case2 cs goesOn failure found =>
    cases failed
    exact first cs _ (by simpa using goesOn) found
  | case3 cs _ a r found _ failure others ih =>
    cases failed
    exact later cs a r _ found (ih others)
  | case4 => cases failed
  | case5 => cases failed

/-- One piece that stands for an identifier. -/
def Lexeme.IsName (ls : List Lexeme) : Prop :=
  ∃ (n : Lexeme) (s : String), ls = [n] ∧ n.name? = some s

/-- One piece that stands for a value. -/
def Lexeme.IsValue (ls : List Lexeme) : Prop :=
  ∃ (v : Lexeme) (value : Value), ls = [v] ∧ v.value? = some value

open Lexeme (IsName IsValue)

namespace Ident

/-- A quoted text that does not end can be closed. -/
theorem exists_closing {cs : List Char} (opened : splitQuoted? cs = none) :
    ∃ closer s, ∀ t, splitQuoted? (cs ++ (closer ++ t)) = some (s, t) := by
  fun_induction splitQuoted? cs with
  | case1 => exact ⟨['"'], [], fun t => rfl⟩
  | case2 => cases opened
  | case3 cs ih =>
    obtain ⟨closer, s, closes⟩ := ih (by simpa using opened)
    exact ⟨closer, '"' :: s, fun t => by simp [splitQuoted?, closes]⟩
  | case4 c cs notQuote ih =>
    obtain ⟨closer, s, closes⟩ := ih (by simpa using opened)
    exact ⟨closer, '\\' :: c :: s, fun t => by simp [splitQuoted?, closes]⟩
  | case5 c cs notQuote notEscapedQuote notEscape ih =>
    by_cases backslash : c = '\\'
    · -- The text ends with a backslash that has nothing behind it; a quote there does not close.
      subst backslash
      cases cs with
      | nil => exact ⟨['"', '"'], ['"'], fun t => rfl⟩
      | cons x cs => exact absurd rfl (notEscape x cs rfl)
    · obtain ⟨closer, s, closes⟩ := ih (by simpa using opened)
      exact ⟨closer, c :: s, fun t => by simp [splitQuoted?, backslash, closes]⟩

theorem rest_of_readUnsigned {cs : List Char} {f : Failure} (failed : readUnsigned cs = .error f) :
    f.rest = cs := by
  unfold readUnsigned at failed
  split at failed
  · cases failed
  · cases failed
    rfl

/-- A numeral is missing where it should begin, or behind its sign. -/
theorem stop_of_readNumeral {cs : List Char} {f : Failure} (failed : readNumeral cs = .error f) :
    f.rest = cs ∨ cs = '-' :: f.rest := by
  unfold readNumeral at failed
  split at failed
  · next r =>
    split at failed
    · cases failed
    · next missing =>
      cases failed
      exact .inr (by rw [rest_of_readUnsigned missing])
  · exact .inl (rest_of_readUnsigned failed)

/-- A sign without a numeral behind it gets one. -/
theorem halts_sign (rest : List Char) :
    Halts ('-' :: rest) [.numeral ['-', '0']] rest := by
  refine .inside ['0', '\n'] (List.cons_ne_nil '-' [])  fun t => ?_
  have read : readNumeral ('-' :: '0' :: '\n' :: t) = .ok (['-', '0'], '\n' :: t) := by
    simp [readNumeral, readUnsigned, splitUnsigned?, Char.isDigit]
  have heads : (Lexeme.numeral ['-', '0']).Heads ('-' :: '0' :: '\n' :: t) ('\n' :: t) :=
    ⟨by simp, '-', _, rfl, rfl, read⟩
  rw [← Lexeme.all_newline t]
  exact heads.takes.1

theorem failing_read : Reader.Failing Ident.read IsName := by
  have name : IsName [.word ['x']] := ⟨_, "x", rfl, by decide⟩
  intro cs f failed
  unfold Ident.read at failed
  split at failed
  case h_1 => cases failed
  next failure read =>
  cases failed
  unfold readText at read
  split at read
  · next r =>
    split at read
    · cases read
    · next opened =>
      cases read
      obtain ⟨closer, s, closes⟩ := exists_closing opened
      refine ⟨[.quoted s], [], ?_, by simp, .quoted s, _, rfl, rfl⟩
      rw [← List.append_nil ('"' :: r)]
      refine .inside closer (by simp) fun t => ?_
      have heads : (Lexeme.quoted s).Heads ('"' :: (r ++ (closer ++ t))) t :=
        ⟨by simp, '"', _, rfl, rfl, closes t⟩
      exact heads.takes.1
  split at read
  · rcases stop_of_readNumeral read with same | sign
    · rw [same]
      exact .here cs _ (by decide) name
    · rw [sign]
      exact ⟨_, [], halts_sign f.rest, by simp, _, _, rfl, rfl⟩
  split at read
  · cases read
    exact .here cs _ (by decide) name
  · unfold readBare at read
    split at read
    · cases read
    · cases read
      exact .here cs _ (by decide) name

end Ident

theorem Value.failing_read : Reader.Failing Value.read IsValue := by
  intro cs f failed
  unfold Value.read at failed
  split at failed
  · split at failed
    · cases failed
    · cases failed
      exact .here _ [.word ['x']] (by decide) ⟨_, .text "x", rfl, by decide⟩
  · rcases bind_eq_error.mp failed with failed | ⟨_, _, done⟩
    · refine (Ident.failing_read failed).imp ?_
      rintro ls ⟨n, s, rfl, named⟩
      exact ⟨n, _, rfl, value?_of_name? named⟩
    · cases done

theorem Reader.rest_of_char {c : Char} {missing : Expected} {cs : List Char} {f : Failure}
    (failed : Reader.char c missing cs = .error f) : f.rest = cs := by
  unfold Reader.char at failed
  split at failed
  · cases failed
  · cases failed
    rfl

namespace Attribute

/-- Lists in brackets, the first of which may be open already. -/
def IsListed (opened : Bool) (ls : List Lexeme) : Prop :=
  ∃ attrs, Listed opened attrs ls

theorem isListed_entry {k v : Lexeme} {key : String} (value : Value) (named : k.name? = some key)
    (valued : v.value? = some value) : IsListed true [k, .mark ['='], v, .mark [']']] :=
  ⟨_, .entry named valued .none (.closed .done)⟩

theorem failing_read : Reader.Failing Attribute.read (IsListed true) := by
  intro cs f failed
  rcases bind_eq_error.mp failed with failed | ⟨⟨key, r₁⟩, readKey, rest⟩
  · refine (Ident.failing_read failed).longer ?_
    rintro _ ⟨k, s, rfl, named⟩
    exact ⟨[.mark ['='], .word ['x'], .mark [']']], by decide,
      isListed_entry (.text "x") named (by decide)⟩
  obtain ⟨k, named, takesKey⟩ := Ident.takes_of_read readKey
  have leavesKey := (Ident.leaving_read readKey).skip
  rcases bind_eq_error.mp rest with failed | ⟨r₂, readMark, rest⟩
  · rw [Reader.rest_of_char failed]
    exact .at_ leavesKey takesKey.skip [.mark ['='], .word ['x'], .mark [']']] (by decide)
      (isListed_entry (.text "x") named (by decide))
  have leavesMark := (leavesKey.trans (.of_char (by decide) readMark)).skip
  have takesMark := (takesKey.skip.append (Lexeme.takes_of_char (by decide) readMark)).skip
  rcases bind_eq_error.mp rest with failed | ⟨_, _, done⟩
  · refine (Value.failing_read failed).behind leavesMark takesMark ?_
    rintro _ ⟨v, value, rfl, valued⟩
    exact ⟨[.mark [']']], by decide, isListed_entry value named valued⟩
  · exact absurd done pure_ne_error

theorem failing_readList : Reader.Failing readList (IsListed false) := by
  intro cs f failed
  rcases bind_eq_error.mp failed with failed | ⟨r₁, readOpen, rest⟩
  · rw [Reader.rest_of_char failed]
    exact .here cs [.mark ['['], .mark [']']] (by decide) ⟨[], .opened (.closed .done)⟩
  rcases bind_eq_error.mp rest with failed | ⟨_, _, done⟩
  · have leaves := (Leaves.of_char (by decide) readOpen).skip
    have takes := (Lexeme.takes_of_char (by decide) readOpen).skip
    have entries : Unfinished (IsListed true) (Blank.skip r₁) f.rest := by
      refine Reader.failing_many (fun cs f _ failed => failing_read failed) ?_ failed
      intro cs a r rest read unfinished
      obtain ⟨k, v, seps, named, valued, separates, takes, -⟩ := takes_of_read read
      refine unfinished.behind (leaving_read read) takes ?_
      rintro ls ⟨attrs, listed⟩
      exact ⟨[], by simp, _, by simpa using Listed.entry named valued separates listed⟩
    refine entries.behind leaves takes ?_
    rintro ls ⟨attrs, listed⟩
    exact ⟨[], by simp, attrs, by simpa using listed.opened⟩
  · exact absurd done pure_ne_error

theorem failing_readLists : Reader.Failing readLists (IsListed false) := by
  intro cs f failed
  rcases bind_eq_error.mp failed with failed | ⟨_, _, done⟩
  · refine .skip (Reader.failing_many (fun cs f _ failed => failing_readList failed) ?_ failed)
    intro cs attrs r rest read unfinished
    obtain ⟨ls, takes, -, goesOn⟩ := takes_of_readList read
    refine unfinished.behind (leaving_readList read) takes ?_
    rintro ls' ⟨others, listed⟩
    exact ⟨[], by simp, _, by simpa using (goesOn listed).opened⟩
  · exact absurd done pure_ne_error

end Attribute

open Attribute (IsListed)

/-- A colon and a name. -/
def Port.IsPart (ls : List Lexeme) : Prop :=
  ∃ (n : Lexeme) (s : String), ls = [.mark [':'], n] ∧ n.name? = some s

theorem Port.failing_readPart : Reader.Failing Port.readPart Port.IsPart := by
  intro cs f failed
  unfold Port.readPart at failed
  split at failed
  · next t colon =>
    rcases bind_eq_error.mp failed with failed | ⟨_, _, done⟩
    · have heads := Lexeme.heads_of_isPunctuation (c := ':') (by decide) t
      rw [← colon] at heads
      refine .skip ((Ident.failing_read failed).behind (Leaves.of_heads heads).skip
        heads.takes.skip ?_)
      rintro _ ⟨n, s, rfl, named⟩
      exact ⟨[], by simp, n, s, rfl, named⟩
    · exact absurd done pure_ne_error
  · exact absurd failed pure_ne_error

/-- What may stand behind a name to make it a mention of a node. -/
def NodeRef.IsTail (ls : List Lexeme) : Prop :=
  ∀ {n : Lexeme} {id : String}, n.name? = some id → ∃ ref : NodeRef, ref.Spelled (n :: ls)

theorem NodeRef.failing_readPort (id : String) :
    Reader.Failing (NodeRef.readPort id) NodeRef.IsTail := by
  intro cs f failed
  rcases bind_eq_error.mp failed with failed | ⟨⟨part, r₁⟩, readPort, rest⟩
  · refine (Port.failing_readPart failed).imp ?_
    rintro _ ⟨p, s, rfl, named⟩ n id name
    exact ⟨_, .port name named⟩
  have leaves := Port.leaving_readPart readPort
  rcases Port.takes_of_readPart readPort with ⟨rfl, rfl⟩ | ⟨port, p, rfl, named, takes⟩
  · exact absurd rest pure_ne_error
  · rcases bind_eq_error.mp rest with failed | ⟨_, _, done⟩
    · refine (Port.failing_readPart failed).behind leaves takes ?_
      rintro _ ⟨q, s, rfl, named'⟩
      exact ⟨[], by simp, fun name => ⟨_, .compass name named named'⟩⟩
    · exact absurd done pure_ne_error

theorem failing_readBlockId : Reader.Failing readBlockId IsName := by
  intro cs f failed
  unfold readBlockId at failed
  split at failed
  · cases failed
  · rcases bind_eq_error.mp failed with failed | ⟨_, _, done⟩
    · exact Ident.failing_read failed
    · exact absurd done pure_ne_error

section Statements

variable (op : List Char)

/-- Pieces of which there is a tree, for each kind of tree. -/
def Statement.IsListed (ls : List Lexeme) : Prop := ∃ ss, Statement.Listed op ss ls

def Endpoint.IsBraced (ls : List Lexeme) : Prop := ∃ id body, Endpoint.Braced op id body ls

def Endpoint.IsSpelled (ls : List Lexeme) : Prop := ∃ e, Endpoint.Spelled op e ls

def Endpoint.IsLinked (ls : List Lexeme) : Prop := ∃ es, Endpoint.Linked op es ls

def Statement.IsSpelled (ls : List Lexeme) : Prop := ∃ s, Statement.Spelled op s ls

/-- The statements of a block in its braces. -/
def Statement.IsBlock (ls : List Lexeme) : Prop :=
  ∃ ss inner, Statement.Listed op ss inner ∧ ls = .mark ['{'] :: (inner ++ [.mark ['}']])

end Statements

/-- What is known of a reader for the statements between two braces. -/
structure Reader.Understood (kind : Kind) (statements : Reader (List Statement)) : Prop where
  marked : ReadsMarked .nothing kind statements
  leaving : Reader.Leaving statements
  failing : Reader.Failing statements (Statement.IsListed kind.edgeOp.toList)

section Statements

variable {kind : Kind} {statements : Reader (List Statement)}
  (nested : Reader.Understood kind statements)

include nested

theorem failing_readBraces :
    Reader.Failing (readBraces statements) (Statement.IsBlock kind.edgeOp.toList) := by
  intro cs f failed
  rcases bind_eq_error.mp failed with failed | ⟨r₁, readOpen, rest⟩
  · rw [Reader.rest_of_char failed]
    exact .here cs [.mark ['{'], .mark ['}']] (by decide) ⟨[], [], .nil, rfl⟩
  have leavesOpen := Leaves.of_char (by decide) readOpen
  have takesOpen := Lexeme.takes_of_char (by decide) readOpen
  rcases bind_eq_error.mp rest with failed | ⟨⟨body, r₂⟩, read, rest⟩
  · refine (nested.failing failed).behind leavesOpen takesOpen ?_
    rintro ls ⟨ss, listed⟩
    exact ⟨[.mark ['}']], by decide, ss, ls, listed, rfl⟩
  obtain ⟨marks, block, takes⟩ := nested.marked read
  rcases bind_eq_error.mp rest with failed | ⟨_, _, done⟩
  · rw [Reader.rest_of_char failed]
    refine .at_ (leavesOpen.trans (nested.leaving read)) (takesOpen.append takes)
      [.mark ['}']] (by decide) ⟨body, _, block.spelled, by simp⟩
  · exact absurd done pure_ne_error

namespace Endpoint

theorem failing_readSubgraph :
    Reader.Failing (readSubgraph statements) (IsBraced kind.edgeOp.toList) := by
  intro cs f failed
  unfold readSubgraph at failed
  split at failed
  · next t word =>
    obtain ⟨w, same, heads⟩ := Ident.heads_of_dropWord? (by decide) word
    have leaves := (Leaves.of_heads heads).skip
    have takes := heads.takes.skip
    rcases bind_eq_error.mp failed with failed | ⟨⟨id, r₁⟩, readId, rest⟩
    · refine (failing_readBlockId failed).behind leaves takes ?_
      rintro _ ⟨n, s, rfl, named⟩
      exact ⟨[.mark ['{'], .mark ['}']], by decide, _, [], .block (.named same named) .nil⟩
    rcases bind_eq_error.mp rest with failed | ⟨_, _, done⟩
    · rcases takes_of_readBlockId readId with ⟨rfl, rfl⟩ | ⟨s, n, rfl, named, takesName⟩
      · refine (failing_readBraces nested failed).behind leaves takes ?_
        rintro _ ⟨ss, inner, listed, rfl⟩
        exact ⟨[], by simp, _, ss, by simpa using Braced.block (.keyword same) listed⟩
      · refine (failing_readBraces nested failed).behind
          (leaves.trans (leaving_readBlockId readId)) (takes.append takesName) ?_
        rintro _ ⟨ss, inner, listed, rfl⟩
        exact ⟨[], by simp, _, ss, by simpa using Braced.block (.named same named) listed⟩
    · exact absurd done pure_ne_error
  · rcases bind_eq_error.mp failed with failed | ⟨head, bare, rest⟩
    · cases failed
    cases bare
    rcases bind_eq_error.mp rest with failed | ⟨_, _, done⟩
    · refine (failing_readBraces nested failed).imp ?_
      rintro _ ⟨ss, inner, listed, rfl⟩
      exact ⟨none, ss, by simpa using Braced.block .bare listed⟩
    · exact absurd done pure_ne_error

theorem failing_read :
    Reader.Failing (Endpoint.read statements) (IsSpelled kind.edgeOp.toList) := by
  intro cs f failed
  unfold Endpoint.read at failed
  split at failed
  · rcases bind_eq_error.mp failed with failed | ⟨_, _, done⟩
    · refine (failing_readSubgraph nested failed).imp ?_
      rintro ls ⟨id, body, braced⟩
      exact ⟨_, .subgraph braced⟩
    · exact absurd done pure_ne_error
  · rcases bind_eq_error.mp failed with failed | ⟨⟨id, r₁⟩, readName, rest⟩
    · refine (Ident.failing_read failed).imp ?_
      rintro _ ⟨n, s, rfl, named⟩
      exact ⟨_, .node (.plain named)⟩
    obtain ⟨n, named, takesName⟩ := Ident.takes_of_read readName
    rcases bind_eq_error.mp rest with failed | ⟨_, _, done⟩
    · refine (NodeRef.failing_readPort id failed).behind (Ident.leaving_read readName) takesName ?_
      intro ls tail
      obtain ⟨ref, spelled⟩ := tail named
      exact ⟨[], by simp, _, by simpa using Spelled.node spelled⟩
    · exact absurd done pure_ne_error

theorem failing_readLink :
    Reader.Failing (readLink kind statements) (IsLinked kind.edgeOp.toList) := by
  intro cs f failed
  unfold readLink at failed
  split at failed
  · next start =>
    obtain ⟨t, rfl⟩ := List.isPrefixOf_iff_prefix.mp start
    rw [← String.length_toList, List.drop_left] at failed
    have heads := Lexeme.heads_of_edgeOp kind t
    rcases bind_eq_error.mp failed with failed | ⟨_, _, done⟩
    · refine (failing_read nested failed).behind (Leaves.of_heads heads).skip heads.takes.skip ?_
      rintro ls ⟨e, spelled⟩
      exact ⟨[], by simp, [e], by simpa using Linked.cons spelled .nil⟩
    · exact absurd done pure_ne_error
  · cases failed
    refine .here cs [.mark kind.edgeOp.toList, .word ['x']] ?_ ?_
    · exact List.cons_subset.mpr ⟨Lexeme.edgeOp_mem_stock kind, by decide⟩
    · have name : (Lexeme.word ['x']).name? = some "x" := by decide
      exact ⟨_, .cons (.node (.plain name)) .nil⟩

theorem failing_links :
    Reader.Failing (Reader.many (!Endpoint.atOp ·) (readLink kind statements))
      (IsLinked kind.edgeOp.toList) := by
  refine Reader.failing_many (fun cs f _ failed => failing_readLink nested failed) ?_
  intro cs e r rest read unfinished
  obtain ⟨marks, endpoint, takes, -⟩ := takes_of_readLink nested.marked read
  refine unfinished.behind (leaving_readLink nested.leaving kind read) takes ?_
  rintro ls ⟨es, linked⟩
  exact ⟨[], by simp, _, by simpa using Linked.cons endpoint.spelled linked⟩

end Endpoint

namespace Statement

/-- What may stand behind the first end of a statement. -/
def IsTail (op : List Char) (first : Endpoint) (ls : List Lexeme) : Prop :=
  ∀ {start : List Lexeme}, first.Spelled op start → IsSpelled op (start ++ ls)

omit nested

theorem isTail_of_linked {op : List Char} (first : Endpoint) {es : List Endpoint}
    {links : List Lexeme} (linked : Endpoint.Linked op es links) : IsTail op first links := by
  intro start spelled
  cases linked with
  | nil =>
    rw [List.append_nil]
    cases spelled with
    | node name => exact ⟨_, by simpa using Spelled.node name .done⟩
    | subgraph braced => exact ⟨_, .subgraph braced⟩
  | cons second others =>
    exact ⟨_, by simpa using Spelled.edge spelled (.cons second others) .done⟩

include nested

theorem failing_readTail (first : Endpoint) :
    Reader.Failing (readTail kind statements first) (IsTail kind.edgeOp.toList first) := by
  intro cs f failed
  rcases bind_eq_error.mp failed with failed | ⟨⟨others, r₁⟩, readLinks, rest⟩
  · refine .skip ((Endpoint.failing_links nested failed).imp ?_)
    rintro ls ⟨es, linked⟩
    exact isTail_of_linked first linked
  have leaves := Leaves.blank
    (Reader.leaving_many _ (Endpoint.leaving_readLink nested.leaving kind) readLinks)
  have many := Reader.Many.of_many (fun cs e r item => by
    obtain ⟨marks, -, takes, -⟩ := Endpoint.takes_of_readLink nested.marked item
    exact takes.shorter) readLinks
  obtain ⟨marks, linked, takes, -⟩ :=
    Endpoint.takes_of_links nested.marked many first (Blank.skip_skip cs)
  have linked := linked.spelled
  generalize Mark.lexemes marks = links at linked takes
  cases others with
  | nil =>
    cases linked
    cases first with
    -- A subgraph alone takes no lists, so there is nothing left to fail.
    | subgraph id body => exact absurd rest pure_ne_error
    | node ref =>
      rcases bind_eq_error.mp rest with failed | ⟨_, _, done⟩
      · refine (Attribute.failing_readLists failed).behind leaves takes.of_skip ?_
        rintro ls ⟨attrs, listed⟩
        refine ⟨[], by simp, fun spelled => ?_⟩
        cases spelled with
        | node name => exact ⟨_, by simpa using Spelled.node name listed⟩
      · exact absurd done pure_ne_error
  | cons second others =>
    rcases bind_eq_error.mp rest with failed | ⟨_, _, done⟩
    · refine (Attribute.failing_readLists failed).behind leaves takes.of_skip ?_
      rintro ls ⟨attrs, listed⟩
      exact ⟨[], by simp, fun spelled => ⟨_, by simpa using Spelled.edge spelled linked listed⟩⟩
    · exact absurd done pure_ne_error

theorem failing_readNamed :
    Reader.Failing (readNamed kind statements) (IsSpelled kind.edgeOp.toList) := by
  intro cs f failed
  rcases bind_eq_error.mp failed with failed | ⟨⟨id, r₁⟩, readName, rest⟩
  · refine (Ident.failing_read failed).imp ?_
    rintro _ ⟨n, s, rfl, named⟩
    exact ⟨_, by simpa using Spelled.node (.plain named) .done⟩
  obtain ⟨n, named, takesName⟩ := Ident.takes_of_read readName
  have leavesName := (Ident.leaving_read readName).skip
  dsimp only at rest
  split at rest
  · next t equals =>
    have heads := Lexeme.heads_of_isPunctuation (c := '=') (by decide) t
    have takesName := takesName.skip
    rw [equals] at leavesName takesName
    rcases bind_eq_error.mp rest with failed | ⟨_, _, done⟩
    · refine (Value.failing_read failed).behind (leavesName.trans (.of_heads heads)).skip
        (takesName.append heads.takes).skip ?_
      rintro _ ⟨v, value, rfl, valued⟩
      exact ⟨[], by simp, _, .assign named valued⟩
    · exact absurd done pure_ne_error
  · rcases bind_eq_error.mp rest with failed | ⟨⟨ref, r₂⟩, readPort, failed⟩
    · refine (NodeRef.failing_readPort id failed).behind leavesName takesName.skip ?_
      intro ls tail
      obtain ⟨ref, spelled⟩ := tail named
      exact ⟨[], by simp, _, by simpa using Spelled.node spelled .done⟩
    · obtain ⟨ls, takesPort, spelled⟩ := NodeRef.takes_of_readPort readPort
      refine (failing_readTail nested (.node ref) failed).behind
        (leavesName.trans (NodeRef.leaving_readPort id readPort))
        (takesName.skip.append takesPort) ?_
      intro ls' tail
      exact ⟨[], by simp, by simpa using tail (.node (spelled named))⟩

theorem failing_read :
    Reader.Failing (Statement.read kind statements) (IsSpelled kind.edgeOp.toList) := by
  intro cs f failed
  unfold Statement.read at failed
  split at failed
  · next target t word =>
    obtain ⟨w, same, takesWord⟩ := takes_of_dropKeyword? word
    have leavesWord := (leaves_dropKeyword? word).skip
    dsimp only at failed
    split at failed
    · rcases bind_eq_error.mp failed with failed | ⟨_, _, done⟩
      · refine (Attribute.failing_readLists failed).behind leavesWord takesWord.skip ?_
        rintro ls ⟨attrs, listed⟩
        cases listed with
        | done => exact ⟨[.mark ['['], .mark [']']], by decide, _, .attr same (.closed .done)⟩
        | opened inner => exact ⟨[], by simp, _, by simpa using Spelled.attr same inner⟩
      · exact absurd done pure_ne_error
    · cases failed
      exact .at_ leavesWord takesWord.skip [.mark ['['], .mark [']']] (by decide)
        ⟨_, .attr same (.closed .done)⟩
  · split at failed
    · rcases bind_eq_error.mp failed with failed | ⟨⟨⟨id, body⟩, r₁⟩, readSubgraph, failed⟩
      · refine (Endpoint.failing_readSubgraph nested failed).imp ?_
        rintro ls ⟨id, body, braced⟩
        exact ⟨_, .subgraph braced⟩
      · obtain ⟨marks, subgraph, takes⟩ := Endpoint.takes_of_readSubgraph nested.marked readSubgraph
        refine (failing_readTail nested (.subgraph id body) failed).behind
          (Endpoint.leaving_readSubgraph nested.leaving readSubgraph) takes ?_
        intro ls tail
        exact ⟨[], by simp, by simpa using tail (.subgraph subgraph.spelled)⟩
    · exact failing_readNamed nested failed

theorem failing_items :
    Reader.Failing (Reader.many atEnd (readItem kind statements))
      (IsListed kind.edgeOp.toList) := by
  refine Reader.failing_many ?_ ?_
  · intro cs f _ failed
    rcases bind_eq_error.mp failed with failed | ⟨_, _, done⟩
    · refine (failing_read nested failed).imp ?_
      rintro ls ⟨s, spelled⟩
      exact ⟨[s], by simpa using Listed.cons spelled .none .nil⟩
    · exact absurd done pure_ne_error
  · intro cs s r rest read unfinished
    obtain ⟨marks, seps, statement, separates, takes⟩ := takes_of_readItem nested.marked read
    refine unfinished.behind (leaving_readItem nested.leaving kind read) takes ?_
    rintro ls ⟨ss, listed⟩
    exact ⟨[], by simp, _, by simpa using Listed.cons statement.spelled separates listed⟩

end Statement

omit nested

/-- A block that does not end with its brace or with the text is the start of one that does. -/
theorem understood_readStatements (kind : Kind) :
    Reader.Understood kind (readStatements kind) := by
  refine ⟨takes_of_readStatements .nothing kind, leaving_readStatements kind, ?_⟩
  intro cs
  refine readStatements_induction
    (motive := fun cs result => ∀ ⦃f⦄, result = .error f →
      Unfinished (Statement.IsListed kind.edgeOp.toList) cs f.rest)
    ?_ (fun statements cs guarded failing f failed => ?_) cs
  · -- What is refused has nothing read of it yet.
    rintro cs f ⟨⟩
    exact .here cs [] (by simp) ⟨[], .nil⟩
  · have read {cs r : List Char} {body : List Statement} (ok : statements cs = .ok (body, r)) :
        readStatements kind cs = .ok (body, r) := by
      rcases guarded cs with same | refused
      · rw [← same, ok]
      · rw [refused] at ok
        cases ok
    have nested : Reader.Understood kind statements :=
      ⟨fun ok => takes_of_readStatements .nothing kind (read ok),
        fun _ _ _ ok => leaving_readStatements kind (read ok), fun cs => @failing cs⟩
    exact .skip (Statement.failing_items nested failed)

end Statements

end DotText
