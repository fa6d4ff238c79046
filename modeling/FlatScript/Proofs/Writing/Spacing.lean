import FlatScript.Proofs.Reading.Tiling
import FlatScript.Proofs.Writing.Numerals

/-!
# Words with blanks between them

What a token takes of a script is decided by looking ahead, often past its end: a point may go on
with a number or a name or start an operator, a letter may close a number or spoil it, two signs
may be one. A token that has been taken does not need what stood behind it: in front of a blank it
is taken again. So a script can be written anew from its words alone, without its comments and
continuations, and has the same words.

* `FlatScript.Scan.spells_lexeme`: **a lexeme without a fault is the same word in front of a
  blank**, whatever it is.
* `FlatScript.Scan.tokens_readBack`: the words of a text are read back from the text that is
  written from them.
* `FlatScript.tokenize_spaced`: this for whole scripts. Only the line feed that closes an open last
  line has no text in the script.
-/

namespace FlatScript

namespace Scan

variable {first : Char} {rest cs xs : List Char} {s : Sign} {n : Nat}

/-! ### Signs that stand in a text -/

/-- The operators with dots. -/
def dottedSigns : List Sign := [.bitAnd, .bitOr, .bitXor, .bitNot]

/-- A sign without dots is taken as it is spelled. -/
theorem sign_take (h : sign xs = some (s, n)) : xs.take n = signChars s := by
  unfold sign at h
  split at h <;> cases h <;> rfl

theorem length_dotted (hs : s ∈ dottedSigns) : s.spelling.toList.length ≤ 5 := by
  have hall : ∀ s ∈ dottedSigns, s.spelling.toList.length ≤ 5 := by decide
  exact hall s hs

/-- **A dotted operator is told by its own letters**, in any letter case. -/
theorem dottedOperator_of_spelled {piece : List Char} (hs : s ∈ dottedSigns)
    (h : piece.map Char.toLower = s.spelling.toList) (cs : List Char) :
    dottedOperator (piece ++ cs) = some s := by
  have htake : ((piece ++ cs).take 5).map Char.toLower =
      signChars s ++ (cs.take (5 - piece.length)).map Char.toLower := by
    have hlength : piece.length ≤ 5 := by
      rw [← List.length_map, h]
      exact length_dotted hs
    rw [← spelling_toList, ← h, List.take_append, List.map_append, List.take_of_length_le hlength]
  simp only [dottedSigns, List.mem_cons, List.not_mem_nil, or_false] at hs
  rw [dottedOperator, htake]
  rcases hs with rfl | rfl | rfl | rfl <;> rfl

/-- The letters of a dotted operator that a text starts with. -/
theorem exists_of_dottedOperator (h : dottedOperator xs = some s) :
    s ∈ dottedSigns ∧ (xs.take s.spelling.length).map Char.toLower = s.spelling.toList := by
  have hmem : s ∈ dottedSigns := List.mem_of_find?_eq_some h
  have hprefix := List.find?_some h
  rw [List.isPrefixOf_iff_prefix, List.map_take, List.prefix_iff_eq_take, List.take_take] at hprefix
  rw [Nat.min_eq_left (length_dotted hmem), String.length_toList] at hprefix
  exact ⟨hmem, by rw [List.map_take, ← hprefix]⟩

/-- A dotted operator in any letter case, in front of any text. -/
theorem spells_dotted {piece : List Char} (hs : s ∈ dottedSigns)
    (h : piece.map Char.toLower = s.spelling.toList) (hdot : piece.head? = some '.')
    (cs : List Char) : Spells piece (.sign s) cs := by
  obtain ⟨rest, rfl⟩ : ∃ rest, piece = '.' :: rest := by
    cases piece with
    | nil => cases hdot
    | cons c rest =>
      cases hdot
      exact ⟨rest, rfl⟩
  have hlength : s.spelling.length = rest.length + 1 := by
    rw [← String.length_toList, ← h, List.length_map, List.length_cons]
  refine ⟨gap_dot ?_, '.', rest, rfl, by decide, ?_⟩
  · -- Behind the first dot stands a letter.
    rw [spelling_toList] at h
    simp only [dottedSigns, List.mem_cons, List.not_mem_nil, or_false] at hs
    cases rest with
    | nil => rcases hs with rfl | rfl | rfl | rfl <;> cases h
    | cons c rest =>
      rintro ⟨⟩
      rcases hs with rfl | rfl | rfl | rfl <;> cases h
  · have hop : lexeme '.' (rest ++ cs) = operator '.' (rest ++ cs) := rfl
    rw [hop, operator, ← List.cons_append, dottedOperator_of_spelled hs h]
    dsimp only
    rw [hlength, List.length_cons]

/-- **A lexeme without a fault is the same word in front of a blank.** -/
theorem spells_lexeme (h : (lexeme first rest).fault = none) (cs : List Char) :
    Spells ((first :: rest).take (lexeme first rest).length) (lexeme first rest).kind (' ' :: cs) := by
  have hcs : Boundary (' ' :: cs) := boundary_cons.mpr ⟨rfl, by decide⟩
  by_cases hword : startsWord first rest = true
  · obtain ⟨rest', htake, hstart, hname⟩ := exists_name hword
    rw [lexeme_eq_name hword, htake]
    exact spells_name hstart hname hcs
  simp only [startsWord, Bool.or_eq_true, not_or, Bool.not_eq_true] at hword
  by_cases hquote : (first == '"' || first == '\'') = true
  · have hlexeme : lexeme first rest = string first rest := if_pos hquote
    have hkind : (lexeme first rest).kind = .string := by
      rw [hlexeme] at h ⊢
      unfold string at h ⊢
      split at h
      · rfl
      · cases h
    have hpiece := isLexeme_take (.inr hkind)
    rw [hkind] at hpiece ⊢
    exact hpiece.spells_string
  by_cases hdigit : isDigit first = true
  · have hlexeme : lexeme first rest = number (first :: rest) := by
      rw [lexeme, if_neg hquote, if_pos hdigit]
    rw [hlexeme] at h ⊢
    exact (numeral_of_number (show starts isDigit (first :: rest) = true from hdigit) h).spells hcs
  have hlexeme : lexeme first rest = operator first rest := by
    rw [lexeme, if_neg hquote, if_neg hdigit, if_neg (by simp [hword.1]), if_neg (by simp [hword.2])]
  rw [hlexeme]
  rw [hlexeme] at h
  unfold operator at h ⊢
  cases hdotted : dottedOperator (first :: rest) with
  | some s =>
    dsimp only
    obtain ⟨hs, hlower⟩ := exists_of_dottedOperator hdotted
    obtain ⟨n, hn⟩ : ∃ n, s.spelling.length = n + 1 := by
      have hall : ∀ s ∈ dottedSigns, 0 < s.spelling.length := by decide
      exact ⟨_, (Nat.succ_pred (hall s hs).ne').symm⟩
    rw [hn, List.take_succ_cons] at hlower ⊢
    -- The first character is a letter of the operator, and starts no name.
    have hdot : first = '.' := by
      have hmem : first.toLower ∈ s.spelling.toList := by
        rw [← hlower]
        exact List.mem_cons_self
      refine (mem_dotted hs hmem).resolve_left ?_
      simp [continuesName, hword.1, hdigit]
    exact spells_dotted hs hlower (by rw [hdot]; rfl) _
  | none =>
    rw [hdotted] at h
    dsimp only at h ⊢
    cases hsign : sign (first :: rest) with
    | some found =>
      obtain ⟨s, n⟩ := found
      dsimp only
      rw [sign_take hsign, ← spelling_toList]
      refine spells_sign s ?_
      rintro c ⟨⟩
      cases s <;> decide
    | none =>
      rw [hsign] at h
      cases h

/-! ### Writing words -/

end Scan

/-- The words of a script. -/
def wordsOf (source : String) : List Word := (tokenize source).1.map Token.word

/-- How a word is written: with a line feed for every end of a line. -/
def Word.written (w : Word) : String := if w.kind = .newline then "\n" else w.lexeme

/-- **A text that is written from words**, with blanks between them. -/
def spaced (ws : List Word) : String := " ".intercalate (ws.map Word.written)

/-- A word as it is read back: the end of an open last line has been written as a line feed. -/
def Word.closed (w : Word) : Word := if w = ⟨.newline, ""⟩ then ⟨.newline, "\n"⟩ else w

theorem Word.written_of_ne {w : Word} (h : w.kind ≠ .newline) : w.written = w.lexeme := if_neg h

theorem Word.closed_of_ne {w : Word} (h : w.kind ≠ .newline) : w.closed = w :=
  if_neg fun heq => h (by rw [heq])

/-- A blank stands behind every word but the last. -/
theorem spaced_cons (w : Word) {ws : List Word} (h : ws ≠ []) :
    (spaced (w :: ws)).toList = w.written.toList ++ ' ' :: (spaced ws).toList := by
  obtain ⟨w', ws, rfl⟩ := List.exists_cons_of_ne_nil h
  rw [spaced, List.map_cons, List.map_cons, String.intercalate_cons_cons]
  simp [spaced]

namespace Scan

/-- No word starts with a mark of the byte order. -/
theorem Spells.head_ne {piece cs : List Char} {kind : TokenKind} (h : Spells piece kind cs) :
    (piece ++ cs).head? ≠ some '\ufeff' := by
  obtain ⟨hgap, first, rest, rfl, -⟩ := h
  rintro ⟨⟩
  have hmark : (Scan.gap ('\ufeff' :: (rest ++ cs))).length = 1 + (trivia 0 (rest ++ cs)).length := rfl
  have hlength := congrArg Gap.length hgap
  rw [List.cons_append, hmark] at hlength
  exact absurd hlength (by simp)

/-- **A text is read back as words**, behind a blank too. -/
structure ReadBack (lineOpen : Bool) (ws : List Word) : Prop where
  ne_nil : ws ≠ []
  head_ne : (spaced ws).toList.head? ≠ some '\ufeff'
  lexed : Lexed lineOpen (spaced ws).toList (ws.map Word.closed)

namespace ReadBack

variable {lineOpen : Bool} {ws : List Word}

/-- The words that close a script. -/
theorem endWords (lineOpen : Bool) : ReadBack lineOpen (endWords lineOpen) := by
  cases lineOpen with
  | false => exact ⟨by decide, by decide, .nil false⟩
  | true => exact ⟨by decide, by decide, .newline (.blank (by decide) (.nil false))⟩

/-- The end of a line. -/
theorem newline (h : ReadBack false ws) : ReadBack true (⟨.newline, "\n"⟩ :: ws) where
  ne_nil := List.cons_ne_nil _ _
  head_ne := by
    rw [spaced_cons _ h.ne_nil]
    rintro ⟨⟩
  lexed := by
    rw [spaced_cons _ h.ne_nil]
    exact .newline (.blank h.head_ne h.lexed)

/-- A word that no blank behind it changes. -/
theorem word {piece : List Char} {kind : TokenKind} (hkind : kind ≠ .newline)
    (hpiece : ∀ cs, Spells piece kind (' ' :: cs)) (h : ReadBack true ws) :
    ReadBack lineOpen (⟨kind, String.ofList piece⟩ :: ws) := by
  have htext : (spaced (⟨kind, String.ofList piece⟩ :: ws)).toList =
      piece ++ ' ' :: (spaced ws).toList := by
    rw [spaced_cons _ h.ne_nil, Word.written_of_ne hkind, String.toList_ofList]
  refine ⟨List.cons_ne_nil _ _, ?_, ?_⟩
  · rw [htext]
    exact (hpiece _).head_ne
  · rw [htext, List.map_cons, Word.closed_of_ne hkind]
    exact .word (hpiece _) (.blank h.head_ne h.lexed) lineOpen

end ReadBack

/-- **The words of a text without faults are read back.** -/
theorem tokens_readBack (fuel : Nat) (p : Position) (lineOpen : Bool) (cs : List Char)
    (h : (tokens fuel p lineOpen cs).2 = []) :
    ReadBack lineOpen ((tokens fuel p lineOpen cs).1.map Token.word) := by
  have hfinish : ∀ p lineOpen, ReadBack lineOpen ((finish p lineOpen).map Token.word) := by
    intro p lineOpen
    have hwords : (finish p lineOpen).map Token.word = Scan.endWords lineOpen := by
      cases lineOpen <;> rfl
    rw [hwords]
    exact .endWords lineOpen
  induction fuel generalizing p lineOpen cs with
  | zero => exact hfinish p lineOpen
  | succ fuel ih =>
    simp only [tokens] at h ⊢
    split at h
    · exact hfinish _ _
    next first rest _ =>
      split at h
      next hfirst =>
        -- A line feed is a word on an open line only.
        simp only [if_pos hfirst]
        cases lineOpen with
        | false => exact ih _ false rest (List.append_eq_nil_iff.mp h).2
        | true => exact .newline (ih _ false rest (List.append_eq_nil_iff.mp h).2)
      next hfirst =>
        simp only [if_neg hfirst]
        simp only [List.append_eq_nil_iff, List.map_eq_nil_iff, Option.toList_eq_nil_iff] at h
        obtain ⟨⟨-, hfault⟩, hrest⟩ := h
        exact .word (lexeme_isText first rest).2.1 (spells_lexeme hfault) (ih _ true _ hrest)

/-- **Only the line feed in front of the end of a script may have no text.** -/
theorem Tiles.added_last {before : List Char} {opened : Bool} {ts : List Token}
    (h : Tiles before opened ts rest) {front behind : List Word}
    (hts : ts.map Token.word = front ++ ⟨.newline, ""⟩ :: behind) : behind = [⟨.eof, ""⟩] := by
  induction h generalizing front with
  | eof _ =>
    rcases front with _ | ⟨w, front⟩
    · cases hts
    · simp at hts
  | close _ =>
    rcases front with _ | ⟨w, _ | ⟨w', front⟩⟩
    · cases hts
      rfl
    · cases hts
    · simp at hts
  | newline _ _ ih =>
    rcases front with _ | ⟨w, front⟩
    · simp [Token.word] at hts
    · exact ih (List.cons.inj hts).2
  | lexeme _ _ hkind _ ih =>
    rcases front with _ | ⟨w, front⟩
    · exact absurd (congrArg Word.kind (List.cons.inj hts).1) hkind.1
    · exact ih (List.cons.inj hts).2

end Scan

/-- **Words do not depend on what stands between them.** The words of a script without faults, written
with blanks between them, are read back as they are, without faults. Only the line feed that closes
an open last line has no text in the script, and has the text of a line feed when it is written. -/
theorem tokenize_spaced {source : String} (h : (tokenize source).2 = []) :
    (tokenize (spaced (wordsOf source))).2 = [] ∧
      wordsOf (spaced (wordsOf source)) = (wordsOf source).map Word.closed ∧
        ∀ front behind, wordsOf source = front ++ ⟨.newline, ""⟩ :: behind →
          behind = [⟨.eof, ""⟩] := by
  have hback := (Scan.tokens_readBack _ .start false source.toList h).lexed
  obtain ⟨hfaults, hwords⟩ := tokenize_of_lexed hback
  have htiles : Scan.Tiles [] false (tokenize source).1 source.toList :=
    Scan.tokens_tiles _ [] false _ (Nat.lt_succ_self _)
  exact ⟨hfaults, hwords, fun _ _ hts => htiles.added_last hts⟩

/-- Names, an operator with dots, a continuation, a number and a comment, on a line that is not
closed. -/
def openText : String := "a.and. ...\n 0Fh\x7bb\x7d"

theorem openText_spaced :
    (tokenize openText).2 = [] ∧ (tokenize (spaced (wordsOf openText))).2 = [] ∧
      wordsOf (spaced (wordsOf openText)) = (wordsOf openText).map Word.closed := by
  have hnone : (tokenize openText).2 = [] := by decide +kernel
  obtain ⟨hfaults, hwords, -⟩ := tokenize_spaced hnone
  exact ⟨hnone, hfaults, hwords⟩

/-- The line feed that closes `a` has no text. -/
theorem openName_reread :
    (tokenize "a").2 = [] ∧ wordsOf (spaced (wordsOf "a")) ≠ wordsOf "a" := by
  decide +kernel

end FlatScript
