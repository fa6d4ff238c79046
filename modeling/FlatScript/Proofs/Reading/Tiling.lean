import FlatScript.Proofs.Reading.Gaps
import FlatScript.Proofs.Writing.Tokens
import Mathlib.Data.List.Chain
import Mathlib.Data.List.DropRight

/-!
# Tokens are laid out in their text

The lexemes of a script and the text that no token is made of are the whole script, piece by piece.
Every token stands where its span says, in lines and bytes that are counted in the script itself.

What is skipped depends on the line. While a line is open, the first line feed ends it and becomes a
token; on a line that holds nothing yet, line feeds are skipped like blanks. That is why no two
tokens for line feeds follow each other, and none comes first.

* `FlatScript.Scan.Tiles` says that tokens are laid out in a text.
* `FlatScript.tokenize_tiles`: so are the tokens of every script.
-/

namespace FlatScript

namespace Scan

/-! ### Places -/

/-- **The place behind a text**, counted in the text: its line feeds, and the bytes behind the last one
of them. -/
def placeAfter (text : List Char) : Position :=
  ⟨1 + text.count '\n', 1 + (String.ofList (text.rtakeWhile (· ≠ '\n'))).utf8ByteSize⟩

/-- **A scanner that goes on character by character arrives at that place.** -/
theorem after_eq_placeAfter (text : List Char) : Position.start.after text = placeAfter text := by
  induction text using List.reverseRecOn with
  | nil => rfl
  | append_singleton text c ih =>
    rw [Position.after_append, ih, Position.after_cons, Position.after_nil, Position.step]
    by_cases hc : c = '\n'
    · rw [if_pos hc, hc, placeAfter, placeAfter, List.rtakeWhile_concat_neg _ _ _ (by simp),
        List.count_append, List.count_singleton_self, Nat.add_assoc]
      rfl
    · have hcount : (text ++ [c]).count '\n' = text.count '\n' := by
        rw [List.count_append, Nat.add_eq_left, List.count_eq_zero]
        simpa using Ne.symm hc
      rw [if_neg hc, placeAfter, placeAfter, hcount,
        List.rtakeWhile_concat_pos _ _ _ (by simpa using hc),
        String.ofList_append, String.utf8ByteSize_append, String.ofList_cons,
        String.utf8ByteSize_append, String.utf8ByteSize_singleton, String.ofList_nil,
        String.utf8ByteSize_empty, Nat.add_zero, Nat.add_assoc]

theorem byteLength_eq (cs : List Char) : byteLength cs = (String.ofList cs).utf8ByteSize := by
  induction cs with
  | nil => rfl
  | cons c cs ih =>
    rw [String.ofList_cons, String.utf8ByteSize_append, String.utf8ByteSize_singleton, ← ih]
    rfl

/-! ### Layout -/

/-- **Tokens that are laid out in a text**, behind the text `before` that has been read. The line
where they start is open if it holds a token. -/
inductive Tiles : (before : List Char) → (opened : Bool) → List Token → List Char → Prop
  /-- The end of the script on a line without tokens. -/
  | eof {before rest : List Char} (h : Trivia true rest []) :
      Tiles before false [⟨.eof, "", .starting (placeAfter (before ++ rest)) 0⟩] rest
  /-- The end of the script on an open line, which it closes. -/
  | close {before rest : List Char} (h : Trivia false rest []) :
      Tiles before true [⟨.newline, "", .starting (placeAfter (before ++ rest)) 0⟩,
        ⟨.eof, "", .starting (placeAfter (before ++ rest)) 0⟩] rest
  /-- A line feed that ends a line. -/
  | newline {before gap rest : List Char} {ts : List Token} (h : Trivia false gap ('\n' :: rest))
      (hs : Tiles (before ++ (gap ++ ['\n'])) false ts rest) :
      Tiles before true (⟨.newline, "\n", .starting (placeAfter (before ++ gap)) 1⟩ :: ts)
        (gap ++ '\n' :: rest)
  /-- A lexeme. -/
  | lexeme {before gap text rest : List Char} {opened : Bool} {kind : TokenKind} {ts : List Token}
      (h : Trivia (!opened) gap (text ++ rest)) (htext : text ≠ [])
      (hkind : kind ≠ .newline ∧ kind ≠ .eof) (hs : Tiles (before ++ (gap ++ text)) true ts rest) :
      Tiles before opened (⟨kind, String.ofList text, .starting (placeAfter (before ++ gap))
        (String.ofList text).utf8ByteSize⟩ :: ts) (gap ++ (text ++ rest))

namespace Tiles

variable {before gap rest : List Char} {opened : Bool} {ts : List Token}

/-- **The last token, and no other one, is the end of the script**, and it stands there. The token in
front of it is for a line feed. -/
theorem ends (h : Tiles before opened ts rest) :
    ∃ ts', ts = ts' ++ [⟨.eof, "", .starting (placeAfter (before ++ rest)) 0⟩] ∧
      (∀ t ∈ ts', t.kind ≠ .eof) ∧ (∀ t ∈ ts'.getLast?, t.kind = .newline) ∧
      (opened = true → ts' ≠ []) := by
  induction h with
  | eof h => exact ⟨[], rfl, by simp, by simp, by simp⟩
  | @close before rest h =>
    exact ⟨[⟨.newline, "", .starting (placeAfter (before ++ rest)) 0⟩], rfl, by simp, by simp, by simp⟩
  | @newline before gap rest ts h _ ih =>
    obtain ⟨ts', rfl, hkinds, hlast, -⟩ := ih
    refine ⟨⟨.newline, "\n", .starting (placeAfter (before ++ gap)) 1⟩ :: ts', by simp,
      by simpa using hkinds, ?_, by simp⟩
    cases ts' with
    | nil => simp
    | cons t ts' => simpa using hlast
  | @lexeme before gap text rest opened kind ts h _ hkind _ ih =>
    obtain ⟨ts', rfl, hkinds, hlast, hne⟩ := ih
    refine ⟨⟨kind, String.ofList text, .starting (placeAfter (before ++ gap))
      (String.ofList text).utf8ByteSize⟩ :: ts', by simp, by simpa [hkind.2] using hkinds, ?_, by simp⟩
    cases ts' with
    | nil => exact absurd rfl (hne rfl)
    | cons t ts' => simpa using hlast

/-- **On a line without tokens no line feed comes first.** -/
theorem head_ne_newline (h : Tiles before false ts rest) : ∀ t ∈ ts.head?, t.kind ≠ .newline := by
  cases h with
  | eof h => simp
  | lexeme h _ hkind hs => simpa using hkind.1

/-- **No two line feeds follow each other.** -/
theorem isChain (h : Tiles before opened ts rest) :
    ts.IsChain fun t u => ¬(t.kind = .newline ∧ u.kind = .newline) := by
  induction h with
  | eof h => simp
  | close h => simp
  | newline h hs ih =>
    rw [List.isChain_cons]
    exact ⟨fun t ht hkinds => hs.head_ne_newline t ht hkinds.2, ih⟩
  | lexeme h _ hkind _ ih =>
    rw [List.isChain_cons]
    exact ⟨fun t _ hkinds => hkind.1 hkinds.1, ih⟩

/-- **A line feed on a line without tokens is skipped.** -/
theorem feed (h : Trivia true gap ('\n' :: rest))
    (hs : Tiles (before ++ (gap ++ ['\n'])) false ts rest) :
    Tiles before false ts (gap ++ '\n' :: rest) := by
  have hskip : ∀ {skipped behind : List Char}, rest = skipped ++ behind →
      Trivia true skipped behind → Trivia true (gap ++ '\n' :: skipped) behind := by
    rintro skipped behind rfl hskipped
    exact .append h (.feed rfl hskipped)
  generalize hbefore : before ++ (gap ++ ['\n']) = before' at hs
  cases hs with
  | eof h' =>
    subst hbefore
    have : Tiles before _ _ _ := .eof (hskip (List.append_nil _).symm h')
    simpa using this
  | @lexeme _ gap' text rest' _ kind ts h' htext hkind hs =>
    subst hbefore
    rw [List.append_assoc, ← List.append_assoc _ gap', List.append_assoc gap] at hs
    have : Tiles before false _ _ := .lexeme (hskip rfl h') htext hkind (by simpa using hs)
    simpa using this

end Tiles

/-! ### Lexemes -/

/-- A lexeme that takes a character at least, and is neither for a line feed nor for the end. -/
def Lexeme.IsText (l : Lexeme) : Prop := 0 < l.length ∧ l.kind ≠ .newline ∧ l.kind ≠ .eof

theorem string_isText (quote : Char) (rest : List Char) : (string quote rest).IsText := by
  unfold string
  split <;> exact ⟨Nat.succ_pos _, by simp, by simp⟩

theorem badNumber_isText {n : Nat} (detail : String) (h : 0 < n) : (badNumber detail n).IsText :=
  ⟨h, by simp [badNumber], by simp [badNumber]⟩

theorem closedNumber_isText {kind : TokenKind} {n : Nat} (hkind : kind ≠ .newline ∧ kind ≠ .eof)
    (h : 0 < n) (cs : List Char) : (closedNumber kind cs n).IsText := by
  simp only [closedNumber]
  split
  · exact ⟨h, hkind⟩
  · exact badNumber_isText _ (Nat.add_pos_left h _)

theorem number_isText {first : Char} {rest : List Char} (h : isDigit first = true) :
    (number (first :: rest)).IsText := by
  have hdigits : 0 < run isHexDigit (first :: rest) :=
    run_pos (by simp [starts, isHexDigit, h])
  simp only [number]
  split
  · split
    · exact badNumber_isText _ (by omega)
    · exact ⟨Nat.add_pos_left Nat.two_pos _, by simp, by simp⟩
  · split
    · split
      · exact ⟨by simp, by simp, by simp⟩
      · split
        · exact badNumber_isText _ (Nat.add_pos_left hdigits _)
        · split
          · exact closedNumber_isText (by simp) (by omega) _
          · exact closedNumber_isText (by simp) hdigits _
    · split
      · exact ⟨hdigits, by simp, by simp⟩
      · exact badNumber_isText _ hdigits

theorem name_isText {first : Char} {rest : List Char} (h : startsWord first rest = true) :
    (name (first :: rest)).IsText := by
  refine ⟨(startsWord_take h).1, ?_⟩
  simp only [name]
  repeat' split
  all_goals simp

theorem sign_pos {cs : List Char} {s : Sign} {n : Nat} (h : sign cs = some (s, n)) : 0 < n := by
  unfold sign at h
  split at h <;> cases h <;> decide

theorem operator_isText (first : Char) (rest : List Char) : (operator first rest).IsText := by
  unfold operator
  split
  next s _ => exact ⟨by cases s <;> decide, by simp, by simp⟩
  next =>
    split
    next s n hsign => exact ⟨sign_pos hsign, by simp, by simp⟩
    next => exact ⟨Nat.one_pos, by simp, by simp⟩

/-- **Every lexeme is text.** -/
theorem lexeme_isText (first : Char) (rest : List Char) : (lexeme first rest).IsText := by
  unfold lexeme
  split
  · exact string_isText _ _
  · split
    next hdigit => exact number_isText hdigit
    next =>
      split
      next hname => exact name_isText (by rw [startsWord, hname, Bool.true_or])
      next =>
        split
        next hsigil => exact name_isText (by rw [startsWord, hsigil, Bool.or_true])
        next => exact operator_isText _ _

/-! ### The scanner -/

/-- **The tokens of a text are laid out in it.** -/
theorem tokens_tiles (fuel : Nat) (before : List Char) (opened : Bool) (cs : List Char)
    (hfuel : cs.length < fuel) :
    Tiles before opened (tokens fuel (Position.start.after before) opened cs).1 cs := by
  induction fuel generalizing before opened cs with
  | zero => exact absurd hfuel (Nat.not_lt_zero _)
  | succ fuel ih =>
    have hgap := trivia_gap (!opened) cs
    have hcs : cs.take (gap cs).length ++ cs.drop (gap cs).length = cs := List.take_append_drop _ _
    generalize hskipped : cs.take (gap cs).length = skipped at hgap hcs
    generalize hrest : cs.drop (gap cs).length = rest at hgap hcs
    subst hcs
    simp only [tokens, hskipped, hrest]
    rw [← Position.after_append]
    -- Behind the gap stands nothing, a line feed, or a lexeme.
    cases rest with
    | nil =>
      rw [List.append_nil]
      dsimp only
      rw [after_eq_placeAfter]
      cases opened with
      | false => exact .eof hgap
      | true => exact .close hgap
    | cons first rest =>
      dsimp only
      rw [List.length_append, List.length_cons] at hfuel
      split
      next hfirst =>
        subst hfirst
        have hrun := ih (before ++ (skipped ++ ['\n'])) false rest (by omega)
        rw [← List.append_assoc, Position.after_append, Position.after_cons, Position.after_nil,
          List.append_assoc] at hrun
        cases opened with
        | false => exact hrun.feed hgap
        | true =>
          rw [after_eq_placeAfter] at hrun ⊢
          exact .newline hgap hrun
      next hfirst =>
        obtain ⟨hpos, hkind⟩ := lexeme_isText first rest
        generalize lexeme first rest = l at hpos hkind ⊢
        obtain ⟨kind, n, fault⟩ := l
        -- A lexeme has characters, so less text is left behind it.
        obtain ⟨n, rfl⟩ : ∃ m, n = m + 1 := ⟨n - 1, by simp at hpos; omega⟩
        have htext := List.take_append_drop (n + 1) (first :: rest)
        have hrun := ih (before ++ (skipped ++ (first :: rest).take (n + 1))) true
          ((first :: rest).drop (n + 1)) (by simp; omega)
        rw [← List.append_assoc, Position.after_append, List.append_assoc] at hrun
        rw [← htext] at hgap
        have := Tiles.lexeme hgap (by simp) hkind hrun
        rw [htext] at this
        rw [byteLength_eq]
        rw [after_eq_placeAfter] at this ⊢
        exact this

end Scan

/-- **The tokens of a script are laid out in it**: its lexemes in their order, each where its span says,
and between them nothing but text that no token is made of. The end of the script is the last token,
and no other one, behind one for a line feed unless it is alone; no two tokens for line feeds follow
each other, and none comes first. -/
theorem tokenize_tiles (source : String) :
    Scan.Tiles [] false (tokenize source).1 source.toList ∧
      (∃ ts, (tokenize source).1 = ts ++ [⟨.eof, "", .starting (Scan.placeAfter source.toList) 0⟩] ∧
        (∀ t ∈ ts, t.kind ≠ .eof) ∧ ∀ t ∈ ts.getLast?, t.kind = .newline) ∧
      ((tokenize source).1.IsChain fun t u => ¬(t.kind = .newline ∧ u.kind = .newline)) ∧
      ∀ t ∈ (tokenize source).1.head?, t.kind ≠ .newline := by
  have htiles : Scan.Tiles [] false (tokenize source).1 source.toList :=
    Scan.tokens_tiles _ [] false _ (Nat.lt_succ_self _)
  obtain ⟨ts, hts, hkinds, hlast, -⟩ := htiles.ends
  exact ⟨htiles, ⟨ts, hts, hkinds, hlast⟩, htiles.isChain, htiles.head_ne_newline⟩

end FlatScript
