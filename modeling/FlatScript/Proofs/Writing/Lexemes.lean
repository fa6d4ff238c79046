import FlatScript.Proofs.Reading.Grammar
import FlatScript.Token.Scan
import Mathlib.Data.List.TakeWhile

/-!
# The words of a text

A text that a script is written to is put together from pieces, and the scanner has to find these
pieces again. Whether it does depends on a piece and on the character behind it.

* `FlatScript.Scan.Lexed` says that a text is scanned as given words, without a fault.
* `FlatScript.Scan.Spells` says that a piece is scanned as one word in front of other text, and
  `FlatScript.Scan.Lexed.word` puts such a piece in front of a text.
* `FlatScript.Scan.Boundary` says that no name and no number goes on with a text.
-/

namespace FlatScript.Scan

/-! ### Texts and their words -/

/-- The words that close a script. -/
def endWords (lineOpen : Bool) : List Word :=
  if lineOpen then [⟨.newline, ""⟩, ⟨.eof, ""⟩] else [⟨.eof, ""⟩]

/-- **A text is scanned as words**, without a fault, on a line that holds tokens already or
not. -/
def Lexed (lineOpen : Bool) (cs : List Char) (ws : List Word) : Prop :=
  ∀ p fuel, cs.length < fuel →
    ∃ ts, tokens fuel p lineOpen cs = (ts, []) ∧ ts.map Token.word = ws

/-- **A piece is scanned as one word** in front of other text. -/
structure Spells (piece : List Char) (kind : TokenKind) (cs : List Char) : Prop where
  gap : gap (piece ++ cs) = ⟨0, none⟩
  lexeme : ∃ first rest, piece = first :: rest ∧ first ≠ '\n' ∧
    Scan.lexeme first (rest ++ cs) = ⟨kind, piece.length, none⟩

/-- **A text goes on with no name and no number** that stands in front of it. -/
def Boundary (cs : List Char) : Prop := ∀ c ∈ cs.head?, continuesName c = false ∧ c ≠ '.'

namespace Lexed

variable {lineOpen : Bool} {cs piece : List Char} {ws ws' : List Word} {kind : TokenKind}

theorem nil (lineOpen : Bool) : Lexed lineOpen [] (endWords lineOpen) := by
  rintro p (_ | fuel) hfuel
  · simp at hfuel
  · refine ⟨finish p lineOpen, rfl, ?_⟩
    cases lineOpen <;> rfl

/-- A text has one way to be scanned. -/
theorem unique (h : Lexed lineOpen cs ws) (h' : Lexed lineOpen cs ws') : ws = ws' := by
  obtain ⟨ts, hts, rfl⟩ := h .start (cs.length + 1) (by omega)
  obtain ⟨ts', hts', rfl⟩ := h' .start (cs.length + 1) (by omega)
  rw [hts] at hts'
  cases hts'
  rfl

/-- **A word in front of a text.** -/
theorem word (h : Spells piece kind cs) (hcs : Lexed true cs ws) (lineOpen : Bool) :
    Lexed lineOpen (piece ++ cs) (⟨kind, String.ofList piece⟩ :: ws) := by
  obtain ⟨hgap, first, rest, rfl, hnl, hlex⟩ := h
  rintro p (_ | fuel) hfuel
  · simp at hfuel
  · obtain ⟨ts, hts, rfl⟩ := hcs (p.after (first :: rest)) fuel (by
      simp only [List.cons_append, List.length_cons, List.length_append] at hfuel
      omega)
    have htake : (first :: (rest ++ cs)).take (first :: rest).length = first :: rest := by simp
    have hdrop : (first :: (rest ++ cs)).drop (first :: rest).length = cs := by simp
    rw [List.cons_append] at hgap ⊢
    rw [tokens]
    simp only [hgap, gapErrors, List.take_zero, List.drop_zero, Position.after_nil, if_neg hnl, hlex,
      htake, hdrop, hts]
    exact ⟨_, rfl, rfl⟩

/-- A line feed that closes a line. -/
theorem newline (hcs : Lexed false cs ws) :
    Lexed true ('\n' :: cs) (⟨.newline, "\n"⟩ :: ws) := by
  rintro p (_ | fuel) hfuel
  · simp at hfuel
  · obtain ⟨ts, hts, rfl⟩ := hcs (p.step '\n') fuel (by simpa using hfuel)
    have hgap : gap ('\n' :: cs) = ⟨0, none⟩ := rfl
    simp [tokens, hgap, gapErrors, hts, Token.word]

/-- A line feed on an empty line is no word. -/
theorem emptyLine (hcs : Lexed false cs ws) : Lexed false ('\n' :: cs) ws := by
  rintro p (_ | fuel) hfuel
  · simp at hfuel
  · obtain ⟨ts, hts, rfl⟩ := hcs (p.step '\n') fuel (by simpa using hfuel)
    have hgap : gap ('\n' :: cs) = ⟨0, none⟩ := rfl
    simp [tokens, hgap, gapErrors, hts]

end Lexed

/-! ### Gaps -/

theorem gap_eq_trivia {cs : List Char} (h : cs.head? ≠ some '\ufeff') : gap cs = trivia 0 cs := by
  unfold gap
  split
  · simp at h
  · rfl

theorem gap_blank {cs : List Char} (h : cs.head? ≠ some '\ufeff') :
    gap (' ' :: cs) = Piece.andThen ⟨1, none⟩ (gap cs) := by
  rw [gap_eq_trivia h]
  rfl

/-- A blank in front of a text, unless a mark of the byte order follows. -/
theorem Lexed.blank {lineOpen : Bool} {cs : List Char} {ws : List Word}
    (h : cs.head? ≠ some '\ufeff') (hcs : Lexed lineOpen cs ws) : Lexed lineOpen (' ' :: cs) ws := by
  rintro p (_ | fuel) hfuel
  · simp at hfuel
  · obtain ⟨ts, hts, rfl⟩ := hcs (p.step ' ') (fuel + 1) (by
      simp only [List.length_cons] at hfuel
      omega)
    refine ⟨ts, ?_, rfl⟩
    rw [← hts]
    have hlength : (gap (' ' :: cs)).length = (gap cs).length + 1 := by
      rw [gap_blank h]
      exact Nat.add_comm _ _
    have herrors : gapErrors p (' ' :: cs) (gap (' ' :: cs)) = gapErrors (p.step ' ') cs (gap cs) := by
      rw [gap_blank h]
      cases hg : (gap cs).unclosed with
      | none => simp [gapErrors, Piece.andThen, hg]
      | some u => simp [gapErrors, Piece.andThen, hg, Nat.add_comm 1]
    simp only [tokens, herrors, hlength, List.take_succ_cons, List.drop_succ_cons,
      Position.after_cons]

/-- The characters that a gap may start with. -/
def gapStarts : List Char := ['\ufeff', '\x7b', '/', '.', ' ', '\t', '\r']

theorem gap_eq_zero {c : Char} {cs : List Char} (h : c ∉ gapStarts) :
    gap (c :: cs) = ⟨0, none⟩ := by
  simp only [gapStarts, List.mem_cons, List.not_mem_nil, or_false, not_or] at h
  obtain ⟨hmark, hbrace, hslash, hdot, hspace, htab, hreturn⟩ := h
  rw [gap_eq_trivia (by simpa using hmark)]
  have hblank : isLineBlank c = false := by simp [isLineBlank, hspace, htab, hreturn]
  have hpiece : blankOrComment (c :: cs) = none := by
    unfold blankOrComment
    split <;> simp_all
  simp [trivia, hpiece, Ne.symm hdot]

theorem gap_slash {cs : List Char} (h : ∀ c ∈ cs.head?, c ≠ '*' ∧ c ≠ '/') :
    gap ('/' :: cs) = ⟨0, none⟩ := by
  rw [gap_eq_trivia (by simp)]
  have hpiece : blankOrComment ('/' :: cs) = none := by
    cases cs with
    | nil => rfl
    | cons c cs =>
      obtain ⟨hstar, hslash⟩ := h c rfl
      unfold blankOrComment
      split
      · simp_all
      · simp_all
      · simp_all
      · next heq => cases heq; rfl
      · rfl
  simp [trivia, hpiece]

theorem gap_dot {cs : List Char} (h : cs.head? ≠ some '.') : gap ('.' :: cs) = ⟨0, none⟩ := by
  rw [gap_eq_trivia (by simp)]
  have hpiece : blankOrComment ('.' :: cs) = none := rfl
  cases cs with
  | nil => rfl
  | cons c cs =>
    have hc : '.' ≠ c := by simpa [eq_comm] using h
    simp [trivia, hpiece, hc]

/-! ### Characters -/

/-- A character of a class is none of those that are not in the class. -/
theorem notMem_of_class {p : Char → Bool} {c : Char} {l : List Char} (h : p c = true)
    (hl : l.any p = false) : c ∉ l := by
  intro hc
  rw [List.any_eq_false] at hl
  exact hl c hc h

theorem startsName_iff {c : Char} : startsName c = true ↔
    c.toNat = 95 ∨ (97 ≤ c.toNat ∧ c.toNat ≤ 122) ∨ (65 ≤ c.toNat ∧ c.toNat ≤ 90) := by
  have h : c = '_' ↔ c.toNat = 95 :=
    ⟨by rintro rfl; rfl, fun h => Char.ext (UInt32.toNat_inj.mp h)⟩
  simp only [startsName, Bool.or_eq_true, beq_iff_eq, Bool.and_eq_true, decide_eq_true_eq, h,
    or_assoc]
  rfl

theorem isDigit_iff {c : Char} : isDigit c = true ↔ 48 ≤ c.toNat ∧ c.toNat ≤ 57 := by
  simp only [isDigit, Bool.and_eq_true, decide_eq_true_eq]
  rfl

theorem startsName_not_digit {c : Char} (h : startsName c = true) : isDigit c = false := by
  rw [← Bool.not_eq_true, isDigit_iff]
  rw [startsName_iff] at h
  omega

/-! ### Boundaries -/

section Boundary

variable {p : Char → Bool} {cs ys : List Char}

theorem Boundary.nil : Boundary [] := by simp [Boundary]

theorem boundary_cons {c : Char} : Boundary (c :: cs) ↔ continuesName c = false ∧ c ≠ '.' := by
  simp [Boundary]

theorem run_eq_zero (h : ∀ c ∈ cs.head?, p c = false) : run p cs = 0 := by
  cases cs with
  | nil => rfl
  | cons c cs => simp [run, h c rfl]

/-- What does not go on with a run leaves it as it is. -/
theorem run_append (h : ∀ c ∈ cs.head?, p c = false) : run p (ys ++ cs) = run p ys := by
  induction ys with
  | nil => rw [List.nil_append, run_eq_zero h]; rfl
  | cons y ys ih =>
    by_cases hy : p y = true
    · simpa [run, hy] using ih
    · simp [run, hy]

theorem starts_append (hys : ys ≠ []) : starts p (ys ++ cs) = starts p ys := by
  cases ys with
  | nil => exact absurd rfl hys
  | cons y ys => rfl

theorem run_le_length : run p ys ≤ ys.length := (List.takeWhile_sublist p).length_le

theorem Boundary.starts (h : Boundary cs) : Scan.starts continuesName cs = false := by
  cases cs with
  | nil => rfl
  | cons c cs => exact (h c rfl).1

theorem Boundary.run (h : Boundary cs) : Scan.run continuesName cs = 0 :=
  run_eq_zero fun c hc => (h c hc).1

end Boundary

/-! ### Names -/

section Names

variable {cs xs : List Char}

/-- The letters of a dotted operator are letters of names, or dots. -/
theorem mem_dotted {s : Sign} (hs : s ∈ [Sign.bitAnd, .bitOr, .bitXor, .bitNot]) {c : Char}
    (hc : c.toLower ∈ s.spelling.toList) : continuesName c = true ∨ c = '.' := by
  have hlower : continuesName c.toLower = true ∨ c.toLower = '.' := by
    have hall : ([Sign.bitAnd, .bitOr, .bitXor, .bitNot].all fun s => s.spelling.toList.all fun c =>
        continuesName c || c == '.') = true := by decide
    have hone := List.all_eq_true.mp (List.all_eq_true.mp hall s hs) _ hc
    simpa only [Bool.or_eq_true, beq_iff_eq] using hone
  by_cases hup : 'A' ≤ c ∧ c ≤ 'Z'
  · left
    simp only [continuesName, startsName, Bool.or_eq_true, Bool.and_eq_true, decide_eq_true_eq]
    exact .inl (.inr hup)
  · have heq : c.toLower = c := dif_neg hup
    rwa [heq] at hlower

/-- **No dotted operator arises behind a name** that is followed by no letter and no dot. -/
theorem dottedOperator_append (hcs : Boundary cs) (h : dottedOperator xs = none) :
    dottedOperator (xs ++ cs) = none := by
  simp only [dottedOperator, List.find?_eq_none, List.isPrefixOf_iff_prefix] at h ⊢
  intro s hs hpre
  have hlength : s.spelling.toList.length ≤ 5 := by
    have hall : ∀ s ∈ [Sign.bitAnd, .bitOr, .bitXor, .bitNot], s.spelling.toList.length ≤ 5 := by
      decide
    exact hall s hs
  have hwhole : s.spelling.toList <+: xs.map Char.toLower ++ cs.map Char.toLower := by
    rw [← List.map_append]
    exact hpre.trans ((List.take_prefix 5 _).map _)
  rcases Nat.lt_or_ge xs.length s.spelling.toList.length with hlt | hle
  · -- the operator reaches into the text behind, whose first character it cannot have
    obtain ⟨t, ht⟩ : xs.map Char.toLower <+: s.spelling.toList :=
      List.prefix_of_prefix_length_le (List.prefix_append _ _) hwhole (by simpa using hlt.le)
    rw [← ht, List.prefix_append_right_inj] at hwhole
    cases t with
    | nil =>
      rw [← ht] at hlt
      simp at hlt
    | cons d t =>
      cases cs with
      | nil => simp at hwhole
      | cons c cs =>
        have hd : d = c.toLower := (List.cons_prefix_cons.mp hwhole).1
        have hmem : c.toLower ∈ s.spelling.toList := by rw [← ht, hd]; simp
        have hc := boundary_cons.mp hcs
        rcases mem_dotted hs hmem with hname | hdot
        · rw [hc.1] at hname
          cases hname
        · exact hc.2 hdot
  · refine h s hs (List.prefix_of_prefix_length_le ?_ ((List.take_prefix 5 xs).map _) ?_)
    · exact List.prefix_of_prefix_length_le hwhole (List.prefix_append _ _) (by simpa using hle)
    · rw [List.length_map, List.length_take]
      omega

/-- A name with dots that fills a text is not changed by what follows. -/
theorem dottedParts_append (hcs : Boundary cs) (h : dottedParts xs = xs.length) :
    dottedParts (xs ++ cs) = xs.length := by
  induction xs with
  | nil =>
    cases cs with
    | nil => rfl
    | cons c cs =>
      have hc := boundary_cons.mp hcs
      simp [dottedParts, hc.1, hc.2]
  | cons x xs ih =>
    rw [dottedParts] at h
    rw [List.cons_append, dottedParts, List.length_cons]
    split at h
    next hx =>
      rw [if_pos hx, ih (by rw [List.length_cons] at h; omega), Nat.add_comm]
    next hx =>
      split at h
      next hdot =>
        simp only [Bool.and_eq_true, Option.isNone_iff_eq_none, decide_eq_true_eq] at hdot
        obtain ⟨⟨rfl, hstarts⟩, hop⟩ := hdot
        have hxs : xs ≠ [] := by rintro rfl; cases hstarts
        have hop' := dottedOperator_append hcs hop
        rw [List.cons_append] at hop'
        rw [if_neg hx, if_pos (by simp [starts_append hxs, hstarts, hop']),
          ih (by rw [List.length_cons] at h; omega), Nat.add_comm]
      next => simp at h

/-- **A name that fills a text is not changed by what follows.** -/
theorem name_append (hxs : xs ≠ []) (hcs : Boundary cs) (h : (name xs).length = xs.length) :
    name (xs ++ cs) = name xs := by
  have hpos : 0 < xs.length := List.length_pos_iff.mpr hxs
  simp only [name, starts_append hxs] at h ⊢
  generalize hk : (if starts (fun c => (Sigil.ofChar? c).isSome) xs = true then 1 else 0) = k at *
  have hsigil : k ≤ xs.length := by split at hk <;> omega
  rw [List.drop_append_of_le_length hsigil, run_append fun c hc => (hcs c hc).1]
  generalize hn : k + run continuesName (xs.drop k) = n at *
  have hfirst : n ≤ xs.length := by omega
  rw [List.drop_append_of_le_length hfirst, List.take_append_of_le_length hfirst]
  have hdotted : dottedParts (xs.drop n) = (xs.drop n).length := by
    rw [List.length_drop]
    omega
  rw [dottedParts_append hcs hdotted, hdotted]

theorem dottedParts_le : dottedParts xs ≤ xs.length := by
  induction xs with
  | nil => simp [dottedParts]
  | cons x xs ih =>
    rw [dottedParts]
    split
    · rw [List.length_cons]; omega
    · split
      · rw [List.length_cons]; omega
      · exact Nat.zero_le _

theorem name_length_le (hxs : xs ≠ []) : (name xs).length ≤ xs.length := by
  have hpos : 0 < xs.length := List.length_pos_iff.mpr hxs
  simp only [name]
  generalize hk : (if starts (fun c => (Sigil.ofChar? c).isSome) xs = true then 1 else 0) = k at *
  have hsigil : k ≤ xs.length := by split at hk <;> omega
  have hrun : run continuesName (xs.drop k) ≤ (xs.drop k).length := run_le_length
  rw [List.length_drop] at hrun
  have hdotted : dottedParts (xs.drop (k + run continuesName (xs.drop k))) ≤ _ := dottedParts_le
  rw [List.length_drop] at hdotted
  omega

end Names

/-! ### Which lexemes are names -/

theorem number_kind (cs : List Char) :
    (number cs).kind ≠ .identifier ∧ (number cs).kind ≠ .string := by
  simp only [number, closedNumber, badNumber]
  repeat' split
  all_goals simp

theorem operator_kind (first : Char) (rest : List Char) :
    (operator first rest).kind ≠ .identifier ∧ (operator first rest).kind ≠ .string := by
  simp only [operator]
  repeat' split
  all_goals simp

theorem string_kind (quote : Char) (rest : List Char) : (string quote rest).kind ≠ .identifier := by
  simp only [string]
  split <;> simp

theorem name_kind (cs : List Char) : (name cs).kind ≠ .string := by
  simp only [name]
  repeat' split
  all_goals simp

/-- Whether a lexeme that starts with the characters is a name or a keyword. -/
def startsWord (first : Char) (rest : List Char) : Bool :=
  startsName first || ((Sigil.ofChar? first).isSome && starts continuesName rest)

theorem startsWord_append {first : Char} {rest cs : List Char} (h : startsWord first rest = true) :
    startsWord first (rest ++ cs) = true := by
  cases rest with
  | nil => simp_all [startsWord, starts]
  | cons c rest => exact h

/-- What a name starts with starts nothing else. -/
theorem startsWord_notMem {first : Char} {rest : List Char} (h : startsWord first rest = true) :
    first ∉ gapStarts ++ ['"', '\'', '\n'] ∧ isDigit first = false := by
  simp only [startsWord, Bool.or_eq_true, Bool.and_eq_true] at h
  rcases h with h | ⟨h, -⟩
  · exact ⟨notMem_of_class h (by decide), startsName_not_digit h⟩
  · refine ⟨notMem_of_class (p := fun c => (Sigil.ofChar? c).isSome) h (by decide), ?_⟩
    unfold Sigil.ofChar? at h
    split at h
    all_goals first | rfl | cases h

theorem lexeme_eq_name {first : Char} {rest : List Char} (h : startsWord first rest = true) :
    lexeme first rest = name (first :: rest) := by
  obtain ⟨hmem, hdigit⟩ := startsWord_notMem h
  simp only [List.mem_append, List.mem_cons, List.not_mem_nil, or_false, not_or] at hmem
  simp only [startsWord, Bool.or_eq_true] at h
  simp only [lexeme, hdigit, beq_eq_false_iff_ne.mpr hmem.2.1,
    beq_eq_false_iff_ne.mpr hmem.2.2.1, Bool.or_self, Bool.false_eq_true, if_false]
  rcases h with h | h
  · simp [h]
  · simp [h]

/-- Only what starts as a name is a name. -/
theorem startsWord_of_kind {first : Char} {rest : List Char}
    (h : (lexeme first rest).kind = .identifier) : startsWord first rest = true := by
  simp only [lexeme] at h
  split at h
  · exact absurd h (string_kind _ _)
  · split at h
    · exact absurd h (number_kind _).1
    · split at h
      next hs => simp [startsWord, hs]
      next =>
        split at h
        next hs => simp [startsWord, hs]
        next => exact absurd h (operator_kind _ _).1

/-- **A word in front of a boundary** is the word that it is alone. -/
theorem spells_name {first : Char} {rest cs : List Char} {kind : TokenKind}
    (hstart : startsWord first rest = true)
    (h : name (first :: rest) = ⟨kind, rest.length + 1, none⟩) (hcs : Boundary cs) :
    Spells (first :: rest) kind cs := by
  obtain ⟨hmem, -⟩ := startsWord_notMem hstart
  simp only [List.mem_append, List.mem_cons, List.not_mem_nil, or_false, not_or] at hmem
  refine ⟨gap_eq_zero hmem.1, first, rest, rfl, hmem.2.2.2, ?_⟩
  rw [lexeme_eq_name (startsWord_append hstart), ← List.cons_append,
    name_append (List.cons_ne_nil _ _) hcs (by rw [h]; rfl), h]
  rfl

/-- A keyword in front of a boundary. -/
theorem spells_keyword (k : Keyword) {cs : List Char} (hcs : Boundary cs) :
    Spells k.spelling.toList (.keyword k) cs := by
  obtain ⟨first, rest, hspelling, hstart, hname⟩ : ∃ first rest, k.spelling.toList = first :: rest ∧
      startsWord first rest = true ∧
        name (first :: rest) = ⟨.keyword k, rest.length + 1, none⟩ := by
    cases k <;> exact ⟨_, _, rfl, by decide, by decide⟩
  rw [hspelling]
  exact spells_name hstart hname hcs

/-! ### Signs -/

/-- The characters that make something else of a sign when they follow it. -/
def joins : Sign → List Char
  | .minus => ['>']
  | .less | .greater => ['=']
  | .slash => ['*', '/']
  | _ => []

/-- The characters of a sign. -/
def signChars : Sign → List Char
  | .assign => [':', '=']
  | .arrow => ['-', '>']
  | .plus => ['+']
  | .minus => ['-']
  | .star => ['*']
  | .slash => ['/']
  | .amp => ['&']
  | .equal => ['=']
  | .notEqual => ['#']
  | .less => ['<']
  | .greater => ['>']
  | .lessEqual => ['<', '=']
  | .greaterEqual => ['>', '=']
  | .bitAnd => ['.', 'a', 'n', 'd', '.']
  | .bitOr => ['.', 'o', 'r', '.']
  | .bitXor => ['.', 'x', 'o', 'r', '.']
  | .bitNot => ['.', 'n', 'o', 't', '.']
  | .leftParen => ['(']
  | .rightParen => [')']
  | .leftBracket => ['[']
  | .rightBracket => [']']
  | .comma => [',']

theorem spelling_toList (s : Sign) : s.spelling.toList = signChars s := by
  cases s <;> rfl

/-- A sign that nothing joins. -/
theorem sign_eq_of_joins (s : Sign) {c : Char} (cs : List Char) (hc : c ∉ joins s)
    (hdot : s ∉ [Sign.bitAnd, .bitOr, .bitXor, .bitNot]) :
    sign (signChars s ++ c :: cs) = some (s, (signChars s).length) := by
  cases s
  case minus | less | greater =>
    simp only [joins, List.mem_singleton] at hc
    simp [signChars, sign, hc]
  case bitAnd | bitOr | bitXor | bitNot => simp at hdot
  all_goals rfl

/-- **A sign is scanned as itself**, unless the character behind it makes something else of
it. -/
theorem spells_sign (s : Sign) {cs : List Char} (hcs : ∀ c ∈ cs.head?, c ∉ joins s) :
    Spells s.spelling.toList (.sign s) cs := by
  rw [spelling_toList]
  have hgap : Scan.gap (signChars s ++ cs) = ⟨0, none⟩ := by
    cases s
    case slash => exact gap_slash fun c hc => by simpa [joins] using hcs c hc
    case bitAnd | bitOr | bitXor | bitNot => exact gap_dot (by simp)
    all_goals exact gap_eq_zero (by decide)
  refine ⟨hgap, ?_⟩
  cases cs with
  | nil => cases s <;> exact ⟨_, _, rfl, by decide, by decide⟩
  | cons c cs =>
    by_cases hdot : s ∈ [Sign.bitAnd, .bitOr, .bitXor, .bitNot]
    · simp only [List.mem_cons, List.not_mem_nil, or_false] at hdot
      rcases hdot with rfl | rfl | rfl | rfl <;> exact ⟨_, _, rfl, by decide, rfl⟩
    · have hsign := sign_eq_of_joins s cs (hcs c rfl) hdot
      have hop : ∀ first rest, signChars s = first :: rest →
          lexeme first (rest ++ c :: cs) = operator first (rest ++ c :: cs) ∧
            dottedOperator (first :: (rest ++ c :: cs)) = none := by
        rintro first rest hs
        cases s <;> cases hs <;> first | exact ⟨rfl, rfl⟩ | simp at hdot
      obtain ⟨first, rest, hs, hnl⟩ : ∃ first rest, signChars s = first :: rest ∧ first ≠ '\n' := by
        cases s <;> exact ⟨_, _, rfl, by decide⟩
      obtain ⟨hlex, hnone⟩ := hop first rest hs
      rw [hs, List.cons_append] at hsign
      refine ⟨first, rest, hs, hnl, ?_⟩
      rw [hlex, operator, hnone, hs]
      simp only [hsign]

namespace Lexed

variable {cs : List Char} {ws : List Word}

/-- A sign in front of a text. -/
theorem sign (s : Sign) (hcs : ∀ c ∈ cs.head?, c ∉ joins s) (h : Lexed true cs ws)
    (lineOpen : Bool) : Lexed lineOpen (s.spelling.toList ++ cs) (s.word :: ws) := by
  have hword := Lexed.word (spells_sign s hcs) h lineOpen
  rwa [String.ofList_toList] at hword

/-- A keyword in front of a text. -/
theorem keyword (k : Keyword) (hcs : Boundary cs) (h : Lexed true cs ws) (lineOpen : Bool) :
    Lexed lineOpen (k.spelling.toList ++ cs) (k.word :: ws) := by
  have hword := Lexed.word (spells_keyword k hcs) h lineOpen
  rwa [String.ofList_toList] at hword

end Lexed

end FlatScript.Scan
