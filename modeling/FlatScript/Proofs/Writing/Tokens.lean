import FlatScript.Proofs.Writing.Lexemes

/-!
# Names and strings as tokens

A name is written as it is spelled, and a string with its quotes, so what they are read as hangs
on their own text. `FlatScript.IsToken` says that a text is one token of a kind.

* `FlatScript.Scan.spells_identifier` and `FlatScript.Scan.spells_string`: such a text is that
  token in front of other text too, for a name up to a boundary.
* `FlatScript.isToken_of_mem`: the names and strings among the tokens of any text are such
  texts.
-/

namespace FlatScript

/-- **A text is one token** of a kind. -/
def IsToken (kind : TokenKind) (text : String) : Prop :=
  (tokenize text).2 = [] ∧
    (tokenize text).1.map Token.word = ⟨kind, text⟩ :: Scan.endWords true

instance (kind : TokenKind) (text : String) : Decidable (IsToken kind text) :=
  inferInstanceAs (Decidable (_ ∧ _))

namespace Scan

variable {kind : TokenKind} {first quote : Char} {rest cs xs : List Char} {n : Nat}

/-! ### Strings -/

/-- **A string ends with its closing quote**, whatever follows. -/
theorem stringRest_take (hquote : quote ≠ '\\') (h : stringRest quote xs = (n, true)) :
    n ≤ xs.length ∧ ∀ cs, stringRest quote (xs.take n ++ cs) = (n, true) := by
  fun_induction stringRest quote xs generalizing n with
  | case1 => cases h
  | case2 => cases h
  | case3 => cases h
  | case4 c xs hc m closed heq ih =>
    cases h
    obtain ⟨hle, hcs⟩ := ih heq
    exact ⟨by simpa using hle, fun cs => by simp [stringRest, hc, hcs]⟩
  | case5 xs hnl hescape =>
    cases h
    exact ⟨by simp, fun cs => by simp_all [stringRest]⟩
  | case6 c xs hnl hescape hc m closed heq ih =>
    cases h
    obtain ⟨hle, hcs⟩ := ih heq
    have hback : c ≠ '\\' := by
      rintro rfl
      cases xs with
      | nil => cases heq
      | cons x xs => exact hescape x xs rfl rfl
    exact ⟨by simpa using hle, fun cs => by simp [stringRest, hback, hc, hcs]⟩

theorem lexeme_eq_string (h : (lexeme first rest).kind = .string) :
    (first = '"' ∨ first = '\'') ∧ lexeme first rest = string first rest := by
  simp only [lexeme] at h ⊢
  split at h
  next hquote => exact ⟨by simpa using hquote, if_pos hquote⟩
  next =>
    split at h
    · exact absurd h (number_kind _).2
    · split at h
      · exact absurd h (name_kind _)
      · split at h
        · exact absurd h (name_kind _)
        · exact absurd h (operator_kind _ _).2

/-- A string that fills a text, in front of any other text. -/
theorem spells_string (h : lexeme first rest = ⟨.string, rest.length + 1, none⟩) :
    Spells (first :: rest) .string cs := by
  obtain ⟨hquote, hlex⟩ := lexeme_eq_string (by rw [h])
  rw [h, string] at hlex
  split at hlex
  next n hrest =>
    simp only [Lexeme.mk.injEq, true_and, and_true, Nat.add_right_cancel_iff] at hlex
    subst hlex
    have happend := (stringRest_take (by rcases hquote with rfl | rfl <;> decide) hrest).2 cs
    rw [List.take_length] at happend
    refine ⟨gap_eq_zero (by rcases hquote with rfl | rfl <;> decide), first, rest, rfl,
      by rcases hquote with rfl | rfl <;> decide, ?_⟩
    rcases hquote with rfl | rfl <;> simp [lexeme, string, happend]
  next => cases hlex

/-! ### Names -/

/-- Less text has no dotted operator either. -/
theorem dottedOperator_of_prefix {ys : List Char} (hpre : ys <+: xs)
    (h : dottedOperator xs = none) : dottedOperator ys = none := by
  simp only [dottedOperator, List.find?_eq_none, List.isPrefixOf_iff_prefix] at h ⊢
  intro s hs hys
  obtain ⟨t, rfl⟩ := hpre
  refine h s hs (hys.trans (List.IsPrefix.map _ ?_))
  rw [List.take_append]
  exact List.prefix_append _ _

theorem dottedParts_cons_name {x : Char} (hx : continuesName x = true) :
    dottedParts (x :: xs) = dottedParts xs + 1 := by
  rw [dottedParts, if_pos hx, Nat.add_comm]

/-- A name with dots is the same without what follows it. -/
theorem dottedParts_take : dottedParts (xs.take (dottedParts xs)) = dottedParts xs := by
  induction xs with
  | nil => rfl
  | cons x xs ih =>
    by_cases hx : continuesName x = true
    · rw [dottedParts_cons_name hx, List.take_succ_cons, dottedParts_cons_name hx, ih]
    by_cases hdot : (x = '.' && starts continuesName xs && (dottedOperator (x :: xs)).isNone) = true
    · have hlength : dottedParts (x :: xs) = dottedParts xs + 1 := by
        rw [dottedParts, if_neg hx, if_pos hdot, Nat.add_comm]
      have hdot' : (x = '.' && starts continuesName (xs.take (dottedParts xs)) &&
          (dottedOperator (x :: xs.take (dottedParts xs))).isNone) = true := by
        simp only [Bool.and_eq_true, decide_eq_true_eq, Option.isNone_iff_eq_none] at hdot ⊢
        obtain ⟨⟨hx, hstarts⟩, hop⟩ := hdot
        refine ⟨⟨hx, ?_⟩, dottedOperator_of_prefix ?_ hop⟩
        · cases xs with
          | nil => cases hstarts
          | cons y ys =>
            rw [dottedParts_cons_name hstarts]
            exact hstarts
        · rw [List.cons_prefix_cons]
          exact ⟨rfl, List.take_prefix _ _⟩
      rw [hlength, List.take_succ_cons, dottedParts, if_neg hx, if_pos hdot', ih, Nat.add_comm]
    · rw [dottedParts, if_neg hx, if_neg hdot]
      rfl

/-- The run at the front of a text is the same without some of what follows it. -/
theorem run_take {p : Char → Bool} (h : run p xs ≤ n) : run p (xs.take n) = run p xs := by
  induction xs generalizing n with
  | nil => simp
  | cons x xs ih =>
    by_cases hx : p x = true
    · simp only [run, List.takeWhile_cons, if_pos hx, List.length_cons] at h ⊢
      obtain ⟨n, rfl⟩ : ∃ m, n = m + 1 := ⟨n - 1, by omega⟩
      have := ih (n := n) (by simp only [run]; omega)
      simp only [run] at this
      simp [hx, this]
    · cases n with
      | zero => simp [run, hx]
      | succ n => simp [run, hx]

/-- **A name is the same without what follows it.** -/
theorem name_take (hxs : xs ≠ []) (hpos : 0 < (name xs).length) :
    name (xs.take (name xs).length) = name xs := by
  have hstarts : ∀ p, starts p (xs.take (name xs).length) = starts p xs := by
    intro p
    obtain ⟨x, ys, rfl⟩ := List.exists_cons_of_ne_nil hxs
    obtain ⟨n, hn⟩ : ∃ n, (name (x :: ys)).length = n + 1 := ⟨_, (Nat.succ_pred hpos.ne').symm⟩
    rw [hn]
    rfl
  generalize hn : (name xs).length = n at *
  simp only [name] at hn ⊢
  simp only [hstarts]
  generalize (if starts (fun c => (Sigil.ofChar? c).isSome) xs = true then 1 else 0) = k at *
  have hrun : run continuesName ((xs.take n).drop k) = run continuesName (xs.drop k) := by
    rw [List.drop_take, run_take (by omega)]
  rw [hrun]
  generalize k + run continuesName (xs.drop k) = f at *
  rw [List.drop_take, show n - f = dottedParts (xs.drop f) by omega, dottedParts_take,
    List.take_take, Nat.min_eq_left (by omega)]

/-! ### Tokens on their own -/

/-- A piece that is one lexeme on its own. -/
def IsLexeme (kind : TokenKind) (piece : List Char) : Prop :=
  ∃ first rest, piece = first :: rest ∧ lexeme first rest = ⟨kind, rest.length + 1, none⟩

/-- **A name in front of a boundary.** -/
theorem spells_identifier (h : IsLexeme .identifier xs) (hcs : Boundary cs) :
    Spells xs .identifier cs := by
  obtain ⟨first, rest, rfl, hlex⟩ := h
  have hstart : startsWord first rest = true := startsWord_of_kind (by rw [hlex])
  rw [lexeme_eq_name hstart] at hlex
  exact spells_name hstart hlex hcs

theorem IsLexeme.spells_string (h : IsLexeme .string xs) : Spells xs .string cs := by
  obtain ⟨first, rest, rfl, hlex⟩ := h
  exact Scan.spells_string hlex

theorem run_pos {p : Char → Bool} (h : starts p xs = true) : 0 < run p xs := by
  cases xs with
  | nil => cases h
  | cons x xs => simp [run, show p x = true from h]

theorem starts_take {p : Char → Bool} (hn : 0 < n) : starts p (xs.take n) = starts p xs := by
  obtain ⟨n, rfl⟩ : ∃ m, n = m + 1 := ⟨_, (Nat.succ_pred hn.ne').symm⟩
  cases xs <;> rfl

/-- A name has a character, and behind a sigil it has another one. -/
theorem startsWord_take (h : startsWord first rest = true) :
    0 < (name (first :: rest)).length ∧
      startsWord first (rest.take ((name (first :: rest)).length - 1)) = true := by
  simp only [startsWord, Bool.or_eq_true, Bool.and_eq_true] at h ⊢
  by_cases hsigil : (Sigil.ofChar? first).isSome = true
  · have hlength : 1 + run continuesName rest ≤ (name (first :: rest)).length := by
      simp [name, starts, hsigil]
    refine ⟨by omega, h.imp id fun hstarts => ⟨hsigil, ?_⟩⟩
    have hrun := run_pos hstarts.2
    rw [starts_take (by omega)]
    exact hstarts.2
  · have hname : startsName first = true := h.resolve_right fun h => hsigil h.1
    have hrun : 0 < run continuesName (first :: rest) :=
      run_pos (by simp [starts, continuesName, hname])
    have hlength : run continuesName (first :: rest) ≤ (name (first :: rest)).length := by
      simp [name, starts, hsigil]
    exact ⟨by omega, .inl hname⟩

/-- **A name that stands in a text is the same name on its own.** -/
theorem exists_name (h : startsWord first rest = true) :
    ∃ rest', (first :: rest).take (name (first :: rest)).length = first :: rest' ∧
      startsWord first rest' = true ∧
        name (first :: rest') = ⟨(name (first :: rest)).kind, rest'.length + 1, none⟩ := by
  obtain ⟨hpos, hstart⟩ := startsWord_take h
  have hle := name_length_le (List.cons_ne_nil first rest)
  have htake := name_take (List.cons_ne_nil first rest) hpos
  generalize hl : name (first :: rest) = l at *
  obtain ⟨n, hn⟩ : ∃ n, l.length = n + 1 := ⟨_, (Nat.succ_pred hpos.ne').symm⟩
  rw [hn, List.take_succ_cons] at htake
  rw [hn, Nat.add_sub_cancel] at hstart
  rw [hn] at hle ⊢
  refine ⟨rest.take n, rfl, hstart, ?_⟩
  rw [htake, List.length_take, Nat.min_eq_left (by simpa using hle), ← hn, ← hl]
  rfl

/-- The names and the strings that stand in a text. -/
theorem isLexeme_take
    (h : (lexeme first rest).kind = .identifier ∨ (lexeme first rest).kind = .string) :
    IsLexeme (lexeme first rest).kind ((first :: rest).take (lexeme first rest).length) := by
  rcases h with h | h
  · have hstart := startsWord_of_kind h
    obtain ⟨rest', htake, hstart', hname⟩ := exists_name hstart
    rw [lexeme_eq_name hstart, htake]
    exact ⟨first, rest', rfl, by rw [lexeme_eq_name hstart', hname]⟩
  · obtain ⟨hquote, hlex⟩ := lexeme_eq_string h
    rw [hlex, string] at h ⊢
    split at h
    next n hrest =>
      obtain ⟨hle, htake⟩ := stringRest_take (by rcases hquote with rfl | rfl <;> decide) hrest
      have halone := htake []
      rw [List.append_nil] at halone
      refine ⟨first, rest.take n, rfl, ?_⟩
      rw [List.length_take, Nat.min_eq_left hle]
      rcases hquote with rfl | rfl <;> simp [lexeme, string, halone]
    next => cases h

/-- **The names and strings among the tokens of a text** are such on their own. -/
theorem isLexeme_of_mem {fuel : Nat} {p : Position} {lineOpen : Bool} {t : Token}
    (ht : t ∈ (tokens fuel p lineOpen cs).1) (hkind : t.kind = .identifier ∨ t.kind = .string) :
    IsLexeme t.kind t.lexeme.toList := by
  induction fuel generalizing p lineOpen cs with
  | zero =>
    simp only [tokens, finish] at ht
    split at ht <;> simp at ht <;> grind
  | succ fuel ih =>
    simp only [tokens] at ht
    split at ht
    next =>
      simp only [finish] at ht
      split at ht <;> simp at ht <;> grind
    next first rest _ =>
      split at ht
      next =>
        split at ht
        · rcases List.mem_cons.mp ht with rfl | ht
          · simp at hkind
          · exact ih ht
        · exact ih ht
      next =>
        rcases List.mem_cons.mp ht with rfl | ht
        · rw [String.toList_ofList]
          exact isLexeme_take hkind
        · exact ih ht

end Scan

open Scan

/-- A text that is scanned as words, as a whole. -/
theorem tokenize_of_lexed {text : String} {ws : List Word} (h : Lexed false text.toList ws) :
    (tokenize text).2 = [] ∧ (tokenize text).1.map Token.word = ws := by
  obtain ⟨ts, hts, rfl⟩ := h .start (text.toList.length + 1) (by omega)
  simp [tokenize, hts]

theorem IsToken.isLexeme {kind : TokenKind} {text : String} (h : IsToken kind text)
    (hkind : kind = .identifier ∨ kind = .string) : IsLexeme kind text.toList := by
  obtain ⟨t, ht, hword⟩ : ∃ t ∈ (tokenize text).1, t.word = ⟨kind, text⟩ := by
    rw [← List.mem_map, h.2]
    simp
  cases hword
  exact isLexeme_of_mem ht hkind

/-- **A name or a string is one token** when it is one lexeme. -/
theorem isToken_iff {kind : TokenKind} {text : String}
    (hkind : kind = .identifier ∨ kind = .string) :
    IsToken kind text ↔ IsLexeme kind text.toList := by
  refine ⟨fun h => h.isLexeme hkind, fun h => ?_⟩
  have hspells : Spells text.toList kind [] := by
    rcases hkind with rfl | rfl
    · exact spells_identifier h .nil
    · exact h.spells_string
  have hlexed : Lexed false (text.toList ++ []) (⟨kind, String.ofList text.toList⟩ :: endWords true) :=
    .word hspells (.nil true) false
  rw [List.append_nil, String.ofList_toList] at hlexed
  exact tokenize_of_lexed hlexed

/-- The names and strings among the tokens of a text are tokens on their own. -/
theorem isToken_of_mem {text : String} {t : Token} (ht : t ∈ (tokenize text).1)
    (hkind : t.kind = .identifier ∨ t.kind = .string) : IsToken t.kind t.lexeme :=
  (isToken_iff hkind).mpr (isLexeme_of_mem ht hkind)

end FlatScript
