import FlatScript.Proofs.Writing.Tokens

/-!
# Lexemes and the ends of lines

No lexeme goes past its line: a text and the same text with a line feed and other text behind it
start with the same lexeme. A string that is not closed stops in front of the line feed, a number or
a name does not go on with it, and no sign has one in it.

* `FlatScript.Scan.lexeme_append_feed`: what stands behind the line does not matter.
* `FlatScript.Scan.lexeme_length_le`: a lexeme is not longer than the text it is in.
-/

namespace FlatScript.Scan

variable {xs cs : List Char} {p : Char → Bool}

/-! ### What stands behind a line feed -/

/-- A word without a character stands at the front of a text as far as the text has no such
character. -/
theorem isPrefixOf_append_cons {word : List Char} {c : Char} (hc : c ∉ word) :
    word.isPrefixOf (xs ++ c :: cs) = word.isPrefixOf xs := by
  induction word generalizing xs with
  | nil => simp
  | cons d word ih =>
    rw [List.mem_cons, not_or] at hc
    cases xs with
    | nil => simp [List.isPrefixOf, Ne.symm hc.1]
    | cons x xs =>
      rw [List.cons_append, List.isPrefixOf_cons_cons, List.isPrefixOf_cons_cons, ih hc.2]

theorem run_append_feed (hp : p '\n' = false) : run p (xs ++ '\n' :: cs) = run p xs :=
  run_append (by simpa using hp)

theorem starts_append_feed (hp : p '\n' = false) : starts p (xs ++ '\n' :: cs) = starts p xs := by
  cases xs with
  | nil => exact hp
  | cons x xs => rfl

theorem dottedOperator_append_feed :
    dottedOperator (xs ++ '\n' :: cs) = dottedOperator xs := by
  have hsign : ∀ s : Sign,
      s.spelling.toList.isPrefixOf (((xs ++ '\n' :: cs).take 5).map Char.toLower) =
      s.spelling.toList.isPrefixOf ((xs.take 5).map Char.toLower) := by
    intro s
    have hfeed : '\n' ∉ s.spelling.toList := by
      rw [spelling_toList]
      cases s <;> decide
    rcases Nat.lt_or_ge xs.length 5 with hlt | hle
    · obtain ⟨n, hn⟩ : ∃ n, 5 - xs.length = n + 1 := ⟨5 - xs.length - 1, by omega⟩
      rw [List.take_append, hn, List.take_succ_cons, List.map_append, List.map_cons]
      exact isPrefixOf_append_cons hfeed
    · rw [List.take_append_of_le_length hle]
  unfold dottedOperator
  simp only [hsign]

/-! ### Names, numbers and strings -/

theorem dottedParts_append_feed : dottedParts (xs ++ '\n' :: cs) = dottedParts xs := by
  induction xs with
  | nil => rfl
  | cons x xs ih =>
    have hop : dottedOperator (x :: (xs ++ '\n' :: cs)) = dottedOperator (x :: xs) := by
      rw [← List.cons_append, dottedOperator_append_feed]
    rw [List.cons_append, dottedParts, dottedParts, ih, starts_append_feed (by decide), hop]

theorem name_append_feed (hxs : xs ≠ []) : name (xs ++ '\n' :: cs) = name xs := by
  have hpos : 0 < xs.length := List.length_pos_iff.mpr hxs
  simp only [name, starts_append hxs]
  generalize hk : (if starts (fun c => (Sigil.ofChar? c).isSome) xs = true then 1 else 0) = k
  have hsigil : k ≤ xs.length := by split at hk <;> omega
  rw [List.drop_append_of_le_length hsigil, run_append_feed (by decide)]
  have hrun : run continuesName (xs.drop k) ≤ (xs.drop k).length := run_le_length
  rw [List.length_drop] at hrun
  have hfirst : k + run continuesName (xs.drop k) ≤ xs.length := by omega
  rw [List.drop_append_of_le_length hfirst, List.take_append_of_le_length hfirst,
    dottedParts_append_feed]

theorem exponent_append_feed : exponent (xs ++ '\n' :: cs) = exponent xs := by
  cases xs with
  | nil => rfl
  | cons x xs =>
    have hstarts : starts (fun c => c == '+' || c == '-') (xs ++ '\n' :: cs) =
        starts (fun c => c == '+' || c == '-') xs := starts_append_feed rfl
    simp only [List.cons_append, exponent, hstarts]
    generalize hk : (if starts (fun c => c == '+' || c == '-') xs = true then 1 else 0) = k
    have hsign : k ≤ xs.length := by
      rw [← hk]
      cases xs with
      | nil => simp [starts]
      | cons y ys => split <;> simp
    rw [List.drop_append_of_le_length hsign, run_append_feed (by decide)]

theorem closedNumber_append_feed {kind : TokenKind} {n : Nat} (hn : n ≤ xs.length) :
    closedNumber kind (xs ++ '\n' :: cs) n = closedNumber kind xs n := by
  simp only [closedNumber, List.drop_append_of_le_length hn]
  rw [run_append_feed (by decide)]

theorem exponent_le : exponent xs ≤ xs.length := by
  cases xs with
  | nil => exact Nat.le_refl _
  | cons x xs =>
    simp only [exponent]
    generalize hk : (if starts (fun c => c == '+' || c == '-') xs = true then 1 else 0) = k
    have hrun : run isDigit (xs.drop k) ≤ (xs.drop k).length := run_le_length
    rw [List.length_drop] at hrun
    rw [List.length_cons]
    split
    · split
      · exact Nat.zero_le _
      · omega
    · exact Nat.zero_le _

theorem number_append_feed : number (xs ++ '\n' :: cs) = number xs := by
  have hhex : run isHexDigit (xs ++ '\n' :: cs) = run isHexDigit xs := run_append_feed (by decide)
  have hle : run isHexDigit xs ≤ xs.length := run_le_length
  have hmark : ∀ x ≠ '\n', ['0', x].isPrefixOf (xs ++ '\n' :: cs) = ['0', x].isPrefixOf xs :=
    fun x hx => isPrefixOf_append_cons (by simp [hx.symm])
  simp only [number, hmark 'x' (by decide), hmark 'X' (by decide), hhex,
    List.drop_append_of_le_length hle, List.take_append_of_le_length hle]
  split
  next hprefix =>
    have htwo : 2 ≤ xs.length := by
      simp only [Bool.or_eq_true, List.isPrefixOf_iff_prefix] at hprefix
      rcases hprefix with h | h <;> exact h.length_le
    have hdigits : run isHexDigit (xs.drop 2) ≤ (xs.drop 2).length := run_le_length
    rw [List.length_drop] at hdigits
    rw [List.drop_append_of_le_length htwo, run_append_feed (by decide),
      List.drop_append_of_le_length (by omega), starts_append_feed (by decide)]
  next =>
    have hdrop : (xs.drop (run isHexDigit xs)).length = xs.length - run isHexDigit xs :=
      List.length_drop
    generalize run isHexDigit xs = n at hle hdrop ⊢
    generalize hrest : xs.drop n = rest at hdrop ⊢
    cases rest with
    | nil =>
      -- The digits end the line, so the number ends with them.
      have hclosed : closedNumber .int (xs ++ '\n' :: cs) n = ⟨.int, n, none⟩ := by
        rw [closedNumber_append_feed hle, closedNumber, hrest]
        rfl
      have hletters : run continuesName ('\n' :: cs) = 0 := rfl
      cases hall : (xs.take n).all isDigit <;> simp [hclosed, hletters]
    | cons mark after =>
      rw [List.length_cons] at hdrop
      have hdigits : run isDigit after ≤ after.length := run_le_length
      have hmantissa : n + 1 + run isDigit after ≤ xs.length := by omega
      have hexp : exponent (xs.drop (n + 1 + run isDigit after)) ≤ _ := exponent_le
      rw [List.length_drop] at hexp
      have hletters : run continuesName (mark :: (after ++ '\n' :: cs)) =
          run continuesName (mark :: after) := by
        rw [← List.cons_append, run_append_feed (by decide)]
      simp only [List.cons_append, starts_append_feed (p := continuesName) (by decide), hletters,
        starts_append_feed (p := isDigit) (by decide), run_append_feed (p := isDigit) (by decide),
        List.drop_append_of_le_length hmantissa, exponent_append_feed]
      rw [closedNumber_append_feed hle, closedNumber_append_feed (by omega)]

theorem stringRest_append_feed {quote : Char} (hquote : quote ≠ '\\') :
    stringRest quote (xs ++ '\n' :: cs) = stringRest quote xs := by
  fun_induction stringRest quote xs with
  | case1 | case2 | case3 => simp [stringRest]
  | case4 c xs hc m closed heq ih => simp [stringRest, hc, ih, heq]
  | case5 xs hnl hescape => simp_all [stringRest]
  | case6 c xs hnl hescape hc m closed heq ih =>
    by_cases hback : c = '\\'
    · -- A backslash at the end of the line takes nothing along.
      obtain rfl : xs = [] := by
        cases xs with
        | nil => rfl
        | cons x xs => exact (hescape x xs hback rfl).elim
      subst hback
      simp_all [stringRest]
    · simp_all [stringRest]

/-- A sign has two characters at most. -/
theorem sign_append_pair (x y : Char) (xs : List Char) : sign (x :: y :: xs) = sign [x, y] := by
  by_cases hx : x ∈ [':', '-', '<', '>']
  · simp only [List.mem_cons, List.not_mem_nil, or_false] at hx
    rcases hx with rfl | rfl | rfl | rfl
    · by_cases hy : y = '=' <;> simp [sign, hy]
    · by_cases hy : y = '>' <;> simp [sign, hy]
    · by_cases hy : y = '=' <;> simp [sign, hy]
    · by_cases hy : y = '=' <;> simp [sign, hy]
  · simp only [List.mem_cons, List.not_mem_nil, or_false, not_or] at hx
    unfold sign
    split <;> simp_all

theorem sign_append_feed : sign (xs ++ '\n' :: cs) = sign xs := by
  rcases xs with _ | ⟨x, _ | ⟨y, xs⟩⟩
  · rfl
  · rw [List.cons_append, List.nil_append, sign_append_pair]
    unfold sign
    split <;> simp_all
  · rw [List.cons_append, List.cons_append, sign_append_pair, sign_append_pair x y xs]

/-! ### Lexemes -/

/-- **What stands behind its line does not change a lexeme.** -/
theorem lexeme_append_feed (first : Char) : lexeme first (xs ++ '\n' :: cs) = lexeme first xs := by
  have hname : name (first :: xs ++ '\n' :: cs) = name (first :: xs) :=
    name_append_feed (List.cons_ne_nil first xs)
  have hnumber : number (first :: xs ++ '\n' :: cs) = number (first :: xs) := number_append_feed
  have hdotted : dottedOperator (first :: xs ++ '\n' :: cs) = dottedOperator (first :: xs) :=
    dottedOperator_append_feed
  have hsign : sign (first :: xs ++ '\n' :: cs) = sign (first :: xs) := sign_append_feed
  rw [List.cons_append] at hname hnumber hdotted hsign
  simp only [lexeme, operator, hname, hnumber, hdotted, hsign,
    starts_append_feed (p := continuesName) (by decide)]
  split
  next hquote =>
    have hback : first ≠ '\\' := by
      rintro rfl
      cases hquote
    rw [string, string, stringRest_append_feed hback]
  next => rfl

theorem stringRest_le (quote : Char) : (stringRest quote xs).1 ≤ xs.length := by
  fun_induction stringRest quote xs with
  | case1 | case2 | case3 | case5 => simp
  | case4 c xs hc n closed heq ih | case6 c xs _ _ _ n closed heq ih =>
    simp only [heq, List.length_cons] at ih ⊢
    omega

theorem closedNumber_length_le {kind : TokenKind} {n : Nat} (hn : n ≤ xs.length) :
    (closedNumber kind xs n).length ≤ xs.length := by
  have hrun : run continuesName (xs.drop n) ≤ (xs.drop n).length := run_le_length
  rw [List.length_drop] at hrun
  simp only [closedNumber, badNumber]
  split
  · exact hn
  · change n + _ ≤ _
    omega

theorem number_length_le : (number xs).length ≤ xs.length := by
  have hhex : run isHexDigit xs ≤ xs.length := run_le_length
  simp only [number]
  split
  next hprefix =>
    have htwo : 2 ≤ xs.length := by
      simp only [Bool.or_eq_true, List.isPrefixOf_iff_prefix] at hprefix
      rcases hprefix with h | h <;> exact h.length_le
    have hdigits : run isHexDigit (xs.drop 2) ≤ (xs.drop 2).length := run_le_length
    rw [List.length_drop] at hdigits
    split <;> simp only [badNumber] <;> omega
  next =>
    generalize run isHexDigit xs = n at hhex ⊢
    have hdrop : (xs.drop n).length = xs.length - n := List.length_drop
    split
    next mark after hrest =>
      rw [hrest, List.length_cons] at hdrop
      have hletters : run continuesName (mark :: after) ≤ (mark :: after).length := run_le_length
      rw [List.length_cons] at hletters
      have hdigits : run isDigit after ≤ after.length := run_le_length
      have hexp : exponent (xs.drop (n + 1 + run isDigit after)) ≤ _ := exponent_le
      rw [List.length_drop] at hexp
      split
      · change n + 1 ≤ _
        omega
      split
      · change n + _ ≤ _
        omega
      split
      · exact closedNumber_length_le (by omega)
      · exact closedNumber_length_le hhex
    next => split <;> exact hhex

theorem sign_length_le {s : Sign} {n : Nat} (h : sign xs = some (s, n)) : n ≤ xs.length := by
  unfold sign at h
  split at h <;> cases h <;> simp

theorem operator_length_le (first : Char) : (operator first xs).length ≤ xs.length + 1 := by
  simp only [operator]
  split
  next s hs =>
    have hprefix := List.find?_some hs
    rw [List.isPrefixOf_iff_prefix] at hprefix
    have hle := hprefix.length_le
    rw [String.length_toList, List.length_map, List.length_take, List.length_cons] at hle
    exact hle.trans (Nat.min_le_right _ _)
  next =>
    split
    next s n hs => exact sign_length_le hs
    next => exact Nat.le_add_left _ _

/-- **A lexeme is not longer than its text.** -/
theorem lexeme_length_le (first : Char) (xs : List Char) :
    (lexeme first xs).length ≤ xs.length + 1 := by
  have hname := name_length_le (List.cons_ne_nil first xs)
  have hnumber : (number (first :: xs)).length ≤ xs.length + 1 := number_length_le
  have hrest : (stringRest first xs).1 ≤ xs.length := stringRest_le first
  simp only [lexeme]
  split
  · simp only [string]
    split
    next heq => exact Nat.succ_le_succ (by simpa [heq] using hrest)
    next heq => exact Nat.succ_le_succ (by simpa [heq] using hrest)
  split
  · exact hnumber
  split
  · exact hname
  split
  · exact hname
  · exact operator_length_le first

end FlatScript.Scan
