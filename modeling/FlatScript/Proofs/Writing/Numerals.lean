import FlatScript.Proofs.Writing.Numbers

/-!
# How numbers are written

A number is whole, hexadecimal or real, and a hexadecimal number has its mark in front of its
digits or behind them. Which of them a text starts with is found out by looking ahead: at the
letter behind the digits, at the character behind that letter, at the digit behind a point.
`FlatScript.Scan.Numeral` says how each of them is written, without looking at anything else.

* `FlatScript.Scan.numeral_of_number`: what is scanned as a number without a fault is written
  in one of these ways.
* `FlatScript.Scan.Numeral.spells`: what is written so is scanned as that number in front of
  every boundary.
-/

namespace FlatScript.Scan

/-- **The power of ten behind a real number**: nothing, or a mark and digits, with a sign between
them or without. -/
inductive IsPower : List Char → Prop
  | none : IsPower []
  | some {mark : Char} {sign digits : List Char} (hmark : mark ∈ ['e', 'E'])
    (hsign : sign ∈ [[], ['+'], ['-']]) (hdigits : ∀ d ∈ digits, isDigit d = true)
    (hne : digits ≠ []) : IsPower (mark :: (sign ++ digits))

/-- **How a number is written.** -/
inductive Numeral : TokenKind → List Char → Prop
  /-- A whole number. -/
  | int {ds : List Char} (hds : ∀ d ∈ ds, isDigit d = true) (hne : ds ≠ []) : Numeral .int ds
  /-- A hexadecimal number with its mark behind a zero in front. -/
  | marked {mark : Char} {ds : List Char} (hmark : mark ∈ ['x', 'X'])
    (hds : ∀ d ∈ ds, isHexDigit d = true) (hne : ds ≠ []) : Numeral .hex ('0' :: mark :: ds)
  /-- A hexadecimal number with its mark at the end; its first digit is no letter. -/
  | closed {mark : Char} {ds : List Char} (hds : ∀ d ∈ ds, isHexDigit d = true)
    (hfirst : starts isDigit ds = true) (hmark : mark ∈ ['h', 'H']) : Numeral .hex (ds ++ [mark])
  /-- A real number. -/
  | real {ds es power : List Char} (hds : ∀ d ∈ ds, isDigit d = true) (hne : ds ≠ [])
    (hes : ∀ e ∈ es, isDigit e = true) (hne' : es ≠ []) (hpower : IsPower power) :
    Numeral .real (ds ++ '.' :: (es ++ power))

variable {cs ds : List Char} {kind : TokenKind}

/-- The run at the front of a text, and what stands behind it. -/
theorem exists_run (p : Char → Bool) (cs : List Char) :
    ∃ ds rest, cs = ds ++ rest ∧ run p cs = ds.length ∧ (∀ d ∈ ds, p d = true) ∧
      ∀ c ∈ rest.head?, p c = false := by
  refine ⟨cs.takeWhile p, cs.dropWhile p, List.takeWhile_append_dropWhile.symm, rfl,
    fun d hd => List.mem_takeWhile_imp hd, fun c hc => ?_⟩
  have h := List.head?_dropWhile_not p cs
  rw [Option.mem_def.mp hc] at h
  simpa using h

/-! ### Powers of ten -/

/-- What is read as a power of ten is one. -/
theorem isPower_exponent (cs : List Char) : IsPower (cs.take (exponent cs)) := by
  cases cs with
  | nil => exact .none
  | cons mark cs =>
    simp only [exponent]
    split
    next hmark =>
      obtain ⟨sign, rest, rfl, hsign, hlength⟩ : ∃ sign rest, cs = sign ++ rest ∧
          sign ∈ [[], ['+'], ['-']] ∧
          (if starts (fun c => c == '+' || c == '-') cs = true then 1 else 0) = sign.length := by
        by_cases h : starts (fun c => c == '+' || c == '-') cs = true
        · rw [if_pos h]
          cases cs with
          | nil => cases h
          | cons c rest => exact ⟨[c], rest, rfl, by simpa [starts] using h, rfl⟩
        · rw [if_neg h]
          exact ⟨[], cs, rfl, by simp, rfl⟩
      rw [hlength, List.drop_left]
      obtain ⟨ds, rest, rfl, hrun, hds, -⟩ := exists_run isDigit rest
      rw [hrun]
      split
      · exact .none
      next hdigits =>
        have htake : (mark :: (sign ++ (ds ++ rest))).take (1 + sign.length + ds.length) =
            mark :: (sign ++ ds) := by
          rw [show 1 + sign.length + ds.length = (sign ++ ds).length + 1 by simp; omega,
            List.take_succ_cons, ← List.append_assoc, List.take_left]
        rw [htake]
        exact .some (by simpa using hmark) hsign hds (by simpa using hdigits)
    next => exact .none

/-- A power of ten in front of a boundary. -/
theorem IsPower.exponent_append {power : List Char} (h : IsPower power) (hcs : Boundary cs) :
    exponent (power ++ cs) = power.length := by
  cases h with
  | none => exact hcs.exponent
  | @some mark sign digits hmark hsign hdigits hne =>
    have hmark' : (mark == 'e' || mark == 'E') = true := by simpa using hmark
    have hsign' : (if starts (fun c => c == '+' || c == '-') (sign ++ (digits ++ cs)) = true
        then 1 else 0) = sign.length := by
      simp only [List.mem_cons, List.not_mem_nil, or_false] at hsign
      rcases hsign with rfl | rfl | rfl
      · -- a digit is no sign
        obtain ⟨d, ds, rfl⟩ := List.exists_cons_of_ne_nil hne
        have hd : d ∉ ['+', '-'] := notMem_of_class (hdigits d (by simp)) (by decide)
        simp only [List.mem_cons, List.not_mem_nil, or_false, not_or] at hd
        simp [starts, hd.1, hd.2]
      · rfl
      · rfl
    have hrun : run isDigit (digits ++ cs) = digits.length := by
      rw [run_append_of_all hdigits, run_eq_zero hcs.not_digit]
      rfl
    have hpos : digits.length ≠ 0 := by simpa using hne
    rw [List.cons_append, List.append_assoc, exponent]
    simp only [hmark', if_true, hsign', List.drop_left, hrun, if_neg hpos, List.length_cons,
      List.length_append]
    omega

theorem IsPower.not_digit {power : List Char} (h : IsPower power) (hcs : Boundary cs) :
    ∀ c ∈ (power ++ cs).head?, isDigit c = false := by
  cases h with
  | none => exact hcs.not_digit
  | some hmark =>
    rintro c ⟨⟩
    simp only [List.mem_cons, List.not_mem_nil, or_false] at hmark
    rcases hmark with rfl | rfl <;> rfl

/-! ### Numbers -/

/-- Whether a text has the mark of a hexadecimal number behind a zero. -/
def isMarked (cs : List Char) : Bool := ['0', 'x'].isPrefixOf cs || ['0', 'X'].isPrefixOf cs

theorem isMarked_iff : isMarked cs = true ↔ ∃ mark ∈ ['x', 'X'], ∃ rest, cs = '0' :: mark :: rest := by
  simp only [isMarked, Bool.or_eq_true, List.isPrefixOf_iff_prefix, List.prefix_iff_eq_append]
  constructor
  · rintro (h | h)
    · exact ⟨'x', by simp, _, h.symm⟩
    · exact ⟨'X', by simp, _, h.symm⟩
  · rintro ⟨mark, hmark, rest, rfl⟩
    simp only [List.mem_cons, List.not_mem_nil, or_false] at hmark
    exact hmark.imp (by rintro rfl; rfl) (by rintro rfl; rfl)

/-- A number with its mark behind a zero is told by its digits. -/
theorem number_marked {mark : Char} (hmark : mark ∈ ['x', 'X']) (cs : List Char) :
    number ('0' :: mark :: cs) =
      if run isHexDigit cs = 0 || starts continuesName (cs.drop (run isHexDigit cs)) then
        badNumber "malformed hexadecimal literal" (2 + run isHexDigit cs)
      else ⟨.hex, 2 + run isHexDigit cs, none⟩ := by
  have hmarked : isMarked ('0' :: mark :: cs) = true := isMarked_iff.mpr ⟨mark, hmark, cs, rfl⟩
  have hdrop : ∀ n, ('0' :: mark :: cs).drop (2 + n) = cs.drop n := fun n => by
    rw [Nat.add_comm]
    rfl
  rw [isMarked] at hmarked
  simp only [number, hmarked, if_true, hdrop, List.drop_succ_cons, List.drop_zero]

/-- **Any other number is told by the character behind its digits.** -/
theorem number_unmarked {mark : Char} {after : List Char}
    (hmarked : isMarked (ds ++ mark :: after) = false) (hds : ∀ d ∈ ds, isHexDigit d = true)
    (hmark : isHexDigit mark = false) :
    number (ds ++ mark :: after) =
      if (mark == 'h' || mark == 'H') && !starts continuesName after then
        ⟨.hex, ds.length + 1, none⟩
      else if !ds.all isDigit then
        badNumber "unexpected letters in number" (ds.length + run continuesName (mark :: after))
      else if mark == '.' && starts isDigit after then
        closedNumber .real (ds ++ mark :: after) (ds.length + 1 + run isDigit after +
          exponent ((ds ++ mark :: after).drop (ds.length + 1 + run isDigit after)))
      else closedNumber .int (ds ++ mark :: after) ds.length := by
  have hrun : run isHexDigit (ds ++ mark :: after) = ds.length := by
    rw [run_append_of_all hds, run_eq_zero (by simpa using hmark)]
    rfl
  rw [isMarked] at hmarked
  simp only [number, hmarked, hrun, List.drop_left, List.take_left, Bool.false_eq_true, if_false]

theorem closedNumber_eq {n : Nat} (h : (closedNumber kind cs n).fault = none) :
    closedNumber kind cs n = ⟨kind, n, none⟩ := by
  simp only [closedNumber] at h ⊢
  split at h
  next hstuck => exact if_pos hstuck
  next => cases h

/-! ### How what is scanned as a number is written -/

section Written

variable {mark : Char} {after : List Char}

/-- With a mark behind a zero. -/
theorem numeral_of_marked (hmark : mark ∈ ['x', 'X'])
    (h : (number ('0' :: mark :: cs)).fault = none) :
    Numeral (number ('0' :: mark :: cs)).kind
      (('0' :: mark :: cs).take (number ('0' :: mark :: cs)).length) := by
  obtain ⟨ds, rest, rfl, hrun, hds, -⟩ := exists_run isHexDigit cs
  rw [number_marked hmark, hrun] at h ⊢
  split at h
  · cases h
  next hdigits =>
    rw [if_neg hdigits]
    simp only [Bool.or_eq_true, decide_eq_true_eq, not_or] at hdigits
    have htake : ('0' :: mark :: (ds ++ rest)).take (2 + ds.length) = '0' :: mark :: ds := by
      rw [Nat.add_comm, List.take_succ_cons, List.take_succ_cons, List.take_left]
    rw [htake]
    exact .marked hmark hds fun hnil => hdigits.1 (by rw [hnil]; rfl)

/-- With nothing behind the digits. -/
theorem numeral_of_digits (hmarked : isMarked ds = false) (hds : ∀ d ∈ ds, isHexDigit d = true)
    (hne : ds ≠ []) (h : (number ds).fault = none) :
    Numeral (number ds).kind (ds.take (number ds).length) := by
  have hrun : run isHexDigit ds = ds.length := by
    rw [← List.append_nil ds, run_append_of_all hds, List.append_nil, run, List.takeWhile_nil,
      List.length_nil, Nat.add_zero]
  rw [isMarked] at hmarked
  simp only [number, hmarked, hrun, Bool.false_eq_true, if_false, List.drop_length,
    List.take_length] at h ⊢
  split at h
  next hall =>
    rw [if_pos hall, List.take_length]
    exact .int (List.all_eq_true.mp hall) hne
  next => cases h

/-- With a point behind the digits, and a digit behind the point. -/
theorem numeral_of_point (hdigits : ∀ d ∈ ds, isDigit d = true) (hne : ds ≠ [])
    (hstarts : starts isDigit after = true) :
    Numeral .real ((ds ++ '.' :: after).take (ds.length + 1 + run isDigit after +
      exponent ((ds ++ '.' :: after).drop (ds.length + 1 + run isDigit after)))) := by
  have hpos := run_pos hstarts
  obtain ⟨es, rest, rfl, hrun, hes, -⟩ := exists_run isDigit after
  have hdrop : (ds ++ '.' :: (es ++ rest)).drop (ds.length + 1 + es.length) = rest := by
    simp [← List.drop_drop, Nat.add_assoc]
  have htake : (ds ++ '.' :: (es ++ rest)).take (ds.length + 1 + es.length + exponent rest) =
      ds ++ '.' :: (es ++ rest.take (exponent rest)) := by
    rw [Nat.add_assoc, Nat.add_assoc, List.take_length_add_append, Nat.add_comm 1,
      List.take_succ_cons, List.take_length_add_append]
  rw [hrun] at hpos
  rw [hrun, hdrop, htake]
  exact .real hdigits hne hes (List.length_pos_iff.mp hpos) (isPower_exponent rest)

/-- With any character behind the digits. -/
theorem numeral_of_unmarked (hmarked : isMarked (ds ++ mark :: after) = false)
    (hds : ∀ d ∈ ds, isHexDigit d = true) (hmark : isHexDigit mark = false) (hne : ds ≠ [])
    (hfirst : starts isDigit ds = true) (h : (number (ds ++ mark :: after)).fault = none) :
    Numeral (number (ds ++ mark :: after)).kind
      ((ds ++ mark :: after).take (number (ds ++ mark :: after)).length) := by
  rw [number_unmarked hmarked hds hmark] at h ⊢
  by_cases hclosed : ((mark == 'h' || mark == 'H') && !starts continuesName after) = true
  · have htake : (ds ++ mark :: after).take (ds.length + 1) = ds ++ [mark] := by
      rw [List.take_length_add_append]
      rfl
    rw [if_pos hclosed, htake]
    rw [Bool.and_eq_true] at hclosed
    exact .closed hds hfirst (by simpa using hclosed.1)
  rw [if_neg hclosed] at h ⊢
  by_cases hall : ds.all isDigit = true
  · have hdigits := List.all_eq_true.mp hall
    simp only [hall, Bool.not_true, Bool.false_eq_true, if_false] at h ⊢
    by_cases hpoint : (mark == '.' && starts isDigit after) = true
    · rw [if_pos hpoint] at h ⊢
      rw [closedNumber_eq h]
      rw [Bool.and_eq_true, beq_iff_eq] at hpoint
      obtain ⟨rfl, hstarts⟩ := hpoint
      exact numeral_of_point hdigits hne hstarts
    · rw [if_neg hpoint] at h ⊢
      rw [closedNumber_eq h, List.take_left]
      exact .int hdigits hne
  · rw [if_pos (by simpa using hall)] at h
    cases h

/-- **What is scanned as a number without a fault is written as one.** -/
theorem numeral_of_number (hfirst : starts isDigit cs = true) (h : (number cs).fault = none) :
    Numeral (number cs).kind (cs.take (number cs).length) := by
  by_cases hmarked : isMarked cs = true
  · obtain ⟨mark, hmark, rest, rfl⟩ := isMarked_iff.mp hmarked
    exact numeral_of_marked hmark h
  rw [Bool.not_eq_true] at hmarked
  obtain ⟨ds, rest, rfl, -, hds, hrest⟩ := exists_run isHexDigit cs
  have hne : ds ≠ [] := by
    rintro rfl
    cases rest with
    | nil => cases hfirst
    | cons c rest =>
      have hhex := isDigit_hex (show isDigit c = true from hfirst)
      rw [hrest c rfl] at hhex
      cases hhex
  rw [starts_append hne] at hfirst
  cases rest with
  | nil =>
    rw [List.append_nil] at hmarked h ⊢
    exact numeral_of_digits hmarked hds hne h
  | cons mark after => exact numeral_of_unmarked hmarked hds (hrest mark rfl) hne hfirst h

end Written

/-- **What is written as a number is scanned as it**, in front of a boundary. -/
theorem Numeral.spells {piece : List Char} (h : Numeral kind piece) (hcs : Boundary cs) :
    Spells piece kind cs := by
  cases h with
  | int hds hne => exact spells_int hds hne hcs
  | @marked mark ds hmark hds hne =>
    refine spells_number ⟨_, _, rfl, rfl⟩ ?_
    have hrun : run isHexDigit (ds ++ cs) = ds.length := by
      rw [run_append_of_all hds, run_eq_zero hcs.not_hex]
      rfl
    have hpos : ds.length ≠ 0 := by simpa using hne
    rw [List.cons_append, List.cons_append, number_marked hmark, hrun, List.drop_left, hcs.starts]
    simp [hpos]
    omega
  | @closed mark ds hds hfirst hmark =>
    obtain ⟨d, rest, rfl⟩ : ∃ d rest, ds = d :: rest := by
      cases ds with
      | nil => cases hfirst
      | cons d rest => exact ⟨d, rest, rfl⟩
    refine spells_number ⟨d, rest ++ [mark], rfl, hfirst⟩ ?_
    have hmark' : (mark == 'h' || mark == 'H') = true := by simpa using hmark
    have hhex : isHexDigit mark = false := by
      simp only [List.mem_cons, List.not_mem_nil, or_false] at hmark
      rcases hmark with rfl | rfl <;> rfl
    have hmarked : isMarked (d :: rest ++ mark :: cs) = false := by
      rw [← Bool.not_eq_true, isMarked_iff]
      rintro ⟨x, hx, after, heq⟩
      -- The second character is a digit or the mark at the end, and so no mark behind a zero.
      have hsecond : isHexDigit x = true ∨ x = mark := by
        cases rest with
        | nil =>
          cases heq
          exact .inr rfl
        | cons e rest =>
          cases heq
          exact .inl (hds _ (by simp))
      simp only [List.mem_cons, List.not_mem_nil, or_false] at hx hmark
      rcases hsecond with hsecond | rfl
      · rcases hx with rfl | rfl <;> cases hsecond
      · rcases hx with rfl | rfl <;> simp at hmark
    rw [List.append_assoc, List.singleton_append, number_unmarked hmarked hds hhex, hmark',
      hcs.starts]
    simp
  | real hds hne hes hne' hpower =>
    exact spells_real_power hds hne hes hne' (hpower.exponent_append hcs) (hpower.not_digit hcs) hcs

end FlatScript.Scan
