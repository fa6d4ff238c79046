import FlatScript.Printer
import FlatScript.Proofs.Writing.Tokens
import Mathlib.Tactic.Ring

/-!
# Numbers in print

How numbers are scanned where they are written, and what the literals are worth that they are
written as.

* `FlatScript.Scan.spells_int` and `FlatScript.Scan.spells_real`: digits, with a point or
  without, are one word up to a boundary.
* `FlatScript.literalValue_repr`: the digits of a whole number are worth that number.
* `FlatScript.Decimal.exists_literal`: a real number is written as a literal of the same value,
  behind a minus when it is negative.
-/

namespace FlatScript

namespace Scan

variable {ds es cs : List Char}

/-! ### Digits as words -/

theorem isHexDigit_continues {c : Char} (h : isHexDigit c = true) : continuesName c = true := by
  simp only [isHexDigit, continuesName, Bool.or_eq_true, Bool.and_eq_true, decide_eq_true_eq] at h ⊢
  rw [startsName_iff]
  rcases h with (h | h) | h
  · exact .inr h
  · exact .inl (.inr (.inl ⟨h.1, Nat.le_trans (m := 102) h.2 (by decide)⟩))
  · exact .inl (.inr (.inr ⟨h.1, Nat.le_trans (m := 70) h.2 (by decide)⟩))

theorem isDigit_hex {c : Char} (h : isDigit c = true) : isHexDigit c = true := by
  simp [isHexDigit, h]

theorem run_append_of_all {p : Char → Bool} (hds : ∀ d ∈ ds, p d = true) :
    run p (ds ++ cs) = ds.length + run p cs := by
  induction ds with
  | nil => simp
  | cons d ds ih =>
    have := ih fun x hx => hds x (by simp [hx])
    simp only [run] at this
    simp [run, hds d (by simp), this]
    omega

theorem not_hexMark (hds : ∀ d ∈ ds, isDigit d = true) (hne : ds ≠ [])
    (hcs : ∀ c ∈ cs.head?, continuesName c = false) (mark : Char)
    (hmark : continuesName mark = true) (hdigit : isDigit mark = false) :
    ['0', mark].isPrefixOf (ds ++ cs) = false := by
  obtain ⟨d, ds, rfl⟩ := List.exists_cons_of_ne_nil hne
  cases ds with
  | nil =>
    cases cs with
    | nil => simp [List.isPrefixOf]
    | cons c cs =>
      have hc : mark ≠ c := by
        rintro rfl
        rw [hcs mark rfl] at hmark
        cases hmark
      simp [List.isPrefixOf, hc]
  | cons e ds =>
    have he : mark ≠ e := by
      rintro rfl
      rw [hds mark (by simp)] at hdigit
      cases hdigit
    simp [List.isPrefixOf, he]

/-- A number starts with a digit, which starts no gap. -/
theorem spells_number {kind : TokenKind} {piece : List Char}
    (hhead : ∃ d rest, piece = d :: rest ∧ isDigit d = true)
    (h : number (piece ++ cs) = ⟨kind, piece.length, none⟩) : Spells piece kind cs := by
  obtain ⟨d, rest, rfl, hd⟩ := hhead
  have hmem : d ∉ gapStarts ++ ['"', '\'', '\n'] := notMem_of_class hd (by decide)
  simp only [List.mem_append, List.mem_cons, List.not_mem_nil, or_false, not_or] at hmem
  refine ⟨gap_eq_zero hmem.1, d, rest, rfl, hmem.2.2.2, ?_⟩
  simpa [lexeme, hmem.2.1, hmem.2.2.1, hd] using h

theorem Boundary.not_name (hcs : Boundary cs) : ∀ c ∈ cs.head?, continuesName c = false :=
  fun c hc => (hcs c hc).1

theorem Boundary.not_hex (hcs : Boundary cs) : ∀ c ∈ cs.head?, isHexDigit c = false := by
  intro c hc
  by_contra h
  have := isHexDigit_continues (by simpa using h)
  rw [(hcs c hc).1] at this
  cases this

/-- **Digits in front of a boundary** are a whole number. -/
theorem spells_int (hds : ∀ d ∈ ds, isDigit d = true) (hne : ds ≠ []) (hcs : Boundary cs) :
    Spells ds .int cs := by
  obtain ⟨d, rest, hd⟩ := List.exists_cons_of_ne_nil hne
  refine spells_number ⟨d, rest, hd, hds d (by simp [hd])⟩ ?_
  have hrun : run isHexDigit (ds ++ cs) = ds.length := by
    rw [run_append_of_all fun x hx => isDigit_hex (hds x hx), run_eq_zero hcs.not_hex]
    rfl
  have hall : ds.all isDigit = true := List.all_eq_true.mpr hds
  simp only [number, not_hexMark hds hne hcs.not_name 'x' (by decide) (by decide),
    not_hexMark hds hne hcs.not_name 'X' (by decide) (by decide), Bool.or_self,
    Bool.false_eq_true, if_false, hrun, List.drop_left, List.take_left, hall, if_true, Bool.not_true]
  cases cs with
  | nil => rfl
  | cons c cs =>
    have hc := boundary_cons.mp hcs
    have hmark : (c == 'h' || c == 'H') = false := by
      have hnot : c ∉ ['h', 'H'] :=
        notMem_of_class (p := fun c => !continuesName c) (by simp [hc.1]) (by decide)
      simpa using hnot
    simp [hmark, hc.2, closedNumber, hcs.run]

/-- No power of ten is read from a boundary. -/
theorem Boundary.exponent (hcs : Boundary cs) : Scan.exponent cs = 0 := by
  cases cs with
  | nil => rfl
  | cons c cs =>
    have hnot : c ∉ ['e', 'E'] :=
      notMem_of_class (p := fun c => !continuesName c) (by simp [(hcs c rfl).1]) (by decide)
    simp only [List.mem_cons, List.not_mem_nil, or_false, not_or] at hnot
    simp [Scan.exponent, hnot.1, hnot.2]

theorem Boundary.not_digit (hcs : Boundary cs) : ∀ c ∈ cs.head?, isDigit c = false := by
  intro c hc
  have hname := (hcs c hc).1
  simp only [continuesName, Bool.or_eq_false_iff] at hname
  exact hname.2

/-- **Digits with a point among them and a power of ten behind them**, in front of a boundary, are a
real number. -/
theorem spells_real_power (hds : ∀ d ∈ ds, isDigit d = true) (hne : ds ≠ [])
    (hes : ∀ e ∈ es, isDigit e = true) (hne' : es ≠ []) {power : List Char}
    (hpower : exponent (power ++ cs) = power.length)
    (hdigit : ∀ c ∈ (power ++ cs).head?, isDigit c = false) (hcs : Boundary cs) :
    Spells (ds ++ '.' :: (es ++ power)) .real cs := by
  obtain ⟨d, rest, hd⟩ := List.exists_cons_of_ne_nil hne
  refine spells_number ⟨d, rest ++ '.' :: (es ++ power), by simp [hd], hds d (by simp [hd])⟩ ?_
  rw [show ds ++ '.' :: (es ++ power) ++ cs = ds ++ '.' :: (es ++ (power ++ cs)) by simp]
  have hpoint : ∀ c ∈ ('.' :: (es ++ (power ++ cs))).head?, continuesName c = false := by
    rintro c ⟨⟩
    rfl
  have hrun : run isHexDigit (ds ++ '.' :: (es ++ (power ++ cs))) = ds.length := by
    rw [run_append_of_all fun x hx => isDigit_hex (hds x hx)]
    rfl
  have hall : ds.all isDigit = true := List.all_eq_true.mpr hds
  have hstart : starts isDigit (es ++ (power ++ cs)) = true := by
    obtain ⟨e, es, rfl⟩ := List.exists_cons_of_ne_nil hne'
    exact hes e (by simp)
  have hrun' : run isDigit (es ++ (power ++ cs)) = es.length := by
    rw [run_append_of_all hes, run_eq_zero hdigit]
    rfl
  have hdrop : (ds ++ '.' :: (es ++ (power ++ cs))).drop (ds.length + 1 + es.length) =
      power ++ cs := by
    rw [Nat.add_assoc, ← List.drop_drop, List.drop_left, Nat.add_comm 1, List.drop_succ_cons,
      List.drop_left]
  have hdrop' : (ds ++ '.' :: (es ++ (power ++ cs))).drop
      (ds.length + 1 + es.length + power.length) = cs := by
    rw [← List.drop_drop, hdrop, List.drop_left]
  simp [number, not_hexMark hds hne hpoint 'x' (by decide) (by decide),
    not_hexMark hds hne hpoint 'X' (by decide) (by decide), hrun, hall, hstart, hrun', hdrop,
    hdrop', hpower, closedNumber, hcs.run]
  omega

/-- **Digits with a point among them**, in front of a boundary, are a real number. -/
theorem spells_real (hds : ∀ d ∈ ds, isDigit d = true) (hne : ds ≠ [])
    (hes : ∀ e ∈ es, isDigit e = true) (hne' : es ≠ []) (hcs : Boundary cs) :
    Spells (ds ++ '.' :: es) .real cs := by
  have h : Spells (ds ++ '.' :: (es ++ [])) .real cs :=
    spells_real_power hds hne hes hne' hcs.exponent hcs.not_digit hcs
  rwa [List.append_nil] at h

/-- **The least integer, in front of a boundary**, is one word. -/
theorem spells_leastInt (hcs : Boundary cs) : Spells Printer.leastInt.toList .hex cs := by
  have htext : Printer.leastInt.toList = ['0', '8', '0', '0', '0', '0', '0', '0', '0', 'h'] := rfl
  rw [htext]
  refine spells_number ⟨_, _, rfl, by decide⟩ ?_
  have hrun : run isHexDigit (['0', '8', '0', '0', '0', '0', '0', '0', '0', 'h'] ++ cs) = 9 := rfl
  have hmark : (['0', 'x'].isPrefixOf (['0', '8', '0', '0', '0', '0', '0', '0', '0', 'h'] ++ cs) ||
      ['0', 'X'].isPrefixOf (['0', '8', '0', '0', '0', '0', '0', '0', '0', 'h'] ++ cs)) = false := rfl
  have hdrop : (['0', '8', '0', '0', '0', '0', '0', '0', '0', 'h'] ++ cs).drop 9 = 'h' :: cs := rfl
  simp only [number, hmark, hrun, hdrop, hcs.starts]
  rfl

end Scan

/-! ### What literals are worth -/

theorem toDigits_isDigit (n : Nat) : ∀ d ∈ Nat.toDigits 10 n, Scan.isDigit d = true := by
  intro d hd
  have h := Nat.isDigit_of_mem_toDigits (by decide) (by decide) hd
  rw [Scan.isDigit_iff]
  simpa [Char.isDigit, UInt32.le_iff_toNat_le] using h

theorem digitsValue_toDigits (n : Nat) : Decimal.digitsValue (Nat.toDigits 10 n) = n :=
  Nat.ofDigitChars_toDigits (by decide) (by decide)

/-- **A whole number is worth what its digits say.** -/
theorem literalValue_repr (n : Nat) :
    Parser.literalValue .int n.repr.toList = n := by
  rw [Nat.toList_repr]
  exact digitsValue_toDigits n

theorem literalValue_leastInt :
    Parser.literalValue .hex Printer.leastInt.toList = 2147483648 := by decide

/-! ### Real literals -/

namespace Decimal

variable {ds es : List Char}

theorem digitsValue_append :
    digitsValue (ds ++ es) = es.foldl (fun n c => 10 * n + digitValue c) (digitsValue ds) :=
  List.foldl_append

/-- More digits make a number larger. -/
theorem le_foldl_digits (n : Nat) (es : List Char) :
    n ≤ es.foldl (fun n c => 10 * n + digitValue c) n := by
  induction es generalizing n with
  | nil => rfl
  | cons e es ih =>
    rw [List.foldl_cons]
    exact le_trans (by omega) (ih (10 * n + digitValue e))

/-- Digits after the point that fit are all read. -/
theorem readFraction_eq {m k : Nat} (hscale : k + es.length ≤ maxScale)
    (hbound : es.foldl (fun n c => 10 * n + digitValue c) m < bound) :
    readFraction m k es = .ok (es.foldl (fun n c => 10 * n + digitValue c) m, k + es.length) := by
  induction es generalizing m k with
  | nil => rfl
  | cons e es ih =>
    rw [List.length_cons] at hscale
    rw [List.foldl_cons] at hbound
    have hnext : 10 * m + digitValue e < bound := lt_of_le_of_lt (le_foldl_digits _ es) hbound
    rw [readFraction, if_pos ⟨by omega, hnext⟩, ih (by omega) hbound, List.foldl_cons,
      List.length_cons, Nat.add_assoc, Nat.add_comm 1]

/-- **The value of digits with a point among them**, when they fit. -/
theorem ofDigits_eq (hscale : es.length ≤ maxScale) (hbound : digitsValue (ds ++ es) < bound) :
    ofDigits ds es = .ok ⟨false, digitsValue (ds ++ es), es.length, hbound, hscale⟩ := by
  have hbound' := hbound
  rw [digitsValue_append] at hbound'
  have hwhole : digitsValue ds < bound := lt_of_le_of_lt (le_foldl_digits _ es) hbound'
  have hread := readFraction_eq (k := 0) (by simpa using hscale) hbound'
  rw [← digitsValue_append, Nat.zero_add] at hread
  simp only [ofDigits, if_neg (Nat.not_le.mpr hwhole), hread, ofParts?]
  simp [bind, Except.bind, hbound, hscale]

/-- A literal without a power of ten. -/
theorem ofLiteral_eq (hds : ∀ d ∈ ds, Scan.isDigit d = true) (hes : ∀ e ∈ es, Scan.isDigit e = true) :
    ofLiteral (ds ++ '.' :: es) = ofDigits ds es := by
  have hmark : ∀ c ∈ ds ++ '.' :: es, (!isExponentMark c) = true := by
    have hdigit : ∀ c, Scan.isDigit c = true → (!isExponentMark c) = true := by
      intro c hc
      have hnot : c ∉ ['e', 'E'] := Scan.notMem_of_class hc (by decide)
      simpa [isExponentMark] using hnot
    intro c hc
    rcases List.mem_append.mp hc with hc | hc
    · exact hdigit c (hds c hc)
    · rcases List.mem_cons.mp hc with rfl | hc
      · rfl
      · exact hdigit c (hes c hc)
  have hpoint : ∀ d ∈ ds, decide (d ≠ '.') = true := by
    intro d hd
    have hnot : d ∉ ['.'] := Scan.notMem_of_class (hds d hd) (by decide)
    simpa using hnot
  have hwhole : (ds ++ '.' :: es).takeWhile (fun d => decide (d ≠ '.')) = ds := by
    rw [List.takeWhile_append_of_pos hpoint]
    simp
  have hrest : (ds ++ '.' :: es).dropWhile (fun d => decide (d ≠ '.')) = '.' :: es := by
    rw [List.dropWhile_append_of_pos hpoint]
    simp
  rw [ofLiteral, List.takeWhile_eq_self_iff.mpr hmark, List.dropWhile_eq_nil_iff.mpr hmark, hwhole,
    hrest]
  rfl

/-- A zero after the point, whether it is kept or not. -/
theorem ofDigits_zero {m : Nat} (hm : m < bound) (hds : digitsValue ds = m) :
    ∃ v : Decimal, ofDigits ds ['0'] = .ok v ∧ v.units = m * tenPow maxScale := by
  by_cases hbound : 10 * m < bound
  · have hvalue : digitsValue (ds ++ ['0']) = 10 * m := by
      rw [digitsValue_append, hds]
      rfl
    refine ⟨_, ofDigits_eq (by decide) (by rwa [hvalue]), ?_⟩
    have htens : (tenPow maxScale : Int) = 10 * tenPow (maxScale - 1) := rfl
    rw [htens]
    simp only [units, hvalue, List.length_singleton, Bool.false_eq_true, if_false]
    push_cast
    ring
  · have hread : readFraction m 0 ['0'] = .ok (m, 0) := by
      have hnext : ¬ 10 * m + digitValue '0' < bound := hbound
      rw [readFraction, if_neg fun h => hnext h.2]
      rfl
    refine ⟨⟨false, m, 0, hm, by decide⟩, ?_, rfl⟩
    simp only [ofDigits, hds, if_neg (Nat.not_le.mpr hm), hread, ofParts?]
    simp [bind, Except.bind, hm]

/-! ### Real numbers in print -/

theorem tenPow_pos (n : Nat) : 0 < tenPow n := by
  induction n with
  | zero => decide
  | succ n ih => rw [tenPow]; omega

theorem tenPow_add (m n : Nat) : tenPow (m + n) = tenPow m * tenPow n := by
  induction m with
  | zero => simp [tenPow]
  | succ m ih => rw [Nat.succ_add, tenPow, tenPow, ih, Nat.mul_assoc]

/-- What is left of a mantissa without its zeros. -/
theorem stripZeros_spec (m s : Nat) :
    (stripZeros m s).2 ≤ s ∧ (stripZeros m s).1 * tenPow (s - (stripZeros m s).2) = m := by
  induction s generalizing m with
  | zero => simp [stripZeros, tenPow]
  | succ s ih =>
    rw [stripZeros]
    split
    next h =>
      obtain ⟨hle, hvalue⟩ := ih (m / 10)
      refine ⟨by omega, ?_⟩
      rw [show s + 1 - (stripZeros (m / 10) s).2 = 1 + (s - (stripZeros (m / 10) s).2) by omega,
        tenPow_add, Nat.mul_left_comm, hvalue]
      change 10 * (m / 10) = m
      omega
    next => simp [tenPow]

/-- **Zeros at the end change no value.** -/
theorem normalize_units (d : Decimal) : d.normalize.units = d.units := by
  unfold normalize
  split
  next h =>
    have hzero : d.mantissa = 0 := by simpa [isZero] using h
    cases hneg : d.negative <;> simp [units, hzero, hneg, zero]
  next h =>
    obtain ⟨hle, hvalue⟩ := stripZeros_spec d.mantissa d.scale
    have hmantissa : (stripZeros d.mantissa d.scale).1 < bound := by
      refine lt_of_le_of_lt ?_ d.mantissa_lt
      calc (stripZeros d.mantissa d.scale).1
          ≤ (stripZeros d.mantissa d.scale).1 *
              tenPow (d.scale - (stripZeros d.mantissa d.scale).2) :=
            Nat.le_mul_of_pos_right _ (tenPow_pos _)
        _ = d.mantissa := hvalue
    have hscale := hle.trans d.scale_le
    have htens : tenPow (maxScale - (stripZeros d.mantissa d.scale).2) =
        tenPow (d.scale - (stripZeros d.mantissa d.scale).2) * tenPow (maxScale - d.scale) := by
      rw [← tenPow_add]
      congr 1
      have := d.scale_le
      omega
    have hunits : (stripZeros d.mantissa d.scale).1 *
        tenPow (maxScale - (stripZeros d.mantissa d.scale).2) =
          d.mantissa * tenPow (maxScale - d.scale) := by
      rw [htens, ← Nat.mul_assoc, hvalue]
    simp only [ofParts?, hmantissa, hscale, and_self, dif_pos, Option.getD_some, units]
    rw [← Int.natCast_mul, hunits, Int.natCast_mul]

theorem neg_units (d : Decimal) : d.neg.units = -d.units := by
  cases hneg : d.negative <;> simp [units, neg, hneg]

/-- **Without zeros at the end, the sign is that of the value.** -/
theorem normalize_negative (d : Decimal) : d.normalize.negative = true ↔ d.units < 0 := by
  unfold normalize
  split
  next h =>
    have hzero : d.mantissa = 0 := by simpa [isZero] using h
    cases hneg : d.negative <;> simp [units, hzero, hneg, zero]
  next h =>
    have hpos : 0 < d.mantissa := by
      rw [Nat.pos_iff_ne_zero]
      simpa [isZero] using h
    have hmagnitude : (0 : Int) < d.mantissa * tenPow (maxScale - d.scale) := by
      rw [← Int.natCast_mul]
      exact_mod_cast Nat.mul_pos hpos (tenPow_pos _)
    have hsign : ∀ m s, ((ofParts? d.negative m s).getD d).negative = d.negative := by
      intro m s
      unfold ofParts?
      split <;> rfl
    rw [hsign, units]
    cases hneg : d.negative
    · simp only [Bool.false_eq_true, if_false, false_iff]
      omega
    · simp only [if_true, true_iff]
      omega

/-- The digits of a decimal, at least one of them before the point. -/
def allDigits (d : Decimal) : List Char :=
  List.replicate (d.scale + 1 - (Nat.toDigits 10 d.mantissa).length) '0' ++
    Nat.toDigits 10 d.mantissa

theorem allDigits_isDigit (d : Decimal) : ∀ c ∈ d.allDigits, Scan.isDigit c = true := by
  intro c hc
  rcases List.mem_append.mp hc with hc | hc
  · rw [List.eq_of_mem_replicate hc]
    rfl
  · exact toDigits_isDigit _ c hc

theorem lt_length_allDigits (d : Decimal) : d.scale < d.allDigits.length := by
  rw [allDigits, List.length_append, List.length_replicate]
  omega

theorem digitsValue_allDigits (d : Decimal) : digitsValue d.allDigits = d.mantissa := by
  have hzeros : ∀ n, digitsValue (List.replicate n '0') = 0 := by
    intro n
    induction n with
    | zero => rfl
    | succ n ih =>
      rw [List.replicate_succ', digitsValue_append, ih]
      rfl
  rw [allDigits, digitsValue_append, hzeros]
  exact digitsValue_toDigits d.mantissa

theorem text_toList (d : Decimal) :
    d.text.toList = (if d.negative then ['-'] else []) ++
      if d.scale = 0 then d.allDigits
      else d.allDigits.take (d.allDigits.length - d.scale) ++
        '.' :: d.allDigits.drop (d.allDigits.length - d.scale) := by
  rw [text, String.toList_append, String.toList_ofList]
  congr 1
  · cases d.negative <;> rfl
  · change (if d.scale = 0 then d.allDigits.take (d.allDigits.length - d.scale) else _) = _
    by_cases hscale : d.scale = 0
    · simp [hscale]
    · simp only [if_neg hscale]
      rfl

/-- The text of a real number as a literal, and what it is worth. -/
structure IsLiteral (text : List Char) (v : Decimal) : Prop where
  digits : ∃ ds es, text = ds ++ '.' :: es ∧ ds ≠ [] ∧ es ≠ [] ∧
    (∀ d ∈ ds, Scan.isDigit d = true) ∧ ∀ e ∈ es, Scan.isDigit e = true
  value : ofLiteral text = .ok v

theorem isDigit_ne_point {c : Char} (h : Scan.isDigit c = true) : c ≠ '.' := by
  rintro rfl
  cases h

/-- A decimal without digits after the point gets one. -/
theorem isLiteral_of_scale_zero {d : Decimal} (h : d.scale = 0) :
    d.text.toList.contains '.' = false ∧
      ∃ v, IsLiteral (d.allDigits ++ ['.', '0']) v ∧ v.units = d.mantissa * tenPow maxScale := by
  constructor
  · rw [text_toList, if_pos h]
    simp only [List.contains_eq_mem, List.mem_append, decide_eq_false_iff_not, not_or]
    refine ⟨by cases d.negative <;> decide, fun hmem => ?_⟩
    exact isDigit_ne_point (allDigits_isDigit d _ hmem) rfl
  · obtain ⟨v, hv, hunits⟩ := ofDigits_zero d.mantissa_lt (digitsValue_allDigits d)
    have hzero : ∀ e ∈ ['0'], Scan.isDigit e = true := List.forall_mem_singleton.mpr rfl
    refine ⟨v, ⟨⟨d.allDigits, ['0'], rfl, ?_, by decide, allDigits_isDigit d, hzero⟩, ?_⟩, hunits⟩
    · exact List.ne_nil_of_length_pos (Nat.zero_lt_of_lt (lt_length_allDigits d))
    · rw [← hv]
      exact ofLiteral_eq (allDigits_isDigit d) hzero

/-- A decimal with digits after the point is written with them. -/
theorem isLiteral_of_scale_pos {d : Decimal} (h : d.scale ≠ 0) :
    d.text.toList.contains '.' = true ∧
      ∃ v, IsLiteral (d.allDigits.take (d.allDigits.length - d.scale) ++
        '.' :: d.allDigits.drop (d.allDigits.length - d.scale)) v ∧
          v.units = d.mantissa * tenPow (maxScale - d.scale) := by
  constructor
  · rw [text_toList, if_neg h]
    simp
  · have hlt := lt_length_allDigits d
    have hlength : (d.allDigits.drop (d.allDigits.length - d.scale)).length = d.scale := by
      rw [List.length_drop]
      omega
    have hvalue : digitsValue (d.allDigits.take (d.allDigits.length - d.scale) ++
        d.allDigits.drop (d.allDigits.length - d.scale)) = d.mantissa := by
      rw [List.take_append_drop, digitsValue_allDigits]
    have hds : ∀ c ∈ d.allDigits.take (d.allDigits.length - d.scale), Scan.isDigit c = true :=
      fun c hc => allDigits_isDigit d c (List.mem_of_mem_take hc)
    have hes : ∀ c ∈ d.allDigits.drop (d.allDigits.length - d.scale), Scan.isDigit c = true :=
      fun c hc => allDigits_isDigit d c (List.mem_of_mem_drop hc)
    have hread := (ofLiteral_eq hds hes).trans
      (ofDigits_eq (by rw [hlength]; exact d.scale_le) (by rw [hvalue]; exact d.mantissa_lt))
    refine ⟨_, ⟨⟨_, _, rfl, ?_, ?_, hds, hes⟩, hread⟩, ?_⟩
    · apply List.ne_nil_of_length_pos
      rw [List.length_take]
      omega
    · apply List.ne_nil_of_length_pos
      omega
    · simp only [units, hvalue, hlength, Bool.false_eq_true, if_false]

/-- **A real number is written as a literal of its value**, behind a minus when it is
negative. -/
theorem exists_literal (d : Decimal) : ∃ text v, IsLiteral text v ∧
    (Printer.real d).toList = (if d.normalize.negative then '-' :: text else text) ∧
      d.units = (if d.normalize.negative then -v.units else v.units) := by
  rw [← normalize_units]
  by_cases hscale : d.normalize.scale = 0
  · obtain ⟨hpoint, v, hv, hunits⟩ := isLiteral_of_scale_zero hscale
    refine ⟨_, v, hv, ?_, ?_⟩
    · have hreal : Printer.real d = d.normalize.text ++ ".0" := if_neg (by simpa using hpoint)
      rw [hreal, String.toList_append, text_toList, if_pos hscale]
      cases d.normalize.negative <;> rfl
    · rw [units, hunits, hscale, Nat.sub_zero]
  · obtain ⟨hpoint, v, hv, hunits⟩ := isLiteral_of_scale_pos hscale
    refine ⟨_, v, hv, ?_, ?_⟩
    · have hreal : Printer.real d = d.normalize.text := if_pos hpoint
      rw [hreal, text_toList, if_neg hscale]
      cases d.normalize.negative <;> rfl
    · rw [units, hunits]

end Decimal

end FlatScript
