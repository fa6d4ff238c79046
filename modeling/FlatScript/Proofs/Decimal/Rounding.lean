import FlatScript.Decimal.Arith
import FlatScript.Proofs.Writing.Numbers

/-!
# Exact results and their rounding

Arithmetic of decimals works on digits, and the same number has many spellings: `1.5` and `1.50`
are added with different scales. What a result is worth depends all the same on nothing but the
values of the operands, because it is the exact result, rounded by a rule that looks at its value
only.

* `FlatScript.Decimal.nearest?` is that rule for a fraction `n / d`: as many digits after the point
  as the bounds leave room for, and the last of them rounded.
* `FlatScript.Decimal.units_fit?`: what is put into the type is rounded by the rule.
* `FlatScript.Decimal.units_add?`, `FlatScript.Decimal.units_sub?` and
  `FlatScript.Decimal.units_mul?`: so are sums, differences and products.
* `FlatScript.Decimal.normalize_eq_of_units`: without zeros at the end, decimals of one value are one.
-/

namespace FlatScript.Decimal

/-! ### The rule -/

/-- Whether the fraction `n / d` has room for `s` digits after the point. -/
def Fits (n d s : Nat) : Prop := n * tenPow s / d < bound

instance (n d s : Nat) : Decidable (Fits n d s) := inferInstanceAs (Decidable (_ < _))

/-- The most digits after the point, up to a number of them, that a fraction has room for. -/
def digitsFor (n d : Nat) : Nat → Option Nat
  | 0 => if Fits n d 0 then some 0 else none
  | s + 1 => if Fits n d (s + 1) then some (s + 1) else digitsFor n d s

/-- A mantissa and scale, in units of the last of 28 digits after the point. -/
def magnitude (r : Nat × Nat) : Nat := r.1 * tenPow (maxScale - r.2)

/-- **The decimal nearest to a fraction**, in units of the last of 28 digits after the point. -/
def nearest? (n d : Nat) : Option Nat := do
  let s ← digitsFor n d maxScale
  (carried? (roundHalfEven (n * tenPow s) d) s).map magnitude

/-- A magnitude with its sign. -/
def signed (negative : Bool) (m : Nat) : Int := if negative then -m else m

/-- The decimal nearest to a fraction with a sign. -/
def rounded (x : Int) (d : Nat) : Option Int := (nearest? x.natAbs d).map (signed (x < 0))

theorem units_eq (d : Decimal) : d.units = signed d.negative (magnitude (d.mantissa, d.scale)) := by
  simp only [units, signed, magnitude]
  push_cast
  rfl

@[simp]
theorem natAbs_signed (negative : Bool) (m : Nat) : (signed negative m).natAbs = m := by
  cases negative <;> simp [signed]

@[simp]
theorem signed_zero (negative : Bool) : signed negative 0 = 0 := by
  cases negative <;> simp [signed]

theorem signed_natAbs (x : Int) : signed (x < 0) x.natAbs = x := by
  by_cases h : x < 0 <;> simp only [signed, h, decide_true, decide_false, if_true,
    Bool.false_eq_true, if_false] <;> omega

@[simp]
theorem natAbs_units (d : Decimal) : d.units.natAbs = magnitude (d.mantissa, d.scale) := by
  rw [units_eq, natAbs_signed]

theorem units_zero : zero.units = 0 := rfl

theorem units_eq_zero_iff (d : Decimal) : d.units = 0 ↔ d.isZero = true := by
  rw [← Int.natAbs_eq_zero, natAbs_units, magnitude, Nat.mul_eq_zero]
  simp [isZero, (tenPow_pos _).ne']

/-! ### What the rule depends on -/

section Fraction

variable {n d c m s t S : Nat}

theorem tenPow_le_tenPow (h : s ≤ t) : tenPow s ≤ tenPow t := by
  rw [← Nat.add_sub_cancel' h, tenPow_add]
  exact Nat.le_mul_of_pos_right _ (tenPow_pos _)

theorem Fits.mono (h : s ≤ t) (hfits : Fits n d t) : Fits n d s :=
  Nat.lt_of_le_of_lt (Nat.div_le_div_right (Nat.mul_le_mul_left _ (tenPow_le_tenPow h))) hfits

theorem fits_zero_iff : Fits n d 0 ↔ n / d < bound := by
  rw [Fits, tenPow, Nat.mul_one]

theorem digitsFor_eq_some_iff :
    digitsFor n d S = some s ↔ s ≤ S ∧ Fits n d s ∧ ∀ t ≤ S, Fits n d t → t ≤ s := by
  induction S with
  | zero =>
    simp only [digitsFor]
    constructor
    · intro h
      split at h
      · next hfits =>
        obtain rfl := Option.some.inj h
        exact ⟨Nat.le_refl _, hfits, fun t ht _ => ht⟩
      · cases h
    · rintro ⟨hs, hfits, -⟩
      obtain rfl : s = 0 := by omega
      rw [if_pos hfits]
  | succ S ih =>
    simp only [digitsFor]
    -- The greatest number of digits that is tried fits, or all that fit are among the smaller ones.
    split
    · next hfits =>
      constructor
      · intro h
        obtain rfl := Option.some.inj h
        exact ⟨Nat.le_refl _, hfits, fun t ht _ => ht⟩
      · rintro ⟨hs, -, hmax⟩
        exact congrArg some (Nat.le_antisymm (hmax _ (Nat.le_refl _) hfits) hs)
    · next hfits =>
      rw [ih]
      constructor
      · rintro ⟨hs, hfit, hmax⟩
        refine ⟨Nat.le_succ_of_le hs, hfit, fun t ht h => ?_⟩
        rcases Nat.lt_or_eq_of_le ht with hlt | rfl
        · exact hmax t (Nat.le_of_lt_succ hlt) h
        · exact absurd h hfits
      · rintro ⟨hs, hfit, hmax⟩
        refine ⟨?_, hfit, fun t ht => hmax t (Nat.le_succ_of_le ht)⟩
        rcases Nat.lt_or_eq_of_le hs with hlt | rfl
        · exact Nat.le_of_lt_succ hlt
        · exact absurd hfit hfits

/-- A fraction has digits as soon as its whole part has room. -/
theorem exists_digitsFor (h : Fits n d 0) (S : Nat) : ∃ s, digitsFor n d S = some s := by
  induction S with
  | zero => exact ⟨0, if_pos h⟩
  | succ S ih =>
    simp only [digitsFor]
    split
    · exact ⟨_, rfl⟩
    · exact ih

theorem digitsFor_eq_none (h : ¬ Fits n d 0) (S : Nat) : digitsFor n d S = none := by
  cases hs : digitsFor n d S with
  | none => rfl
  | some s => exact absurd ((digitsFor_eq_some_iff.mp hs).2.1.mono (Nat.zero_le s)) h

theorem fits_mul (hc : 0 < c) : Fits (n * c) (d * c) s ↔ Fits n d s := by
  rw [Fits, Nat.mul_right_comm, Nat.mul_div_mul_right _ _ hc, Fits]

theorem roundHalfEven_mul (hc : 0 < c) : roundHalfEven (n * c) (d * c) = roundHalfEven n d := by
  have htwice : 2 * (n % d * c) = 2 * (n % d) * c := (Nat.mul_assoc _ _ _).symm
  simp only [roundHalfEven, Nat.mul_div_mul_right _ _ hc, Nat.mul_mod_mul_right, htwice,
    Nat.mul_lt_mul_right hc, Nat.mul_left_inj hc.ne']

theorem roundHalfEven_mul_self (hd : 0 < d) : roundHalfEven (m * d) d = m := by
  simp only [roundHalfEven, Nat.mul_mod_left, Nat.mul_div_cancel _ hd]
  rw [if_neg (by omega)]

/-- Rounding never goes past the next whole number. -/
theorem roundHalfEven_le (n d : Nat) : roundHalfEven n d ≤ n / d + 1 := by
  simp only [roundHalfEven]
  split <;> omega

/-- The rule looks at the value of a fraction, whatever it is written with. -/
theorem nearest?_mul (hc : 0 < c) : nearest? (n * c) (d * c) = nearest? n d := by
  have hdigits : digitsFor (n * c) (d * c) maxScale = digitsFor n d maxScale :=
    Option.ext fun s => by simp only [digitsFor_eq_some_iff, fits_mul hc]
  simp only [nearest?, hdigits, Nat.mul_right_comm n c, roundHalfEven_mul hc]

/-- The digits of the rule are as many as there is room for. -/
theorem nearest?_eq (hs : s ≤ maxScale) (hfits : Fits n d s)
    (hmax : s = maxScale ∨ ¬ Fits n d (s + 1)) :
    nearest? n d = (carried? (roundHalfEven (n * tenPow s) d) s).map magnitude := by
  have hdigits : digitsFor n d maxScale = some s := by
    refine digitsFor_eq_some_iff.mpr ⟨hs, hfits, fun t ht h => ?_⟩
    rcases hmax with rfl | hmax
    · exact ht
    · exact Nat.not_lt.mp fun hlt => hmax (h.mono hlt)
  simp only [nearest?, hdigits, Option.bind_eq_bind, Option.bind_some]

theorem nearest?_eq_none (h : ¬ Fits n d 0) : nearest? n d = none := by
  simp only [nearest?, digitsFor_eq_none h, Option.bind_eq_bind, Option.bind_none]

/-- **A fraction that is a decimal stays what it is.** -/
theorem nearest?_exact (hd : 0 < d) (hs : s ≤ maxScale) (hm : m < bound)
    (h : n * tenPow s = m * d) : nearest? n d = some (magnitude (m, s)) := by
  have hfits : Fits n d s := by
    rw [Fits, h, Nat.mul_div_cancel _ hd]
    exact hm
  obtain ⟨t, ht⟩ := exists_digitsFor (hfits.mono (Nat.zero_le s)) maxScale
  obtain ⟨hle, hfit, hmax⟩ := digitsFor_eq_some_iff.mp ht
  have hst := hmax s hs hfits
  -- more digits than `s` only put zeros behind
  have hzeros : n * tenPow t = m * tenPow (t - s) * d := by
    rw [← Nat.add_sub_cancel' hst, tenPow_add, ← Nat.mul_assoc, h, Nat.add_sub_cancel_left,
      Nat.mul_right_comm]
  have hlt : m * tenPow (t - s) < bound := by
    rw [Fits, hzeros, Nat.mul_div_cancel _ hd] at hfit
    exact hfit
  simp only [nearest?, ht, Option.bind_eq_bind, Option.bind_some, hzeros,
    roundHalfEven_mul_self hd, carried?, if_pos hlt, Option.map_some, magnitude]
  rw [Nat.mul_assoc, ← tenPow_add]
  congr 3
  omega

/-- A whole number that is rounded to is at most one half away. -/
theorem roundHalfEven_near (n : Nat) (hd : 0 < d) :
    2 * (roundHalfEven n d * d) ≤ 2 * n + d ∧ 2 * n ≤ 2 * (roundHalfEven n d * d) + d := by
  have hdiv : n / d * d + n % d = n := by
    rw [Nat.mul_comm]
    exact Nat.div_add_mod n d
  have hmod : n % d < d := Nat.mod_lt n hd
  simp only [roundHalfEven]
  split
  · rw [Nat.add_mul, Nat.one_mul]
    omega
  · omega

/-- **The rule never changes a fraction by one or more.** Up to one half is rounded away; where this
carries to the bound and a digit more is given up, it still stands behind the point. -/
theorem nearest?_near (hd : 0 < d) (h : nearest? n d = some m) :
    m * d < (n + d) * tenPow maxScale ∧ n * tenPow maxScale < (m + tenPow maxScale) * d := by
  simp only [nearest?, Option.bind_eq_bind, Option.bind_eq_some_iff] at h
  obtain ⟨s, hs, h⟩ := h
  obtain ⟨r, hr, rfl⟩ := Option.map_eq_some_iff.mp h
  obtain ⟨hle, hfits, -⟩ := digitsFor_eq_some_iff.mp hs
  have htens : tenPow maxScale = tenPow s * tenPow (maxScale - s) := by
    rw [← tenPow_add, Nat.add_sub_cancel' hle]
  obtain ⟨hup, hdown⟩ := roundHalfEven_near (n * tenPow s) hd
  have hpow : d ≤ d * tenPow s := Nat.le_mul_of_pos_right d (tenPow_pos s)
  -- counted in units of the last digit that is kept
  obtain ⟨q, hq, hlow, hhigh⟩ : ∃ q, magnitude r = q * tenPow (maxScale - s) ∧
      q * d < n * tenPow s + d * tenPow s ∧ n * tenPow s < q * d + d * tenPow s := by
    rw [carried?] at hr
    split at hr
    · obtain rfl := Option.some.inj hr
      exact ⟨roundHalfEven (n * tenPow s) d, rfl, by omega, by omega⟩
    · next hlarge =>
      split at hr
      · cases hr
      · next hs0 =>
        obtain rfl := Option.some.inj hr
        have hbound : roundHalfEven (n * tenPow s) d = bound :=
          Nat.le_antisymm ((roundHalfEven_le _ _).trans hfits) (Nat.not_lt.mp hlarge)
        have hten : 10 * d ≤ d * tenPow s := by
          obtain ⟨t, rfl⟩ := Nat.exists_eq_add_of_lt (Nat.pos_of_ne_zero hs0)
          rw [Nat.mul_comm 10, Nat.zero_add, tenPow]
          exact Nat.mul_le_mul_left d (Nat.le_mul_of_pos_right 10 (tenPow_pos t))
        rw [hbound] at hup hdown ⊢
        refine ⟨bound + 4, ?_, ?_, ?_⟩
        · have hround : roundHalfEven bound 10 * 10 = bound + 4 := by decide
          have hscale : maxScale - (s - 1) = maxScale - s + 1 := by omega
          rw [magnitude, hscale, tenPow, ← Nat.mul_assoc, hround]
        · rw [Nat.add_mul]
          omega
        · rw [Nat.add_mul]
          omega
  have hpos := tenPow_pos (maxScale - s)
  rw [hq, htens]
  constructor
  · calc q * tenPow (maxScale - s) * d = q * d * tenPow (maxScale - s) := Nat.mul_right_comm _ _ _
      _ < (n * tenPow s + d * tenPow s) * tenPow (maxScale - s) := Nat.mul_lt_mul_of_pos_right hlow hpos
      _ = (n + d) * (tenPow s * tenPow (maxScale - s)) := by rw [← Nat.add_mul, Nat.mul_assoc]
  · calc n * (tenPow s * tenPow (maxScale - s)) = n * tenPow s * tenPow (maxScale - s) :=
          (Nat.mul_assoc _ _ _).symm
      _ < (q * d + d * tenPow s) * tenPow (maxScale - s) := Nat.mul_lt_mul_of_pos_right hhigh hpos
      _ = (q * tenPow (maxScale - s) + tenPow s * tenPow (maxScale - s)) * d := by
          rw [Nat.add_mul, Nat.add_mul, Nat.mul_right_comm, Nat.mul_assoc d, Nat.mul_comm d]

end Fraction

/-! ### Putting exact results into the type -/

theorem map_units_ofParts? {m s : Nat} (negative : Bool) (hm : m < bound) (hs : s ≤ maxScale) :
    (ofParts? negative m s).map units = some (signed negative (magnitude (m, s))) := by
  rw [ofParts?, dif_pos ⟨hm, hs⟩, Option.map_some, units_eq]

@[simp]
theorem units_unsignedZero (d : Decimal) : d.unsignedZero.units = d.units := by
  rw [unsignedZero]
  split
  · next h =>
    rw [(units_eq_zero_iff d).mpr h, units_eq_zero_iff]
    exact h
  · rfl

theorem carried?_bounds {m s m' s' : Nat} (h : carried? m s = some (m', s')) (hm : m ≤ bound)
    (hs : s ≤ maxScale) : m' < bound ∧ s' ≤ maxScale := by
  rw [carried?] at h
  split at h
  · next hlt =>
    obtain ⟨rfl, rfl⟩ := Prod.mk.inj (Option.some.inj h)
    exact ⟨hlt, hs⟩
  · split at h
    · cases h
    · next hge _ =>
      obtain ⟨rfl, rfl⟩ := Prod.mk.inj (Option.some.inj h)
      obtain rfl : m = bound := Nat.le_antisymm hm (Nat.not_lt.mp hge)
      exact ⟨by decide, Nat.le_trans (Nat.sub_le _ _) hs⟩

theorem map_units_carried {m s : Nat} (negative : Bool) (hm : m ≤ bound) (hs : s ≤ maxScale) :
    ((carried? m s).bind fun r => ofParts? negative r.1 r.2).map units =
      ((carried? m s).map magnitude).map (signed negative) := by
  cases h : carried? m s with
  | none => rfl
  | some r =>
    obtain ⟨hm', hs'⟩ := carried?_bounds h hm hs
    exact map_units_ofParts? negative hm' hs'

/-- **What is put into the type is the exact result, rounded by the rule.** -/
theorem units_fit? (negative : Bool) (m s : Nat) :
    (fit? negative m s).map units = (nearest? m (tenPow s)).map (signed negative) := by
  -- dropping `k` digits leaves `s - k` of them
  have hdrop {k : Nat} (hk : k ≤ s) :
      m * tenPow (s - k) / tenPow s = m / tenPow k ∧
        roundHalfEven (m * tenPow (s - k)) (tenPow s) = roundHalfEven m (tenPow k) := by
    have hs : tenPow s = tenPow k * tenPow (s - k) := by
      rw [← tenPow_add, Nat.add_sub_cancel' hk]
    rw [hs, Nat.mul_div_mul_right _ _ (tenPow_pos _), roundHalfEven_mul (tenPow_pos _)]
    exact ⟨rfl, rfl⟩
  simp only [fit?, Option.bind_eq_bind]
  cases hfind : (List.range (s + 1)).find? fun k =>
      decide (s - k ≤ maxScale) && decide (m / tenPow k < bound) with
  | none =>
    have hlarge := List.find?_eq_none.mp hfind s (by simp)
    have hwhole : ¬ Fits m (tenPow s) 0 := by
      rw [fits_zero_iff]
      simpa using hlarge
    rw [nearest?_eq_none hwhole]
    rfl
  | some k =>
    obtain ⟨hkeep, hk, hleast⟩ := List.find?_range_eq_some.mp hfind
    rw [Bool.and_eq_true, decide_eq_true_eq, decide_eq_true_eq] at hkeep
    have hks : k ≤ s := Nat.le_of_lt_succ (List.mem_range.mp hk)
    have hfits : Fits m (tenPow s) (s - k) := by
      rw [Fits, (hdrop hks).1]
      exact hkeep.2
    rcases Nat.eq_zero_or_pos k with rfl | hpos
    · rw [Nat.sub_zero] at hkeep
      rw [tenPow, Nat.div_one] at hkeep
      rw [nearest?_exact (tenPow_pos s) hkeep.1 hkeep.2 rfl, Option.bind_some, roundAway,
        if_pos rfl, Nat.sub_zero, carried?, if_pos hkeep.2]
      exact map_units_ofParts? negative hkeep.2 hkeep.1
    · have hmax : s - k = maxScale ∨ ¬ Fits m (tenPow s) (s - k + 1) := by
        have hprev := hleast (k - 1) (by omega)
        have hsucc : s - (k - 1) = s - k + 1 := by omega
        rw [Bool.not_eq_true', Bool.and_eq_false_iff, decide_eq_false_iff_not,
          decide_eq_false_iff_not, hsucc] at hprev
        rcases hprev with hscale | hbound
        · exact .inl (by omega)
        · refine .inr ?_
          rw [Fits, ← hsucc, (hdrop (by omega)).1]
          exact hbound
      rw [nearest?_eq hkeep.1 hfits hmax, (hdrop hks).2, Option.bind_some, roundAway,
        if_neg hpos.ne']
      exact map_units_carried negative
        (Nat.le_trans (roundHalfEven_le _ _) hkeep.2) hkeep.1

/-! ### Sums and differences -/

theorem nearest?_zero (d : Nat) : nearest? 0 d = some 0 := by
  have hround : roundHalfEven 0 d = 0 := by
    simp [roundHalfEven]
  have hfits : Fits 0 d maxScale := by
    rw [Fits, Nat.zero_mul, Nat.zero_div]
    decide
  rw [nearest?_eq (Nat.le_refl _) hfits (.inl rfl), Nat.zero_mul, hround]
  rfl

theorem rounded_signed (negative : Bool) (m d : Nat) :
    rounded (signed negative m) d = (nearest? m d).map (signed negative) := by
  rw [rounded, natAbs_signed]
  rcases Nat.eq_zero_or_pos m with rfl | hm
  · simp [nearest?_zero]
  · have hsign : decide (signed negative m < 0) = negative := by
      cases negative <;> simp only [signed, Bool.false_eq_true, if_false, if_true,
        decide_eq_true_eq, decide_eq_false_iff_not] <;> omega
    rw [hsign]

theorem rounded_mul (x : Int) (d : Nat) {c : Nat} (hc : 0 < c) :
    rounded (x * c) (d * c) = rounded x d := by
  have hsign : decide (x * c < 0) = decide (x < 0) := by
    have hpos : (0 : Int) < c := Int.natCast_pos.mpr hc
    refine decide_eq_decide.mpr ⟨fun h => ?_, fun h => Int.mul_neg_of_neg_of_pos h hpos⟩
    rw [← Int.zero_mul (c : Int)] at h
    exact Int.lt_of_mul_lt_mul_right h hpos.le
  rw [rounded, Int.natAbs_mul, Int.natAbs_natCast, nearest?_mul hc, hsign, rounded]

/-- A decimal needs no rounding. -/
theorem rounded_units (d : Decimal) : rounded d.units (tenPow maxScale) = some d.units := by
  have hexact : magnitude (d.mantissa, d.scale) * tenPow d.scale =
      d.mantissa * tenPow maxScale := by
    rw [magnitude, Nat.mul_assoc, ← tenPow_add, Nat.sub_add_cancel d.scale_le]
  rw [units_eq, rounded_signed, nearest?_exact (tenPow_pos _) d.scale_le d.mantissa_lt hexact]
  rfl

theorem scaled_eq (d : Decimal) (s : Nat) :
    d.scaled s = signed d.negative (d.mantissa * tenPow (s - d.scale)) := by
  simp only [scaled, signed]
  push_cast
  rfl

theorem signed_mul (negative : Bool) (m c : Nat) :
    signed negative (m * c) = signed negative m * c := by
  cases negative <;> simp [signed]

theorem units_eq_scaled_mul (d : Decimal) {s : Nat} (hd : d.scale ≤ s) (hs : s ≤ maxScale) :
    d.units = d.scaled s * tenPow (maxScale - s) := by
  rw [units_eq, scaled_eq, ← signed_mul, magnitude, Nat.mul_assoc, ← tenPow_add]
  congr 3
  omega

/-- **A sum is the exact sum, rounded by the rule.** -/
theorem units_add? (a b : Decimal) :
    (a.add? b).map units = rounded (a.units + b.units) (tenPow maxScale) := by
  rw [add?]
  split
  · next ha =>
    rw [(units_eq_zero_iff a).mpr ha, Int.zero_add, rounded_units, Option.map_some]
  · split
    · next hb =>
      rw [(units_eq_zero_iff b).mpr hb, Int.add_zero, rounded_units, Option.map_some]
    · have hs : max a.scale b.scale ≤ maxScale := Nat.max_le.mpr ⟨a.scale_le, b.scale_le⟩
      rw [units_fit?, ← rounded_signed, signed_natAbs,
        units_eq_scaled_mul a (Nat.le_max_left a.scale b.scale) hs,
        units_eq_scaled_mul b (Nat.le_max_right a.scale b.scale) hs, ← Int.add_mul]
      have htens : tenPow maxScale =
          tenPow (max a.scale b.scale) * tenPow (maxScale - max a.scale b.scale) := by
        rw [← tenPow_add, Nat.add_sub_cancel' hs]
      rw [htens, rounded_mul _ _ (tenPow_pos _)]

/-- **A difference is the exact difference, rounded by the rule.** -/
theorem units_sub? (a b : Decimal) :
    (a.sub? b).map units = rounded (a.units - b.units) (tenPow maxScale) := by
  rw [sub?]
  split
  · next ha =>
    rw [(units_eq_zero_iff a).mpr ha, Int.zero_sub, ← neg_units, rounded_units, Option.map_some]
    split
    · next hb => rw [neg_units, (units_eq_zero_iff b).mpr hb, Int.neg_zero]
    · rfl
  · split
    · next hb =>
      rw [(units_eq_zero_iff b).mpr hb, Int.sub_zero, rounded_units, Option.map_some]
    · rw [units_add?, neg_units, Int.sub_eq_add_neg]

/-- **A difference with a subtrahend of one or more is smaller**, although it is rounded. -/
theorem units_lt_of_sub? {a b c : Decimal} (h : a.sub? b = some c)
    (hb : (tenPow maxScale : Int) ≤ b.units) : c.units < a.units := by
  have hrounded : rounded (a.units - b.units) (tenPow maxScale) = some c.units := by
    rw [← units_sub?, h, Option.map_some]
  obtain ⟨m, hm, hc⟩ := Option.map_eq_some_iff.mp hrounded
  obtain ⟨hhigh, hlow⟩ := nearest?_near (tenPow_pos maxScale) hm
  have hhigh := Nat.lt_of_mul_lt_mul_right hhigh
  have hlow := Nat.lt_of_mul_lt_mul_right hlow
  rw [← hc, signed]
  split
  · next hneg =>
    have hneg := of_decide_eq_true hneg
    omega
  · next hpos =>
    have hpos : ¬ a.units - b.units < 0 := fun h => hpos (decide_eq_true h)
    omega

/-! ### Products -/

theorem signed_mul_signed (p q : Bool) (m n : Nat) :
    signed p m * signed q n = signed (p != q) (m * n) := by
  cases p <;> cases q <;> simp [signed]

/-- A product of two words with its digits far behind the point is rounded to zero. -/
theorem nearest?_far {n s : Nat} (hn : n < wordBound * wordBound) (hs : maxScale + 19 < s) :
    nearest? n (tenPow s) = some 0 := by
  have hsmall : 2 * (n * tenPow maxScale) < tenPow s := by
    obtain ⟨t, rfl⟩ : ∃ t, s = maxScale + (20 + t) := ⟨s - 48, by simp only [maxScale] at *; omega⟩
    rw [tenPow_add, tenPow_add, Nat.mul_comm n, Nat.mul_left_comm]
    refine Nat.mul_lt_mul_of_pos_left ?_ (tenPow_pos _)
    calc 2 * n < 2 * (wordBound * wordBound) := by omega
      _ ≤ tenPow 20 := by decide
      _ ≤ tenPow 20 * tenPow t := Nat.le_mul_of_pos_right _ (tenPow_pos t)
  have hdiv : n * tenPow maxScale / tenPow s = 0 := Nat.div_eq_of_lt (by omega)
  have hround : roundHalfEven (n * tenPow maxScale) (tenPow s) = 0 := by
    simp only [roundHalfEven, hdiv, Nat.mod_eq_of_lt (show n * tenPow maxScale < tenPow s by omega)]
    rw [if_neg (by omega)]
  have hfits : Fits n (tenPow s) maxScale := by
    rw [Fits, hdiv]
    decide
  rw [nearest?_eq (Nat.le_refl _) hfits (.inl rfl), hround]
  rfl

/-- **A product is the exact product, rounded by the rule.** -/
theorem units_mul? (a b : Decimal) :
    (a.mul? b).map units = rounded (a.units * b.units) (tenPow maxScale * tenPow maxScale) := by
  have hexact : rounded (a.units * b.units) (tenPow maxScale * tenPow maxScale) =
      (nearest? (a.mantissa * b.mantissa) (tenPow (a.scale + b.scale))).map
        (signed (a.negative != b.negative)) := by
    have htens : tenPow maxScale * tenPow maxScale = tenPow (a.scale + b.scale) *
        (tenPow (maxScale - a.scale) * tenPow (maxScale - b.scale)) := by
      simp only [← tenPow_add]
      have := a.scale_le
      have := b.scale_le
      congr 1
      omega
    rw [units_eq, units_eq, signed_mul_signed, rounded_signed, htens, magnitude, magnitude,
      Nat.mul_mul_mul_comm, nearest?_mul (Nat.mul_pos (tenPow_pos _) (tenPow_pos _))]
  rw [mul?]
  split
  · next h =>
    rw [Bool.or_eq_true, ← units_eq_zero_iff, ← units_eq_zero_iff] at h
    rw [Int.mul_eq_zero.mpr h]
    simp [rounded, nearest?_zero, units_zero]
  · rw [hexact]
    simp only
    split
    · next hwords =>
      split
      · next hfar =>
        rw [nearest?_far (Nat.mul_lt_mul'' hwords.1 hwords.2) hfar]
        simp [units_zero]
      · rw [Option.map_map, ← units_fit?]
        congr 1
        exact funext units_unsignedZero
    · rw [units_fit?]

/-! ### Normal form -/

/-- Without zeros at its end, a mantissa has no digits after the point, or the last one is not
zero. -/
theorem stripZeros_last (m s : Nat) : (stripZeros m s).2 = 0 ∨ (stripZeros m s).1 % 10 ≠ 0 := by
  induction s generalizing m with
  | zero => exact .inl rfl
  | succ s ih =>
    rw [stripZeros]
    split
    · exact ih (m / 10)
    next h => exact .inr h

theorem normalize_last (d : Decimal) : d.normalize.scale = 0 ∨ d.normalize.mantissa % 10 ≠ 0 := by
  unfold normalize
  split
  next => exact .inl rfl
  next =>
    have hlast := stripZeros_last d.mantissa d.scale
    obtain ⟨hle, hvalue⟩ := stripZeros_spec d.mantissa d.scale
    have hmantissa : (stripZeros d.mantissa d.scale).1 < bound := by
      refine Nat.lt_of_le_of_lt ?_ d.mantissa_lt
      exact (Nat.le_mul_of_pos_right _ (tenPow_pos _)).trans_eq hvalue
    have hscale := hle.trans d.scale_le
    simpa only [ofParts?, hmantissa, hscale, and_self, dif_pos, Option.getD_some] using hlast

/-- Two mantissas without zeros at their ends that are worth the same are the same. -/
theorem eq_of_magnitude {m m' s s' : Nat} (hs : s ≤ maxScale) (hs' : s' ≤ maxScale)
    (hlast : s = 0 ∨ m % 10 ≠ 0) (hlast' : s' = 0 ∨ m' % 10 ≠ 0)
    (h : magnitude (m, s) = magnitude (m', s')) : s = s' ∧ m = m' := by
  wlog hle : s ≤ s' generalizing m m' s s'
  · obtain ⟨hscale, hmantissa⟩ := this hs' hs hlast' hlast h.symm (by omega)
    exact ⟨hscale.symm, hmantissa.symm⟩
  have hsplit : maxScale - s = (s' - s) + (maxScale - s') := by omega
  simp only [magnitude, hsplit, tenPow_add] at h
  rw [← Nat.mul_assoc] at h
  have hmantissa : m * tenPow (s' - s) = m' := Nat.eq_of_mul_eq_mul_right (tenPow_pos _) h
  rcases Nat.eq_or_lt_of_le hle with rfl | hlt
  · rw [Nat.sub_self, tenPow, Nat.mul_one] at hmantissa
    exact ⟨rfl, hmantissa⟩
  · -- A digit more after the point would be a zero.
    exfalso
    obtain ⟨k, hk⟩ : ∃ k, s' - s = k + 1 := ⟨s' - s - 1, by omega⟩
    rw [hk, tenPow, Nat.mul_left_comm] at hmantissa
    omega

/-- **Without zeros at the end, decimals of one value are one.** -/
theorem normalize_eq_of_units {a b : Decimal} (h : a.units = b.units) :
    a.normalize = b.normalize := by
  have hunits : a.normalize.units = b.normalize.units := by
    rw [normalize_units, normalize_units, h]
  have hsign : a.normalize.negative = b.normalize.negative := by
    rw [Bool.eq_iff_iff, normalize_negative, normalize_negative, h]
  have hmagnitude : magnitude (a.normalize.mantissa, a.normalize.scale) =
      magnitude (b.normalize.mantissa, b.normalize.scale) := by
    rw [← natAbs_units, ← natAbs_units, hunits]
  obtain ⟨hscale, hmantissa⟩ := eq_of_magnitude a.normalize.scale_le b.normalize.scale_le
    a.normalize_last b.normalize_last hmagnitude
  generalize a.normalize = d, b.normalize = e at hsign hscale hmantissa
  obtain ⟨negative, mantissa, scale, _, _⟩ := d
  cases hsign
  cases hscale
  cases hmantissa
  rfl

theorem normalize_neg {d : Decimal} (h : d.isZero = false) : d.neg.normalize = d.normalize.neg := by
  have hneg : d.neg.isZero = false := h
  simp only [normalize, h, hneg, Bool.false_eq_true, if_false]
  by_cases hfits : (stripZeros d.mantissa d.scale).1 < bound ∧
      (stripZeros d.mantissa d.scale).2 ≤ maxScale
  · have hparts : ∀ negative, ofParts? negative (stripZeros d.mantissa d.scale).1
        (stripZeros d.mantissa d.scale).2 = some ⟨negative, _, _, hfits.1, hfits.2⟩ :=
      fun _ => dif_pos hfits
    simp only [neg, hparts, Option.getD_some]
  · have hparts : ∀ negative, ofParts? negative (stripZeros d.mantissa d.scale).1
        (stripZeros d.mantissa d.scale).2 = none := fun _ => dif_neg hfits
    simp only [neg, hparts, Option.getD_none]

end FlatScript.Decimal
