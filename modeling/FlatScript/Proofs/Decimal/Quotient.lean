import FlatScript.Proofs.Decimal.Rounding

/-!
# Quotients and remainders of decimals

A quotient is divided out in groups of digits, as long as there is a remainder and there is room,
and a group that turns out too long is given up again by one digit. None of this shows in the
result, which is the exact quotient rounded like a sum or a product.

* `FlatScript.Decimal.quotient?_spec`: the digits that division ends with are the ones that
  `FlatScript.Decimal.nearest?` asks for.
* `FlatScript.Decimal.units_div?` and `FlatScript.Decimal.units_rem?`: what quotients and remainders
  are worth, from what the operands are worth.
-/

namespace FlatScript.Decimal

/-! ### The digits of a quotient -/

theorem room_le (m most : Nat) : room m most ≤ most := by
  induction most with
  | zero => exact Nat.le_refl _
  | succ most ih =>
    simp only [room]
    split
    · exact Nat.le_refl _
    · exact Nat.le_succ_of_le ih

theorem mul_room_lt {m : Nat} (hm : m < bound) (most : Nat) :
    m * tenPow (room m most) < bound := by
  induction most with
  | zero => simpa [room, tenPow] using hm
  | succ most ih =>
    simp only [room]
    split
    · next h => exact h
    · exact ih

/-- Where less digits are taken than are asked for, one more has no room. -/
theorem le_mul_room (m most : Nat) :
    room m most = most ∨ bound ≤ m * tenPow (room m most + 1) := by
  induction most with
  | zero => exact .inl rfl
  | succ most ih =>
    simp only [room]
    split
    · exact .inl rfl
    · next h =>
      rcases ih with heq | hlt
      · rw [heq]
        exact .inr (Nat.not_lt.mp h)
      · exact .inr hlt

section Digits

variable {num den sa sb k p s : Nat}

theorem quotient_mul_le (num den k p : Nat) :
    num * tenPow k / den * tenPow p ≤ num * tenPow (k + p) / den := by
  rw [tenPow_add, ← Nat.mul_assoc, Nat.mul_comm, Nat.mul_comm _ (tenPow p)]
  exact Nat.mul_div_le_mul_div_assoc ..

theorem quotient_lt (hden : 0 < den) :
    num * tenPow (k + p) / den < (num * tenPow k / den + 1) * tenPow p := by
  rw [Nat.div_lt_iff_lt_mul hden, tenPow_add, ← Nat.mul_assoc,
    Nat.mul_right_comm (_ + 1)]
  refine Nat.mul_lt_mul_of_pos_right ?_ (tenPow_pos p)
  rw [Nat.mul_comm _ den]
  exact Nat.lt_mul_div_succ _ hden

/-- `k` digits behind the whole quotient of the mantissas stand where `s` digits after the point of
the quotient of the decimals do. -/
theorem digits_eq (h : s + sb = sa + k) :
    num * tenPow sb * tenPow s = num * tenPow k * tenPow sa := by
  rw [Nat.mul_assoc, ← tenPow_add, Nat.add_comm sb, h, Nat.add_comm sa, tenPow_add, Nat.mul_assoc]

theorem fits_iff (h : s + sb = sa + k) :
    Fits (num * tenPow sb) (den * tenPow sa) s ↔ num * tenPow k / den < bound := by
  rw [Fits, digits_eq h, Nat.mul_div_mul_right _ _ (tenPow_pos sa)]

theorem round_eq (h : s + sb = sa + k) :
    roundHalfEven (num * tenPow sb * tenPow s) (den * tenPow sa) =
      roundHalfEven (num * tenPow k) den := by
  rw [digits_eq h, roundHalfEven_mul (tenPow_pos sa)]

/-- A quotient without room for the digits before its point has no decimal near it. -/
theorem nearest?_of_whole (h : sa + k ≤ sb) (hlarge : bound ≤ num * tenPow k / den) :
    nearest? (num * tenPow sb) (den * tenPow sa) = none := by
  refine nearest?_eq_none fun hfits => ?_
  obtain ⟨t, rfl⟩ : ∃ t, sb = sa + k + t := ⟨sb - (sa + k), by omega⟩
  rw [fits_iff (k := k + t) (by omega)] at hfits
  have hgrow := quotient_mul_le num den k t
  have hle := Nat.le_mul_of_pos_right (num * tenPow k / den) (tenPow_pos t)
  omega

/-- **What is known when `k` digits have been added** to the whole quotient: they are not too many,
and where the last of them has no room, the one before has. -/
structure Underway (num den sa sb k : Nat) : Prop where
  le : sa + k ≤ sb + maxScale
  room : num * tenPow k / den < bound ∨ sa + k ≤ sb ∨
    0 < k ∧ num * tenPow (k - 1) / den + 1 < bound

/-- A group of digits that there was room for may be too long by one digit, and not by more. -/
theorem Underway.group (hden : 0 < den) (hp : 0 < p) (hlt : num * tenPow k / den * tenPow p < bound)
    (hle : sa + k + p ≤ sb + maxScale) (hgroup : p ≤ groupSize) :
    Underway num den sa sb (k + p) := by
  obtain ⟨r, rfl⟩ : ∃ r, p = r + 1 := ⟨p - 1, by omega⟩
  refine ⟨by omega, .inr (.inr ⟨by omega, ?_⟩)⟩
  have hnext : num * tenPow (k + r) / den < (num * tenPow k / den + 1) * tenPow r :=
    quotient_lt hden
  rw [show k + (r + 1) - 1 = k + r by omega]
  rw [tenPow] at hlt
  set q := num * tenPow k / den
  have hroom : (q + 1) * tenPow r < bound := by
    rcases Nat.eq_zero_or_pos q with hzero | hpos
    · rw [hzero, Nat.zero_add, Nat.one_mul]
      calc tenPow r ≤ tenPow groupSize := tenPow_le_tenPow (by omega)
        _ < bound := by decide
    · calc (q + 1) * tenPow r ≤ q * 10 * tenPow r := Nat.mul_le_mul_right _ (by omega)
        _ = q * (10 * tenPow r) := Nat.mul_assoc ..
        _ < bound := hlt
  omega

/-- **What division ends with is what the rule asks for**, and it is within the bounds. -/
def EndsNear (num den sa sb : Nat) (r : Option (Nat × Nat)) : Prop :=
  r.map magnitude = nearest? (num * tenPow sb) (den * tenPow sa) ∧
    ∀ d ∈ r, d.1 < bound ∧ d.2 ≤ maxScale

/-- There is no room for the digits before the point. -/
theorem endsNear_none (h : sa + k ≤ sb) (hlarge : bound ≤ num * tenPow k / den) :
    EndsNear num den sa sb none := by
  refine ⟨?_, by simp⟩
  rw [nearest?_of_whole h hlarge]
  rfl

/-- The last digit has no room and is given up. -/
theorem endsNear_short (hs : s + sb = sa + k) (hscale : s ≤ maxScale)
    (hlong : bound ≤ num * tenPow (k + 1) / den) (hroom : num * tenPow k / den + 1 < bound) :
    EndsNear num den sa sb (some (roundHalfEven (num * tenPow k) den, s)) := by
  have hlt : roundHalfEven (num * tenPow k) den < bound :=
    Nat.lt_of_le_of_lt (roundHalfEven_le _ _) hroom
  have hfits : Fits (num * tenPow sb) (den * tenPow sa) s := (fits_iff hs).mpr (by omega)
  have hmax : ¬ Fits (num * tenPow sb) (den * tenPow sa) (s + 1) := by
    rw [fits_iff (k := k + 1) (by omega)]
    omega
  refine ⟨?_, ?_⟩
  · rw [nearest?_eq hscale hfits (.inr hmax), round_eq hs, carried?, if_pos hlt]
  · intro d hd
    obtain rfl := Option.some.inj hd
    exact ⟨hlt, hscale⟩

/-- The division is even. -/
theorem endsNear_exact (hden : 0 < den) (hs : s + sb = sa + k) (hscale : s ≤ maxScale)
    (heven : num * tenPow k % den = 0) (hshort : num * tenPow k / den < bound) :
    EndsNear num den sa sb (some (num * tenPow k / den, s)) := by
  have hexact : num * tenPow sb * tenPow s = num * tenPow k / den * (den * tenPow sa) := by
    rw [digits_eq hs, ← Nat.mul_assoc, Nat.div_mul_cancel (Nat.dvd_of_mod_eq_zero heven)]
  refine ⟨?_, ?_⟩
  · rw [nearest?_exact (Nat.mul_pos hden (tenPow_pos _)) (by omega) (by omega) hexact]
    rfl
  · intro d hd
    obtain rfl := Option.some.inj hd
    exact ⟨hshort, hscale⟩

/-- There is no room for another digit, and the last one is rounded. -/
theorem endsNear_rounded (hs : s + sb = sa + k) (hscale : s ≤ maxScale)
    (hshort : num * tenPow k / den < bound)
    (hlast : s = maxScale ∨ bound ≤ num * tenPow (k + 1) / den) :
    EndsNear num den sa sb (carried? (roundHalfEven (num * tenPow k) den) s) := by
  have hfits : Fits (num * tenPow sb) (den * tenPow sa) s := (fits_iff hs).mpr hshort
  have hmax : s = maxScale ∨ ¬ Fits (num * tenPow sb) (den * tenPow sa) (s + 1) := by
    rwa [fits_iff (k := k + 1) (by omega), Nat.not_lt]
  refine ⟨?_, ?_⟩
  · rw [nearest?_eq hscale hfits hmax, round_eq hs]
  · intro d hd
    exact carried?_bounds hd (Nat.le_trans (roundHalfEven_le _ _) (by omega)) hscale

/-- **The digits that division ends with are the ones of the rule.** -/
theorem quotient?_spec (hden : 0 < den) (fuel k : Nat) (hunder : Underway num den sa sb k)
    (hfuel : sb + maxScale < sa + k + fuel) :
    EndsNear num den sa sb (quotient? num den (sa - sb) fuel k) := by
  induction fuel generalizing k with
  | zero =>
    have := hunder.le
    omega
  | succ fuel ih =>
    have hle := hunder.le
    simp only [quotient?]
    split
    · next hlong =>
      split
      · exact endsNear_none (by omega) hlong
      · next hscale =>
        -- One digit too many, which is given up.
        rcases hunder.room with hroom | hroom | ⟨hk, hroom⟩
        · omega
        · omega
        · refine endsNear_short (by omega) (by omega) ?_ hroom
          rwa [Nat.sub_add_cancel hk]
    · next hshort =>
      split
      · next heven =>
        split
        · exact endsNear_exact hden (by omega) (by omega) heven (by omega)
        · -- Digits before the point are missing.
          exact ih _ ⟨by omega, .inr (.inl (by omega))⟩ (by omega)
      · have hmost := room_le (num * tenPow k / den)
          (min groupSize ((maxScale : Int) - ((sa : Int) - sb + k)).toNat)
        have hroom := mul_room_lt (m := num * tenPow k / den) (by omega)
          (min groupSize ((maxScale : Int) - ((sa : Int) - sb + k)).toNat)
        have hnext := le_mul_room (num * tenPow k / den)
          (min groupSize ((maxScale : Int) - ((sa : Int) - sb + k)).toNat)
        generalize room (num * tenPow k / den)
          (min groupSize ((maxScale : Int) - ((sa : Int) - sb + k)).toNat) = p at *
        have hgrow := quotient_mul_le num den k (p + 1)
        split
        · exact endsNear_none (k := k + (p + 1)) (by omega) (by omega)
        · next hpart =>
          split
          · next hp =>
            subst hp
            simp only [groupSize] at hpart
            refine endsNear_rounded (by omega) (by omega) (by omega) ?_
            simp only [groupSize, Nat.zero_add] at hnext hgrow
            omega
          · next hp =>
            exact ih _ (.group hden (by omega) hroom (by omega) (by omega)) (by omega)

end Digits

/-! ### Zeros at the end -/

/-- A mantissa and scale within the bounds, of a given magnitude. -/
def IsShort (m : Nat) (r : Nat × Nat) : Prop :=
  magnitude r = m ∧ r.1 < bound ∧ r.2 ≤ maxScale

theorem IsShort.stripGroup {m : Nat} {r : Nat × Nat} (h : IsShort m r) (count : Nat) :
    IsShort m (stripGroup count r) := by
  obtain ⟨rfl, hlt, hle⟩ := h
  rw [Decimal.stripGroup]
  split
  · next hzeros =>
    obtain ⟨hcount, hmod⟩ := hzeros
    refine ⟨?_, Nat.lt_of_le_of_lt (Nat.div_le_self _ _) hlt,
      Nat.le_trans (Nat.sub_le _ _) hle⟩
    have hscale : maxScale - (r.2 - count) = count + (maxScale - r.2) := by omega
    rw [magnitude, hscale, tenPow_add, ← Nat.mul_assoc,
      Nat.div_mul_cancel (Nat.dvd_of_mod_eq_zero hmod), magnitude]
  · exact ⟨rfl, hlt, hle⟩

theorem IsShort.stripEight {m : Nat} {r : Nat × Nat} (h : IsShort m r) :
    IsShort m (stripEight r) := by
  rw [Decimal.stripEight]
  split
  · exact h.stripGroup 8
  · exact h

theorem IsShort.stripGroups {m : Nat} {r : Nat × Nat} (h : IsShort m r) :
    IsShort m (stripGroups r) :=
  (((h.stripEight.stripEight.stripEight).stripGroup 4).stripGroup 2).stripGroup 1

/-! ### Quotients -/

theorem nearest?_magnitudes (a b : Decimal) :
    nearest? (magnitude (a.mantissa, a.scale)) (magnitude (b.mantissa, b.scale)) =
      nearest? (a.mantissa * tenPow b.scale) (b.mantissa * tenPow a.scale) := by
  have htens (d : Decimal) : tenPow maxScale = tenPow (maxScale - d.scale) * tenPow d.scale := by
    rw [← tenPow_add, Nat.sub_add_cancel d.scale_le]
  rw [← nearest?_mul (Nat.mul_pos (tenPow_pos a.scale) (tenPow_pos b.scale)),
    ← nearest?_mul (n := a.mantissa * _) (tenPow_pos maxScale)]
  congr 1
  · rw [magnitude, htens a]
    ring
  · rw [magnitude, htens b]
    ring

theorem decide_units_neg {d : Decimal} (h : d.isZero = false) :
    decide (d.units < 0) = d.negative := by
  have hne : ¬ d.units = 0 := fun hzero => by simp [(units_eq_zero_iff d).mp hzero] at h
  rw [units_eq] at hne ⊢
  cases hneg : d.negative <;> simp only [hneg, signed, Bool.false_eq_true, if_false, if_true,
    decide_eq_true_eq, decide_eq_false_iff_not] at hne ⊢ <;> omega

theorem isShort_quotient? (a b : Decimal) (hb : b.isZero = false) :
    (quotient? a.mantissa b.mantissa (a.scale - b.scale) (2 * maxScale + 2) 0).map magnitude =
        nearest? a.units.natAbs b.units.natAbs ∧
      ∀ r ∈ quotient? a.mantissa b.mantissa (a.scale - b.scale) (2 * maxScale + 2) 0,
        IsShort (magnitude r) r := by
  have hden : 0 < b.mantissa := Nat.pos_of_ne_zero (by simpa [isZero] using hb)
  have ha := a.scale_le
  have hscale := b.scale_le
  have hroom : a.mantissa * tenPow 0 / b.mantissa < bound := by
    rw [tenPow, Nat.mul_one]
    exact Nat.lt_of_le_of_lt (Nat.div_le_self _ _) a.mantissa_lt
  have hunder : Underway a.mantissa b.mantissa a.scale b.scale 0 := ⟨by omega, .inl hroom⟩
  obtain ⟨hvalue, hbounds⟩ := quotient?_spec hden (2 * maxScale + 2) 0 hunder (by omega)
  rw [natAbs_units, natAbs_units, nearest?_magnitudes]
  exact ⟨hvalue, fun r hr => ⟨rfl, hbounds r hr⟩⟩

/-- **A quotient is the exact quotient, rounded by the rule**, with the sign of the product. -/
theorem units_div? (a b : Decimal) (hb : b.isZero = false) :
    (a.div? b).map units = (nearest? a.units.natAbs b.units.natAbs).map
      (signed ((a.units < 0) != (b.units < 0))) := by
  rw [div?]
  split
  · next ha =>
    rw [(units_eq_zero_iff a).mpr ha, Int.natAbs_zero, nearest?_zero, Option.map_some,
      Option.map_some, units_zero, signed_zero]
  · next ha =>
    obtain ⟨hvalue, hshort⟩ := isShort_quotient? a b hb
    rw [decide_units_neg hb, decide_units_neg (Bool.not_eq_true _ ▸ ha), ← hvalue]
    simp only [Option.bind_eq_bind]
    cases hr : quotient? a.mantissa b.mantissa (a.scale - b.scale) (2 * maxScale + 2) 0 with
    | none => rfl
    | some r =>
      -- with the zeros at its end or without them
      have hkept : IsShort (magnitude r)
          (if a.mantissa % b.mantissa = 0 then r else stripGroups r) := by
        split
        · exact hshort r hr
        · exact (hshort r hr).stripGroups
      obtain ⟨hmagnitude, hlt, hle⟩ := hkept
      have hunsigned : units ∘ unsignedZero = units := funext units_unsignedZero
      rw [Option.bind_some, Option.map_map, hunsigned, map_units_ofParts? _ hlt hle]
      simp only [Option.map_some, hmagnitude]

/-! ### Remainders -/

theorem tmod_signed (p q : Bool) (m n : Nat) :
    Int.tmod (signed p m) (signed q n) = signed p (m % n) := by
  cases p <;> cases q <;> simp [signed, Int.neg_tmod, Int.tmod_neg,
    Int.tmod_eq_emod_of_nonneg (Int.natCast_nonneg m)]

theorem units_eq_signed_mul (d : Decimal) {s : Nat} (hd : d.scale ≤ s) (hs : s ≤ maxScale) :
    d.units = signed d.negative ((d.scaled s).natAbs * tenPow (maxScale - s)) := by
  rw [signed_mul, scaled_eq, natAbs_signed, ← scaled_eq, units_eq_scaled_mul d hd hs]

/-- **A remainder is exact**, with the sign of the dividend. -/
theorem units_rem? (a b : Decimal) (hb : b.isZero = false) :
    (a.rem? b).map units = some (Int.tmod a.units b.units) := by
  rw [rem?]
  split
  · next ha => rw [(units_eq_zero_iff a).mpr ha, Int.zero_tmod, Option.map_some, units_zero]
  · next ha =>
    have hs : max a.scale b.scale ≤ maxScale := Nat.max_le.mpr ⟨a.scale_le, b.scale_le⟩
    have hmod : Int.tmod a.units b.units = signed a.negative
        ((a.scaled (max a.scale b.scale)).natAbs % (b.scaled (max a.scale b.scale)).natAbs *
          tenPow (maxScale - max a.scale b.scale)) := by
      rw [units_eq_signed_mul a (Nat.le_max_left _ _) hs,
        units_eq_signed_mul b (Nat.le_max_right _ _) hs, tmod_signed, Nat.mul_mod_mul_right]
    have hpos : 0 < (b.scaled (max a.scale b.scale)).natAbs := by
      rw [scaled_eq, natAbs_signed]
      exact Nat.mul_pos (Nat.pos_of_ne_zero (by simpa [isZero] using hb)) (tenPow_pos _)
    simp only
    split
    · next heq =>
      rw [hmod, heq, Nat.mod_self, Nat.zero_mul, signed_zero]
      rfl
    · split
      · next hlt =>
        rw [hmod, Nat.mod_eq_of_lt hlt, ← units_eq_signed_mul a (Nat.le_max_left _ _) hs,
          Option.map_some]
      · -- one of the operands keeps its digits, and the remainder is not larger
        have hbound : (a.scaled (max a.scale b.scale)).natAbs %
            (b.scaled (max a.scale b.scale)).natAbs < bound := by
          rcases Nat.le_total b.scale a.scale with hle | hle
          · refine Nat.lt_of_le_of_lt (Nat.mod_le _ _) ?_
            rw [Nat.max_eq_left hle, scaled_eq, natAbs_signed, Nat.sub_self, tenPow, Nat.mul_one]
            exact a.mantissa_lt
          · refine Nat.lt_of_lt_of_le (Nat.mod_lt _ hpos) ?_
            rw [Nat.max_eq_right hle, scaled_eq, natAbs_signed, Nat.sub_self, tenPow, Nat.mul_one]
            exact b.mantissa_lt.le
        have hunsigned : units ∘ unsignedZero = units := funext units_unsignedZero
        rw [Option.map_map, hunsigned, map_units_ofParts? _ hbound hs, hmod, magnitude]

end FlatScript.Decimal
