import KeyStore.Score.Reader
import Mathlib.Data.EReal.Operations
import Mathlib.Data.Int.ConditionallyCompleteOrder

/-!
# Scores as numbers

The number that the bits of a score stand for (`Score.number`). Positions are ordered as the numbers are, and equal
where the numbers are equal, unless a score is no number (`Score.number_lt_iff`, `Score.number_eq_iff`). No text is read
as such a score.
-/

namespace KeyStore.Score

noncomputable def absolute (m : Nat) : EReal :=
  if m = infiniteMagnitude then ⊤ else ((significand m : ℝ) * 2 ^ exponent m : ℝ)

/-- The number that a score is. -/
noncomputable def number (x : Score) : EReal := if x.isNegative then -absolute x.magnitude else absolute x.magnitude

/-- A finite absolute value in units of the least one above zero, which is 2 ^ -1074. -/
def units (m : Nat) : Nat := significand m * 2 ^ (exponent m + 1074).toNat

theorem units_of_lt {m : Nat} (h : m < hiddenBit) : units m = m := by
  have hexp : (exponent m + 1074).toNat = 0 := by
    simp only [exponent, Nat.div_eq_of_lt h]
    decide
  rw [units, significand, if_pos h, hexp, Nat.pow_zero, Nat.mul_one]

theorem units_of_le {m : Nat} (h : hiddenBit ≤ m) :
    units m = (m % hiddenBit + hiddenBit) * 2 ^ (m / hiddenBit - 1) := by
  have hpos : 1 ≤ m / hiddenBit := (Nat.one_le_div_iff (by decide)).2 h
  have hexp : (exponent m + 1074).toNat = m / hiddenBit - 1 := by
    simp only [exponent]
    omega
  rw [units, significand, if_neg (Nat.not_lt.2 h), hexp]

theorem units_lt_succ (m : Nat) : units m < units (m + 1) := by
  have hbit : hiddenBit = 4503599627370496 := rfl
  rcases Nat.lt_or_ge (m + 1) hiddenBit with hlt | hge
  · rw [units_of_lt hlt, units_of_lt (Nat.lt_of_succ_lt hlt)]
    exact Nat.lt_succ_self m
  rcases Nat.lt_or_ge m hiddenBit with hlt' | hge'
  · obtain hm : m + 1 = hiddenBit := by omega
    rw [units_of_lt hlt', units_of_le hge, hm, Nat.mod_self, Nat.div_self (by decide)]
    omega
  rw [units_of_le hge, units_of_le hge']
  by_cases hsame : (m + 1) / hiddenBit = m / hiddenBit
  · have hmod : (m + 1) % hiddenBit = m % hiddenBit + 1 := by
      simp only [hbit] at hsame ⊢
      omega
    rw [hsame, hmod]
    exact Nat.mul_lt_mul_of_pos_right (by omega) (Nat.two_pow_pos _)
  · have hnext : (m + 1) / hiddenBit - 1 = m / hiddenBit - 1 + 1 := by
      simp only [hbit] at hge' hsame ⊢
      omega
    have hmod : m % hiddenBit = hiddenBit - 1 ∧ (m + 1) % hiddenBit = 0 := by
      simp only [hbit] at hsame ⊢
      omega
    rw [hnext, hmod.1, hmod.2, Nat.pow_succ, Nat.zero_add, Nat.mul_comm (2 ^ _) 2, ← Nat.mul_assoc]
    exact Nat.mul_lt_mul_of_pos_right (by omega) (Nat.two_pow_pos _)

theorem strictMono_units : StrictMono units := strictMono_nat_of_lt_succ units_lt_succ

theorem absolute_of_ne {m : Nat} (h : m ≠ infiniteMagnitude) :
    absolute m = ((units m * 2 ^ (-1074 : ℤ) : ℝ) : EReal) := by
  have hexp : ((exponent m + 1074).toNat : ℤ) = exponent m + 1074 := by
    simp only [exponent]
    omega
  have hpow : (2 : ℝ) ^ exponent m = 2 ^ (exponent m + 1074).toNat * 2 ^ (-1074 : ℤ) := by
    rw [← zpow_natCast, hexp, ← zpow_add₀ (by norm_num)]
    congr 1
    omega
  rw [absolute, if_neg h, hpow, units, ← mul_assoc, Nat.cast_mul, Nat.cast_pow, Nat.cast_ofNat]

theorem absolute_zero : absolute 0 = 0 := by
  rw [absolute_of_ne (by decide), units_of_lt (by decide)]
  norm_num

theorem absolute_lt {m n : Nat} (h : m < n) (hn : n ≤ infiniteMagnitude) : absolute m < absolute n := by
  rw [absolute_of_ne (by omega)]
  by_cases htop : n = infiniteMagnitude
  · rw [absolute, if_pos htop]
    exact EReal.coe_lt_top _
  · rw [absolute_of_ne htop, EReal.coe_lt_coe_iff]
    have hunits : (units m : ℝ) < units n := Nat.cast_lt.2 (strictMono_units h)
    exact mul_lt_mul_of_pos_right hunits (zpow_pos two_pos _)

noncomputable def ofPosition (p : Int) : EReal := if p < 0 then -absolute p.natAbs else absolute p.natAbs

theorem ofPosition_position (x : Score) : ofPosition x.position = x.number := by
  unfold ofPosition number position
  cases x.isNegative with
  | false => simp
  | true =>
    rcases Nat.eq_zero_or_pos x.magnitude with hzero | hpos
    · simp [hzero, absolute_zero]
    · simp [hpos]

theorem strictMonoOn_ofPosition : StrictMonoOn ofPosition {p | p.natAbs ≤ infiniteMagnitude} := by
  intro p hp q hq hpq
  have hp : p.natAbs ≤ infiniteMagnitude := hp
  have hq : q.natAbs ≤ infiniteMagnitude := hq
  unfold ofPosition
  by_cases hpneg : p < 0
  · rw [if_pos hpneg]
    by_cases hqneg : q < 0
    · rw [if_pos hqneg, EReal.neg_lt_neg_iff]
      exact absolute_lt (by omega) hp
    · -- below zero, and not below it
      have hpos : 0 < absolute p.natAbs := absolute_zero ▸ absolute_lt (by omega) hp
      have hnonneg : 0 ≤ absolute q.natAbs := by
        rcases Nat.eq_zero_or_pos q.natAbs with hzero | hq'
        · rw [hzero, absolute_zero]
        · exact absolute_zero ▸ (absolute_lt hq' hq).le
      rw [if_neg hqneg]
      exact (EReal.neg_lt_comm.1 (by simpa using hpos)).trans_le hnonneg
  · rw [if_neg hpneg, if_neg (by omega)]
    exact absolute_lt (by omega) hq

theorem natAbs_position_le {x : Score} (h : x.isNaN = false) : x.position.natAbs ≤ infiniteMagnitude := by
  have hle : x.magnitude ≤ infiniteMagnitude := by simpa [isNaN] using h
  unfold position
  split <;> omega

theorem number_lt_iff {x y : Score} (hx : x.isNaN = false) (hy : y.isNaN = false) :
    x.number < y.number ↔ x.position < y.position := by
  rw [← ofPosition_position, ← ofPosition_position]
  exact strictMonoOn_ofPosition.lt_iff_lt (natAbs_position_le hx) (natAbs_position_le hy)

theorem number_eq_iff {x y : Score} (hx : x.isNaN = false) (hy : y.isNaN = false) :
    x.number = y.number ↔ x.position = y.position := by
  rw [← ofPosition_position, ← ofPosition_position]
  exact strictMonoOn_ofPosition.injOn.eq_iff (natAbs_position_le hx) (natAbs_position_le hy)

theorem magnitude_ofMagnitude {m : Nat} (h : m < signBit) (negative : Bool) :
    (ofMagnitude negative m).magnitude = m := by
  have hbit : signBit = 9223372036854775808 := rfl
  have hlt : (if negative then signBit + m else m) < 18446744073709551616 := by split <;> omega
  have hbits : ((if negative then signBit + m else m).toUInt64).toNat = if negative then signBit + m else m := by
    simpa using Nat.mod_eq_of_lt hlt
  rw [magnitude, ofMagnitude, hbits]
  cases negative with
  | true => exact (Nat.add_mod_left signBit m).trans (Nat.mod_eq_of_lt h)
  | false => exact Nat.mod_eq_of_lt h

theorem isNaN_ofMagnitude {m : Nat} (h : m ≤ infiniteMagnitude) (negative : Bool) :
    (ofMagnitude negative m).isNaN = false := by
  have hlt : m < signBit := Nat.lt_of_le_of_lt h (by decide)
  simpa [isNaN, magnitude_ofMagnitude hlt] using h

theorem isNaN_ofFraction? {places num den : Nat} {negative : Bool} {x : Score}
    (h : ofFraction? places negative num den = some x) : x.isNaN = false := by
  unfold ofFraction? at h
  simp only at h
  split at h
  · obtain rfl := Option.some.inj h
    exact isNaN_ofMagnitude (Nat.zero_le _) negative
  · split at h
    · cases h
    · split at h
      · next hfinite =>
        obtain rfl := Option.some.inj h
        exact isNaN_ofMagnitude hfinite.le negative
      · cases h

theorem isNaN_ofDecimal {negative : Bool} {s : Bytes} {x : Score} (h : ofDecimal negative s = some x) :
    x.isNaN = false := by
  unfold ofDecimal at h
  simp only at h
  split at h
  · cases h
  split at h
  · cases h
  split at h
  · obtain rfl := Option.some.inj h
    exact isNaN_ofMagnitude (Nat.zero_le _) negative
  split at h
  · cases h
  · exact isNaN_ofFraction? h

theorem isNaN_ofHexadecimal {negative : Bool} {s : Bytes} {x : Score} (h : ofHexadecimal negative s = some x) :
    x.isNaN = false := by
  unfold ofHexadecimal at h
  simp only at h
  split at h
  · cases h
  split at h
  · cases h
  split at h
  · obtain rfl := Option.some.inj h
    exact isNaN_ofMagnitude (Nat.zero_le _) negative
  split at h
  · cases h
  · exact isNaN_ofFraction? h

theorem isNaN_ofUnsigned {negative : Bool} {s : Bytes} {x : Score} (h : ofUnsigned negative s = some x) :
    x.isNaN = false := by
  unfold ofUnsigned at h
  simp only at h
  split at h
  · obtain rfl := Option.some.inj h
    exact isNaN_ofMagnitude (Nat.le_refl _) negative
  split at h
  · split at h
    · exact isNaN_ofHexadecimal h
    · exact isNaN_ofDecimal h
  · exact isNaN_ofDecimal h

/-- Whatever the text, the score that it is read as is a number. -/
theorem isNaN_read {s : Bytes} {x : Score} (h : read s = some x) : x.isNaN = false := by
  unfold read at h
  split at h <;> exact isNaN_ofUnsigned h

end KeyStore.Score
