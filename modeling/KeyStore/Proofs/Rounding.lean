import KeyStore.Score.Rounding
import KeyStore.Score.Shortest
import Mathlib.Algebra.Order.Field.Power
import Mathlib.Data.Rat.Cast.Order
import Mathlib.Tactic.FieldSimp
import Mathlib.Tactic.Linarith
import Mathlib.Tactic.NormNum
import Mathlib.Tactic.Positivity
import Mathlib.Tactic.Ring

/-!
# Rounding to the nearest score

The magnitude nearest to a fraction is the one in whose neighbourhood the fraction lies
(`Score.nearestMagnitude_of_contains`). A fraction in the neighbourhood of a normal magnitude above the least one is
read as that; one in the neighbourhood of a smaller magnitude only if no digit of it is lost.
-/

namespace KeyStore.Score

theorem pow_toNat {b : ℚ} (hb : b ≠ 0) (k : ℤ) : b ^ k.toNat = b ^ k * b ^ (-k).toNat := by
  rw [← zpow_natCast, ← zpow_natCast, ← zpow_add₀ hb]
  congr 1
  omega

theorem zpow_le_of_lt_succ {f g : ℤ} {x : ℚ} (hf : (2 : ℚ) ^ f ≤ x) (hg : x < 2 ^ (g + 1)) : f ≤ g := by
  have hlt : (2 : ℚ) ^ f < 2 ^ (g + 1) := hf.trans_lt hg
  have := (zpow_lt_zpow_iff_right₀ (by norm_num : (1 : ℚ) < 2)).1 hlt
  omega

variable {num den : Nat}

theorem inUnits_pos (k : Int) (num : Nat) (hden : 0 < den) : 0 < (inUnits k num den).2 := by
  simp only [inUnits, Nat.shiftLeft_eq]
  exact Nat.mul_pos hden (Nat.two_pow_pos _)

theorem inUnits_div (k : Int) (num : Nat) (hden : 0 < den) :
    ((inUnits k num den).1 : ℚ) / (inUnits k num den).2 = num / den / 2 ^ k := by
  have hpos : (0 : ℚ) < den := Nat.cast_pos.2 hden
  simp only [inUnits, Nat.shiftLeft_eq, Nat.cast_mul, Nat.cast_pow, Nat.cast_ofNat]
  rw [pow_toNat two_ne_zero k]
  have hk : (0 : ℚ) < 2 ^ k := zpow_pos two_pos k
  have hn : (0 : ℚ) < 2 ^ (-k).toNat := pow_pos two_pos _
  field_simp

theorem floorLog2_spec (hnum : 0 < num) (hden : 0 < den) :
    (2 : ℚ) ^ floorLog2 num den ≤ num / den ∧ (num / den : ℚ) < 2 ^ (floorLog2 num den + 1) := by
  have hd : (0 : ℚ) < den := Nat.cast_pos.2 hden
  have hn₁ : (2 : ℚ) ^ num.log2 ≤ num := by exact_mod_cast Nat.log2_self_le hnum.ne'
  have hn₂ : (num : ℚ) < 2 ^ (num.log2 + 1) := by exact_mod_cast Nat.lt_log2_self
  have hd₁ : (2 : ℚ) ^ den.log2 ≤ den := by exact_mod_cast Nat.log2_self_le hden.ne'
  have hd₂ : (den : ℚ) < 2 ^ (den.log2 + 1) := by exact_mod_cast Nat.lt_log2_self
  set k : ℤ := (num.log2 : ℤ) - den.log2 with hk
  have hlow : (2 : ℚ) ^ (k - 1) ≤ num / den := by
    have hpow : (2 : ℚ) ^ (k - 1) * 2 ^ (den.log2 + 1) = 2 ^ num.log2 := by
      rw [← zpow_natCast, ← zpow_natCast, ← zpow_add₀ two_ne_zero]
      congr 1
      omega
    rw [le_div_iff₀ hd]
    calc (2 : ℚ) ^ (k - 1) * den ≤ 2 ^ (k - 1) * 2 ^ (den.log2 + 1) :=
          mul_le_mul_of_nonneg_left hd₂.le (zpow_pos two_pos _).le
      _ ≤ num := hpow ▸ hn₁
  have hhigh : (num / den : ℚ) < 2 ^ (k + 1) := by
    have hpow : (2 : ℚ) ^ (k + 1) * 2 ^ den.log2 = 2 ^ (num.log2 + 1) := by
      rw [← zpow_natCast, ← zpow_natCast, ← zpow_add₀ two_ne_zero]
      congr 1
      omega
    rw [div_lt_iff₀ hd]
    calc (num : ℚ) < 2 ^ (k + 1) * 2 ^ den.log2 := hpow ▸ hn₂
      _ ≤ 2 ^ (k + 1) * den := mul_le_mul_of_nonneg_left hd₁ (zpow_pos two_pos _).le
  have hunits : (inUnits k num den).2 ≤ (inUnits k num den).1 ↔ (2 : ℚ) ^ k ≤ num / den := by
    have hpos : (0 : ℚ) < (inUnits k num den).2 := Nat.cast_pos.2 (inUnits_pos k num hden)
    rw [← Nat.cast_le (α := ℚ), ← one_le_div₀ hpos, inUnits_div k num hden, one_le_div₀ (zpow_pos two_pos k)]
  simp only [floorLog2, ← hk, hunits]
  split
  · next h => exact ⟨h, hhigh⟩
  · next h => exact ⟨hlow, by simpa using h⟩

theorem floorLog2_eq {k : ℤ} (hnum : 0 < num) (hden : 0 < den) (hlow : (2 : ℚ) ^ k ≤ num / den)
    (hhigh : (num / den : ℚ) < 2 ^ (k + 1)) : floorLog2 num den = k := by
  obtain ⟨h₁, h₂⟩ := floorLog2_spec hnum hden
  exact le_antisymm (zpow_le_of_lt_succ h₁ hhigh) (zpow_le_of_lt_succ hlow h₂)

/-- A fraction at most half a unit from `n`, and less than that if `n` is odd, is rounded to `n`. -/
theorem roundHalfEven_eq {n : Nat} (hden : 0 < den) (hlow : 2 * (n * den) ≤ 2 * num + den)
    (hhigh : 2 * num ≤ 2 * (n * den) + den)
    (htie : n % 2 = 0 ∨ 2 * (n * den) < 2 * num + den ∧ 2 * num < 2 * (n * den) + den) :
    roundHalfEven num den = n := by
  have hdiv := Nat.div_add_mod num den
  have hrem := Nat.mod_lt num hden
  rw [Nat.mul_comm] at hdiv
  obtain rfl | rfl : n = num / den ∨ n = num / den + 1 := by
    rcases Nat.lt_trichotomy n (num / den) with hlt | heq | hgt
    · have hmul := Nat.mul_le_mul_right den hlt
      rw [Nat.succ_mul] at hmul
      omega
    · exact .inl heq
    · refine .inr (Nat.le_antisymm (Nat.le_of_not_lt fun hlt => ?_) hgt)
      have hmul := Nat.mul_le_mul_right den hlt
      rw [Nat.succ_mul, Nat.succ_mul] at hmul
      omega
  · simp only [roundHalfEven]
    split
    · rfl
    · split <;> omega
  · rw [Nat.add_one_mul (num / den) den] at hlow hhigh htie
    simp only [roundHalfEven]
    split
    · omega
    · split <;> omega

theorem roundHalfEven_of_div {n : Nat} (hden : 0 < den) (hlow : (n : ℚ) - 1 / 2 ≤ num / den)
    (hhigh : (num / den : ℚ) ≤ n + 1 / 2)
    (htie : n % 2 = 0 ∨ (n : ℚ) - 1 / 2 < num / den ∧ (num / den : ℚ) < n + 1 / 2) :
    roundHalfEven num den = n := by
  have hd : (0 : ℚ) < den := Nat.cast_pos.2 hden
  rw [le_div_iff₀ hd] at hlow
  rw [div_le_iff₀ hd] at hhigh
  rw [lt_div_iff₀ hd, div_lt_iff₀ hd] at htie
  refine roundHalfEven_eq hden ?_ ?_ (htie.imp id fun h => ⟨?_, ?_⟩)
  · have : (2 * (n * den) : ℚ) ≤ 2 * num + den := by linarith
    exact_mod_cast this
  · have : (2 * num : ℚ) ≤ 2 * (n * den) + den := by linarith
    exact_mod_cast this
  · have : (2 * (n * den) : ℚ) < 2 * num + den := by linarith
    exact_mod_cast this
  · have : (2 * num : ℚ) < 2 * (n * den) + den := by linarith
    exact_mod_cast this

/-- A number at most half a unit from `n` units, and less than that if `n` is odd, is rounded to `n` units. -/
theorem roundHalfEven_inUnits {n : Nat} {k : ℤ} (hden : 0 < den) (hlow : (n - 1 / 2 : ℚ) * 2 ^ k ≤ num / den)
    (hhigh : (num / den : ℚ) ≤ (n + 1 / 2) * 2 ^ k)
    (htie : n % 2 = 0 ∨ (n - 1 / 2 : ℚ) * 2 ^ k < num / den ∧ (num / den : ℚ) < (n + 1 / 2) * 2 ^ k) :
    roundHalfEven (inUnits k num den).1 (inUnits k num den).2 = n := by
  have hk : (0 : ℚ) < 2 ^ k := zpow_pos two_pos k
  refine roundHalfEven_of_div (inUnits_pos k num hden) ?_ ?_ ?_ <;> rw [inUnits_div k num hden]
  · rwa [le_div_iff₀ hk]
  · rwa [div_le_iff₀ hk]
  · rwa [lt_div_iff₀ hk, div_lt_iff₀ hk]

variable {m : Nat}

theorem significand_of_lt (h : m < hiddenBit) : significand m = m := if_pos h

theorem significand_of_le (h : hiddenBit ≤ m) : significand m = m % hiddenBit + hiddenBit := if_neg (Nat.not_lt.2 h)

theorem significand_lt (m : Nat) : significand m < 2 * hiddenBit := by
  have hbit : hiddenBit = 4503599627370496 := rfl
  rcases Nat.lt_or_ge m hiddenBit with h | h
  · rw [significand_of_lt h]
    omega
  · rw [significand_of_le h]
    simp only [hbit]
    omega

theorem significand_pos (hm : 0 < m) : 0 < significand m := by
  have hbit : hiddenBit = 4503599627370496 := rfl
  rcases Nat.lt_or_ge m hiddenBit with h | h
  · rwa [significand_of_lt h]
  · rw [significand_of_le h]
    omega

theorem le_exponent (m : Nat) : -1074 ≤ exponent m := by
  simp only [exponent]
  omega

theorem hiddenBit_le_significand (h : hiddenBit ≤ m) : hiddenBit ≤ significand m := by
  rw [significand_of_le h]
  exact Nat.le_add_left _ _

theorem hiddenBit_le_of_exponent (h : -1074 < exponent m) : 2 * hiddenBit ≤ m := by
  have hbit : hiddenBit = 4503599627370496 := rfl
  simp only [exponent, hbit] at h ⊢
  omega

theorem magnitude_eq (m : Nat) : (exponent m + 1074).toNat * hiddenBit + significand m = m := by
  have hbit : hiddenBit = 4503599627370496 := rfl
  rcases Nat.lt_or_ge m hiddenBit with h | h
  · rw [significand_of_lt h, exponent]
    simp only [hbit] at h ⊢
    omega
  · rw [significand_of_le h, exponent]
    simp only [hbit] at h ⊢
    omega

def Neighbourhood.Contains (n : Neighbourhood) (x : ℚ) : Prop :=
  if n.closed then n.low * 2 ^ n.exponent ≤ x ∧ x ≤ n.high * 2 ^ n.exponent
  else n.low * 2 ^ n.exponent < x ∧ x < n.high * 2 ^ n.exponent

theorem Neighbourhood.Contains.bounds {n : Neighbourhood} {x : ℚ} (h : n.Contains x) :
    n.low * 2 ^ n.exponent ≤ x ∧ x ≤ n.high * 2 ^ n.exponent := by
  unfold Contains at h
  split at h
  · exact h
  · exact ⟨h.1.le, h.2.le⟩

theorem le_low (m : Nat) : 4 * significand m ≤ (neighbourhood m).low + 2 := by
  simp only [neighbourhood]
  split <;> omega

theorem low_lt (hm : 0 < m) : (neighbourhood m).low < 4 * significand m := by
  have hpos := significand_pos hm
  simp only [neighbourhood]
  split <;> omega

theorem low_of_power (hs : significand m = hiddenBit) (h : 2 * hiddenBit ≤ m) :
    4 * significand m = (neighbourhood m).low + 1 := by
  have hbit : hiddenBit = 4503599627370496 := rfl
  simp only [neighbourhood, if_pos (And.intro hs h)]
  omega

/-- The ends of a neighbourhood, in units of a quarter of the spacing; they belong to it if the significand is even. -/
theorem ends_of_contains {x : ℚ} (h : (neighbourhood m).Contains x) :
    ((4 * significand m - 2 : ℚ) * 2 ^ (exponent m - 2) ≤ x ∧ x ≤ (4 * significand m + 2) * 2 ^ (exponent m - 2)) ∧
      (significand m % 2 = 0 ∨ (4 * significand m - 2 : ℚ) * 2 ^ (exponent m - 2) < x ∧
        x < (4 * significand m + 2) * 2 ^ (exponent m - 2)) := by
  have hu : (0 : ℚ) < 2 ^ (exponent m - 2) := zpow_pos two_pos _
  have hlow : (4 * significand m - 2 : ℚ) ≤ (neighbourhood m).low := by
    have : (4 * significand m : ℚ) ≤ (neighbourhood m).low + 2 := by exact_mod_cast le_low m
    linarith
  have hhigh : ((neighbourhood m).high : ℚ) = 4 * significand m + 2 := by
    simp only [neighbourhood]
    push_cast
    rfl
  have hscaled := mul_le_mul_of_nonneg_right hlow hu.le
  obtain ⟨h₁, h₂⟩ := h.bounds
  rw [hhigh] at h₂
  refine ⟨⟨hscaled.trans h₁, h₂⟩, ?_⟩
  by_cases heven : significand m % 2 = 0
  · exact .inl heven
  · have hopen : (neighbourhood m).closed = false := decide_eq_false heven
    simp only [Neighbourhood.Contains, hopen, Bool.false_eq_true, if_false, hhigh] at h
    exact .inr ⟨hscaled.trans_lt h.1, h.2⟩

theorem range_of_contains (hm : 0 < m) (hfinite : m < infiniteMagnitude) {x : ℚ} (h : (neighbourhood m).Contains x) :
    2 ^ (-1075 : ℤ) ≤ x ∧ x < 2 ^ (1024 : ℤ) := by
  obtain ⟨⟨hlow, hhigh⟩, -⟩ := ends_of_contains h
  have hs : (significand m : ℚ) + 1 ≤ 2 ^ 53 := by exact_mod_cast significand_lt m
  have hpos : (1 : ℚ) ≤ significand m := by exact_mod_cast significand_pos hm
  have hle := le_exponent m
  have hexp : exponent m ≤ 971 := by
    simp only [exponent, infiniteMagnitude, hiddenBit] at hfinite ⊢
    omega
  have hu : (0 : ℚ) < 2 ^ (exponent m - 2) := zpow_pos two_pos _
  constructor
  · calc (2 : ℚ) ^ (-1075 : ℤ) ≤ 2 ^ (exponent m - 2 + 1) := zpow_le_zpow_right₀ (by norm_num) (by omega)
      _ = 2 * 2 ^ (exponent m - 2) := by rw [zpow_add_one₀ two_ne_zero, mul_comm]
      _ ≤ (4 * significand m - 2) * 2 ^ (exponent m - 2) := mul_le_mul_of_nonneg_right (by linarith) hu.le
      _ ≤ x := hlow
  · calc x ≤ (4 * significand m + 2) * 2 ^ (exponent m - 2) := hhigh
      _ < 2 ^ 55 * 2 ^ (exponent m - 2) := mul_lt_mul_of_pos_right (by linarith) hu
      _ = 2 ^ (exponent m - 2 + (55 : ℕ)) := by rw [zpow_add₀ two_ne_zero, zpow_natCast, mul_comm]
      _ ≤ 2 ^ (1024 : ℤ) := zpow_le_zpow_right₀ (by norm_num) (by omega)

theorem pos_of_contains (hm : 0 < m) (hfinite : m < infiniteMagnitude) {x : ℚ} (h : (neighbourhood m).Contains x) :
    0 < x := (zpow_pos two_pos _).trans_le (range_of_contains hm hfinite h).1

theorem num_pos_of_contains (hm : 0 < m) (hfinite : m < infiniteMagnitude)
    (h : (neighbourhood m).Contains (num / den)) : 0 < num := by
  have hpos := pos_of_contains hm hfinite h
  exact Nat.pos_of_ne_zero fun hzero => by simp [hzero] at hpos

theorem zpow_quarter (e : ℤ) (k : ℕ) : (2 : ℚ) ^ (e - 2 + k) = 2 ^ k * 2 ^ (e - 2) := by
  rw [zpow_add₀ two_ne_zero, zpow_natCast, mul_comm]

theorem zpow_quarters (e : ℤ) : (2 : ℚ) ^ e = 4 * 2 ^ (e - 2) := by
  have h := zpow_quarter e 2
  rw [show e - 2 + (2 : ℕ) = e by omega] at h
  rw [h]
  norm_num

/-- In its own spacing a fraction is rounded to the significand of the magnitude in whose neighbourhood it lies. -/
theorem nearestMagnitude_of_spacing (hden : 0 < den) (h : (neighbourhood m).Contains (num / den))
    (hspacing : spacing num den = exponent m) : nearestMagnitude num den = m := by
  obtain ⟨⟨hlow, hhigh⟩, htie⟩ := ends_of_contains h
  have hquarters := zpow_quarters (exponent m)
  have hround : roundHalfEven (inUnits (exponent m) num den).1 (inUnits (exponent m) num den).2 = significand m := by
    refine roundHalfEven_inUnits hden ?_ ?_ (htie.imp id fun h => ⟨?_, ?_⟩) <;> rw [hquarters] <;> linarith
  simp only [nearestMagnitude, hspacing, hround]
  exact magnitude_eq m

theorem significand_of_contains_of_lt {x : ℚ} (h : (neighbourhood m).Contains x) (hexp : -1074 < exponent m)
    (hlt : x < 2 ^ (exponent m + 52)) : significand m = hiddenBit := by
  have hu : (0 : ℚ) < 2 ^ (exponent m - 2) := zpow_pos two_pos _
  have hnormal := hiddenBit_le_of_exponent hexp
  refine Nat.le_antisymm (Nat.le_of_not_lt fun hgt => ?_) (hiddenBit_le_significand (by omega))
  have hgt' : (2 ^ 52 + 1 : ℚ) ≤ significand m := by exact_mod_cast hgt
  have hscaled := mul_le_mul_of_nonneg_right (show (2 ^ 54 : ℚ) ≤ 4 * significand m - 2 by linarith) hu.le
  have hlow := (ends_of_contains h).1.1
  rw [show exponent m + 52 = exponent m - 2 + (54 : ℕ) by omega, zpow_quarter] at hlt
  linarith

theorem nearestMagnitude_of_lt (hnum : 0 < num) (hden : 0 < den) (h : (neighbourhood m).Contains (num / den))
    (hexp : -1074 < exponent m) (hlt : (num / den : ℚ) < 2 ^ (exponent m + 52)) : nearestMagnitude num den = m := by
  have hbit : hiddenBit = 4503599627370496 := rfl
  have hu : (0 : ℚ) < 2 ^ (exponent m - 2) := zpow_pos two_pos _
  have hpower := significand_of_contains_of_lt h hexp hlt
  have hlow : (2 ^ 54 - 1 : ℚ) * 2 ^ (exponent m - 2) ≤ num / den := by
    have hlow : ((neighbourhood m).low : ℚ) * 2 ^ (exponent m - 2) ≤ num / den := h.bounds.1
    have hlast := low_of_power hpower (hiddenBit_le_of_exponent hexp)
    rw [hpower, hbit] at hlast
    have hcast : ((neighbourhood m).low : ℚ) + 1 = 4 * 4503599627370496 := by exact_mod_cast hlast.symm
    rwa [show ((neighbourhood m).low : ℚ) = 2 ^ 54 - 1 by linarith] at hlow
  have hfloor : floorLog2 num den = exponent m + 51 := by
    refine floorLog2_eq hnum hden ?_ ?_
    · rw [show exponent m + 51 = exponent m - 2 + (53 : ℕ) by omega, zpow_quarter]
      linarith
    · rwa [show exponent m + 51 + 1 = exponent m + 52 by omega]
  have hspacing : spacing num den = exponent m - 1 := by
    simp only [spacing, hfloor]
    omega
  have hround : roundHalfEven (inUnits (exponent m - 1) num den).1 (inUnits (exponent m - 1) num den).2 = 2 ^ 53 := by
    have hhalves : (2 : ℚ) ^ (exponent m - 1) = 2 * 2 ^ (exponent m - 2) := by
      rw [show exponent m - 1 = exponent m - 2 + (1 : ℕ) by omega, zpow_quarter]
      norm_num
    rw [show exponent m + 52 = exponent m - 2 + (54 : ℕ) by omega, zpow_quarter] at hlt
    refine roundHalfEven_inUnits hden ?_ ?_ (.inl (by norm_num)) <;> rw [hhalves] <;> push_cast <;> linarith
  have hmag := magnitude_eq m
  have hstep : (exponent m + 1074).toNat = (exponent m - 1 + 1074).toNat + 1 := by omega
  rw [hpower, hstep, Nat.succ_mul, Nat.add_assoc] at hmag
  simp only [nearestMagnitude, hspacing, hround]
  exact hmag

theorem nearestMagnitude_of_contains (hm : 0 < m) (hfinite : m < infiniteMagnitude) (hden : 0 < den)
    (h : (neighbourhood m).Contains (num / den)) : nearestMagnitude num den = m := by
  have hnum := num_pos_of_contains hm hfinite h
  obtain ⟨hlow, hhigh⟩ := floorLog2_spec hnum hden
  have hle := le_exponent m
  -- the spacing is not wider than that of the magnitude
  have hfloor : floorLog2 num den ≤ exponent m + 52 := by
    refine zpow_le_of_lt_succ hlow ?_
    have hs : (significand m : ℚ) + 1 ≤ 2 ^ 53 := by exact_mod_cast significand_lt m
    have hu : (0 : ℚ) < 2 ^ (exponent m - 2) := zpow_pos two_pos _
    rw [show exponent m + 52 + 1 = exponent m - 2 + (55 : ℕ) by omega, zpow_quarter]
    exact (ends_of_contains h).1.2.trans_lt (mul_lt_mul_of_pos_right (by linarith) hu)
  rcases lt_or_ge (num / den : ℚ) (2 ^ (exponent m + 52)) with hlt | hge
  · rcases hle.lt_or_eq with hexp | hexp
    · exact nearestMagnitude_of_lt hnum hden h hexp hlt
    · refine nearestMagnitude_of_spacing hden h ?_
      simp only [spacing]
      omega
  · have := zpow_le_of_lt_succ hge hhigh
    refine nearestMagnitude_of_spacing hden h ?_
    simp only [spacing]
    omega

theorem exponent_of_lt (h : m < 2 * hiddenBit) : exponent m = -1074 := by
  have hbit : hiddenBit = 4503599627370496 := rfl
  simp only [exponent, hbit] at h ⊢
  omega

theorem shiftLeft_lt_iff (places c : Nat) (hden : 0 < den) :
    num <<< places < c * den ↔ (num / den : ℚ) < c * 2 ^ (-places : ℤ) := by
  have hd : (0 : ℚ) < den := Nat.cast_pos.2 hden
  have hp : (0 : ℚ) < 2 ^ places := pow_pos two_pos places
  rw [Nat.shiftLeft_eq, ← Nat.cast_lt (α := ℚ), zpow_neg, zpow_natCast, ← div_eq_mul_inv, div_lt_div_iff₀ hd hp]
  push_cast
  exact Iff.rfl

theorem isTiny_iff (hden : 0 < den) :
    isTiny num den = true ↔ (num / den : ℚ) < (4 * hiddenBit - 1) * 2 ^ (-1076 : ℤ) := by
  have hcast : ((4 * hiddenBit - 1 : ℕ) : ℚ) = 4 * hiddenBit - 1 := by
    simp only [hiddenBit]
    norm_num
  rw [isTiny, decide_eq_true_eq, shiftLeft_lt_iff 1076 _ hden, hcast]
  exact Iff.rfl

theorem isTiny_of_lt (hlt : m < hiddenBit) (hden : 0 < den) (h : (neighbourhood m).Contains (num / den)) :
    isTiny num den = true := by
  have hbit : hiddenBit = 4503599627370496 := rfl
  obtain ⟨⟨-, hhigh⟩, -⟩ := ends_of_contains h
  rw [isTiny_iff hden]
  rw [exponent_of_lt (by omega), significand_of_lt hlt] at hhigh
  have hm : (m : ℚ) + 1 ≤ hiddenBit := by exact_mod_cast hlt
  exact hhigh.trans_lt (mul_lt_mul_of_pos_right (by linarith) (zpow_pos two_pos _))

theorem isTiny_of_gt (hlt : hiddenBit < m) (hden : 0 < den) (h : (neighbourhood m).Contains (num / den)) :
    isTiny num den = false := by
  have hbit : hiddenBit = 4503599627370496 := rfl
  obtain ⟨⟨hlow, -⟩, -⟩ := ends_of_contains h
  rw [← Bool.not_eq_true, isTiny_iff hden, not_lt]
  refine le_trans ?_ hlow
  rcases Nat.lt_or_ge m (2 * hiddenBit) with hsmall | hlarge
  · have hs : significand m = m := by
      rw [significand_of_le hlt.le]
      simp only [hbit] at hsmall hlt ⊢
      omega
    have hm : (hiddenBit : ℚ) + 1 ≤ m := by exact_mod_cast hlt
    rw [exponent_of_lt hsmall, hs]
    exact mul_le_mul_of_nonneg_right (by linarith) (zpow_pos two_pos _).le
  · have hexp : -1073 ≤ exponent m := by
      simp only [exponent, hbit] at hlarge ⊢
      omega
    have hs : (hiddenBit : ℚ) ≤ significand m := by exact_mod_cast hiddenBit_le_significand hlt.le
    have hpow : (2 : ℚ) ^ (-1076 : ℤ) * 2 ≤ 2 ^ (exponent m - 2) := by
      rw [← zpow_add_one₀ two_ne_zero]
      exact zpow_le_zpow_right₀ (by norm_num) (by omega)
    have hpos : (0 : ℚ) < 2 ^ (-1076 : ℤ) := zpow_pos two_pos _
    have hbit' : (hiddenBit : ℚ) = 4503599627370496 := by exact_mod_cast hbit
    calc (4 * hiddenBit - 1 : ℚ) * 2 ^ (-1076 : ℤ) ≤ (4 * hiddenBit - 2) * (2 ^ (-1076 : ℤ) * 2) := by
          rw [hbit']
          linarith
      _ ≤ (4 * significand m - 2) * 2 ^ (exponent m - 2) :=
          mul_le_mul (by linarith) hpow (by positivity) (by linarith)

/-- The score that a fraction in the neighbourhood of a magnitude is read as. -/
theorem ofFraction?_of_contains (hm : 0 < m) (hfinite : m < infiniteMagnitude) (hden : 0 < den)
    (h : (neighbourhood m).Contains (num / den)) (places : Nat) (negative : Bool) :
    ofFraction? places negative num den =
      if isTiny num den && !isKept places num den then none else some (ofMagnitude negative m) := by
  have hnum := (num_pos_of_contains hm hfinite h).ne'
  simp only [ofFraction?, if_neg hnum, nearestMagnitude_of_contains hm hfinite hden h, if_pos hfinite]

end KeyStore.Score
