import KeyStore.Proofs.Rounding

/-!
# The shortest decimal lies in the neighbourhood

Where a grid of powers of ten is finer than a neighbourhood is wide, a point of the grid is found in it. So the search
from coarse grids to finer ones ends at the `10 ^ -324` grid at the latest, and what it gives lies in the neighbourhood
(`Score.shortest_spec`).
-/

namespace KeyStore.Score

namespace Neighbourhood

variable {n : Neighbourhood} {k : Int}

theorem factors_pos (n : Neighbourhood) (k : Int) : 0 < (n.factors k).1 ∧ 0 < (n.factors k).2 := by
  simp only [factors, Nat.shiftLeft_eq, Nat.pow_eq]
  exact ⟨by positivity, by positivity⟩

/-- The factors count points of the grid and units in one measure. -/
theorem exists_measure (n : Neighbourhood) (k : Int) : ∃ r : ℚ, 0 < r ∧
    (∀ c : Nat, ((c * (n.factors k).1 : Nat) : ℚ) = c * 10 ^ k * r) ∧
    ∀ x : Nat, ((x * (n.factors k).2 : Nat) : ℚ) = x * 2 ^ n.exponent * r := by
  have hu : (0 : ℚ) < 2 ^ n.exponent := zpow_pos two_pos _
  have hb : (0 : ℚ) < (n.factors k).2 := Nat.cast_pos.2 (n.factors_pos k).2
  have hspec : ((n.factors k).1 : ℚ) * 2 ^ n.exponent = 10 ^ k * (n.factors k).2 := by
    simp only [factors, Nat.shiftLeft_eq, Nat.pow_eq]
    push_cast
    rw [pow_toNat (by norm_num : (10 : ℚ) ≠ 0) k, pow_toNat two_ne_zero n.exponent]
    ring
  refine ⟨(n.factors k).2 / 2 ^ n.exponent, div_pos hb hu, fun c => ?_, fun x => ?_⟩
  · rw [Nat.cast_mul, mul_div_assoc', eq_div_iff hu.ne', mul_assoc, hspec, mul_assoc]
  · rw [Nat.cast_mul]
    field_simp

theorem le_grid_iff (x c : Nat) :
    x * (n.factors k).2 ≤ c * (n.factors k).1 ↔ (x * 2 ^ n.exponent : ℚ) ≤ c * 10 ^ k := by
  obtain ⟨r, hr, hgrid, hunits⟩ := n.exists_measure k
  rw [← Nat.cast_le (α := ℚ), hgrid, hunits, mul_le_mul_iff_left₀ hr]

theorem grid_le_iff (x c : Nat) :
    c * (n.factors k).1 ≤ x * (n.factors k).2 ↔ (c * 10 ^ k : ℚ) ≤ x * 2 ^ n.exponent := by
  obtain ⟨r, hr, hgrid, hunits⟩ := n.exists_measure k
  rw [← Nat.cast_le (α := ℚ), hgrid, hunits, mul_le_mul_iff_left₀ hr]

theorem contains_of_holds {c : Nat} (h : n.holds (n.factors k).1 (n.factors k).2 c = true) :
    n.Contains (c * 10 ^ k) := by
  unfold holds at h
  unfold Contains
  split at h
  · next hclosed =>
    simp only [Bool.and_eq_true, decide_eq_true_eq] at h
    rw [if_pos hclosed]
    exact ⟨(le_grid_iff _ _).1 h.1, (grid_le_iff _ _).1 h.2⟩
  · next hopen =>
    simp only [Bool.and_eq_true, decide_eq_true_eq] at h
    rw [if_neg hopen]
    exact ⟨(lt_iff_lt_of_le_iff_le (grid_le_iff _ _)).1 h.1, (lt_iff_lt_of_le_iff_le (le_grid_iff _ _)).1 h.2⟩

theorem contains_of_gridPoint? {c : Nat} (h : n.gridPoint? k = some c) : n.Contains (c * 10 ^ k) := by
  simp only [gridPoint?] at h
  split at h
  · cases h
  · next hbelow _ =>
    obtain rfl := Option.some.inj h
    exact contains_of_holds hbelow
  · next _ habove =>
    obtain rfl := Option.some.inj h
    exact contains_of_holds habove
  · next hbelow habove =>
    split at h
    · obtain rfl := Option.some.inj h
      exact contains_of_holds hbelow
    · split at h
      · obtain rfl := Option.some.inj h
        exact contains_of_holds habove
      · obtain rfl := Option.some.inj h
        split
        · exact contains_of_holds hbelow
        · exact contains_of_holds habove

theorem exists_gridPoint? (hlow : n.low < n.middle) (hhigh : n.middle < n.high)
    (hwidth : (n.factors k).1 < (n.high - n.low) * (n.factors k).2) : ∃ c, n.gridPoint? k = some c := by
  obtain ⟨ha, hb⟩ := n.factors_pos k
  have hlow' := Nat.mul_lt_mul_of_pos_right hlow hb
  have hhigh' := Nat.mul_lt_mul_of_pos_right hhigh hb
  rw [Nat.sub_mul] at hwidth
  simp only [gridPoint?]
  generalize (n.factors k).1 = a at *
  generalize (n.factors k).2 = b at *
  have hbelow : n.middle * b / a * a ≤ n.middle * b := Nat.div_mul_le_self _ _
  have habove : n.middle * b < (n.middle * b / a + 1) * a := by
    rw [Nat.mul_comm _ a]
    exact Nat.lt_mul_div_succ _ ha
  have hnext : (n.middle * b / a + 1) * a = n.middle * b / a * a + a := Nat.succ_mul _ _
  split
  · next hnot hnot' =>
    -- then the interval would lie between two points of the grid
    exfalso
    cases hclosed : n.closed <;>
      simp only [holds, hclosed, if_true, Bool.false_eq_true, if_false, Bool.and_eq_false_iff,
        decide_eq_false_iff_not] at hnot hnot' <;> omega
  · exact ⟨_, rfl⟩
  · exact ⟨_, rfl⟩
  · split
    · exact ⟨_, rfl⟩
    · split <;> exact ⟨_, rfl⟩

/-- A search that reaches a grid with a point ends there or before. -/
theorem exists_coarsestFrom {last : Int} {fuel : Nat} (hlast : ∃ c, n.gridPoint? last = some c) (hle : last ≤ k)
    (hfuel : k - last < fuel) :
    ∃ c k', n.coarsestFrom fuel k = (c, k') ∧ n.gridPoint? k' = some c ∧ last ≤ k' := by
  induction fuel generalizing k with
  | zero => omega
  | succ fuel ih =>
    simp only [coarsestFrom]
    split
    · next c hc => exact ⟨c, k, rfl, hc, hle⟩
    · next hnone =>
      refine ih ?_ ?_
      · by_contra hlt
        obtain rfl : k = last := by omega
        obtain ⟨c, hc⟩ := hlast
        cases hnone.symm.trans hc
      · omega

end Neighbourhood

open Neighbourhood

variable {m : Nat}

theorem middle_lt_high (m : Nat) : (neighbourhood m).middle < (neighbourhood m).high := by
  simp only [neighbourhood]
  omega

theorem low_add_three_le (hm : 0 < m) : (neighbourhood m).low + 3 ≤ (neighbourhood m).high := by
  have hlt := low_lt hm
  have hhigh : (neighbourhood m).high = 4 * significand m + 2 := rfl
  omega

theorem topGrid_bounds (hm : 0 < m) (hfinite : m < infiniteMagnitude) :
    -324 ≤ (neighbourhood m).topGrid ∧ (neighbourhood m).topGrid ≤ 309 := by
  have hs := significand_lt m
  have hpos := significand_pos hm
  have hlog : 2 ≤ (4 * significand m).log2 ∧ (4 * significand m).log2 ≤ 54 := by
    have hne : 4 * significand m ≠ 0 := by omega
    have hlt : 4 * significand m < 2 ^ 55 := by
      simp only [hiddenBit] at hs
      omega
    exact ⟨(Nat.le_log2 hne).2 (by omega), Nat.le_of_lt_succ ((Nat.log2_lt hne).2 hlt)⟩
  have hexp : -1074 ≤ exponent m ∧ exponent m ≤ 971 := by
    refine ⟨le_exponent m, ?_⟩
    simp only [exponent, infiniteMagnitude, hiddenBit] at hfinite ⊢
    omega
  have hmiddle : (neighbourhood m).middle = 4 * significand m := rfl
  have hexponent : (neighbourhood m).exponent = exponent m - 2 := rfl
  simp only [topGrid, hmiddle, hexponent]
  generalize (4 * significand m).log2 = l at *
  omega

theorem finestGrid (hm : 0 < m) : ∃ c, (neighbourhood m).gridPoint? (-324) = some c := by
  refine exists_gridPoint? (low_lt hm) (middle_lt_high m) ?_
  have hexp : (neighbourhood m).exponent = exponent m - 2 := rfl
  have hle := le_exponent m
  have hthree := low_add_three_le hm
  have hwide (j : Nat) (hj : j ≤ 1076) : 2 ^ j < 3 * Nat.pow 10 (-(-324 : Int)).toNat :=
    Nat.lt_of_le_of_lt (Nat.pow_le_pow_right Nat.two_pos hj) (by decide +kernel)
  have hone : Nat.pow 10 (-324 : Int).toNat = 1 := rfl
  simp only [factors, Nat.shiftLeft_eq, hexp, hone, Nat.one_mul]
  generalize Nat.pow 10 (-(-324 : Int)).toNat = w at *
  calc 2 ^ (-(exponent m - 2)).toNat < 3 * w := hwide _ (by omega)
    _ ≤ ((neighbourhood m).high - (neighbourhood m).low) * (w * 2 ^ (exponent m - 2).toNat) :=
      Nat.mul_le_mul (by omega) (Nat.le_mul_of_pos_right _ (Nat.two_pow_pos _))

theorem shortest_spec (hm : 0 < m) (hfinite : m < infiniteMagnitude) :
    (neighbourhood m).Contains ((shortest m).1 * 10 ^ (shortest m).2) ∧ -324 ≤ (shortest m).2 := by
  obtain ⟨htop, htop'⟩ := topGrid_bounds hm hfinite
  have hfuel : (neighbourhood m).topGrid - -324 < (700 : ℕ) := by omega
  obtain ⟨c, k, heq, hgrid, hle⟩ := exists_coarsestFrom (finestGrid hm) htop hfuel
  rw [shortest, heq]
  exact ⟨contains_of_gridPoint? hgrid, hle⟩

end KeyStore.Score
