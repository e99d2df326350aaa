import KeyStore.Proofs.Layouts
import KeyStore.Proofs.Meanings
import KeyStore.Proofs.Scores

/-!
# Scores printed and read back

A score of a finite magnitude above zero is written in a layout that spells a number of its neighbourhood
(`Score.exists_layout`), so the layout is rounded back to it. Only the texts of the magnitudes below the least normal
one are refused: their shortest decimal is never exact. Those scores, too, can be read from some text
(`Score.text_exact`).
-/

namespace KeyStore

namespace Layout

variable {c : Nat} {k : Int}

def ofInteger (n : Nat) : Layout := { whole := Numeral.ofNat n }

theorem spells_ofInteger (hc : 0 < c) : (ofInteger c).Spells c 0 where
  whole_ne_nil := Numeral.ofNat_ne_nil c
  whole _ := Numeral.isDigit_of_mem_ofNat
  part := by simp [ofInteger]
  exponent := by simp [ofInteger]
  digits := by rw [ofInteger, List.append_nil, Numeral.dropWhile_ofNat hc]
  scale := rfl

def pointed (digits : Bytes) (places : Nat) : Layout :=
  if places < digits.length then
    { whole := digits.take (digits.length - places), part := digits.drop (digits.length - places) }
  else { whole := [48], part := List.replicate (places - digits.length) 48 ++ digits }

theorem spells_pointed (hc : 0 < c) (hk : k ≤ 0) : (pointed (Numeral.ofNat c) (-k).toNat).Spells c k := by
  have hdigit (b : UInt8) (hb : b ∈ Numeral.ofNat c) : Bytes.isDigit b = true := Numeral.isDigit_of_mem_ofNat hb
  have hfirst := Numeral.dropWhile_ofNat hc
  generalize hplaces : (-k).toNat = places
  unfold pointed
  split
  · next hlt =>
    refine ⟨List.ne_nil_of_length_pos ?_, fun b hb => hdigit b (List.mem_of_mem_take hb),
      fun b hb => hdigit b (List.mem_of_mem_drop hb), by simp, ?_, ?_⟩
    · rw [List.length_take]
      omega
    · rw [List.take_append_drop, hfirst]
    · rw [List.length_drop]
      simp only [Option.getD_none]
      omega
  · next hge =>
    refine ⟨List.cons_ne_nil _ _, fun b hb => ?_, fun b hb => ?_, by simp, ?_, ?_⟩
    · rw [List.mem_singleton.1 hb]
      decide
    · rcases List.mem_append.1 hb with hb | hb
      · rw [List.eq_of_mem_replicate hb]
        decide
      · exact hdigit b hb
    · rw [← List.append_assoc, List.dropWhile_append_of_pos, hfirst]
      intro b hb
      rcases List.mem_append.1 hb with hb | hb
      · rw [List.mem_singleton.1 hb]
        decide
      · rw [List.eq_of_mem_replicate hb]
        decide
    · rw [List.length_append, List.length_replicate]
      simp only [Option.getD_none]
      omega

def scaled (digits : Bytes) (k : Int) : Layout :=
  { whole := digits.take 1, part := digits.drop 1, exponent? := some (k + digits.length - 1) }

theorem spells_scaled (hc : 0 < c) (hk : ((Numeral.ofNat c).length + k - 1).natAbs ≤ Score.exponentBound) :
    (scaled (Numeral.ofNat c) k).Spells c k := by
  have hdigit (b : UInt8) (hb : b ∈ Numeral.ofNat c) : Bytes.isDigit b = true := Numeral.isDigit_of_mem_ofNat hb
  have hpos : 0 < (Numeral.ofNat c).length := List.length_pos_iff.2 (Numeral.ofNat_ne_nil c)
  refine ⟨List.ne_nil_of_length_pos ?_, fun b hb => hdigit b (List.mem_of_mem_take hb),
    fun b hb => hdigit b (List.mem_of_mem_drop hb), ?_, ?_, ?_⟩
  · rw [scaled, List.length_take]
    omega
  · rintro e he
    obtain rfl := Option.some.inj he
    rwa [Int.add_comm k]
  · rw [scaled, List.take_append_drop, Numeral.dropWhile_ofNat hc]
  · simp only [scaled, Option.getD_some, List.length_drop]
    omega

theorem text_ofInteger (n : Nat) : (ofInteger n).text = Numeral.ofNat n := by simp [text, ofInteger, tail]

theorem text_pointed {m : Nat} {digits : Bytes} (hk : k < 0) :
    Score.positional m digits k = (pointed digits (-k).toNat).text := by
  have hplaces : 0 < (-k).toNat := by omega
  rw [Score.positional, if_neg (by omega)]
  unfold pointed
  simp only
  generalize (-k).toNat = places at *
  split
  · next hlt =>
    have hne : (digits.drop (digits.length - places)).isEmpty = false := by
      rw [List.isEmpty_eq_false_iff, ← List.length_pos_iff, List.length_drop]
      omega
    simp [text, tail, hne]
  · next hge =>
    have hne : (List.replicate (places - digits.length) 48 ++ digits).isEmpty = false := by
      rw [List.isEmpty_eq_false_iff, ← List.length_pos_iff, List.length_append, List.length_replicate]
      omega
    simp [text, tail, hne]

theorem text_scaled {digits : Bytes} (hne : digits ≠ []) : Score.scientific digits k = (scaled digits k).text := by
  cases digits with
  | nil => exact absurd rfl hne
  | cons d rest => cases rest <;> simp [Score.scientific, text, tail, scaled]

end Layout

namespace Score

variable {m c : Nat} {k : Int}

theorem contains_middle (hm : 0 < m) : (neighbourhood m).Contains (significand m * 2 ^ exponent m) := by
  have hu : (0 : ℚ) < 2 ^ (exponent m - 2) := zpow_pos two_pos _
  have hquarters : (significand m * 2 ^ exponent m : ℚ) = (4 * significand m : ℕ) * 2 ^ (exponent m - 2) := by
    rw [zpow_quarters]
    push_cast
    ring
  have hlow : ((neighbourhood m).low : ℚ) < (4 * significand m : ℕ) := by exact_mod_cast low_lt hm
  have hhigh : ((4 * significand m : ℕ) : ℚ) < (neighbourhood m).high := by exact_mod_cast middle_lt_high m
  have hexp : (neighbourhood m).exponent = exponent m - 2 := rfl
  have hlow' := mul_lt_mul_of_pos_right hlow hu
  have hhigh' := mul_lt_mul_of_pos_right hhigh hu
  rw [Neighbourhood.Contains, hquarters, hexp]
  split
  · exact ⟨hlow'.le, hhigh'.le⟩
  · exact ⟨hlow', hhigh'⟩

theorem significand_of_contains {n : Nat} (h : (neighbourhood m).Contains n) (hexp : exponent m < 0) :
    significand m = n * 2 ^ (-exponent m).toNat := by
  obtain ⟨⟨hlow, hhigh⟩, -⟩ := ends_of_contains h
  have hpos : (0 : ℚ) < 2 ^ (-exponent m).toNat := pow_pos two_pos _
  have hunit : (2 : ℚ) ^ (exponent m - 2) * 2 ^ (-exponent m).toNat = 1 / 4 := by
    rw [← zpow_natCast, ← zpow_add₀ two_ne_zero, show exponent m - 2 + ((-exponent m).toNat : ℤ) = -2 by omega]
    norm_num
  have hlow' := mul_le_mul_of_nonneg_right hlow hpos.le
  have hhigh' := mul_le_mul_of_nonneg_right hhigh hpos.le
  rw [mul_assoc, hunit] at hlow' hhigh'
  have hbelow : (2 * significand m : ℚ) ≤ 2 * (n * 2 ^ (-exponent m).toNat : ℕ) + 1 := by
    push_cast
    linarith
  have habove : (2 * (n * 2 ^ (-exponent m).toNat : ℕ) : ℚ) ≤ 2 * significand m + 1 := by
    push_cast
    linarith
  have hbelow' : 2 * significand m ≤ 2 * (n * 2 ^ (-exponent m).toNat) + 1 := by exact_mod_cast hbelow
  have habove' : 2 * (n * 2 ^ (-exponent m).toNat) ≤ 2 * significand m + 1 := by exact_mod_cast habove
  omega

theorem contains_integer {n : Nat} (hm : 0 < m) (h : (neighbourhood m).Contains n) :
    (neighbourhood m).Contains (significand m <<< (exponent m).toNat >>> (-exponent m).toNat : ℕ) := by
  rcases lt_or_ge (exponent m) 0 with hneg | hnonneg
  · have hzero : (exponent m).toNat = 0 := by omega
    rw [hzero, Nat.shiftLeft_zero, significand_of_contains h hneg, Nat.shiftRight_eq_div_pow,
      Nat.mul_div_cancel _ (Nat.two_pow_pos _)]
    exact h
  · have hzero : (-exponent m).toNat = 0 := by omega
    have hmiddle := contains_middle hm
    rw [hzero, Nat.shiftRight_zero, Nat.shiftLeft_eq]
    push_cast
    rwa [← zpow_natCast, Int.toNat_of_nonneg hnonneg]

theorem digits_pos_of_contains (hm : 0 < m) (hfinite : m < infiniteMagnitude)
    (h : (neighbourhood m).Contains (c * 10 ^ k)) : 0 < c := by
  have hpos := pos_of_contains hm hfinite h
  exact Nat.pos_of_ne_zero fun hzero => by simp [hzero] at hpos

/-- A finite score above zero is written in a layout that spells a number of its neighbourhood. -/
theorem exists_layout (hm : 0 < m) (hfinite : m < infiniteMagnitude) :
    ∃ (l : Layout) (c : Nat) (k : Int), finiteText m = l.text ∧ l.Spells c k ∧ 0 < c ∧ -324 ≤ k ∧
      (neighbourhood m).Contains (c * 10 ^ k) := by
  obtain ⟨h, hk⟩ := shortest_spec hm hfinite
  rcases hshort : shortest m with ⟨c, k⟩
  rw [hshort] at h hk
  simp only at h hk
  have hc := digits_pos_of_contains hm hfinite h
  simp only [finiteText, if_neg hm.ne', hshort]
  split
  · rcases lt_or_ge k 0 with hneg | hnonneg
    · exact ⟨_, c, k, Layout.text_pointed hneg, Layout.spells_pointed hc hneg.le, hc, hk, h⟩
    · have hinteger : (c * 10 ^ k : ℚ) = (c * 10 ^ k.toNat : ℕ) := by
        push_cast
        rw [← zpow_natCast, Int.toNat_of_nonneg hnonneg]
      rw [hinteger] at h
      have hwritten := contains_integer hm h
      rw [positional, if_pos hnonneg, ← Layout.text_ofInteger]
      generalize significand m <<< (exponent m).toNat >>> (-exponent m).toNat = n at *
      have hwritten : (neighbourhood m).Contains (n * 10 ^ (0 : ℤ)) := by simpa using hwritten
      have hn := digits_pos_of_contains hm hfinite hwritten
      exact ⟨_, n, 0, rfl, Layout.spells_ofInteger hn, hn, by decide, hwritten⟩
  · obtain ⟨hlow, hhigh⟩ := range_of_contains hm hfinite h
    obtain ⟨hplaces, hplaces'⟩ := Layout.places_bounds hc hlow hhigh
    refine ⟨_, c, k, Layout.text_scaled (Numeral.ofNat_ne_nil c), Layout.spells_scaled hc ?_, hc, hk, h⟩
    simp only [exponentBound]
    omega

theorem power_neg (c j : Nat) : power 10 c (-j) = (c, 10 ^ j) := by
  have hwhole : (-(j : ℤ)).toNat = 0 := by omega
  have hparts : (- -(j : ℤ)).toNat = j := by omega
  simp only [power, hwhole, hparts, Nat.pow_eq, Nat.pow_zero, Nat.mul_one]

theorem isKept_of_lt {places p j : Nat} (hc : 0 < c) (hj : j ≤ p) (hlt : (c * 10 ^ (-j : ℤ) : ℚ) < 2 ^ (-p : ℤ)) :
    isKept places c (10 ^ j) = false := by
  have hless : c * 2 ^ p < 10 ^ j := by
    rw [zpow_neg, zpow_neg, zpow_natCast, zpow_natCast, ← div_eq_mul_inv, ← one_div,
      div_lt_div_iff₀ (by positivity) (by positivity), one_mul] at hlt
    exact_mod_cast hlt
  have hfive : c < 5 ^ j := by
    refine Nat.lt_of_mul_lt_mul_right (a := 2 ^ p) (hless.trans_le ?_)
    rw [show 10 = 5 * 2 by norm_num, Nat.mul_pow]
    exact Nat.mul_le_mul_left _ (Nat.pow_le_pow_right Nat.two_pos hj)
  have hdigit : c <<< places % 10 ^ j ≠ 0 := by
    intro hzero
    have hdvd : 5 ^ j ∣ c * 2 ^ places := by
      rw [← Nat.shiftLeft_eq]
      exact (pow_dvd_pow_of_dvd (by norm_num : 5 ∣ 10) j).trans (Nat.dvd_of_mod_eq_zero hzero)
    have hcoprime : Nat.Coprime (5 ^ j) (2 ^ places) := Nat.Coprime.pow _ _ (by decide)
    exact absurd (Nat.le_of_dvd hc (hcoprime.dvd_of_dvd_mul_right hdvd)) (Nat.not_le.2 hfive)
  simp [isKept, hdigit]

theorem div_of_shiftLeft {num den p : Nat} (hden : 0 < den) (h : num <<< p = m * den) :
    (num / den : ℚ) = m * 2 ^ (-p : ℤ) := by
  have hd : (0 : ℚ) < den := Nat.cast_pos.2 hden
  rw [Nat.shiftLeft_eq] at h
  have hcast : (num * 2 ^ p : ℚ) = m * den := by exact_mod_cast h
  rw [zpow_neg, zpow_natCast, ← div_eq_mul_inv, div_eq_div_iff hd.ne' (pow_pos two_pos p).ne', hcast]

theorem isKept_of_exact {num den : Nat} (hm : 0 < m) (hlt : m < hiddenBit) (hden : 0 < den)
    (h : num <<< 1074 = m * den) : isKept 1076 num den = true := by
  have hvalue : (num / den : ℚ) = m * 2 ^ (-1074 : ℤ) := div_of_shiftLeft hden h
  have hnum : 0 < num := by
    rcases Nat.eq_zero_or_pos num with rfl | hnum
    · rw [Nat.zero_shiftLeft] at h
      have := Nat.mul_pos hm hden
      omega
    · exact hnum
  have hlog : m.log2 ≤ 51 := Nat.le_of_lt_succ ((Nat.log2_lt hm.ne').2 hlt)
  have hfloor : floorLog2 num den = m.log2 - 1074 := by
    have hlow : (2 : ℚ) ^ m.log2 ≤ m := by exact_mod_cast Nat.log2_self_le hm.ne'
    have hhigh : (m : ℚ) < 2 ^ (m.log2 + 1) := by exact_mod_cast Nat.lt_log2_self
    refine floorLog2_eq hnum hden ?_ ?_ <;> rw [hvalue]
    · rw [sub_eq_add_neg, zpow_add₀ two_ne_zero, zpow_natCast]
      exact mul_le_mul_of_nonneg_right hlow (zpow_pos two_pos _).le
    · rw [show (m.log2 - 1074 + 1 : ℤ) = (m.log2 + 1 : ℕ) + -1074 by push_cast; ring, zpow_add₀ two_ne_zero,
        zpow_natCast]
      exact mul_lt_mul_of_pos_right hhigh (zpow_pos two_pos _)
  have hshift (n : Nat) : num <<< (1074 + n) = m * 2 ^ n * den := by
    rw [Nat.shiftLeft_add, h, Nat.shiftLeft_eq, Nat.mul_right_comm]
  have hfirst : inUnits (m.log2 - 1074 - 53) num den = (m * 2 ^ (52 - m.log2) * 2 * den, den) := by
    have hplaces : (-(m.log2 - 1074 - 53 : ℤ)).toNat = 1074 + (52 - m.log2 + 1) := by omega
    have hnone : (m.log2 - 1074 - 53 : ℤ).toNat = 0 := by omega
    rw [inUnits, hplaces, hnone, hshift, Nat.pow_succ, Nat.shiftLeft_zero, ← Nat.mul_assoc m]
  have hplaces : (-1022 - (m.log2 - 1074 : ℤ)).toNat = 52 - m.log2 := by omega
  have hlast : num <<< 1076 % den = 0 := by
    rw [show 1076 = 1074 + 2 by norm_num, hshift, Nat.mul_mod_left]
  simp only [isKept, hfloor, hfirst, hplaces, hlast, Nat.mul_mod_left, Nat.mul_div_cancel _ hden,
    Nat.mul_div_cancel _ Nat.two_pos, Nat.one_shiftLeft, decide_true, Bool.and_self]

theorem isKept_of_contains (hlt : m < hiddenBit) (hc : 0 < c) (hk : -324 ≤ k)
    (h : (neighbourhood m).Contains (c * 10 ^ k)) : isKept 1076 (power 10 c k).1 (power 10 c k).2 = false := by
  have hm' : (m : ℚ) + 1 ≤ 2 ^ 52 := by exact_mod_cast hlt
  have hsmall : (c * 10 ^ k : ℚ) < 2 ^ (-1022 : ℤ) := by
    have hhigh := (ends_of_contains h).1.2
    rw [significand_of_lt hlt, exponent_of_lt (by omega)] at hhigh
    calc (c * 10 ^ k : ℚ) ≤ (4 * m + 2) * 2 ^ (-1074 - 2 : ℤ) := hhigh
      _ < 2 ^ 54 * 2 ^ (-1074 - 2 : ℤ) := mul_lt_mul_of_pos_right (by linarith) (zpow_pos two_pos _)
      _ = 2 ^ (-1022 : ℤ) := by rw [← zpow_natCast, ← zpow_add₀ two_ne_zero]; rfl
  have hneg : k < 0 := by
    by_contra hnonneg
    have hone : (1 : ℚ) ≤ c := by exact_mod_cast hc
    have hpow : (1 : ℚ) ≤ 10 ^ k := one_le_zpow₀ (by norm_num) (by omega)
    have hless : (2 : ℚ) ^ (-1022 : ℤ) < 1 := zpow_lt_one_of_neg₀ (by norm_num) (by norm_num)
    have := one_le_mul_of_one_le_of_one_le hone hpow
    linarith
  obtain ⟨j, rfl⟩ : ∃ j : ℕ, k = -j := ⟨(-k).toNat, by omega⟩
  rw [power_neg]
  exact isKept_of_lt (p := 1022) hc (by omega) hsmall

theorem contains_power (h : (neighbourhood m).Contains (c * 10 ^ k)) :
    (neighbourhood m).Contains ((power 10 c k).1 / (power 10 c k).2) := by
  rw [Layout.power_div (by decide) c k]
  exact h

/-- A layout of a number in the neighbourhood of a magnitude is read as it, unless the number is tiny and inexact. -/
theorem read_layout {l : Layout} (hm : 0 < m) (hfinite : m < infiniteMagnitude) (hl : l.Spells c k) (hc : 0 < c)
    (hk : -1191 ≤ k) (h : (neighbourhood m).Contains (c * 10 ^ k)) (negative : Bool) :
    Score.read ((if negative then [45] else []) ++ l.text) =
      if isTiny (power 10 c k).1 (power 10 c k).2 && !isKept 1076 (power 10 c k).1 (power 10 c k).2 then none
      else some (ofMagnitude negative m) := by
  obtain ⟨hlow, hhigh⟩ := range_of_contains hm hfinite h
  rw [hl.read_text, hl.ofDecimal_text hc hk hlow hhigh,
    ofFraction?_of_contains hm hfinite (Layout.power_pos (by decide) c k) (contains_power h)]

/-- The text of a finite score that is not zero is read as that score if it is no less than a normal one, and else is
refused. -/
theorem read_finiteText (hm : 0 < m) (hfinite : m < infiniteMagnitude) (negative : Bool) :
    Score.read ((if negative then [45] else []) ++ finiteText m) =
      if m < hiddenBit then none else some (ofMagnitude negative m) := by
  obtain ⟨l, c, k, heq, hl, hc, hk, h⟩ := exists_layout hm hfinite
  have hden := Layout.power_pos (by decide : 0 < 10) c k
  rcases Nat.lt_trichotomy m hiddenBit with hlt | rfl | hgt
  · rw [heq, read_layout hm hfinite hl hc (by omega) h, isTiny_of_lt hlt hden (contains_power h),
      isKept_of_contains hlt hc hk h, if_pos hlt]
    rfl
  · cases negative <;> decide +kernel
  · rw [heq, read_layout hm hfinite hl hc (by omega) h, isTiny_of_gt hgt hden (contains_power h),
      if_neg (Nat.not_lt.2 hgt.le)]
    rfl

theorem exists_decimal (m j : Nat) : ∃ c : Nat, (c * 10 ^ (-j : ℤ) : ℚ) = m * 2 ^ (-j : ℤ) ∧ c <<< j = m * 10 ^ j := by
  have hten : (10 : ℚ) ^ j = 5 ^ j * 2 ^ j := by rw [← mul_pow]; norm_num
  refine ⟨m * 5 ^ j, ?_, ?_⟩
  · rw [zpow_neg, zpow_neg, zpow_natCast, zpow_natCast, hten]
    push_cast
    field_simp
  · rw [Nat.shiftLeft_eq, Nat.mul_assoc, ← Nat.mul_pow]

theorem exists_read_of_lt (hm : 0 < m) (hlt : m < hiddenBit) (negative : Bool) :
    ∃ s, Score.read s = some (ofMagnitude negative m) := by
  have hfinite : m < infiniteMagnitude := hlt.trans (by decide)
  obtain ⟨c, hvalue, hexact⟩ := exists_decimal m 1074
  have hmiddle : (neighbourhood m).Contains (c * 10 ^ (-(1074 : ℕ) : ℤ)) := by
    have := contains_middle hm
    rw [significand_of_lt hlt, exponent_of_lt (by omega)] at this
    rw [hvalue]
    exact this
  have hc := digits_pos_of_contains hm hfinite hmiddle
  obtain ⟨hlow, hhigh⟩ := range_of_contains hm hfinite hmiddle
  obtain ⟨hplaces, hplaces'⟩ := Layout.places_bounds hc hlow hhigh
  have hbound : ((Numeral.ofNat c).length + (-(1074 : ℕ) : ℤ) - 1).natAbs ≤ exponentBound := by
    simp only [exponentBound]
    omega
  refine ⟨_, (read_layout hm hfinite (Layout.spells_scaled hc hbound) hc (by decide) hmiddle negative).trans ?_⟩
  rw [power_neg, isKept_of_exact hm hlt (Nat.pow_pos (by decide)) hexact, Bool.not_true, Bool.and_false]
  rfl

def isSubnormal (x : Score) : Bool := 0 < x.magnitude && x.magnitude < hiddenBit

theorem ofMagnitude_magnitude (x : Score) : ofMagnitude x.isNegative x.magnitude = x := by
  have hbit : signBit = 9223372036854775808 := rfl
  have hlt := x.bits.toNat_lt
  have hbits : (if x.isNegative then signBit + x.magnitude else x.magnitude) = x.bits.toNat := by
    simp only [isNegative, magnitude, hbit, decide_eq_true_eq]
    split <;> omega
  rw [ofMagnitude, hbits]
  simp

theorem read_text {x : Score} (h : x.isNaN = false) :
    Score.read x.text = if x.isSubnormal then none else some x := by
  have hle : x.magnitude ≤ infiniteMagnitude := by simpa [isNaN] using h
  have hx := x.ofMagnitude_magnitude
  rcases Nat.eq_zero_or_pos x.magnitude with hzero | hpos
  · have htext : x.text = (if x.isNegative then [45] else []) ++ [48] := by
      simp only [text, isInfinite, finiteText, hzero]
      rfl
    have hnormal : x.isSubnormal = false := by simp [isSubnormal, hzero]
    rw [htext, hnormal]
    rw [hzero] at hx
    rw [← hx]
    cases x.isNegative <;> rfl
  rcases Nat.lt_or_ge x.magnitude infiniteMagnitude with hfinite | hinfinite
  · have hnot : x.isInfinite = false := by
      simp only [isInfinite, decide_eq_false_iff_not]
      omega
    have hread := read_finiteText hpos hfinite x.isNegative
    rw [hx] at hread
    simp only [text, hnot, Bool.false_eq_true, if_false, hread, isSubnormal, hpos, decide_true, Bool.true_and,
      decide_eq_true_eq]
  · have heq : x.magnitude = infiniteMagnitude := Nat.le_antisymm hle hinfinite
    have hyes : x.isInfinite = true := decide_eq_true heq
    have hnormal : x.isSubnormal = false := by
      simp only [isSubnormal, heq]
      decide
    rw [text, hyes, hnormal]
    rw [heq] at hx
    rw [← hx]
    cases x.isNegative <;> rfl

theorem exists_read_iff (x : Score) : (∃ s, Score.read s = some x) ↔ x.isNaN = false := by
  refine ⟨fun ⟨s, h⟩ => isNaN_read h, fun h => ?_⟩
  cases hsub : x.isSubnormal with
  | false => exact ⟨x.text, by rw [read_text h, hsub]; rfl⟩
  | true =>
    simp only [isSubnormal, Bool.and_eq_true, decide_eq_true_eq] at hsub
    have := exists_read_of_lt hsub.1 hsub.2 x.isNegative
    rwa [x.ofMagnitude_magnitude] at this

/-- Members with the texts of their scores, as they are given to be ranked. -/
def exported (members : List (Score × Bytes)) : List (Bytes × Bytes) := members.map fun (x, name) => (x.text, name)

theorem readScores_exported {members : List (Score × Bytes)} (h : ∀ member ∈ members, member.1.isNaN = false) :
    Command.readScores (exported members) =
      if members.any (·.1.isSubnormal) then .error .notAFloat else .ok members := by
  induction members with
  | nil => rfl
  | cons member members ih =>
    obtain ⟨x, name⟩ := member
    obtain ⟨hx, hmembers⟩ := List.forall_mem_cons.1 h
    have hfirst : Command.readScore x.text = if x.isSubnormal then .error .notAFloat else .ok x := by
      rw [Command.readScore, read_text hx]
      cases x.isSubnormal <;> rfl
    have hrest := ih hmembers
    rw [Command.readScores, exported] at hrest
    simp only [Command.readScores, exported, List.map_cons, List.mapM_cons, hfirst, hrest, List.any_cons]
    by_cases hsub : x.isSubnormal = true
    · simp only [hsub, if_true, Bool.true_or]
      rfl
    · simp only [hsub, Bool.false_eq_true, if_false, Bool.false_or]
      split <;> rfl

theorem read_zadd (key : Bytes) (members : List (Bytes × Bytes)) (hne : members ≠ []) :
    (Command.read ("zadd" :: key :: Command.unpaired members)).map Prod.snd =
      (Command.readScores members).map fun members => .edit key (.rankMembers members) := by
  obtain ⟨first, more, rfl⟩ := List.exists_cons_of_ne_nil hne
  obtain ⟨signature, hsignature, hform⟩ : ∃ signature, Command.signature? "zadd" = some signature ∧
      signature.form = Command.keyAndPairs fun key members =>
        (Command.readScores members).map fun members => .edit key (.rankMembers members) := ⟨_, rfl, rfl⟩
  have hname : Command.nameOf ("zadd" :: key :: Command.unpaired (first :: more)) = "zadd" := rfl
  simp only [Command.read, hname, hsignature, hform, List.tail_cons, Command.keyAndPairs_unpaired]
  cases Command.readScores (first :: more) <;> rfl

/-- The scores that texts are read as are the numbers. Each is read from its own text too, the subnormal ones excepted,
whose texts are refused. So the members of a sorted set with the texts of their scores make it anew, unless a score is
subnormal. -/
theorem text_exact (x : Score) :
    ((∃ s, Score.read s = some x) ↔ x.isNaN = false) ∧
      (x.isNaN = false →
        (Score.read x.text = if x.isSubnormal then none else some x) ∧
        ∀ (key name : Bytes) (more : List (Score × Bytes)), (∀ member ∈ more, member.1.isNaN = false) →
          let members := (x, name) :: more
          (Command.read ("zadd" :: key :: Command.unpaired (exported members))).map Prod.snd =
            if members.any (·.1.isSubnormal) then .error .notAFloat else .ok (.edit key (.rankMembers members))) := by
  refine ⟨exists_read_iff x, fun hx => ⟨read_text hx, ?_⟩⟩
  intro key name more hmore members
  have hmembers : ∀ member ∈ members, member.1.isNaN = false := List.forall_mem_cons.2 ⟨hx, hmore⟩
  rw [read_zadd key (exported members) (List.cons_ne_nil _ _), readScores_exported hmembers]
  split <;> rfl

/-- The least score above zero can be read, but not from its own text. Minus infinity and one and a half are ranked by
their texts, the least score and one and a half are not. -/
theorem text_exact_of_least :
    let least : Score := ⟨1⟩
    let y : Score := ⟨0x3ff8000000000000⟩
    (∃ s, Score.read s = some least) ∧ Score.read least.text = none ∧
      (Command.read ("zadd" :: "z" :: Command.unpaired (exported [(least, "a"), (y, "b")]))).map Prod.snd =
        .error .notAFloat ∧
      (Command.read ("zadd" :: "z" :: Command.unpaired (exported [(infinity true, "a"), (y, "b")]))).map Prod.snd =
        .ok (.edit "z" (.rankMembers [(infinity true, "a"), (y, "b")])) := by
  intro least y
  refine ⟨?_, ?_, ?_, ?_⟩
  · exact (text_exact least).1.2 (by decide)
  · exact ((text_exact least).2 (by decide)).1
  · exact ((text_exact least).2 (by decide)).2 "z" "a" [(y, "b")] (by decide)
  · exact ((text_exact (infinity true)).2 (by decide)).2 "z" "a" [(y, "b")] (by decide)

end Score
end KeyStore
