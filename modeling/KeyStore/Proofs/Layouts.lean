import KeyStore.Proofs.Grammar
import KeyStore.Proofs.Shortest
import KeyStore.Score.Reader
import KeyStore.Score.Text

/-!
# Layouts of decimal scores

A finite score above zero is written as digits with at most one point and at most one power of ten (`Layout`). Such a
text is read as the fraction that it spells (`Layout.Spells.ofUnsigned_text`), and each magnitude is written in one that
spells a number of its neighbourhood (`Score.exists_layout`).
-/

namespace KeyStore

namespace Numeral

theorem exists_digitsOnto {fuel n : Nat} (hn : 0 < n) (hf : n < fuel) (tail : Bytes) :
    ∃ d rest, digitsOnto fuel n tail = d :: rest ∧ d ≠ 48 := by
  induction fuel generalizing n tail with
  | zero => omega
  | succ fuel ih =>
    rw [digitsOnto]
    split
    · refine ⟨_, tail, rfl, fun heq => ?_⟩
      have hdigit := congrArg UInt8.toNat heq
      rw [toNat_digit] at hdigit
      simp at hdigit
      omega
    · exact ih (by omega) (by omega) _

theorem dropWhile_ofNat {n : Nat} (hn : 0 < n) : (ofNat n).dropWhile (· == 48) = ofNat n := by
  obtain ⟨d, rest, heq, hne⟩ := exists_digitsOnto hn (Nat.lt_succ_self n) []
  rw [ofNat, heq, List.dropWhile_cons_of_neg (by simpa using hne)]

theorem foldl_lt {s : Bytes} (h : ∀ b ∈ s, Bytes.isDigit b = true) (n : Nat) :
    s.foldl (fun n b => 10 * n + (b.toNat - 48)) n < (n + 1) * 10 ^ s.length := by
  induction s generalizing n with
  | nil => simp
  | cons b s ih =>
    obtain ⟨hb, hs⟩ := List.forall_mem_cons.1 h
    have hdigit : b.toNat - 48 ≤ 9 := by
      simp only [Bytes.isDigit, Bool.and_eq_true, decide_eq_true_eq, UInt8.le_iff_toNat_le] at hb
      have : b.toNat ≤ 57 := hb.2
      omega
    rw [List.foldl_cons, List.length_cons, Nat.pow_succ']
    calc _ < (10 * n + (b.toNat - 48) + 1) * 10 ^ s.length := ih hs _
      _ ≤ (n + 1) * 10 * 10 ^ s.length := Nat.mul_le_mul_right _ (by omega)
      _ = (n + 1) * (10 * 10 ^ s.length) := Nat.mul_assoc _ _ _

theorem value_ofNat (n : Nat) : value (ofNat n) = n := foldl_digitsOnto (Nat.lt_succ_self n) []

/-- A number has as many digits as the power of ten above it tells. -/
theorem length_ofNat_bounds {n : Nat} (hn : 0 < n) :
    10 ^ ((ofNat n).length - 1) ≤ n ∧ n < 10 ^ (ofNat n).length := by
  constructor
  · by_contra hlt
    have hpos : 0 < (ofNat n).length := List.length_pos_iff.2 (ofNat_ne_nil n)
    rcases Nat.eq_zero_or_pos ((ofNat n).length - 1) with hzero | hmore
    · rw [hzero] at hlt
      omega
    · have hle := length_ofNat_le (not_le.1 hlt) hmore
      omega
  · have hlt := foldl_lt (s := ofNat n) (fun _ => isDigit_of_mem_ofNat) 0
    have hvalue := value_ofNat n
    rw [value] at hvalue
    rwa [hvalue, Nat.zero_add, Nat.one_mul] at hlt

end Numeral

namespace Score

theorem foldl_min (s : Bytes) (bound n : Nat) :
    s.foldl (fun n b => min (10 * n + (b.toNat - 48)) bound) (min n bound) =
      min (s.foldl (fun n b => 10 * n + (b.toNat - 48)) n) bound := by
  induction s generalizing n with
  | nil => rfl
  | cons b s ih =>
    have hstep : min (10 * min n bound + (b.toNat - 48)) bound = min (10 * n + (b.toNat - 48)) bound := by omega
    rw [List.foldl_cons, List.foldl_cons, hstep, ih]

theorem exponentDigits_eq {s : Bytes} (hne : s ≠ []) (hs : ∀ b ∈ s, Bytes.isDigit b = true)
    (hle : Numeral.value s ≤ exponentBound) : exponentDigits s = some (Numeral.value s) := by
  have hall : s.all Bytes.isDigit = true := List.all_eq_true.2 hs
  have hempty : s.isEmpty = false := List.isEmpty_eq_false_iff.2 hne
  have hfold := foldl_min s exponentBound 0
  rw [Nat.zero_min] at hfold
  simp only [exponentDigits, hempty, hall, Bool.not_true, Bool.or_self, Bool.false_eq_true, if_false, hfold]
  exact congrArg some (Nat.min_eq_left hle)

theorem exponentPart_exponentText {e : Int} (h : e.natAbs ≤ exponentBound) :
    exponentPart 101 (101 :: exponentText e) = some e := by
  have hdigits (s : Bytes) (hs : s = Numeral.ofNat e.natAbs ∨ s = 48 :: Numeral.ofNat e.natAbs) :
      exponentDigits s = some e.natAbs := by
    have hvalue : Numeral.value s = e.natAbs := by
      obtain rfl | rfl := hs <;> exact Numeral.value_ofNat _
    rw [← hvalue]
    refine exponentDigits_eq ?_ ?_ (hvalue.trans_le h)
    · obtain rfl | rfl := hs
      · exact Numeral.ofNat_ne_nil _
      · exact List.cons_ne_nil _ _
    · obtain rfl | rfl := hs
      · exact fun _ => Numeral.isDigit_of_mem_ofNat
      · exact List.forall_mem_cons.2 ⟨by decide, fun _ => Numeral.isDigit_of_mem_ofNat⟩
  have hpadded : exponentDigits (if (Numeral.ofNat e.natAbs).length < 2 then 48 :: Numeral.ofNat e.natAbs
      else Numeral.ofNat e.natAbs) = some e.natAbs := by
    refine hdigits _ ?_
    split
    · exact .inr rfl
    · exact .inl rfl
  have hmark : Bytes.toLower 101 = 101 := by decide
  simp only [exponentPart, exponentText, hmark, if_true]
  by_cases hneg : e < 0
  · have hsign : -(e.natAbs : Int) = e := by omega
    simp only [if_pos hneg, hpadded]
    exact congrArg some hsign
  · have hsign : (e.natAbs : Int) = e := by omega
    simp only [if_neg hneg, hpadded]
    exact congrArg some hsign

theorem splitMantissa_of_point {p : UInt8 → Bool} {whole part rest : Bytes} (hwhole : ∀ b ∈ whole, p b = true)
    (hpart : ∀ b ∈ part, p b = true) (hpoint : p 46 = false) (hrest : ∀ b, rest.head? = some b → p b = false) :
    splitMantissa p (whole ++ 46 :: (part ++ rest)) = (whole, part, rest) := by
  obtain ⟨htake, hdrop⟩ := Bytes.takeWhile_append_of_stop (t := 46 :: (part ++ rest)) hwhole
    (fun b hb => by cases hb; exact hpoint)
  obtain ⟨htake', hdrop'⟩ := Bytes.takeWhile_append_of_stop hpart hrest
  simp only [splitMantissa, hdrop, htake, htake', hdrop']

theorem splitMantissa_of_no_point {p : UInt8 → Bool} {whole rest : Bytes} (hwhole : ∀ b ∈ whole, p b = true)
    (hrest : ∀ b, rest.head? = some b → p b = false ∧ b ≠ 46) :
    splitMantissa p (whole ++ rest) = (whole, [], rest) := by
  obtain ⟨htake, hdrop⟩ := Bytes.takeWhile_append_of_stop hwhole fun b hb => (hrest b hb).1
  simp only [splitMantissa, hdrop, htake]
  split
  · exact absurd rfl (hrest 46 rfl).2
  · rfl

end Score

/-- Digits with a point and digits behind it, or without, and with a power of ten, or without. -/
structure Layout where
  whole : Bytes
  part : Bytes := []
  exponent? : Option Int := none

namespace Layout

open Score

variable {l : Layout} {c : Nat} {k : Int}

def tail (l : Layout) : Bytes :=
  match l.exponent? with
  | none => []
  | some e => 101 :: exponentText e

def text (l : Layout) : Bytes := l.whole ++ (if l.part.isEmpty then l.tail else 46 :: (l.part ++ l.tail))

/-- The digits of `c` stand in the layout, perhaps behind zeros, and count the power `k` of ten. -/
structure Spells (l : Layout) (c : Nat) (k : Int) : Prop where
  whole_ne_nil : l.whole ≠ []
  whole : ∀ b ∈ l.whole, Bytes.isDigit b = true
  part : ∀ b ∈ l.part, Bytes.isDigit b = true
  exponent : ∀ e, l.exponent? = some e → e.natAbs ≤ exponentBound
  digits : (l.whole ++ l.part).dropWhile (· == 48) = Numeral.ofNat c
  scale : l.exponent?.getD 0 - l.part.length = k

theorem head?_tail {b : UInt8} (hb : l.tail.head? = some b) : b = 101 := by
  unfold tail at hb
  split at hb
  · cases hb
  · exact (Option.some.inj hb).symm

theorem Spells.splitMantissa_text (h : l.Spells c k) :
    splitMantissa Bytes.isDigit l.text = (l.whole, l.part, l.tail) := by
  unfold text
  split
  · next hempty =>
    rw [List.isEmpty_iff.1 hempty]
    exact splitMantissa_of_no_point h.whole fun b hb => by
      rw [head?_tail hb]
      decide
  · exact splitMantissa_of_point h.whole h.part (by decide) fun b hb => by
      rw [head?_tail hb]
      decide

theorem Spells.exponentPart_tail (h : l.Spells c k) : exponentPart 101 l.tail = some (l.exponent?.getD 0) := by
  unfold tail
  cases he : l.exponent? with
  | none => rfl
  | some e => exact exponentPart_exponentText (h.exponent e he)

theorem power_pos {base : Nat} (hbase : 0 < base) (n : Nat) (e : Int) : 0 < (power base n e).2 := Nat.pow_pos hbase

theorem power_div {base : Nat} (hbase : 0 < base) (n : Nat) (e : Int) :
    ((power base n e).1 / (power base n e).2 : ℚ) = n * base ^ e := by
  have hb : (0 : ℚ) < base := Nat.cast_pos.2 hbase
  have hpow : (0 : ℚ) < base ^ (-e).toNat := pow_pos hb _
  simp only [power, Nat.pow_eq]
  push_cast
  rw [pow_toNat hb.ne' e, ← mul_assoc, mul_div_assoc, div_self hpow.ne', mul_one]

theorem zpow_two_lt_zpow_ten {p q : Nat} (h : 2 ^ p < 10 ^ q) :
    (2 : ℚ) ^ (p : ℤ) < 10 ^ (q : ℤ) ∧ (10 : ℚ) ^ (-q : ℤ) < 2 ^ (-p : ℤ) := by
  have hlt : (2 : ℚ) ^ p < 10 ^ q := by exact_mod_cast h
  rw [zpow_neg, zpow_neg, zpow_natCast, zpow_natCast]
  exact ⟨hlt, (inv_lt_inv₀ (by positivity) (by positivity)).2 hlt⟩

/-- Where the first digit of a number in the range of scores stands. -/
theorem places_bounds (hc : 0 < c) (hlow : (2 : ℚ) ^ (-1075 : ℤ) ≤ c * 10 ^ k)
    (hhigh : (c * 10 ^ k : ℚ) < 2 ^ (1024 : ℤ)) :
    -323 ≤ (Numeral.ofNat c).length + k ∧ (Numeral.ofNat c).length + k ≤ 309 := by
  obtain ⟨hfirst, hlast⟩ := Numeral.length_ofNat_bounds hc
  have hpos : 0 < (Numeral.ofNat c).length := List.length_pos_iff.2 (Numeral.ofNat_ne_nil c)
  generalize (Numeral.ofNat c).length = len at *
  have hk : (0 : ℚ) < 10 ^ k := zpow_pos (by norm_num) k
  constructor
  · have hlast' : (c : ℚ) < 10 ^ len := by exact_mod_cast hlast
    have hpow : (10 : ℚ) ^ (-324 : ℤ) < 10 ^ ((len : ℤ) + k) := by
      rw [zpow_add₀ (by norm_num), zpow_natCast]
      exact ((zpow_two_lt_zpow_ten (p := 1075) (q := 324) (by decide +kernel)).2.trans_le hlow).trans
        (mul_lt_mul_of_pos_right hlast' hk)
    have := (zpow_lt_zpow_iff_right₀ (by norm_num : (1 : ℚ) < 10)).1 hpow
    omega
  · have hfirst' : (10 : ℚ) ^ (len - 1) ≤ c := by exact_mod_cast hfirst
    have hpow : (10 : ℚ) ^ (((len - 1 : ℕ) : ℤ) + k) < 10 ^ (309 : ℤ) := by
      rw [zpow_add₀ (by norm_num), zpow_natCast]
      exact ((mul_le_mul_of_nonneg_right hfirst' hk.le).trans_lt hhigh).trans
        (zpow_two_lt_zpow_ten (p := 1024) (q := 309) (by decide +kernel)).1
    have := (zpow_lt_zpow_iff_right₀ (by norm_num : (1 : ℚ) < 10)).1 hpow
    omega

/-- A layout that spells a number in the range of scores is read as that. -/
theorem Spells.ofDecimal_text (h : l.Spells c k) (hc : 0 < c) (hk : -1191 ≤ k)
    (hlow : (2 : ℚ) ^ (-1075 : ℤ) ≤ c * 10 ^ k) (hhigh : (c * 10 ^ k : ℚ) < 2 ^ (1024 : ℤ)) (negative : Bool) :
    ofDecimal negative l.text = ofFraction? 1076 negative (power 10 c k).1 (power 10 c k).2 := by
  obtain ⟨hplaces, hplaces'⟩ := places_bounds hc hlow hhigh
  have hwhole : l.whole.isEmpty = false := List.isEmpty_eq_false_iff.2 h.whole_ne_nil
  have hsignificant : significant (l.whole ++ l.part) = (Numeral.ofNat c, 0) := by
    simp only [significant, h.digits]
    rw [if_pos (by omega)]
  have hempty : (Numeral.ofNat c).isEmpty = false := List.isEmpty_eq_false_iff.2 (Numeral.ofNat_ne_nil c)
  have hvalue : digitsValue 10 (fun b => b.toNat - 48) (Numeral.ofNat c) = c := Numeral.value_ofNat c
  have hscale : l.exponent?.getD 0 - (l.part.length : Int) + (0 : Nat) = k := by
    rw [h.scale]
    exact Int.add_zero k
  simp only [ofDecimal, h.splitMantissa_text, h.exponentPart_tail, hwhole, hsignificant, hempty, hvalue, hscale]
  have hrange : ¬ (310 < ((Numeral.ofNat c).length : Int) + k ∨ ((Numeral.ofNat c).length : Int) + k < -330) := by omega
  simp [hrange]

theorem mem_exponentText {e : Int} {b : UInt8} (hb : b ∈ exponentText e) :
    Bytes.isDigit b = true ∨ b ∈ ([43, 45] : Bytes) := by
  simp only [exponentText] at hb
  rcases List.mem_cons.1 hb with rfl | hb
  · split <;> simp
  · refine .inl ?_
    split at hb
    · rcases List.mem_cons.1 hb with rfl | hb
      · decide
      · exact Numeral.isDigit_of_mem_ofNat hb
    · exact Numeral.isDigit_of_mem_ofNat hb

theorem Spells.mem_text (h : l.Spells c k) {b : UInt8} (hb : b ∈ l.text) :
    Bytes.isDigit b = true ∨ b ∈ ([46, 101, 43, 45] : Bytes) := by
  have htail (hb : b ∈ l.tail) : Bytes.isDigit b = true ∨ b ∈ ([46, 101, 43, 45] : Bytes) := by
    unfold tail at hb
    split at hb
    · cases hb
    · rcases List.mem_cons.1 hb with rfl | hb
      · exact .inr (by decide)
      · exact (mem_exponentText hb).imp_right fun hmem => by simp at hmem ⊢; tauto
  unfold text at hb
  rcases List.mem_append.1 hb with hb | hb
  · exact .inl (h.whole b hb)
  · split at hb
    · exact htail hb
    · rcases List.mem_cons.1 hb with rfl | hb
      · exact .inr (by decide)
      · exact (List.mem_append.1 hb).elim (fun hb => .inl (h.part b hb)) htail

theorem Spells.exists_text (h : l.Spells c k) : ∃ d rest, l.text = d :: rest ∧ Bytes.isDigit d = true := by
  obtain ⟨d, rest, heq⟩ := List.exists_cons_of_ne_nil h.whole_ne_nil
  exact ⟨d, _, by rw [text, heq]; rfl, h.whole d (heq ▸ List.mem_cons_self)⟩

theorem toLower_of_isDigit {b : UInt8} (h : Bytes.isDigit b = true) : Bytes.toLower b = b := by
  simp only [Bytes.isDigit, Bool.and_eq_true, decide_eq_true_eq, UInt8.le_iff_toNat_le] at h
  refine if_neg fun hletter => ?_
  simp only [Bool.and_eq_true, decide_eq_true_eq, UInt8.le_iff_toNat_le] at hletter
  have hdigit : b.toNat ≤ 57 := h.2
  have hletter' : 65 ≤ b.toNat := hletter.1
  omega

theorem Spells.ofUnsigned_text (h : l.Spells c k) (negative : Bool) :
    ofUnsigned negative l.text = ofDecimal negative l.text := by
  have hmem := fun b => h.mem_text (b := b)
  obtain ⟨d, rest, heq, hd⟩ := h.exists_text
  rw [heq] at hmem ⊢
  have hletter : d ≠ 105 := by
    rintro rfl
    exact absurd hd (by decide)
  have hname : ¬ (Bytes.lower (d :: rest) = Bytes.ofString "inf" ∨
      Bytes.lower (d :: rest) = Bytes.ofString "infinity") := by
    rintro (hname | hname) <;>
      exact hletter ((toLower_of_isDigit hd).symm.trans (List.cons.inj hname).1)
  simp only [ofUnsigned, if_neg hname]
  split
  · next x rest' hcons =>
    obtain ⟨-, rfl⟩ := List.cons.inj hcons
    have hx : Bytes.toLower x ≠ 120 := by
      rcases hmem x (by simp) with hdigit | hmark
      · rw [toLower_of_isDigit hdigit]
        rintro rfl
        exact absurd hdigit (by decide)
      · simp only [List.mem_cons, List.not_mem_nil, or_false] at hmark
        rcases hmark with rfl | rfl | rfl | rfl <;> decide
    exact if_neg hx
  · rfl

theorem Spells.read_text (h : l.Spells c k) (negative : Bool) :
    Score.read ((if negative then [45] else []) ++ l.text) = ofDecimal negative l.text := by
  rw [← h.ofUnsigned_text]
  obtain ⟨d, rest, heq, hd⟩ := h.exists_text
  cases negative with
  | true => rfl
  | false =>
    rw [heq]
    simp only [Bool.false_eq_true, if_false, List.nil_append]
    unfold Score.read
    split
    · next hcons =>
      obtain ⟨rfl, -⟩ := List.cons.inj hcons
      exact absurd hd (by decide)
    · next hcons =>
      obtain ⟨rfl, -⟩ := List.cons.inj hcons
      exact absurd hd (by decide)
    · rfl

end Layout
end KeyStore
