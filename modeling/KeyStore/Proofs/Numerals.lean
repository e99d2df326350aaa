import KeyStore.Numeral

/-!
# Numerals read back

A numeral that was written is read as the same number, if the number is within the limit. Written
numerals hold digits only, and no more of them than the number needs.
-/

namespace KeyStore

def IsInt64 (n : Int) : Prop := minInt64 ≤ n ∧ n ≤ maxInt64

instance (n : Int) : Decidable (IsInt64 n) := inferInstanceAs (Decidable (_ ∧ _))

namespace Numeral

theorem toNat_digit (n : Nat) : ((48 + n % 10).toUInt8).toNat = 48 + n % 10 := by
  have h : 48 + n % 10 < 256 := by omega
  simpa using Nat.mod_eq_of_lt h

theorem isDigit_digit (n : Nat) : Bytes.isDigit (48 + n % 10).toUInt8 = true := by
  have h := toNat_digit n
  simp only [Bytes.isDigit, Bool.and_eq_true, decide_eq_true_eq, UInt8.le_iff_toNat_le, h]
  exact ⟨by simp, by simp; omega⟩

theorem mem_digitsOnto {fuel n : Nat} {tail : Bytes} {b : UInt8} (h : b ∈ digitsOnto fuel n tail) :
    Bytes.isDigit b = true ∨ b ∈ tail := by
  induction fuel generalizing n tail with
  | zero => exact .inr h
  | succ fuel ih =>
    have hhere : b ∈ (48 + n % 10).toUInt8 :: tail → Bytes.isDigit b = true ∨ b ∈ tail := by
      intro hb
      rcases List.mem_cons.1 hb with rfl | hb
      · exact .inl (isDigit_digit n)
      · exact .inr hb
    simp only [digitsOnto] at h
    split at h
    · exact hhere h
    · rcases ih h with hd | hb
      · exact .inl hd
      · exact hhere hb

theorem isDigit_of_mem_ofNat {n : Nat} {b : UInt8} (h : b ∈ ofNat n) : Bytes.isDigit b = true := by
  rcases mem_digitsOnto h with hd | hb
  · exact hd
  · exact absurd hb (List.not_mem_nil)

theorem not_mem_ofNat {n : Nat} {b : UInt8} (hb : Bytes.isDigit b = false) : b ∉ ofNat n := by
  intro h
  simp [isDigit_of_mem_ofNat h] at hb

theorem digitsOnto_ne_nil (fuel n : Nat) (tail : Bytes) : digitsOnto (fuel + 1) n tail ≠ [] := by
  induction fuel generalizing n tail with
  | zero => simp [digitsOnto]
  | succ fuel ih =>
    rw [digitsOnto]
    split
    · simp
    · exact ih (n / 10) _

theorem ofNat_ne_nil (n : Nat) : ofNat n ≠ [] := digitsOnto_ne_nil n n []

theorem length_digitsOnto_le {k n : Nat} (hk : n < Nat.pow 10 k) (h0 : 0 < k) (fuel : Nat) (tail : Bytes) :
    (digitsOnto fuel n tail).length ≤ k + tail.length := by
  induction fuel generalizing k n tail with
  | zero => simp [digitsOnto]
  | succ fuel ih =>
    rw [digitsOnto]
    split
    · simp only [List.length_cons]
      omega
    · next hn =>
      obtain ⟨k, rfl⟩ : ∃ k', k = k' + 1 := ⟨k - 1, by omega⟩
      have hk' : n / 10 < Nat.pow 10 k := by
        have hpow : Nat.pow 10 (k + 1) = Nat.pow 10 k * 10 := rfl
        omega
      have hpos : 0 < k := by
        cases k with
        | zero => simp at hk'; omega
        | succ k => omega
      have h := ih hk' hpos ((48 + n % 10).toUInt8 :: tail)
      simp only [List.length_cons] at h
      omega

/-- A number below the `k`-th power of ten is written with at most `k` digits. -/
theorem length_ofNat_le {k n : Nat} (hk : n < Nat.pow 10 k) (h0 : 0 < k) : (ofNat n).length ≤ k := by
  simpa [ofNat] using length_digitsOnto_le hk h0 (n + 1) []

theorem length_ofInt_le {k : Nat} {n : Int} (hk : n.natAbs < Nat.pow 10 k) (h0 : 0 < k) :
    (ofInt n).length ≤ k + 1 := by
  cases n with
  | ofNat n => exact Nat.le_succ_of_le (length_ofNat_le hk h0)
  | negSucc n => exact Nat.succ_le_succ (length_ofNat_le hk h0)

theorem digitsFrom_digitsOnto {limit fuel n : Nat} (hl : n ≤ limit) (hf : n < fuel) (tail : Bytes) :
    digitsFrom limit 0 (digitsOnto fuel n tail) = digitsFrom limit n tail := by
  induction fuel generalizing n tail with
  | zero => omega
  | succ fuel ih =>
    -- reading the last digit after the ones in front of it
    have hlast : digitsFrom limit (n / 10) ((48 + n % 10).toUInt8 :: tail) = digitsFrom limit n tail := by
      have hm : 10 * (n / 10) + ((48 + n % 10).toUInt8.toNat - 48) = n := by
        rw [toNat_digit]
        omega
      simp only [digitsFrom, isDigit_digit, hm, if_true, if_pos hl]
    rw [digitsOnto]
    split
    · next h0 => rwa [h0] at hlast
    · next h0 => rw [ih (by omega) (by omega), hlast]

theorem readNat_ofNat {limit n : Nat} (h : n ≤ limit) : readNat limit (ofNat n) = some n := by
  have hne : (ofNat n).isEmpty = false := by simp [ofNat_ne_nil]
  have hd : digitsFrom limit 0 (ofNat n) = some n := digitsFrom_digitsOnto h (by omega) []
  simp [readNat, hne, hd]

/-- What is read is within the limit. -/
theorem le_of_digitsFrom {limit m n : Nat} {s : Bytes} (h : digitsFrom limit m s = some n) (hm : m ≤ limit) :
    n ≤ limit := by
  induction s generalizing m with
  | nil =>
    obtain rfl := Option.some.inj h
    exact hm
  | cons b s ih =>
    simp only [digitsFrom] at h
    split at h
    · split at h
      · next hle => exact ih h hle
      · cases h
    · cases h

theorem le_of_readNat {limit n : Nat} {s : Bytes} (h : readNat limit s = some n) : n ≤ limit := by
  unfold readNat at h
  split at h
  · cases h
  · exact le_of_digitsFrom h (Nat.zero_le limit)

theorem isInt64_of_readInt {s : Bytes} {n : Int} (h : readInt s = some n) : IsInt64 n := by
  simp only [IsInt64, minInt64, maxInt64]
  unfold readInt at h
  split at h
  · next s =>
    cases hm : readNat 9223372036854775808 s with
    | none => simp [hm] at h
    | some m =>
      have hle := le_of_readNat hm
      obtain rfl : -(m : Int) = n := by simpa [hm] using h
      omega
  · cases hm : readNat 9223372036854775807 s with
    | none => simp [hm] at h
    | some m =>
      have hle := le_of_readNat hm
      obtain rfl : (m : Int) = n := by simpa [hm] using h
      omega

theorem readInt_ofNat_eq (n : Nat) :
    readInt (ofNat n) = (readNat 9223372036854775807 (ofNat n)).map fun n => (n : Int) := by
  cases hs : ofNat n with
  | nil => exact absurd hs (ofNat_ne_nil n)
  | cons b s =>
    have hb : Bytes.isDigit b = true := isDigit_of_mem_ofNat (n := n) (by simp [hs])
    have h45 : b ≠ 45 := by
      rintro rfl
      simp [Bytes.isDigit] at hb
    simp only [readInt]
    split
    · next heq => exact absurd (List.cons.inj heq).1 h45
    · rfl

theorem readInt_ofNat {n : Nat} (h : n ≤ 9223372036854775807) : readInt (ofNat n) = some (n : Int) := by
  rw [readInt_ofNat_eq, readNat_ofNat h]
  rfl

theorem readInt_ofInt {n : Int} (h : IsInt64 n) : readInt (ofInt n) = some n := by
  simp only [IsInt64, minInt64, maxInt64] at h
  cases n with
  | ofNat n => exact readInt_ofNat (by have := h.2; simp at this; omega)
  | negSucc n =>
    have hr : readNat 9223372036854775808 (ofNat (n + 1)) = some (n + 1) := readNat_ofNat (by omega)
    simp only [ofInt, readInt, hr]
    rfl

/-- With a greater limit the same is read, or more. -/
theorem digitsFrom_mono {limit limit' m n : Nat} (hl : limit ≤ limit') {s : Bytes}
    (h : digitsFrom limit m s = some n) : digitsFrom limit' m s = some n := by
  induction s generalizing m with
  | nil => exact h
  | cons b s ih =>
    simp only [digitsFrom] at h ⊢
    split at h
    · next hb =>
      split at h
      · next hle =>
        rw [if_pos hb, if_pos (Nat.le_trans hle hl)]
        exact ih h
      · cases h
    · cases h

theorem eq_of_readNat_ofNat {limit m n : Nat} (h : readNat limit (ofNat n) = some m) : m = n := by
  have hne : (ofNat n).isEmpty = false := by simp [ofNat_ne_nil]
  simp only [readNat, hne] at h
  have hm := digitsFrom_mono (Nat.le_max_left limit n) h
  have hn : digitsFrom (max limit n) 0 (ofNat n) = some n :=
    digitsFrom_digitsOnto (Nat.le_max_right limit n) (by omega) []
  exact Option.some.inj (hm.symm.trans hn)

theorem eq_of_readInt_ofInt {m n : Int} (h : readInt (ofInt n) = some m) : m = n := by
  cases n with
  | ofNat n =>
    rw [ofInt, readInt_ofNat_eq] at h
    cases hr : readNat 9223372036854775807 (ofNat n) with
    | none => simp [hr] at h
    | some k =>
      obtain rfl := eq_of_readNat_ofNat hr
      simpa [hr] using h.symm
  | negSucc n =>
    rw [ofInt, readInt] at h
    cases hr : readNat 9223372036854775808 (ofNat (n + 1)) with
    | none => simp [hr] at h
    | some k =>
      obtain rfl := eq_of_readNat_ofNat hr
      simp [hr] at h
      omega

theorem readLength_ofNat {n : Nat} (h : n ≤ 9223372036854775807) : readLength (ofNat n) = some n := by
  simp [readLength, readInt_ofNat h]

end Numeral
end KeyStore
