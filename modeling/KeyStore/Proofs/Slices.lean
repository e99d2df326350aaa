import KeyStore.Slice

/-!
# Slices by index

A slice is the items whose index lies between its first and its last one (`Slice.of_eq_between`). Read one by one, they
are all there (`Slice.fetch_eq`).
-/

namespace KeyStore.Slice

variable {α : Type}

def between (start stop : Int) (items : List α) : List α :=
  (items.zipIdx.filter fun x => fromStart items.length start ≤ x.2 ∧ x.2 ≤ fromStart items.length stop).map (·.1)

theorem map_filter_zipIdx (lo hi : Int) (items : List α) (k : Nat) :
    ((items.zipIdx k).filter fun x => lo ≤ x.2 ∧ x.2 ≤ hi).map (·.1) =
      (items.drop (lo - k).toNat).take (hi + 1 - max lo k).toNat := by
  induction items generalizing k with
  | nil => simp
  | cons x items ih =>
    rw [List.zipIdx_cons, List.filter_cons]
    by_cases hlo : lo ≤ k
    · have hdrop : (lo - k).toNat = 0 := by omega
      have hdrop' : (lo - (k + 1 : Nat)).toNat = 0 := by omega
      have hmax : max lo (k : Int) = k := by omega
      have hmax' : max lo ((k + 1 : Nat) : Int) = k + 1 := by omega
      by_cases hhi : (k : Int) ≤ hi
      · have hnext : (hi + 1 - k).toNat = (hi + 1 - (k + 1)).toNat + 1 := by omega
        have hkeep : decide (lo ≤ (k : Int) ∧ (k : Int) ≤ hi) = true := decide_eq_true ⟨hlo, hhi⟩
        rw [if_pos hkeep, List.map_cons, ih, hdrop, hdrop', hmax, hmax', hnext, List.drop_zero, List.drop_zero,
          List.take_succ_cons]
      · have hnone : (hi + 1 - k).toNat = 0 := by omega
        have hnone' : (hi + 1 - (k + 1)).toNat = 0 := by omega
        have hskip : ¬ decide (lo ≤ (k : Int) ∧ (k : Int) ≤ hi) = true := by
          rw [decide_eq_true_iff]
          exact fun h => hhi h.2
        rw [if_neg hskip, ih, hmax, hmax', hnone, hnone', List.take_zero, List.take_zero]
    · have hnext : (lo - k).toNat = (lo - (k + 1 : Nat)).toNat + 1 := by omega
      have hmax : max lo (k : Int) = lo := by omega
      have hmax' : max lo ((k + 1 : Nat) : Int) = lo := by omega
      have hskip : ¬ decide (lo ≤ (k : Int) ∧ (k : Int) ≤ hi) = true := by
        rw [decide_eq_true_iff]
        exact fun h => hlo h.1
      rw [if_neg hskip, ih, hmax, hmax', hnext, List.drop_succ_cons]

theorem of_eq_between (start stop : Int) (items : List α) : of start stop items = between start stop items := by
  rw [between, map_filter_zipIdx, of, bounds]
  generalize fromStart items.length start = lo
  generalize fromStart items.length stop = hi
  have hfirst : (lo - (0 : Nat)).toNat = (max lo 0).toNat := by omega
  rw [hfirst]
  by_cases hnone : items.length = 0 ∨ min hi (items.length - 1) < max lo 0 ∨ (items.length : Int) ≤ max lo 0
  · -- the slice ends before it begins, or begins behind the items
    simp only [if_pos hnone]
    by_cases hshort : (items.length : Int) ≤ max lo 0
    · have hdrop : items.drop (max lo 0).toNat = [] := List.drop_eq_nil_iff.2 (by omega)
      rw [hdrop, List.take_nil]
    · have htake : (hi + 1 - max lo (0 : Nat)).toNat = 0 := by omega
      rw [htake, List.take_zero]
  · simp only [if_neg hnone]
    by_cases hlast : hi ≤ items.length - 1
    · have hcount : (min hi (items.length - 1)).toNat - (max lo 0).toNat + 1 = (hi + 1 - max lo (0 : Nat)).toNat := by
        omega
      rw [hcount]
    · -- both take all that is left
      rw [List.take_of_length_le (by rw [List.length_drop]; omega),
        List.take_of_length_le (by rw [List.length_drop]; omega)]

@[simp] theorem of_all (items : List α) : of 0 (-1) items = items := by
  rw [of_eq_between, between, List.filter_eq_self.2, List.zipIdx_map_fst]
  intro x hx
  have hlt := List.snd_lt_of_mem_zipIdx hx
  have hlast : fromStart items.length (-1) = -1 + items.length := rfl
  rw [hlast]
  exact decide_eq_true ⟨Int.natCast_nonneg x.2, by omega⟩

theorem of_self (i : Nat) (items : List α) : of i i items = items[i]?.toList := by
  rw [of_eq_between, between, map_filter_zipIdx]
  have hfrom : fromStart items.length i = i := if_neg (by omega)
  have hdrop : ((i : Int) - (0 : Nat)).toNat = i := by omega
  have htake : ((i : Int) + 1 - max (i : Int) (0 : Nat)).toNat = 1 := by omega
  rw [hfrom, hdrop, htake, List.take_one, List.head?_drop]

end KeyStore.Slice
