import KeyStore.Ranking

/-!
# The order of rankings

A ranking that is built by insertions and erasures stays strictly ascending, and its members are
those that were inserted and not erased since.
-/

namespace KeyStore.Ranking

variable {α : Type} {position : α → Int}

def Ascending (position : α → Int) (l : Ranking α) : Prop :=
  l.Pairwise fun x y => compare position x y = .lt

theorem compare_eq_iff {x y : α × Bytes} :
    compare position x y = .eq ↔ position x.1 = position y.1 ∧ x.2 = y.2 := by
  simp only [compare]
  split
  · next h => simp [show position x.1 ≠ position y.1 by omega]
  · split
    · next h => simp [show position x.1 ≠ position y.1 by omega]
    · next h h' => simp [show position x.1 = position y.1 by omega]

theorem compare_gt_iff {x y : α × Bytes} :
    compare position x y = .gt ↔ compare position y x = .lt := by
  simp only [compare]
  have hb := @Bytes.compare_gt_iff x.2 y.2
  split
  · simp [show ¬ position y.1 < position x.1 by omega]
  · split
    · simp
    · exact hb

theorem compare_trans {x y z : α × Bytes} (hxy : compare position x y = .lt)
    (hyz : compare position y z = .lt) : compare position x z = .lt := by
  simp only [compare] at *
  have ht := @Bytes.compare_trans x.2 y.2 z.2
  grind

theorem mem_insert_of_mem {x z : α × Bytes} {l : Ranking α} (h : z ∈ insert position x l) :
    z = x ∨ z ∈ l := by
  induction l with
  | nil => simpa [insert] using h
  | cons y l ih =>
    rw [insert] at h
    split at h <;> grind

theorem mem_of_mem_erase {x z : α × Bytes} {l : Ranking α} (h : z ∈ erase position x l) : z ∈ l := by
  induction l with
  | nil => simp [erase] at h
  | cons y l ih =>
    rw [erase] at h
    split at h <;> grind

theorem Ascending.insert {x : α × Bytes} {l : Ranking α} (h : Ascending position l) :
    Ascending position (insert position x l) := by
  induction l with
  | nil => exact List.pairwise_singleton ..
  | cons y l ih =>
    have ⟨hy, hl⟩ := List.pairwise_cons.1 h
    rw [Ranking.insert]
    split
    · next hlt =>
      refine List.pairwise_cons.2 ⟨fun z hz => ?_, h⟩
      rcases List.mem_cons.1 hz with rfl | hz
      · exact hlt
      · exact compare_trans hlt (hy z hz)
    · exact h
    · next hgt =>
      refine List.pairwise_cons.2 ⟨fun z hz => ?_, ih hl⟩
      rcases mem_insert_of_mem hz with rfl | hz
      · exact compare_gt_iff.1 hgt
      · exact hy z hz

theorem Ascending.erase {x : α × Bytes} {l : Ranking α} (h : Ascending position l) :
    Ascending position (erase position x l) := by
  induction l with
  | nil => exact List.Pairwise.nil
  | cons y l ih =>
    have ⟨hy, hl⟩ := List.pairwise_cons.1 h
    rw [Ranking.erase]
    split
    · exact h
    · exact hl
    · exact List.pairwise_cons.2 ⟨fun z hz => hy z (mem_of_mem_erase hz), ih hl⟩

/-- An inserted name is a member, unless one of its position and name was there. -/
theorem mem_insert {x z : α × Bytes} {l : Ranking α}
    (hx : ∀ y ∈ l, compare position x y ≠ .eq) : z ∈ insert position x l ↔ z = x ∨ z ∈ l := by
  refine ⟨mem_insert_of_mem, fun hz => ?_⟩
  induction l with
  | nil => simpa [insert] using hz
  | cons y l ih =>
    have hl : ∀ y ∈ l, compare position x y ≠ .eq := fun w hw => hx w (List.mem_cons_of_mem _ hw)
    rw [insert]
    split
    · simpa using hz
    · next heq => exact absurd heq (hx y List.mem_cons_self)
    · rcases hz with rfl | hz
      · exact List.mem_cons_of_mem _ (ih hl (.inl rfl))
      · rcases List.mem_cons.1 hz with rfl | hz
        · exact List.mem_cons_self
        · exact List.mem_cons_of_mem _ (ih hl (.inr hz))

theorem mem_erase {x z : α × Bytes} {l : Ranking α} (h : Ascending position l) :
    z ∈ erase position x l ↔ z ∈ l ∧ compare position x z ≠ .eq := by
  induction l with
  | nil => simp [erase]
  | cons y l ih =>
    have ⟨hy, hl⟩ := List.pairwise_cons.1 h
    have hself := compare_self position y
    rw [erase]
    split
    · next hlt =>
      -- everything behind `y` is behind `x` too
      have hne : ∀ w ∈ y :: l, compare position x w ≠ .eq := by
        intro w hw heq
        rcases List.mem_cons.1 hw with rfl | hw
        · simp [hlt] at heq
        · simp [compare_trans hlt (hy w hw)] at heq
      exact ⟨fun hz => ⟨hz, hne z hz⟩, fun hz => hz.1⟩
    · next heq =>
      have ⟨hp, hn⟩ := compare_eq_iff.1 heq
      constructor
      · intro hz
        refine ⟨List.mem_cons_of_mem _ hz, fun hxz => ?_⟩
        have ⟨hp', hn'⟩ := compare_eq_iff.1 hxz
        have hyz : compare position y z = .eq := compare_eq_iff.2 ⟨hp ▸ hp', hn ▸ hn'⟩
        simp [hy z hz] at hyz
      · rintro ⟨hz, hne⟩
        rcases List.mem_cons.1 hz with rfl | hz
        · exact absurd heq hne
        · exact hz
    · next hgt =>
      rw [List.mem_cons, List.mem_cons, ih hl]
      constructor
      · rintro (rfl | ⟨hz, hne⟩)
        · exact ⟨.inl rfl, by simp [hgt]⟩
        · exact ⟨.inr hz, hne⟩
      · rintro ⟨rfl | hz, hne⟩
        · exact .inl rfl
        · exact .inr ⟨hz, hne⟩

end KeyStore.Ranking
