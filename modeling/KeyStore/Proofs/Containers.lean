import KeyStore.Command.Edit

/-!
# Changes of containers

A change of a container that the log does not have to know of changes nothing.
-/

namespace KeyStore

/-- A container with nothing in it. -/
def Value.isHollow : Value → Bool
  | .string _ => false
  | .list items => items.isEmpty
  | .hash fields => fields.isEmpty
  | .set members => members.isEmpty
  | .sortedSet members => members.isEmpty

theorem Kind.isEmpty_empty (k : Kind) : k.isEmpty k.empty = true := by cases k <;> rfl

theorem Value.isHollow_pack {k : Kind} (hk : k ≠ .string) (content : k.Content) :
    (k.pack content).isHollow = k.isEmpty content := by
  cases k <;> first | rfl | exact absurd rfl hk

theorem Value.isHollow_pack_of_isEmpty_eq_false {k : Kind} {content : k.Content}
    (h : k.isEmpty content = false) : (k.pack content).isHollow = false := by
  cases k <;> first | rfl | exact h

theorem Edit.kind_ne_string (e : Edit) : e.kind ≠ .string := by cases e <;> simp [Edit.kind]

theorem Removal.kind_ne_string (r : Removal) : r.kind ≠ .string := by cases r <;> simp [Removal.kind]

theorem Table.isEmpty_eq_false {α : Type} {t : Table α} {key : Bytes} (h : t.find? key ≠ none) :
    t.isEmpty = false := by
  refine Bool.eq_false_iff.2 fun he => h ?_
  have hnil : t.entries = [] := List.isEmpty_iff.1 he
  simp [Table.find?, hnil, Table.findIn]

theorem SortedSet.score?_add_self (z : SortedSet) (m : Bytes) (score : Score) :
    (z.add m score).1.score? m ≠ none := by
  simp only [add]
  split
  · simp [score?]
  · next hs =>
    split
    · simp [hs]
    · simp [score?]

theorem SortedSet.score?_add_of_ne (z : SortedSet) {name m : Bytes} (hm : name ≠ m) (score : Score) :
    (z.add m score).1.score? name = z.score? name := by
  simp only [add]
  split
  · simp [score?, Table.find?_insert, hm]
  · split
    · rfl
    · simp [score?, Table.find?_insert, hm]

namespace Edit

theorem setAll_snd (fields : List (Bytes × Bytes)) (table : Table Bytes) (fresh : Nat) :
    (setAll fields table fresh true).2.2 = true := by
  induction fields generalizing table fresh with
  | nil => rfl
  | cons x rest ih =>
    obtain ⟨name, x⟩ := x
    rw [setAll]
    split
    · exact ih _ _
    · split
      · exact ih _ _
      · exact ih _ _

theorem setAll_eq_self {fields : List (Bytes × Bytes)} {table : Table Bytes} {fresh : Nat}
    (h : (setAll fields table fresh false).2.2 = false) : (setAll fields table fresh false).1 = table := by
  induction fields with
  | nil => rfl
  | cons x rest ih =>
    obtain ⟨name, x⟩ := x
    rw [setAll] at h ⊢
    split at h
    · simp [setAll_snd] at h
    · split at h
      · next hxy =>
        simp only [hxy, if_true]
        exact ih h
      · simp [setAll_snd] at h

theorem le_addAll (members : List Bytes) (set : Table Unit) (fresh : Nat) :
    fresh ≤ (addAll members set fresh).2 := by
  induction members generalizing set fresh with
  | nil => exact Nat.le_refl _
  | cons m rest ih =>
    rw [addAll]
    split
    · exact ih _ _
    · exact Nat.le_trans (Nat.le_succ _) (ih _ _)

theorem addAll_eq_self {members : List Bytes} {set : Table Unit} {fresh : Nat}
    (h : (addAll members set fresh).2 = fresh) : (addAll members set fresh).1 = set := by
  induction members with
  | nil => rfl
  | cons m rest ih =>
    rw [addAll] at h ⊢
    split at h
    · next hm =>
      rw [if_pos hm]
      exact ih h
    · have hle := le_addAll rest (set.insert m ()) (fresh + 1)
      omega

theorem rankAll_snd (members : List (Score × Bytes)) (z : SortedSet) (fresh : Nat) :
    (rankAll members z fresh true).2.2 = true := by
  induction members generalizing z fresh with
  | nil => rfl
  | cons x rest ih => exact ih _ _

theorem rankAll_eq_self {members : List (Score × Bytes)} {z : SortedSet} {fresh : Nat}
    (h : (rankAll members z fresh false).2.2 = false) : (rankAll members z fresh false).1 = z := by
  induction members generalizing fresh with
  | nil => rfl
  | cons x rest ih =>
    obtain ⟨score, m⟩ := x
    rw [rankAll] at h ⊢
    cases hs : z.score? m with
    | none => simp [hs, rankAll_snd] at h
    | some old =>
      by_cases hp : old.position = score.position
      · have hadd : z.add m score = (z, false) := by simp [SortedSet.add, hs, hp]
        simp only [hs, hp, hadd, bne_self_eq_false, Bool.or_false] at h ⊢
        exact ih h
      · have hne : (old.position != score.position) = true := by simpa using hp
        simp only [hs, hne, Bool.or_true, rankAll_snd] at h
        cases h

/-- What the log does not know of has not changed. -/
theorem content_apply (e : Edit) {content : e.kind.Content} (h : (e.apply content).logged = false) :
    (e.apply content).content = content := by
  cases e with
  | push side items => simp [Edit.apply] at h
  | setFields fields => exact setAll_eq_self h
  | addMembers members => exact addAll_eq_self (by simpa [Edit.apply] using h)
  | rankMembers members => exact rankAll_eq_self h

theorem setAll_find? {table : Table Bytes} {name : Bytes} (h : table.find? name ≠ none)
    (fields : List (Bytes × Bytes)) (fresh : Nat) (changed : Bool) :
    (setAll fields table fresh changed).1.find? name ≠ none := by
  induction fields generalizing table fresh changed with
  | nil => exact h
  | cons x rest ih =>
    obtain ⟨other, x⟩ := x
    have hins : (table.insert other x).find? name ≠ none := by
      rw [Table.find?_insert]
      split
      · simp
      · exact h
    rw [setAll]
    split
    · exact ih hins _ _
    · split
      · exact ih h _ _
      · exact ih hins _ _

theorem addAll_find? {set : Table Unit} {name : Bytes} (h : set.find? name ≠ none) (members : List Bytes)
    (fresh : Nat) : (addAll members set fresh).1.find? name ≠ none := by
  induction members generalizing set fresh with
  | nil => exact h
  | cons m rest ih =>
    rw [addAll]
    split
    · exact ih h _
    · refine ih ?_ _
      rw [Table.find?_insert]
      split
      · simp
      · exact h

theorem rankAll_score? {z : SortedSet} {name : Bytes} (h : z.score? name ≠ none)
    (members : List (Score × Bytes)) (fresh : Nat) (changed : Bool) :
    (rankAll members z fresh changed).1.score? name ≠ none := by
  induction members generalizing z fresh changed with
  | nil => exact h
  | cons x rest ih =>
    obtain ⟨score, m⟩ := x
    have hstays : (z.add m score).1.score? name ≠ none := by
      by_cases hm : name = m
      · subst hm
        exact z.score?_add_self name score
      · rw [z.score?_add_of_ne hm]
        exact h
    exact ih hstays _ _

theorem isEmpty_content_apply (e : Edit) (hpush : ∀ side, e ≠ .push side [])
    (h : (e.apply e.kind.empty).logged = true) : e.kind.isEmpty (e.apply e.kind.empty).content = false := by
  cases e with
  | push side items =>
    have hne : items ≠ [] := fun hnil => hpush side (hnil ▸ rfl)
    cases side <;> simp [apply, kind, Kind.isEmpty, Kind.empty, pushed, hne]
  | setFields fields =>
    cases fields with
    | nil => cases h
    | cons x rest =>
      obtain ⟨name, x⟩ := x
      have hnew : ((∅ : Table Bytes).insert name x).find? name ≠ none := by simp
      exact Table.isEmpty_eq_false (setAll_find? hnew rest _ _)
  | addMembers members =>
    cases members with
    | nil => cases h
    | cons m rest =>
      have hnew : ((∅ : Table Unit).insert m ()).find? m ≠ none := by simp
      exact Table.isEmpty_eq_false (addAll_find? hnew rest _)
  | rankMembers members =>
    cases members with
    | nil => cases h
    | cons x rest =>
      obtain ⟨score, m⟩ := x
      have hnew := SortedSet.score?_add_self ∅ m score
      exact Table.isEmpty_eq_false (rankAll_score? hnew rest _ _)

end Edit

namespace Removal

theorem le_eraseAll {α : Type} (names : List Bytes) (table : Table α) (gone : Nat) :
    gone ≤ (eraseAll names table gone).2 := by
  induction names generalizing table gone with
  | nil => exact Nat.le_refl _
  | cons name rest ih =>
    rw [eraseAll]
    split
    · exact Nat.le_trans (Nat.le_succ _) (ih _ _)
    · exact ih _ _

theorem eraseAll_eq_self {α : Type} {names : List Bytes} {table : Table α} {gone : Nat}
    (h : (eraseAll names table gone).2 = gone) : (eraseAll names table gone).1 = table := by
  induction names with
  | nil => rfl
  | cons name rest ih =>
    rw [eraseAll] at h ⊢
    split at h
    · have hle := le_eraseAll rest (table.erase name) (gone + 1)
      omega
    · next hn =>
      rw [if_neg hn]
      exact ih h

theorem le_unrankAll (members : List Bytes) (z : SortedSet) (gone : Nat) :
    gone ≤ (unrankAll members z gone).2 := by
  induction members generalizing z gone with
  | nil => exact Nat.le_refl _
  | cons m rest ih =>
    rw [unrankAll]
    generalize z.remove m = a
    obtain ⟨z', wasThere⟩ := a
    refine Nat.le_trans ?_ (ih z' _)
    split <;> omega

theorem unrankAll_eq_self {members : List Bytes} {z : SortedSet} {gone : Nat}
    (h : (unrankAll members z gone).2 = gone) : (unrankAll members z gone).1 = z := by
  induction members with
  | nil => rfl
  | cons m rest ih =>
    rw [unrankAll] at h ⊢
    cases hs : z.score? m with
    | none =>
      have hrem : z.remove m = (z, false) := by simp [SortedSet.remove, hs]
      simp only [hrem] at h ⊢
      exact ih h
    | some old =>
      have hrem : (z.remove m).2 = true := by simp [SortedSet.remove, hs]
      generalize z.remove m = a at h hrem
      obtain ⟨z', wasThere⟩ := a
      have hle := le_unrankAll rest z' (gone + 1)
      simp only at h hrem
      subst hrem
      simp only [if_true] at h
      omega

theorem content_apply (r : Removal) {content : r.kind.Content} (h : (r.apply content).logged = false) :
    (r.apply content).content = content := by
  cases r with
  | pop side => simp [Removal.apply] at h
  | fields names => exact eraseAll_eq_self (by simpa [Removal.apply] using h)
  | members names => exact eraseAll_eq_self (by simpa [Removal.apply] using h)
  | ranked names => exact unrankAll_eq_self (by simpa [Removal.apply] using h)

end Removal

end KeyStore
