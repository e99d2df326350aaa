import KeyStore.Table

/-!
# Views of tables

A table is seen through its look-ups. `Table.put` states what becomes of one key, `Table.eraseAll`
takes several keys out, and `Table.filter` keeps the entries that satisfy a condition.
-/

namespace KeyStore.Table

variable {α : Type}

def put (t : Table α) (key : Bytes) : Option α → Table α
  | none => t.erase key
  | some x => t.insert key x

@[simp] theorem put_none (t : Table α) (key : Bytes) : t.put key none = t.erase key := rfl

@[simp] theorem put_some (t : Table α) (key : Bytes) (x : α) : t.put key (some x) = t.insert key x := rfl

theorem find?_put (t : Table α) (key k : Bytes) (x : Option α) :
    (t.put key x).find? k = if k = key then x else t.find? k := by
  cases x with
  | none => exact find?_erase t key k
  | some x => exact find?_insert t key k x

@[simp] theorem find?_put_self (t : Table α) (key : Bytes) (x : Option α) :
    (t.put key x).find? key = x := by
  simp [find?_put]

theorem of_find?_put {t : Table α} {key k : Bytes} {x : Option α} {y : α} (h : (t.put key x).find? k = some y) :
    (k = key ∧ x = some y) ∨ t.find? k = some y := by
  rw [find?_put] at h
  split at h
  · next hk => exact Or.inl ⟨hk, h⟩
  · exact Or.inr h

theorem put_put (t : Table α) (key : Bytes) (x y : Option α) : (t.put key x).put key y = t.put key y := by
  refine ext_find? fun k => ?_
  simp only [find?_put]
  split <;> rfl

theorem put_eq_self {t : Table α} {key : Bytes} {x : Option α} (h : t.find? key = x) : t.put key x = t := by
  refine ext_find? fun k => ?_
  rw [find?_put]
  split
  · next hk => rw [hk, h]
  · rfl

def eraseAll (t : Table α) (keys : List Bytes) : Table α := keys.foldl erase t

@[simp] theorem eraseAll_nil (t : Table α) : t.eraseAll [] = t := rfl

@[simp] theorem eraseAll_cons (t : Table α) (key : Bytes) (keys : List Bytes) :
    t.eraseAll (key :: keys) = (t.erase key).eraseAll keys := rfl

theorem eraseAll_append (t : Table α) (keys more : List Bytes) :
    t.eraseAll (keys ++ more) = (t.eraseAll keys).eraseAll more := List.foldl_append

theorem find?_eraseAll (t : Table α) (keys : List Bytes) (k : Bytes) :
    (t.eraseAll keys).find? k = if k ∈ keys then none else t.find? k := by
  induction keys generalizing t with
  | nil => simp
  | cons key keys ih =>
    rw [eraseAll_cons, ih, find?_erase]
    by_cases hk : k = key <;> simp [hk]

theorem put_eraseAll (t : Table α) (key : Bytes) (x : Option α) (keys : List Bytes)
    (h : ∀ k ∈ keys, k = key) : (t.eraseAll keys).put key x = t.put key x := by
  refine ext_find? fun k => ?_
  rw [find?_put, find?_put, find?_eraseAll]
  by_cases hk : k = key
  · simp [hk]
  · have hnot : k ∉ keys := fun hmem => hk (h k hmem)
    simp [hk, hnot]

protected def Subset (t u : Table α) : Prop := ∀ key x, t.find? key = some x → u.find? key = some x

instance : HasSubset (Table α) := ⟨Table.Subset⟩

theorem subset_refl (t : Table α) : t ⊆ t := fun _ _ h => h

theorem eraseAll_subset (t : Table α) (keys : List Bytes) : t.eraseAll keys ⊆ t := by
  intro k x hx
  rw [find?_eraseAll] at hx
  split at hx
  · cases hx
  · exact hx

theorem eraseAll_mono {t u : Table α} (h : t ⊆ u) (keys : List Bytes) : t.eraseAll keys ⊆ u.eraseAll keys := by
  intro k x hx
  rw [find?_eraseAll] at hx ⊢
  by_cases hk : k ∈ keys
  · simp [hk] at hx
  · rw [if_neg hk] at hx ⊢
    exact h k x hx

def filter (t : Table α) (p : α → Bool) : Table α :=
  ⟨t.entries.filter (p ·.2), t.ascending.filter _⟩

theorem find?_filter (t : Table α) (p : α → Bool) (k : Bytes) :
    (t.filter p).find? k = (t.find? k).filter p := by
  refine Option.ext fun x => ?_
  rw [find?_eq_some_iff, Option.filter_eq_some_iff, find?_eq_some_iff]
  exact List.mem_filter

theorem entries_eq_nil_of_find? {t : Table α} (h : ∀ k, t.find? k = none) : t.entries = [] := by
  have heq : t = ∅ := ext_find? fun k => by simp [h]
  rw [heq]
  rfl

theorem size_eq_zero_iff {t : Table α} : t.size = 0 ↔ ∀ k, t.find? k = none := by
  constructor
  · intro h k
    have he : t.entries = [] := List.eq_nil_of_length_eq_zero h
    simp [find?, he, findIn]
  · intro h
    simp [size, entries_eq_nil_of_find? h]

theorem length_eraseIn {key : Bytes} {x : α} {l : List (Bytes × α)} (h : findIn key l = some x) :
    l.length = (eraseIn key l).length + 1 := by
  induction l with
  | nil => cases h
  | cons a l ih =>
    rw [findIn] at h
    rw [eraseIn]
    split at h
    · cases h
    · rfl
    · exact congrArg (· + 1) (ih h)

theorem size_eraseAll {t : Table α} {keys : List Bytes} (hnd : keys.Nodup)
    (h : ∀ key ∈ keys, ∃ x, t.find? key = some x) : t.size = (t.eraseAll keys).size + keys.length := by
  induction keys generalizing t with
  | nil => rfl
  | cons key keys ih =>
    obtain ⟨hkey, hnd⟩ := List.nodup_cons.1 hnd
    obtain ⟨⟨x, hx⟩, hrest⟩ := List.forall_mem_cons.1 h
    have hkeep : ∀ k ∈ keys, ∃ x, (t.erase key).find? k = some x := by
      intro k hk
      rw [find?_erase, if_neg fun (heq : k = key) => hkey (heq ▸ hk)]
      exact hrest k hk
    have hsize : t.size = (t.erase key).size + 1 := length_eraseIn hx
    rw [hsize, ih hnd hkeep, eraseAll_cons, List.length_cons, Nat.add_assoc]

end KeyStore.Table
