import KeyStore.Bytes

/-!
# Tables

A table is a finite map from byte strings, kept as its entries in strictly ascending order of the
keys. Each content has one representation, so tables that answer every look-up alike are equal
(`Table.ext_find?`).
-/

namespace KeyStore

/-- Entries in strictly ascending order of their keys. -/
def Ascending {α : Type} (entries : List (Bytes × α)) : Prop :=
  entries.Pairwise fun a b => Bytes.compare a.1 b.1 = .lt

structure Table (α : Type) where
  entries : List (Bytes × α) := []
  ascending : Ascending entries := by exact List.Pairwise.nil
  deriving DecidableEq

namespace Table

variable {α : Type}

def findIn (key : Bytes) : List (Bytes × α) → Option α
  | [] => none
  | (k, x) :: rest => match Bytes.compare key k with
    | .lt => none
    | .eq => some x
    | .gt => findIn key rest

def insertIn (key : Bytes) (x : α) : List (Bytes × α) → List (Bytes × α)
  | [] => [(key, x)]
  | (k, y) :: rest => match Bytes.compare key k with
    | .lt => (key, x) :: (k, y) :: rest
    | .eq => (key, x) :: rest
    | .gt => (k, y) :: insertIn key x rest

def eraseIn (key : Bytes) : List (Bytes × α) → List (Bytes × α)
  | [] => []
  | (k, y) :: rest => match Bytes.compare key k with
    | .lt => (k, y) :: rest
    | .eq => rest
    | .gt => (k, y) :: eraseIn key rest

theorem mem_insertIn {key : Bytes} {x : α} {e : Bytes × α} {l : List (Bytes × α)}
    (h : e ∈ insertIn key x l) : e = (key, x) ∨ e ∈ l := by
  induction l with
  | nil => simpa [insertIn] using h
  | cons a l ih =>
    obtain ⟨k, y⟩ := a
    rw [insertIn] at h
    split at h <;> grind

theorem mem_of_mem_eraseIn {key : Bytes} {e : Bytes × α} {l : List (Bytes × α)}
    (h : e ∈ eraseIn key l) : e ∈ l := by
  induction l with
  | nil => simp [eraseIn] at h
  | cons a l ih =>
    obtain ⟨k, y⟩ := a
    rw [eraseIn] at h
    split at h <;> grind

theorem ascending_insertIn {key : Bytes} {x : α} {l : List (Bytes × α)} (h : Ascending l) :
    Ascending (insertIn key x l) := by
  induction l with
  | nil => exact List.pairwise_singleton ..
  | cons a l ih =>
    obtain ⟨k, y⟩ := a
    have ⟨hk, hl⟩ := List.pairwise_cons.1 h
    rw [insertIn]
    split
    · next hlt =>
      refine List.pairwise_cons.2 ⟨fun e he => ?_, h⟩
      rcases List.mem_cons.1 he with rfl | he
      · exact hlt
      · exact Bytes.compare_trans hlt (hk e he)
    · next heq =>
      cases Bytes.eq_of_compare heq
      exact List.pairwise_cons.2 ⟨hk, hl⟩
    · next hgt =>
      refine List.pairwise_cons.2 ⟨fun e he => ?_, ih hl⟩
      rcases mem_insertIn he with rfl | he
      · exact Bytes.compare_gt_iff.1 hgt
      · exact hk e he

theorem ascending_eraseIn {key : Bytes} {l : List (Bytes × α)} (h : Ascending l) :
    Ascending (eraseIn key l) := by
  induction l with
  | nil => exact List.Pairwise.nil
  | cons a l ih =>
    obtain ⟨k, y⟩ := a
    have ⟨hk, hl⟩ := List.pairwise_cons.1 h
    rw [eraseIn]
    split
    · exact h
    · exact hl
    · exact List.pairwise_cons.2 ⟨fun e he => hk e (mem_of_mem_eraseIn he), ih hl⟩

theorem findIn_eq_none_of_lt {key : Bytes} {l : List (Bytes × α)}
    (h : ∀ e ∈ l, Bytes.compare key e.1 = .lt) : findIn key l = none := by
  cases l with
  | nil => rfl
  | cons a l => simp [findIn, h a]

theorem findIn_insertIn (key k : Bytes) (x : α) {l : List (Bytes × α)} (h : Ascending l) :
    findIn k (insertIn key x l) = if k = key then some x else findIn k l := by
  induction l with
  | nil =>
    simp only [insertIn, findIn]
    split <;> grind [Bytes.compare_eq_iff]
  | cons a l ih =>
    obtain ⟨k', y⟩ := a
    have ⟨hk, hl⟩ := List.pairwise_cons.1 h
    have := ih hl
    have htrans := @Bytes.compare_trans
    have hgt := @Bytes.compare_gt_iff
    rw [insertIn]
    cases hc : Bytes.compare key k' <;> simp only [findIn]
    · cases hd : Bytes.compare k key <;> simp only
      · have : Bytes.compare k k' = .lt := Bytes.compare_trans hd hc
        grind [Bytes.compare_eq_iff]
      · grind [Bytes.compare_eq_iff]
      · grind [Bytes.compare_eq_iff]
    · cases Bytes.eq_of_compare hc
      grind [Bytes.compare_eq_iff]
    · cases hd : Bytes.compare k k' <;> simp only
      · have : k ≠ key := by rintro rfl; simp [hc] at hd
        simp [this]
      · have : k ≠ key := by rintro rfl; simp [hc] at hd
        simp [this]
      · exact this

theorem findIn_eraseIn (key k : Bytes) {l : List (Bytes × α)} (h : Ascending l) :
    findIn k (eraseIn key l) = if k = key then none else findIn k l := by
  induction l with
  | nil => simp [eraseIn, findIn]
  | cons a l ih =>
    obtain ⟨k', y⟩ := a
    have ⟨hk, hl⟩ := List.pairwise_cons.1 h
    have := ih hl
    rw [eraseIn]
    cases hc : Bytes.compare key k' <;> simp only [findIn]
    · by_cases hkk : k = key
      · simp [hkk, hc]
      · simp [hkk]
    · cases Bytes.eq_of_compare hc
      cases hd : Bytes.compare k key <;> simp only
      · rw [findIn_eq_none_of_lt fun e he => Bytes.compare_trans hd (hk e he)]
        simp
      · cases Bytes.eq_of_compare hd
        rw [findIn_eq_none_of_lt hk]
        simp
      · have : k ≠ key := by rintro rfl; simp at hd
        simp [this]
    · cases hd : Bytes.compare k k' <;> simp only
      · have : k ≠ key := by rintro rfl; simp [hc] at hd
        simp [this]
      · have : k ≠ key := by rintro rfl; simp [hc] at hd
        simp [this]
      · exact this

theorem findIn_eq_some_iff {key : Bytes} {x : α} {l : List (Bytes × α)} (h : Ascending l) :
    findIn key l = some x ↔ (key, x) ∈ l := by
  induction l with
  | nil => simp [findIn]
  | cons a l ih =>
    obtain ⟨k, y⟩ := a
    have ⟨hk, hl⟩ := List.pairwise_cons.1 h
    have := ih hl
    rw [findIn]
    cases hc : Bytes.compare key k <;> simp only
    · have : ∀ z, (key, z) ∉ l := fun z hz => by
        have := Bytes.compare_trans hc (hk _ hz)
        simp at this
      have hne : key ≠ k := by rintro rfl; simp at hc
      simp [this, hne]
    · cases Bytes.eq_of_compare hc
      have : ∀ z, (key, z) ∉ l := fun z hz => by
        have := hk _ hz
        simp at this
      simp [this, eq_comm]
    · have hne : key ≠ k := by rintro rfl; simp at hc
      simp [this, hne]

def empty : Table α := {}

instance : EmptyCollection (Table α) := ⟨empty⟩
instance : Inhabited (Table α) := ⟨empty⟩

def find? (t : Table α) (key : Bytes) : Option α := findIn key t.entries

def contains (t : Table α) (key : Bytes) : Bool := (t.find? key).isSome

def insert (t : Table α) (key : Bytes) (x : α) : Table α :=
  ⟨insertIn key x t.entries, ascending_insertIn t.ascending⟩

def erase (t : Table α) (key : Bytes) : Table α :=
  ⟨eraseIn key t.entries, ascending_eraseIn t.ascending⟩

def size (t : Table α) : Nat := t.entries.length

def isEmpty (t : Table α) : Bool := t.entries.isEmpty

def keys (t : Table α) : List Bytes := t.entries.map (·.1)

def values (t : Table α) : List α := t.entries.map (·.2)

@[simp] theorem find?_empty (k : Bytes) : (∅ : Table α).find? k = none := rfl

theorem find?_insert (t : Table α) (key k : Bytes) (x : α) :
    (t.insert key x).find? k = if k = key then some x else t.find? k :=
  findIn_insertIn key k x t.ascending

@[simp] theorem find?_insert_self (t : Table α) (key : Bytes) (x : α) :
    (t.insert key x).find? key = some x := by simp [find?_insert]

theorem find?_erase (t : Table α) (key k : Bytes) :
    (t.erase key).find? k = if k = key then none else t.find? k :=
  findIn_eraseIn key k t.ascending

@[simp] theorem find?_erase_self (t : Table α) (key : Bytes) : (t.erase key).find? key = none := by
  simp [find?_erase]

theorem find?_eq_some_iff {t : Table α} {key : Bytes} {x : α} :
    t.find? key = some x ↔ (key, x) ∈ t.entries :=
  findIn_eq_some_iff t.ascending

theorem ext_find? {t u : Table α} (h : ∀ k, t.find? k = u.find? k) : t = u := by
  have hmem : ∀ e, e ∈ t.entries ↔ e ∈ u.entries := fun ⟨k, x⟩ => by
    rw [← find?_eq_some_iff, ← find?_eq_some_iff, h]
  have hnd : ∀ v : Table α, v.entries.Nodup := fun v =>
    v.ascending.imp fun {a b} hab heq => by simp [heq] at hab
  have hperm : t.entries.Perm u.entries := (List.perm_ext_iff_of_nodup (hnd t) (hnd u)).2 hmem
  have hent : t.entries = u.entries :=
    hperm.eq_of_pairwise (fun a b _ _ hab hba => by
      have := Bytes.compare_trans hab hba
      simp at this) t.ascending u.ascending
  obtain ⟨l, hl⟩ := t
  obtain ⟨m, hm⟩ := u
  cases hent
  rfl

theorem erase_of_find?_eq_none {t : Table α} {key : Bytes} (h : t.find? key = none) :
    t.erase key = t :=
  ext_find? fun k => by
    rw [find?_erase]
    split
    · next hk => rw [hk, h]
    · rfl

end Table
end KeyStore
