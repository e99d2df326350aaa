import KeyStore.Database
import KeyStore.Proofs.Rankings
import KeyStore.Proofs.Tables

/-!
# The deadline index

The index by time holds the deadlines of the entries and nothing else (`Indexes`). Changes of one
entry keep it so. With it a sweep takes out the keys past their deadline, earliest first, and what a
sweep takes out is not visible.
-/

namespace KeyStore

/-- The index holds the deadline of each entry that has one, and nothing else. -/
structure Indexes (index : Ranking Int) (entries : Table Entry) : Prop where
  ascending : Ranking.Ascending id index
  mem_iff : ∀ d key, (d, key) ∈ index ↔ ∃ e, entries.find? key = some e ∧ e.deadline = some d

namespace Keyspace

/-- The entries that are not past their deadline. -/
def visible (ks : Keyspace) (now : Int) : Table Entry := ks.entries.filter (!·.hasElapsed now)

theorem find?_visible (ks : Keyspace) (now : Int) (key : Bytes) :
    (ks.visible now).find? key = (ks.entries.find? key).filter (!·.hasElapsed now) :=
  Table.find?_filter ..

end Keyspace

theorem Entry.hasElapsed_mono {e : Entry} {now later : Int} (h : now ≤ later) (he : e.hasElapsed now = true) :
    e.hasElapsed later = true := by
  obtain ⟨d, hd, hle⟩ := Entry.hasElapsed_eq_true_iff.1 he
  exact Entry.hasElapsed_eq_true_iff.2 ⟨d, hd, Int.le_trans hle h⟩

theorem Table.filter_visible (t : Table Entry) {now later : Int} (h : now ≤ later) :
    (t.filter (!·.hasElapsed now)).filter (!·.hasElapsed later) = t.filter (!·.hasElapsed later) := by
  refine Table.ext_find? fun k => ?_
  simp only [Table.find?_filter]
  cases t.find? k with
  | none => rfl
  | some e =>
    cases hnow : e.hasElapsed now with
    | false => simp [Option.filter, hnow]
    | true => simp [Option.filter, hnow, Entry.hasElapsed_mono h hnow]

theorem Keyspace.visible_later {ks₁ ks₂ : Keyspace} {now later : Int} (h : now ≤ later)
    (heq : ks₁.visible now = ks₂.visible now) : ks₁.visible later = ks₂.visible later := by
  simp only [Keyspace.visible] at heq ⊢
  rw [← Table.filter_visible ks₁.entries h, heq, Table.filter_visible ks₂.entries h]

namespace Indexes

variable {index : Ranking Int} {entries : Table Entry}

theorem empty : Indexes [] (∅ : Table Entry) := ⟨List.Pairwise.nil, by simp⟩

theorem compare_eq_iff {x y : Int × Bytes} : Ranking.compare id x y = .eq ↔ x = y := by
  rw [Ranking.compare_eq_iff, Prod.ext_iff]
  rfl

theorem nodup_keys (h : Indexes index entries) : (index.map (·.2)).Nodup := by
  refine List.pairwise_map.2 (List.Pairwise.imp_of_mem ?_ h.ascending)
  rintro ⟨d, key⟩ ⟨d', key'⟩ hx hy hlt rfl
  obtain ⟨e, he, hd⟩ := (h.mem_iff d key).1 hx
  obtain ⟨e', he', hd'⟩ := (h.mem_iff d' key).1 hy
  obtain rfl : e = e' := by simpa [he] using he'
  obtain rfl : d = d' := by simpa [hd] using hd'
  simp at hlt

theorem ascending_unschedule (h : Indexes index entries) (key : Bytes) (old : Option Int) :
    Ranking.Ascending id (Keyspace.unschedule index key old) := by
  cases old with
  | none => exact h.ascending
  | some d => exact h.ascending.erase

theorem mem_unschedule (h : Indexes index entries) {key : Bytes} {old : Option Int}
    (hold : (entries.find? key).bind (·.deadline) = old) (z : Int × Bytes) :
    z ∈ Keyspace.unschedule index key old ↔ z ∈ index ∧ z.2 ≠ key := by
  obtain ⟨d, k⟩ := z
  have hkey : (d, key) ∈ index ↔ old = some d := by
    rw [h.mem_iff, ← hold, Option.bind_eq_some_iff]
  cases old with
  | none =>
    refine ⟨fun hz => ⟨hz, ?_⟩, fun hz => hz.1⟩
    rintro rfl
    simpa using hkey.1 hz
  | some d' =>
    rw [Keyspace.unschedule, Ranking.mem_erase h.ascending, Ne, compare_eq_iff]
    refine and_congr_right fun hz => not_congr ⟨fun heq => (Prod.mk.inj heq).2.symm, ?_⟩
    rintro rfl
    rw [Option.some.inj (hkey.1 hz)]

/-- Replacing the entry of a key, along with its place in the index. -/
theorem replace (h : Indexes index entries) {key : Bytes} {old : Option Int}
    (hold : (entries.find? key).bind (·.deadline) = old) (x : Option Entry) :
    Indexes (Keyspace.schedule (Keyspace.unschedule index key old) key (x.bind (·.deadline)))
      (entries.put key x) := by
  have hasc := h.ascending_unschedule key old
  have hmem := h.mem_unschedule hold
  -- the entries of the other keys and their places are as before
  have hother : ∀ d k, k ≠ key → ((d, k) ∈ Keyspace.unschedule index key old ↔
      ∃ e, (entries.put key x).find? k = some e ∧ e.deadline = some d) := by
    intro d k hk
    rw [hmem, h.mem_iff, Table.find?_put, if_neg hk]
    simp [hk]
  have hkey : ∀ d, (d, key) ∉ Keyspace.unschedule index key old := fun d hd => ((hmem _).1 hd).2 rfl
  cases hx : x.bind (·.deadline) with
  | none =>
    refine ⟨hasc, fun d k => ?_⟩
    by_cases hk : k = key
    · subst hk
      rw [Keyspace.schedule, Table.find?_put_self, ← Option.bind_eq_some_iff, hx]
      simp [hkey]
    · exact hother d k hk
  | some new =>
    refine ⟨hasc.insert, fun d k => ?_⟩
    have hne : ∀ y ∈ Keyspace.unschedule index key old, Ranking.compare id (new, key) y ≠ .eq := by
      intro y hy heq
      exact hkey new (compare_eq_iff.1 heq ▸ hy)
    rw [Keyspace.schedule, Ranking.mem_insert hne]
    by_cases hk : k = key
    · subst hk
      rw [Table.find?_put_self, ← Option.bind_eq_some_iff, hx]
      simp [hkey, eq_comm]
    · rw [← hother d k hk]
      simp [hk]

theorem keep (h : Indexes index entries) {key : Bytes} {e : Entry}
    (he : (entries.find? key).bind (·.deadline) = e.deadline) : Indexes index (entries.insert key e) := by
  refine ⟨h.ascending, fun d k => ?_⟩
  rw [h.mem_iff, Table.find?_insert]
  by_cases hk : k = key
  · subst hk
    rw [← Option.bind_eq_some_iff, he]
    simp
  · simp [hk]

theorem drop {ks : Keyspace} (h : Indexes ks.index ks.entries) {key : Bytes} {e : Entry}
    (he : ks.entries.find? key = some e) : Indexes (ks.drop key e).index (ks.drop key e).entries :=
  h.replace (by simp [he]) none

theorem reschedule {ks : Keyspace} (h : Indexes ks.index ks.entries) {key : Bytes} {e : Entry}
    (he : (ks.entries.find? key).bind (·.deadline) = e.deadline) (d : Option Int) :
    Indexes (ks.reschedule key e d).index (ks.reschedule key e d).entries :=
  h.replace he (some { e with deadline := d })

theorem suffix {front rest : Ranking Int} (h : Indexes (front ++ rest) entries) :
    Indexes rest (entries.eraseAll (front.map (·.2))) := by
  refine ⟨(List.pairwise_append.1 h.ascending).2.1, fun d k => ?_⟩
  have hnd := h.nodup_keys
  rw [List.map_append, List.nodup_append] at hnd
  rw [Table.find?_eraseAll]
  by_cases hk : k ∈ front.map (·.2)
  · -- a key of the front has no second place
    have hnot : (d, k) ∉ rest := fun hr => hnd.2.2 k hk k (List.mem_map.2 ⟨_, hr, rfl⟩) rfl
    simp [hk, hnot]
  · have hnot : (d, k) ∉ front := fun hf => hk (List.mem_map.2 ⟨_, hf, rfl⟩)
    have hmem := h.mem_iff d k
    simpa [hk, hnot] using hmem

end Indexes

namespace Keyspace

def due (now : Int) (limit : Nat) (index : Ranking Int) : Ranking Int :=
  (index.takeWhile (·.1 ≤ now)).take limit

variable {ks : Keyspace}

/-- A sweep takes the due keys from the front of the index, and the entries with them. -/
theorem expireFrom_eq (h : Indexes ks.index ks.entries) (now : Int) (limit : Nat) {rounds : Nat}
    (hrounds : ks.index.length ≤ rounds) (removed : Nat) :
    expireFrom now limit rounds removed ks =
      let keys := (due now (limit - removed) ks.index).map (·.2)
      (removed + keys.length,
        { ks with
          entries := ks.entries.eraseAll keys
          index := ks.index.drop (due now (limit - removed) ks.index).length
          expired := ks.expired + keys.length
          unlogged := ks.unlogged ++ keys }) := by
  induction rounds generalizing ks removed with
  | zero =>
    obtain ⟨entries, index, expired, unlogged, loading⟩ := ks
    obtain rfl : index = [] := List.eq_nil_of_length_eq_zero (Nat.le_zero.1 hrounds)
    simp [expireFrom, due]
  | succ rounds ih =>
    obtain ⟨entries, index, expired, unlogged, loading⟩ := ks
    cases index with
    | nil => simp [expireFrom, due]
    | cons x rest =>
      obtain ⟨d, key⟩ := x
      rw [expireFrom]
      simp only
      split
      · next hstop =>
        have hdue : due now (limit - removed) ((d, key) :: rest) = [] := by
          rcases hstop with hle | hlt
          · simp [due, Nat.sub_eq_zero_of_le hle]
          · simp [due, Int.not_le.2 hlt]
        simp [hdue]
      · next hgo =>
        obtain ⟨hroom, hle⟩ := not_or.1 hgo
        have hdue : due now (limit - removed) ((d, key) :: rest) =
            (d, key) :: due now (limit - (removed + 1)) rest := by
          rw [show limit - removed = limit - (removed + 1) + 1 by omega]
          simp [due, Int.not_lt.1 hle]
        -- the first place is that of an entry, so the entry takes this very place with it
        obtain ⟨e, he, hd⟩ := (h.mem_iff d key).1 List.mem_cons_self
        have hevict : evict ⟨entries, (d, key) :: rest, expired, unlogged, loading⟩ key e =
            ⟨entries.erase key, rest, expired + 1, unlogged ++ [key], loading⟩ := by
          simp [evict, drop, unschedule, hd, Ranking.erase]
        have hindexes : Indexes rest (entries.erase key) := by
          simpa [drop, unschedule, hd, Ranking.erase] using h.drop he
        rw [he]
        simp only
        rw [hevict, ih hindexes (Nat.le_of_succ_le_succ hrounds), hdue]
        simp [Nat.add_assoc, Nat.add_comm 1]

theorem length_due_le (now : Int) (limit : Nat) (index : Ranking Int) :
    (due now limit index).length ≤ index.length :=
  ((List.take_sublist ..).trans (List.takeWhile_sublist _)).length_le

theorem mem_due {now : Int} {limit : Nat} {index : Ranking Int} {x : Int × Bytes}
    (h : x ∈ due now limit index) : x ∈ index ∧ x.1 ≤ now := by
  have hx := List.mem_of_mem_take h
  have hall := List.all_takeWhile (p := fun x : Int × Bytes => decide (x.1 ≤ now)) (l := index)
  exact ⟨(List.takeWhile_sublist _).subset hx, by simpa using List.all_eq_true.1 hall x hx⟩

theorem hasElapsed_of_mem_due (h : Indexes ks.index ks.entries) {now : Int} {limit : Nat} {x : Int × Bytes}
    (hx : x ∈ due now limit ks.index) :
    ∃ e, ks.entries.find? x.2 = some e ∧ e.hasElapsed now = true := by
  obtain ⟨hmem, hle⟩ := mem_due hx
  obtain ⟨e, he, hd⟩ := (h.mem_iff x.1 x.2).1 hmem
  exact ⟨e, he, Entry.hasElapsed_eq_true_iff.2 ⟨x.1, hd, hle⟩⟩

theorem visible_eraseAll {now : Int} {keys : List Bytes}
    (h : ∀ key ∈ keys, ∃ e, ks.entries.find? key = some e ∧ e.hasElapsed now = true) :
    (ks.entries.eraseAll keys).filter (!·.hasElapsed now) = ks.visible now := by
  refine Table.ext_find? fun k => ?_
  rw [find?_visible, Table.find?_filter, Table.find?_eraseAll]
  split
  · next hk =>
    obtain ⟨e, he, hel⟩ := h k hk
    simp [he, hel, Option.filter]
  · rfl

/-- What one removal of expired keys does. -/
structure Swept (ks : Keyspace) (now : Int) (keys : List Bytes) (ks' : Keyspace) : Prop where
  entries : ks'.entries = ks.entries.eraseAll keys
  unlogged : ks'.unlogged = ks.unlogged ++ keys
  expired : ks'.expired = ks.expired + keys.length
  loading : ks'.loading = ks.loading
  indexes : Indexes ks'.index ks'.entries
  elapsed : ∀ key ∈ keys, ∃ e, ks.entries.find? key = some e ∧ e.hasElapsed now = true

theorem Swept.visible {now : Int} {keys : List Bytes} {ks' : Keyspace} (h : Swept ks now keys ks') :
    ks'.visible now = ks.visible now := by
  rw [Keyspace.visible, h.entries]
  exact visible_eraseAll h.elapsed

theorem removeExpired_eq (h : Indexes ks.index ks.entries) (c : Clock) (limit : Nat) :
    ks.removeExpired c limit =
      let keys := (due c.now limit ks.index).map (·.2)
      ⟨keys.length,
        { ks with
          entries := ks.entries.eraseAll keys
          index := ks.index.drop (due c.now limit ks.index).length
          expired := ks.expired + keys.length
          unlogged := ks.unlogged ++ keys }, c.next⟩ := by
  simp only [removeExpired, Clock.read, expireFrom_eq h c.now limit (Nat.le_add_right _ _), Nat.zero_add, Nat.sub_zero]

/-- The index without the due keys belongs to the entries without them. -/
theorem indexes_drop_due (h : Indexes ks.index ks.entries) (now : Int) (limit : Nat) :
    Indexes (ks.index.drop (due now limit ks.index).length)
      (ks.entries.eraseAll ((due now limit ks.index).map (·.2))) := by
  obtain ⟨rest, hrest⟩ : due now limit ks.index <+: ks.index :=
    (List.take_prefix ..).trans (List.takeWhile_prefix _)
  generalize due now limit ks.index = front at hrest ⊢
  rw [← hrest] at h ⊢
  rw [List.drop_left]
  exact h.suffix

theorem swept_removeExpired (h : Indexes ks.index ks.entries) (c : Clock) (limit : Nat) :
    Swept ks c.now ((due c.now limit ks.index).map (·.2)) (ks.removeExpired c limit).keyspace := by
  rw [removeExpired_eq h]
  refine ⟨rfl, rfl, rfl, rfl, indexes_drop_due h c.now limit, ?_⟩
  intro key hkey
  obtain ⟨x, hx, rfl⟩ := List.mem_map.1 hkey
  exact hasElapsed_of_mem_due h hx

theorem result_removeExpired (h : Indexes ks.index ks.entries) (c : Clock) (limit : Nat) :
    (ks.removeExpired c limit).result = (due c.now limit ks.index).length := by
  simp [removeExpired_eq h]

theorem not_hasElapsed_of_due_eq_nil (h : Indexes ks.index ks.entries) {now : Int} {limit : Nat}
    (hdue : due now (limit + 1) ks.index = []) {key : Bytes} {e : Entry} (he : ks.entries.find? key = some e) :
    e.hasElapsed now = false := by
  refine Bool.eq_false_iff.2 fun hel => ?_
  obtain ⟨d, hd, hle⟩ := Entry.hasElapsed_eq_true_iff.1 hel
  have hmem : (d, key) ∈ ks.index := (h.mem_iff d key).2 ⟨e, he, hd⟩
  have hasc := h.ascending
  cases hi : ks.index with
  | nil => simp [hi] at hmem
  | cons x rest =>
    rw [hi] at hdue hmem hasc
    have hx : now < x.1 := by
      refine Int.not_le.1 fun hxle => ?_
      simp [due, hxle] at hdue
    -- the first deadline is the least
    rcases List.mem_cons.1 hmem with rfl | hmem
    · exact absurd hle (Int.not_le.2 hx)
    · have hlt := (List.pairwise_cons.1 hasc).1 _ hmem
      unfold Ranking.compare at hlt
      simp only [id] at hlt
      split at hlt
      · omega
      · split at hlt
        · cases hlt
        · omega

end Keyspace

namespace Database

open Keyspace

/-- Removing batch by batch leaves the visible entries. -/
theorem expireAll_spec {ks : Keyspace} (h : Indexes ks.index ks.entries) {c : Clock} {now : Int}
    (hc : c.Stands now) {fuel : Nat} (hf : ks.index.length < fuel) (n : Nat) :
    (expireAll ks c n fuel).keyspace.entries = ks.visible now ∧
      (expireAll ks c n fuel).keyspace.loading = ks.loading ∧
      Indexes (expireAll ks c n fuel).keyspace.index (expireAll ks c n fuel).keyspace.entries := by
  induction fuel generalizing ks c n with
  | zero => omega
  | succ fuel ih =>
    have hswept := swept_removeExpired h c sweepBatch
    have hres := result_removeExpired h c sweepBatch
    have hvis := hswept.visible
    rw [hc.now_eq] at hswept hres hvis
    have hkey : (ks.removeExpired c sweepBatch).clock = c.next := by rw [removeExpired_eq h]
    rw [expireAll]
    split
    · next h0 =>
      -- nothing was due, so nothing was removed and everything is visible
      have hdue : due now (1023 + 1) ks.index = [] := List.eq_nil_of_length_eq_zero (hres ▸ h0)
      have hent : (ks.removeExpired c sweepBatch).keyspace.entries = ks.entries := by
        rw [hswept.entries, show due now sweepBatch ks.index = [] from hdue]
        rfl
      refine ⟨?_, hswept.loading, hswept.indexes⟩
      rw [hent]
      refine Table.ext_find? fun k => ?_
      rw [find?_visible]
      cases he : ks.entries.find? k with
      | none => rfl
      | some e => simp [Option.filter, not_hasElapsed_of_due_eq_nil h hdue he]
    · next h0 =>
      have hlen : (ks.removeExpired c sweepBatch).keyspace.index.length < fuel := by
        rw [removeExpired_eq h, hc.now_eq]
        simp only [List.length_drop]
        rw [hres] at h0
        have hle := length_due_le now sweepBatch ks.index
        omega
      have hrest := ih hswept.indexes (hkey ▸ hc.next) hlen (n + (ks.removeExpired c sweepBatch).result)
      rw [hvis, hswept.loading] at hrest
      exact hrest

end Database
end KeyStore
