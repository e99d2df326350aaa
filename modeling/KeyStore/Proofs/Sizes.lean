import KeyStore.Proofs.Frames
import KeyStore.Proofs.Records

/-!
# The sizes of records

A request whose byte strings have lengths that a frame can tell leads to records that can be read back,
and to keys of such lengths.
-/

namespace KeyStore

def Fits (t : Table Entry) : Prop := ∀ key e, t.find? key = some e → key.length ≤ Frame.maxLength

theorem Fits.of_subset {t u : Table Entry} (h : Fits u) (hsub : t ⊆ u) : Fits t :=
  fun key e he => h key e (hsub key e he)

namespace Command

variable {request : Request} {now : Int} {m m' : Table Entry} {records : List Request} {signature : Signature}
  {command : Command}

theorem ne_nil_of_read (h : read request = .ok (signature, command)) : request ≠ [] := by
  rintro rfl
  cases h

theorem mentions_of_read (h : read request = .ok (signature, command)) :
    command.mentions.length < request.length ∧ ∀ s ∈ command.mentions, s ∈ request := by
  have hsub := (spelled_of_read h).mentions
  have hlen := hsub.length_le
  have hpos : 0 < request.length := List.length_pos_iff.2 (ne_nil_of_read h)
  rw [List.length_tail] at hlen
  exact ⟨by omega, fun s hs => List.mem_of_mem_tail (hsub.subset hs)⟩

theorem readable_deadlineRecord {key : Bytes} {d : Int} (hkey : key.length ≤ Frame.maxLength)
    (hd : d.natAbs < Nat.pow 10 20) : Journal.Readable (deadlineRecord key d) := by
  have hnum := Numeral.length_ofInt_le hd (by decide)
  refine ⟨List.cons_ne_nil _ _, by simp [deadlineRecord, Frame.maxLength], ?_⟩
  simp only [deadlineRecord, List.forall_mem_cons]
  exact ⟨by decide, hkey, by simp only [Frame.maxLength]; omega, by simp⟩

theorem readable_set {key value : Bytes} (hkey : key.length ≤ Frame.maxLength)
    (hvalue : value.length ≤ Frame.maxLength) : Journal.Readable ["SET", key, value] := by
  refine ⟨List.cons_ne_nil _ _, by simp [Frame.maxLength], ?_⟩
  simp only [List.forall_mem_cons]
  exact ⟨by decide, hkey, hvalue, by simp⟩

theorem natAbs_add_lt {ms : Int} (hnow : IsInt64 now) (hms : WithinLimit ms) : (now + ms).natAbs < Nat.pow 10 20 := by
  have hpow : Nat.pow 10 20 = 100000000000000000000 := rfl
  simp only [IsInt64, minInt64, maxInt64, WithinLimit, durationLimit] at hnow hms
  omega

theorem natAbs_lt_of_deadline? {key : Bytes} {d : Int} (hnow : IsInt64 now) (hp : command.IsProper)
    (hd : command.deadline? now = some (key, d)) : d.natAbs < Nat.pow 10 20 := by
  cases command with
  | expireIn key ms =>
    cases hd
    exact natAbs_add_lt hnow hp
  | expireAt key d =>
    cases hd
    have hpow : Nat.pow 10 20 = 100000000000000000000 := rfl
    simp only [IsProper, WithinLimit, durationLimit] at hp
    omega
  | _ => cases hd

/-- The records that a request leads to can be read back. -/
theorem Told.readable (h : Told request now m records m') (hs : Frame.Sized request) (hnow : IsInt64 now) :
    ∀ record ∈ records, Journal.Readable record := by
  have hself : ∀ {signature command}, read request = .ok (signature, command) →
      ∀ record ∈ [request], Journal.Readable record := by
    intro signature command hread record hrecord
    rw [List.mem_singleton.1 hrecord]
    exact ⟨ne_nil_of_read hread, hs⟩
  cases h with
  | nothing => simp
  | flushed hread => exact hself hread
  | updated hread => exact hself hread
  | @deleted signature command keys hread hne hsub =>
    obtain ⟨hlen, hmem⟩ := mentions_of_read hread
    have hkeys := hsub.length_le
    have hmax := hs.1
    refine List.forall_mem_singleton.2 ⟨List.cons_ne_nil _ _, ?_, ?_⟩
    · simp only [deletionRecord, List.length_cons]
      omega
    · exact List.forall_mem_cons.2 ⟨by decide, fun key hkey => hs.2 key (hmem key (hsub.subset hkey))⟩
  | @stored signature key value hread =>
    have hmem := (mentions_of_read hread).2
    exact List.forall_mem_singleton.2
      (readable_set (hs.2 key (hmem key (by simp [mentions]))) (hs.2 value (hmem value (by simp [mentions]))))
  | @storedUntil signature key value ms hread =>
    have hmem := (mentions_of_read hread).2
    have hkey := hs.2 key (hmem key (by simp [mentions]))
    have hlim := (spelled_of_read hread).proper.2
    exact List.forall_mem_cons.2 ⟨readable_set hkey (hs.2 value (hmem value (by simp [mentions]))),
      List.forall_mem_singleton.2 (readable_deadlineRecord hkey (natAbs_add_lt hnow hlim))⟩
  | @scheduled signature command key d e hread hd he =>
    have hkey : key ∈ command.mentions := by cases command <;> cases hd <;> exact List.mem_singleton.2 rfl
    exact List.forall_mem_singleton.2 (readable_deadlineRecord (hs.2 key ((mentions_of_read hread).2 key hkey))
      (natAbs_lt_of_deadline? hnow (spelled_of_read hread).proper hd))

theorem Told.fits (h : Told request now m records m') (hs : Frame.Sized request) (hm : Fits m) : Fits m' := by
  have hput : ∀ {signature command key}, read request = .ok (signature, command) → key ∈ command.mentions →
      ∀ x, Fits (m.put key x) := by
    intro signature command key hread hkey x k e he
    by_cases hk : k = key
    · exact hk ▸ hs.2 key ((mentions_of_read hread).2 key hkey)
    · rw [Table.find?_put, if_neg hk] at he
      exact hm k e he
  cases h with
  | nothing => exact hm
  | flushed hread => exact fun k e he => by simp at he
  | deleted hread hne hsub => exact hm.of_subset (Table.eraseAll_subset _ _)
  | stored hread => exact hput hread (by simp [mentions]) _
  | storedUntil hread => exact hput hread (by simp [mentions]) _
  | @scheduled signature command key d e hread hd he =>
    have hkey : key ∈ command.mentions := by cases command <;> cases hd <;> exact List.mem_singleton.2 rfl
    exact hput hread hkey _
  | updated hread hup => exact hput hread (by simp [mentions_of_update? hup]) _

end Command

end KeyStore
