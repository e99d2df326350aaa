import KeyStore.Proofs.Courses
import KeyStore.Proofs.Damage
import KeyStore.Proofs.Scans

/-!
# Appending to a file that may be full

Records are appended one after another while the size that the file may grow to changes, so some calls
fail, and such a call can leave the first bytes of its record behind. As long as none does, the journal
reads back as the records that were acknowledged. After the first one that does, some record that is
appended and acknowledged can be lost (`Journal.acknowledged_read_iff`).
-/

namespace KeyStore

/-- A record to be appended, and the greatest size that the file may grow to then. -/
structure Write where
  record : Request
  limit : Option Nat := none
  deriving DecidableEq

namespace Journal

def write (j : Journal) (w : Write) : Bool × Journal := { j with limit := w.limit }.append w.record

/-- Makes calls one after another, and gives the records that were acknowledged. -/
def writeAll (j : Journal) : List Write → List Request × Journal
  | [] => ([], j)
  | w :: writes =>
    let (done, j) := j.write w
    let (kept, j) := writeAll j writes
    (if done then w.record :: kept else kept, j)

/-- The call fails and leaves bytes behind. -/
def Tears (j : Journal) (w : Write) : Prop := (j.write w).1 = false ∧ (j.write w).2.contents ≠ j.contents

def Untorn : Journal → List Write → Prop
  | _, [] => True
  | j, w :: writes => ¬ j.Tears w ∧ Untorn (j.write w).2 writes

instance (j : Journal) (w : Write) : Decidable (j.Tears w) := inferInstanceAs (Decidable (_ ∧ _))

variable {j : Journal} {w : Write} {writes more : List Write}

theorem exists_write (j : Journal) (w : Write) :
    ∃ k ≤ (Frame.encode w.record).length, (j.write w).2.contents = j.contents ++ (Frame.encode w.record).take k ∧
      ((j.write w).1 = true ↔ k = (Frame.encode w.record).length) := by
  obtain ⟨k, hk, hsent, hdone⟩ := Transfer.exists_run_callsWithin (Frame.encode w.record)
    (w.limit.map (· - j.contents.length))
  refine ⟨k, hk, ?_, ?_⟩
  · simp only [write, append, ← hsent]
    split <;> rfl
  · simp only [write, append, ← hdone]
    split <;> simp_all

theorem writeAll_append (j : Journal) (writes more : List Write) :
    j.writeAll (writes ++ more) =
      ((j.writeAll writes).1 ++ ((j.writeAll writes).2.writeAll more).1, ((j.writeAll writes).2.writeAll more).2) := by
  induction writes generalizing j with
  | nil => rfl
  | cons w writes ih =>
    simp only [List.cons_append, writeAll, ih]
    split <;> rfl

theorem exists_of_mem_writeAll {r : Request} (h : r ∈ (j.writeAll writes).1) : ∃ w ∈ writes, w.record = r := by
  induction writes generalizing j with
  | nil => cases h
  | cons w writes ih =>
    simp only [writeAll] at h
    have hrest : r ∈ ((j.write w).2.writeAll writes).1 → ∃ w' ∈ w :: writes, w'.record = r := fun hmem =>
      let ⟨w', hw', heq⟩ := ih hmem
      ⟨w', List.mem_cons_of_mem _ hw', heq⟩
    split at h
    · rcases List.mem_cons.1 h with rfl | hmem
      · exact ⟨w, List.mem_cons_self, rfl⟩
      · exact hrest hmem
    · exact hrest h

theorem sublist_writeAll (j : Journal) (writes : List Write) :
    (j.writeAll writes).1.Sublist (writes.map (·.record)) := by
  induction writes generalizing j with
  | nil => exact .slnil
  | cons w writes ih =>
    simp only [writeAll, List.map_cons]
    split
    · exact (ih _).cons_cons _
    · exact (ih _).cons _

theorem untorn_of_all (h : (j.writeAll writes).1 = writes.map (·.record)) : j.Untorn writes := by
  induction writes generalizing j with
  | nil => trivial
  | cons w writes ih =>
    have hle := (sublist_writeAll (j.write w).2 writes).length_le
    simp only [writeAll, List.map_cons] at h
    split at h
    · next hdone => exact ⟨fun htears => by simp [htears.1] at hdone, ih (List.cons.inj h).2⟩
    · -- an acknowledgement is missing
      rw [h, List.length_cons] at hle
      omega

theorem contents_writeAll (h : j.Untorn writes) :
    (j.writeAll writes).2.contents = j.contents ++ bytesOf (j.writeAll writes).1 := by
  induction writes generalizing j with
  | nil => exact (List.append_nil _).symm
  | cons w writes ih =>
    obtain ⟨htorn, hrest⟩ := h
    simp only [writeAll]
    rw [ih hrest]
    obtain ⟨k, hk, hcontents, hdone⟩ := j.exists_write w
    cases hok : (j.write w).1 with
    | true =>
      rw [hcontents, hdone.1 hok, List.take_length, List.append_assoc]
      rfl
    | false =>
      have hsame : (j.write w).2.contents = j.contents := Decidable.not_not.1 fun hne => htorn ⟨hok, hne⟩
      rw [hsame]
      rfl

theorem writeAll_unlimited (j : Journal) (records : List Request) :
    let o := j.writeAll (records.map ({ record := · }))
    o.1 = records ∧ o.2.contents = j.contents ++ bytesOf records := by
  induction records generalizing j with
  | nil => exact ⟨rfl, (List.append_nil _).symm⟩
  | cons r records ih =>
    have hok : (j.write { record := r }).1 = true := by
      simp [write, append, Transfer.callsWithin, Transfer.run_took_length]
    have hwrite : j.write { record := r } = (true, { j with limit := none }.extended [r]) := append_of_fst hok
    obtain ⟨hkept, hrest⟩ := ih ({ j with limit := none }.extended [r])
    simp only [List.map_cons, writeAll, hwrite, if_true, hkept, hrest]
    exact ⟨trivial, by simp [extended]⟩

theorem extends_iff {s : Bytes} {kept : List Request} (hs : recordsIn s = kept) :
    (∀ more : List Request, (∀ r ∈ more, Readable r) →
      (scan (s ++ bytesOf more)).isCorrupt = false ∧ (kept ++ more).Sublist (recordsIn (s ++ bytesOf more))) ↔
      (scan s).tail = [] := by
  constructor
  · intro hall
    refine Decidable.byContradiction fun hne => ?_
    obtain ⟨r, hr, hlost⟩ := exists_lost hne (incomplete_tail s)
    have hsub := (hall [r] (List.forall_mem_singleton.2 hr)).2
    rw [(recordsIn_append s _).1, hs, List.append_sublist_append_left, bytesOf_cons, bytesOf_nil,
      List.append_nil] at hsub
    exact hlost (hsub.subset (List.mem_singleton_self r))
  · intro htail more hmore
    obtain ⟨hrecords, htail'⟩ := recordsIn_append s (bytesOf more)
    rw [htail, List.nil_append] at hrecords htail'
    rw [Scan.isCorrupt, htail', tail_scan_bytesOf hmore, hrecords, hs, recordsIn_bytesOf hmore]
    exact ⟨rfl, List.Sublist.refl _⟩

/-- What the last of several calls leaves, if those before it left no torn end: what was acknowledged, and
the torn end of the last record. -/
theorem exists_tail_write {kept : List Request} (hread : Readable w.record) (hj : j.contents = bytesOf kept) :
    ∃ tail, (j.write w).2.contents = bytesOf (kept ++ if (j.write w).1 then [w.record] else []) ++ tail ∧
      Frame.Incomplete tail ∧ (tail = [] ↔ ¬ j.Tears w) ∧
      (laterFrame tail = true ↔
        j.Tears w ∧ Frame.Embeds w.record ((j.write w).2.contents.length - j.contents.length)) := by
  obtain ⟨k, hk, hcontents, hdone⟩ := j.exists_write w
  cases hok : (j.write w).1 with
  | true =>
    have hnot : ¬ j.Tears w := fun htears => by simp [htears.1] at hok
    refine ⟨[], ?_, Frame.incomplete_nil, by simp [hnot], by simp [hnot, laterFrame]⟩
    rw [hcontents, hdone.1 hok, List.take_length, hj]
    simp
  | false =>
    have hlt : k < (Frame.encode w.record).length := Nat.lt_of_le_of_ne hk fun heq => by simp [hdone.2 heq] at hok
    have htears : (Frame.encode w.record).take k = [] ↔ ¬ j.Tears w := by
      rw [Tears, hok, hcontents, ne_eq, List.append_right_eq_self, and_iff_right rfl, Decidable.not_not]
    have htaken : (j.write w).2.contents.length - j.contents.length = k := by
      rw [hcontents, List.length_append, List.length_take, Nat.min_eq_left hk, Nat.add_sub_cancel_left]
    refine ⟨(Frame.encode w.record).take k, ?_, Frame.incomplete_take_encode hread.2 hlt, htears, ?_⟩
    · rw [hcontents, hj]
      simp
    · rw [htaken, ← Frame.laterFrame_take_encode]
      refine ⟨fun hlater => ⟨Decidable.not_not.1 fun hnot => ?_, hlater⟩, fun h => h.2⟩
      simp [htears.2 hnot, laterFrame] at hlater

/-- When calls to append, of which none left the torn end of a record, are followed by one more, the journal
reads back as the records that were acknowledged. It is taken for damaged only if the last call left a torn
end in which its record embeds a frame. And it goes on reading back at least as what is acknowledged, whatever
is appended afterwards without a limit, if and only if the last call left no torn end either. -/
theorem acknowledged_read_iff (path : Bytes) {writes : List Write} {w : Write}
    (hread : ∀ x ∈ writes ++ [w], Readable x.record) (huntorn : Untorn { path } writes) :
    let before := (writeAll { path } writes).2
    let after := writeAll { path } (writes ++ [w])
    recordsIn after.2.contents = after.1 ∧
      ((scan after.2.contents).isCorrupt = true ↔
        before.Tears w ∧ Frame.Embeds w.record (after.2.contents.length - before.contents.length)) ∧
      ((∀ more : List Request, (∀ r ∈ more, Readable r) →
        let final := writeAll { path } (writes ++ w :: more.map ({ record := · }))
        (scan final.2.contents).isCorrupt = false ∧ final.1.Sublist (recordsIn final.2.contents)) ↔
        ¬ before.Tears w) := by
  intro before after
  have hbefore : before.contents = bytesOf (writeAll { path } writes).1 := contents_writeAll huntorn
  have hafter : after = ((writeAll { path } writes).1 ++ if (before.write w).1 then [w.record] else [],
      (before.write w).2) := writeAll_append _ writes [w]
  obtain ⟨tail, hcontents, htail, htears, hlater⟩ := exists_tail_write (hread w (by simp)) hbefore
  have hkept : ∀ r ∈ after.1, Readable r := by
    intro r hr
    obtain ⟨x, hx, rfl⟩ := exists_of_mem_writeAll hr
    exact hread x hx
  rw [hafter] at hkept
  obtain ⟨hrecords, hend, -⟩ := scan_bytesOf hkept htail
  rw [← hcontents] at hrecords hend
  have hextends := extends_iff hrecords
  rw [hend, htears] at hextends
  refine ⟨hafter ▸ hrecords, ?_, ?_⟩
  · rw [hafter, Scan.isCorrupt, hend, hlater]
  · rw [← hextends]
    refine forall₂_congr fun more _ => ?_
    obtain ⟨hmore, hbytes⟩ := writeAll_unlimited after.2 more
    rw [List.append_cons, writeAll_append _ (writes ++ [w])]
    change (scan (after.2.writeAll _).2.contents).isCorrupt = false ∧
      (after.1 ++ (after.2.writeAll _).1).Sublist (recordsIn (after.2.writeAll _).2.contents) ↔ _
    rw [hbytes, hmore, hafter]

theorem acknowledged_read_of_full_file :
    let set : Write := { record := ["SET", "a", "1"] }
    let cut (limit : Nat) : Write := { record := ["SET", "b", "2"], limit := some limit }
    let survives (limit : Nat) : Prop := ∀ more : List Request, (∀ r ∈ more, Readable r) →
      let final := writeAll { path := "log" } ([set] ++ cut limit :: more.map ({ record := · }))
      (scan final.2.contents).isCorrupt = false ∧ final.1.Sublist (recordsIn final.2.contents)
    survives 27 ∧ ¬ survives 31 := by
  intro set cut survives
  have huntorn : Untorn { path := "log" } [set] := ⟨by decide +kernel, trivial⟩
  constructor
  · exact (acknowledged_read_iff "log" (w := cut 27) (by decide) huntorn).2.2.2 (by decide +kernel)
  · exact fun h => (acknowledged_read_iff "log" (w := cut 31) (by decide) huntorn).2.2.1 h (by decide +kernel)

end Journal
end KeyStore
