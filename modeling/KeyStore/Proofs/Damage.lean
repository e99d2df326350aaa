import KeyStore.Database
import KeyStore.Proofs.Lines

/-!
# Torn ends and damage

A journal that is read up to bytes no frame starts with ends there, and these bytes are cut off, unless
a complete frame at a later line of them shows that records would be lost. A record cut short shows one
if it embeds one (`Journal.torn_end_corrupt_iff`). Damage in front of records shows one unless a single
record follows on the line where the damage ends (`Journal.damage_reported_iff`).
-/

namespace KeyStore.Journal

variable {records : List (List Bytes)} {tail : Bytes}

instance (s : Bytes) : Decidable (Frame.Incomplete s) :=
  match h : Frame.parse s with
  | .done items size rest => isFalse fun hnone => hnone items size rest h
  | .needMore => isTrue fun items size rest h' => by cases h.symm.trans h'
  | .malformed => isTrue fun items size rest h' => by cases h.symm.trans h'

instance (record : List Bytes) : Decidable (Readable record) := inferInstanceAs (Decidable (_ ∧ _))

theorem dropped_of_laterFrame_eq_false (h : ∀ r ∈ records, Readable r) (htail : Frame.Incomplete tail)
    (hlater : laterFrame tail = false) :
    (scan (bytesOf records ++ tail)).discarded = tail.length ∧
      recovered (bytesOf records ++ tail) = bytesOf records := by
  obtain ⟨_, hend, hvalid⟩ := scan_bytesOf h htail
  have hdiscarded : (scan (bytesOf records ++ tail)).discarded = tail.length := by
    simp [Scan.discarded, isCorrupt_scan_bytesOf h htail, hlater, hend]
  refine ⟨hdiscarded, ?_⟩
  simp only [recovered, hdiscarded, hvalid]
  split
  · next hnil => rw [List.length_eq_zero_iff.1 hnil, List.append_nil]
  · exact List.take_left

theorem kept_of_isCorrupt {s : Bytes} (h : (scan s).isCorrupt = true) : (scan s).discarded = 0 ∧ recovered s = s := by
  have hdiscarded : (scan s).discarded = 0 := by simp [Scan.discarded, h]
  exact ⟨hdiscarded, by simp [recovered, hdiscarded]⟩

theorem replay_eq_error_iff {db : Database} {c : Clock} {path contents : Bytes} {e : Corrupt} :
    (db.replay c path contents).result = .error e ↔
      (scan contents).isCorrupt = true ∧ e = ⟨path, (scan contents).valid⟩ := by
  simp only [Database.replay]
  split
  · next hcorrupt => simp [hcorrupt, eq_comm]
  · next hcorrupt => simp [hcorrupt]

/-- Of a journal that is cut anywhere, the records are read that are complete. The first bytes of the next
record are taken for damage if a complete frame starts at a line of its items in them, and cut off
otherwise. -/
theorem torn_end_corrupt_iff {records : List (List Bytes)} (h : ∀ r ∈ records, Readable r) (n : Nat) :
    let file := (bytesOf records).take n
    let whole := wholeIn n records
    let torn := file.length - (bytesOf whole).length
    recordsIn file = whole ∧ (scan file).valid = (bytesOf whole).length ∧
      ((scan file).isCorrupt = true ↔ ∃ r, records[whole.length]? = some r ∧ Frame.Embeds r torn) ∧
      ((scan file).isCorrupt = false → (scan file).discarded = torn ∧ recovered file = bytesOf whole) := by
  intro file whole torn
  have hwhole : ∀ r ∈ whole, Readable r := fun r hr => h r (mem_of_mem_wholeIn hr)
  -- what is left behind the complete records
  obtain ⟨tail, hfile, htail, hlater⟩ : ∃ tail, file = bytesOf whole ++ tail ∧ Frame.Incomplete tail ∧
      (laterFrame tail = true ↔ ∃ r, records[whole.length]? = some r ∧ Frame.Embeds r tail.length) := by
    rcases take_bytesOf n records with ⟨hall, hwhole'⟩ | ⟨r, k, hr, hk, htake⟩
    · refine ⟨[], by simp only [file, whole, hall, hwhole', List.append_nil], Frame.incomplete_nil, ?_⟩
      simp [whole, hwhole', laterFrame]
    · refine ⟨(Frame.encode r).take k, htake, Frame.incomplete_take_encode
        (h r (List.mem_of_getElem? hr)).2 hk, ?_⟩
      rw [Frame.laterFrame_take_encode, hr, List.length_take, Nat.min_eq_left (Nat.le_of_lt hk)]
      simp
  have htorn : torn = tail.length := by simp [torn, hfile]
  obtain ⟨hrecords, _, hvalid⟩ := scan_bytesOf hwhole htail
  rw [htorn, hfile, isCorrupt_scan_bytesOf hwhole htail]
  exact ⟨hrecords, hvalid, hlater, dropped_of_laterFrame_eq_false hwhole htail⟩

theorem torn_end_corrupt_of_star : let record : List Bytes := ["SET", "*0", "v"]
    recovered ((bytesOf [record]).take 20) = [] ∧ (scan ((bytesOf [record]).take 26)).isCorrupt = true := by
  intro record
  have hread : ∀ r ∈ [record], Readable r := by decide
  obtain ⟨_, _, hcorrupt, hdropped⟩ := torn_end_corrupt_iff hread 20
  obtain ⟨_, _, hcorrupt', _⟩ := torn_end_corrupt_iff hread 26
  have hwhole : wholeIn 20 [record] = [] ∧ wholeIn 26 [record] = [] := by decide +kernel
  have hlength : ((bytesOf [record]).take 20).length = 20 ∧ ((bytesOf [record]).take 26).length = 26 := by
    decide +kernel
  have hembeds : ¬ Frame.Embeds record 20 ∧ Frame.Embeds record 26 := by
    simp only [← Frame.laterFrame_take_encode]
    decide +kernel
  simp only [hwhole, hlength, bytesOf_nil] at hcorrupt hdropped hcorrupt'
  refine ⟨(hdropped (Bool.of_not_eq_true fun h => ?_)).2, hcorrupt'.2 ⟨record, rfl, hembeds.2⟩⟩
  obtain ⟨r, hr, h20⟩ := hcorrupt.1 h
  cases hr
  exact hembeds.1 h20

/-- Behind junk, a complete frame starts at a later line: at a record after another one, at a line of the
junk, or inside an item of a record. -/
def Noticed (junk : Bytes) (after : List (List Bytes)) : Prop :=
  2 ≤ after.length ∨ (∃ line, Bytes.LaterLine junk line ∧ ¬ Frame.Incomplete (line ++ bytesOf after)) ∨
    ∃ r ∈ after, Frame.Embeds r (Frame.encode r).length

theorem exists_encode_eq (r : List Bytes) : ∃ front, Frame.encode r = front ++ Bytes.crlf := by
  rcases List.eq_nil_or_concat r with rfl | ⟨items, item, rfl⟩
  · exact ⟨_, Frame.encode_nil⟩
  · refine ⟨42 :: (Numeral.ofNat (items ++ [item]).length ++ Bytes.crlf ++ items.flatMap Frame.bulk ++
      36 :: (Numeral.ofNat item.length ++ Bytes.crlf ++ item)), ?_⟩
    simp [Frame.encode, Frame.bulk]

theorem head?_bytesOf (records : List (List Bytes)) : (bytesOf records).head? ≠ some 10 := by
  cases records <;> simp [Frame.encode]

theorem not_incomplete_bytesOf {r : List Bytes} (h : Readable r) (records : List (List Bytes)) :
    ¬ Frame.Incomplete (bytesOf (r :: records)) := fun hnone => hnone _ _ _ (Frame.parse_encode h.2 _)

theorem laterFrame_junk_iff {junk : Bytes} {after : List (List Bytes)} (h : ∀ r ∈ after, Readable r) :
    laterFrame (junk ++ bytesOf after) = true ↔ Noticed junk after := by
  rw [laterFrame_iff]
  constructor
  · rintro ⟨rest, hline, hrest⟩
    rcases (Bytes.laterLine_append (head?_bytesOf after)).1 hline with ⟨line, hjunk, rfl⟩ | hrecords
    · exact Or.inr (Or.inl ⟨line, hjunk, hrest⟩)
    · match after with
      | [] => exact absurd hrecords (Bytes.not_laterLine List.not_mem_nil rest)
      | [r] =>
        rw [bytesOf_cons, bytesOf_nil, List.append_nil] at hrecords
        have hlater : laterFrame (Frame.encode r) = true := laterFrame_iff.2 ⟨rest, hrecords, hrest⟩
        exact Or.inr (Or.inr ⟨r, List.mem_singleton_self r, Frame.laterFrame_encode.1 hlater⟩)
      | _ :: _ :: after => exact Or.inl (Nat.le_add_left 2 after.length)
  · rintro (htwo | ⟨line, hline, hrest⟩ | ⟨r, hr, hembeds⟩)
    · obtain ⟨r, r', after, rfl⟩ : ∃ r r' more, after = r :: r' :: more := by
        match after, htwo with
        | r :: r' :: more, _ => exact ⟨r, r', more, rfl⟩
      obtain ⟨front, hfront⟩ := exists_encode_eq r
      refine ⟨bytesOf (r' :: after), ⟨junk ++ front, ?_⟩, not_incomplete_bytesOf (h r' (by simp)) after⟩
      simp [bytesOf_cons r, hfront, Bytes.crlf]
    · exact ⟨line ++ bytesOf after, hline.append_right _, hrest⟩
    · obtain ⟨front, back, rfl⟩ := List.append_of_mem hr
      obtain ⟨rest, hline, hrest⟩ := laterFrame_iff.1 (Frame.laterFrame_encode.2 hembeds)
      refine ⟨rest ++ bytesOf back, ?_, fun hnone => hrest hnone.of_append⟩
      have hrecord := (hline.append_right (bytesOf back)).append_left (junk ++ bytesOf front)
      simpa using hrecord

/-- Of a journal in which records are followed by junk, where no frame starts, and by more records, the
records in front of the junk are read. The journal is reported as corrupt there and left as it is, if and
only if the records behind are noticed; otherwise they are dropped and cut off with the junk. -/
theorem damage_reported_iff {before after : List (List Bytes)} {junk : Bytes} (hbefore : ∀ r ∈ before, Readable r)
    (hafter : ∀ r ∈ after, Readable r) (hjunk : Frame.Incomplete (junk ++ bytesOf after)) :
    let file := bytesOf before ++ (junk ++ bytesOf after)
    recordsIn file = before ∧ (scan file).valid = (bytesOf before).length ∧
      ((∀ (db : Database) (c : Clock) (path : Bytes),
          (db.replay c path file).result = .error ⟨path, (bytesOf before).length⟩) ∧
        (scan file).discarded = 0 ∧ recovered file = file ↔ Noticed junk after) ∧
      (¬ Noticed junk after →
        (scan file).discarded = junk.length + (bytesOf after).length ∧ recovered file = bytesOf before) := by
  intro file
  obtain ⟨hrecords, _, hvalid⟩ := scan_bytesOf hbefore hjunk
  have hcorrupt : (scan file).isCorrupt = true ↔ Noticed junk after := by
    rw [isCorrupt_scan_bytesOf hbefore hjunk, laterFrame_junk_iff hafter]
  refine ⟨hrecords, hvalid, ⟨?_, ?_⟩, ?_⟩
  · rintro ⟨hfails, _⟩
    exact hcorrupt.1 (replay_eq_error_iff.1 (hfails {} (.standing 0) [])).1
  · intro hnoticed
    have hdamaged := hcorrupt.2 hnoticed
    exact ⟨fun db c path => replay_eq_error_iff.2 ⟨hdamaged, by rw [hvalid]⟩, kept_of_isCorrupt hdamaged⟩
  · intro hmissed
    have hnone : laterFrame (junk ++ bytesOf after) = false := by
      rwa [← laterFrame_junk_iff hafter, Bool.not_eq_true] at hmissed
    rw [← List.length_append]
    exact dropped_of_laterFrame_eq_false hbefore hjunk hnone

theorem damage_reported_of_changed_length :
    let a : List Bytes := ["SET", "a", "1"]
    let c : List Bytes := ["SET", "c", "3"]
    let junk : Bytes := "*3\r\n$3\r\nSET\r\n$1\r\nb\r\n$1\r\n2XX"
    recovered (bytesOf [a] ++ (junk ++ bytesOf [c])) = bytesOf [a] ∧
      recovered (bytesOf [a] ++ (junk ++ bytesOf [c, c])) = bytesOf [a] ++ (junk ++ bytesOf [c, c]) := by
  intro a c junk
  constructor
  · have hmissed : ¬ Noticed junk [c] := by
      rw [← laterFrame_junk_iff (by decide)]
      decide +kernel
    exact ((damage_reported_iff (by decide) (by decide) (by decide +kernel)).2.2.2 hmissed).2
  · have hnoticed : Noticed junk [c, c] := Or.inl (Nat.le_refl 2)
    exact ((damage_reported_iff (by decide) (by decide) (by decide +kernel)).2.2.1.2 hnoticed).2.2

end KeyStore.Journal
