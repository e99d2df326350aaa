import KeyStore.Proofs.Appends
import KeyStore.Proofs.Streams

/-!
# Byte strings in frames

Every byte string is complete frames and what is left behind them, where no frame starts (`Frame.Parted`). The
encodings of byte strings are its frames one by one, and a part of an encoding is never taken for anything but the
beginning of more (`Frame.parse_encodings`). A journal is read along its frames; without what was left behind them
it reads the same, and can be written on (`Journal.scan_partition`).
-/

namespace KeyStore

namespace Frame

/-- The byte string is these complete frames, each with its items, and a rest where no frame starts. -/
structure Parted (s : Bytes) (frames : List (Bytes × List Bytes)) (tail : Bytes) : Prop where
  joined : s = frames.flatMap (·.1) ++ tail
  complete : ∀ f ∈ frames, parse f.1 = .done f.2 f.1.length []
  ends : Incomplete tail

variable {s tail rest : Bytes} {items : List Bytes} {frames : List (Bytes × List Bytes)} {size : Nat}

theorem parted_nil (h : Incomplete s) : Parted s [] s := ⟨rfl, by simp, h⟩

theorem Parted.cons (hrest : Parted rest frames tail) {front : Bytes} (h : parse front = .done items front.length []) :
    Parted (front ++ rest) ((front, items) :: frames) tail where
  joined := by rw [hrest.joined, List.flatMap_cons, List.append_assoc]
  complete := List.forall_mem_cons.2 ⟨h, hrest.complete⟩
  ends := hrest.ends

theorem Parted.whole (h : Parted s frames tail) : Parted (frames.flatMap (·.1)) frames [] :=
  ⟨(List.append_nil _).symm, h.complete, incomplete_nil⟩

theorem exists_parted (s : Bytes) : ∃ frames tail, Parted s frames tail := by
  induction s using Frame.induction with
  | incomplete s hs => exact ⟨[], s, parted_nil hs⟩
  | frame s items size rest hdone ih =>
    obtain ⟨frames, tail, hrest⟩ := ih
    obtain ⟨front, rfl, rfl, hmore⟩ := parse_local hdone
    have hfront := hmore []
    rw [List.append_nil] at hfront
    exact ⟨_, _, hrest.cons hfront⟩

/-- A complete frame is read from its own bytes, whatever follows. -/
theorem parse_append (h : parse s = .done items s.length []) (more : Bytes) :
    parse (s ++ more) = .done items s.length more := parse_more h more

theorem Parted.induction {motive : (s : Bytes) → (frames : List (Bytes × List Bytes)) → Parted s frames tail → Prop}
    (nil : ∀ h : Incomplete tail, motive tail [] (parted_nil h))
    (cons : ∀ front items rest frames (hfront : parse front = .done items front.length [])
      (hrest : Parted rest frames tail), motive rest frames hrest →
        motive (front ++ rest) ((front, items) :: frames) (hrest.cons hfront))
    (h : Parted s frames tail) : motive s frames h := by
  obtain ⟨rfl, hcomplete, hends⟩ := h
  induction frames with
  | nil => exact nil hends
  | cons f frames ih =>
    obtain ⟨hfront, hrest⟩ := List.forall_mem_cons.1 hcomplete
    simp only [List.flatMap_cons, List.append_assoc]
    exact cons f.1 f.2 _ frames hfront ⟨rfl, hrest, hends⟩ (ih hrest)

theorem parse_of_prefix (h : Sized items) {front : Bytes} (hfront : front <+: encode items)
    (hne : front ≠ encode items) : parse front = .needMore := by
  obtain ⟨back, hback⟩ := hfront
  have hwhole := parse_encode h []
  rw [List.append_nil, ← hback] at hwhole
  cases hparse : parse front with
  | needMore => rfl
  | malformed =>
    -- it would be malformed with the rest behind it
    rw [parse_of_malformed hparse back] at hwhole
    cases hwhole
  | done items' size rest =>
    rw [parse_more hparse back] at hwhole
    have hnil : rest ++ back = [] := by injection hwhole
    rw [(List.append_eq_nil_iff.1 hnil).2, List.append_nil] at hback
    exact absurd hback hne

theorem parted_bytesOf {records : List (List Bytes)} (h : ∀ items ∈ records, Sized items) :
    Parted (Journal.bytesOf records) (records.map fun items => (encode items, items)) [] where
  joined := by simp [Journal.bytesOf, List.flatMap_map]
  complete := by
    intro f hf
    obtain ⟨items, hmem, rfl⟩ := List.mem_map.1 hf
    simpa using parse_encode (h items hmem) []
  ends := incomplete_nil

end Frame

namespace Incoming

variable {front s rest : Bytes} {items : List Bytes} {frames : List (Bytes × List Bytes)} {dialect : Dialect}
  {request : Request}

theorem read_of_frame (h : Frame.parse front = .done items front.length []) (rest : Bytes) :
    Incoming.read (front ++ rest) = .request .frame items rest := by
  have hparse := Frame.parse_append h rest
  have hhead : (front ++ rest).head? = some 42 := Classical.byContradiction fun hhead =>
    Frame.incomplete_of_head? hhead _ _ _ hparse
  simp only [Incoming.read, hhead, hparse, if_true]

theorem exists_of_read_parted (h : Frame.Parted s frames []) (hread : Incoming.read s = .request dialect request rest) :
    ∃ front frames', frames = (front, request) :: frames' ∧ dialect = .frame ∧ Frame.Parted rest frames' [] := by
  induction h using Frame.Parted.induction with
  | nil _ => cases hread
  | cons front items rest' frames hfront hrest _ =>
    rw [read_of_frame hfront] at hread
    cases hread
    exact ⟨front, frames, rfl, rfl, hrest⟩

theorem read_parted_ne_malformed (h : Frame.Parted s frames []) : Incoming.read s ≠ .malformed := by
  induction h using Frame.Parted.induction with
  | nil _ => simp
  | cons front items rest frames hfront _ _ => simp [read_of_frame hfront]

end Incoming

theorem Frame.Parted.requests {s : Bytes} {frames : List (Bytes × List Bytes)} (h : Parted s frames []) :
    Incoming.requests s = frames.map (·.2) := by
  induction h using Frame.Parted.induction with
  | nil _ => exact Incoming.requests_of_incomplete Incoming.read_nil
  | cons front items rest frames hfront _ ih =>
    rw [Incoming.requests_of_request (Incoming.read_of_frame hfront rest), ih]
    rfl

/-- Encodings are read back. Each is read from the front of a byte string as its own items, whatever follows; of
each, a proper part needs more bytes; and encodings one behind another are read one by one, with nothing left. -/
theorem Frame.parse_encodings {records : List (List Bytes)} (h : ∀ items ∈ records, Sized items) :
    (∀ items ∈ records, ∀ rest, parse (encode items ++ rest) = .done items (encode items).length rest) ∧
      (∀ items ∈ records, ∀ front, front <+: encode items → front ≠ encode items → parse front = .needMore) ∧
      Parted (Journal.bytesOf records) (records.map fun items => (encode items, items)) [] ∧
      Incoming.requests (Journal.bytesOf records) = records := by
  have hparted := parted_bytesOf h
  refine ⟨fun items hmem rest => parse_encode (h items hmem) rest,
    fun items hmem front hfront hne => parse_of_prefix (h items hmem) hfront hne, hparted, ?_⟩
  rw [hparted.requests, List.map_map]
  exact List.map_id records

theorem Frame.parse_encodings_of_lines :
    let items : List Bytes := ["SET", "*1\r\n$1\r\n", "", [0, 13]]
    (∀ rest, parse (encode items ++ rest) = .done items 41 rest) ∧ parse ((encode items).take 26) = .needMore ∧
      Incoming.requests (Journal.bytesOf [items, [], items]) = [items, [], items] := by
  intro items
  have hsize : (encode items).length = 41 := by decide +kernel
  have hsized : ∀ r ∈ [items, [], items], Sized r := by decide +kernel
  obtain ⟨hwhole, hpart, -, hall⟩ := parse_encodings hsized
  refine ⟨fun rest => hsize ▸ hwhole items (by simp) rest, ?_, hall⟩
  exact hpart items (by simp) _ (List.take_prefix 26 _) (by decide +kernel)

namespace Journal

variable {s tail : Bytes} {frames : List (Bytes × List Bytes)}

theorem valid_add_length_tail (s : Bytes) {fuel : Nat} (hf : s.length ≤ fuel) (offset : Nat) :
    (scanFrom fuel offset s).valid + (scanFrom fuel offset s).tail.length = offset + s.length := by
  induction s using Frame.induction generalizing fuel offset with
  | incomplete s hs => rw [scanFrom_of_incomplete hs]
  | frame s items size rest hdone ih =>
    have hlt := Frame.length_rest_lt hdone
    obtain ⟨fuel, rfl⟩ := Nat.exists_eq_add_one_of_ne_zero (show fuel ≠ 0 by omega)
    obtain ⟨front, rfl, rfl, -⟩ := Frame.parse_local hdone
    have hrest := ih (show rest.length ≤ fuel by omega) (offset + front.length)
    rw [scanFrom_of_done hdone, List.length_append, ← Nat.add_assoc, ← hrest]
    simp only
    split <;> rfl

theorem scan_of_parted (h : Frame.Parted s frames tail) :
    recordsIn s = (frames.map (·.2)).filter (!·.isEmpty) ∧ (scan s).tail = tail ∧
      (scan s).valid = (frames.flatMap (·.1)).length := by
  have hread : recordsIn s = (frames.map (·.2)).filter (!·.isEmpty) ∧ (scan s).tail = tail := by
    induction h using Frame.Parted.induction with
    | nil hends => exact recordsIn_of_incomplete hends
    | cons front items rest frames hfront _ ih =>
      obtain ⟨hrecords, htail⟩ := recordsIn_of_done (Frame.parse_append hfront rest)
      rw [hrecords, htail, ih.1, ih.2]
      cases items <;> simp
  refine ⟨hread.1, hread.2, ?_⟩
  have hvalid := valid_add_length_tail s (Nat.le_refl _) 0
  have hlength := congrArg List.length h.joined
  rw [List.length_append] at hlength
  change (scan s).valid + (scan s).tail.length = _ at hvalid
  rw [hread.2] at hvalid
  omega

/-- The journal is read to its end as these records, and nothing of it is discarded. -/
def ReadsAs (s : Bytes) (records : List (List Bytes)) : Prop :=
  recordsIn s = records ∧ (scan s).isCorrupt = false ∧ (scan s).discarded = 0

theorem readsAs_of_tail (h : (scan s).tail = []) : ReadsAs s (recordsIn s) := by
  refine ⟨rfl, ?_, ?_⟩ <;> simp [Scan.discarded, Scan.isCorrupt, h, laterFrame]

theorem readsAs_append (h : (scan s).tail = []) {records : List (List Bytes)} (hread : ∀ r ∈ records, Readable r) :
    ReadsAs (s ++ bytesOf records) (recordsIn s ++ records) := by
  obtain ⟨hrecords, htail⟩ := recordsIn_append s (bytesOf records)
  rw [h, List.nil_append] at hrecords htail
  rw [← recordsIn_bytesOf hread, ← hrecords, recordsIn_bytesOf hread]
  exact readsAs_of_tail (htail.trans (tail_scan_bytesOf hread))

theorem take_valid_of_parted (h : Frame.Parted s frames tail) : s.take (scan s).valid = frames.flatMap (·.1) := by
  rw [(scan_of_parted h).2.2, h.joined]
  exact List.take_left

theorem recovered_of_parted (h : Frame.Parted s frames tail) (hgood : (scan s).isCorrupt = false) :
    (scan s).discarded = tail.length ∧ recovered s = frames.flatMap (·.1) := by
  have hdiscarded : (scan s).discarded = tail.length := by simp [Scan.discarded, hgood, (scan_of_parted h).2.1]
  refine ⟨hdiscarded, ?_⟩
  simp only [recovered, hdiscarded, take_valid_of_parted h]
  split
  · next hnil => rw [h.joined, List.length_eq_zero_iff.1 hnil, List.append_nil]
  · rfl

theorem recordsIn_take_valid (s : Bytes) : recordsIn (s.take (scan s).valid) = recordsIn s := by
  obtain ⟨frames, tail, hparted⟩ := Frame.exists_parted s
  rw [take_valid_of_parted hparted, (scan_of_parted hparted.whole).1, (scan_of_parted hparted).1]

/-- A journal is its complete frames and a rest where none starts, and it is read as the items of those frames that
have some. If the reading comes to its end, the rest is what is cut off; the frames alone read the same, with nothing
to discard, and records that are appended to them are read behind. If not, it fails where the frames end, and the
journal stays as it is. -/
theorem scan_partition (data : Bytes) :
    ∃ frames tail, Frame.Parted data frames tail ∧
      recordsIn data = (frames.map (·.2)).filter (!·.isEmpty) ∧
      (scan data).valid = (frames.flatMap (·.1)).length ∧ recovered (recovered data) = recovered data ∧
      ((scan data).isCorrupt = false →
        (∀ (db : Database) (c : Clock) (path : Bytes) (e : Corrupt), (db.replay c path data).result ≠ .error e) ∧
          (scan data).discarded = tail.length ∧ recovered data = frames.flatMap (·.1) ∧
          ReadsAs (recovered data) (recordsIn data) ∧
          ∀ (j : Journal) (writes : List Write), j.contents = recovered data → (∀ w ∈ writes, Readable w.record) →
            (j.writeAll writes).1 = writes.map (·.record) →
            ReadsAs (j.writeAll writes).2.contents (recordsIn data ++ writes.map (·.record))) ∧
      ((scan data).isCorrupt = true →
        (∀ (db : Database) (c : Clock) (path : Bytes),
          (db.replay c path data).result = .error ⟨path, (frames.flatMap (·.1)).length⟩) ∧
          (scan data).discarded = 0 ∧ recovered data = data) := by
  obtain ⟨frames, tail, hparted⟩ := Frame.exists_parted data
  obtain ⟨hrecords, -, hvalid⟩ := scan_of_parted hparted
  refine ⟨frames, tail, hparted, hrecords, hvalid, ?_⟩
  cases hcorrupt : (scan data).isCorrupt with
  | true =>
    obtain ⟨hdiscarded, hsame⟩ := kept_of_isCorrupt hcorrupt
    refine ⟨by rw [hsame, hsame], nofun, fun _ => ⟨fun db c path => ?_, hdiscarded, hsame⟩⟩
    exact replay_eq_error_iff.2 ⟨hcorrupt, by rw [hvalid]⟩
  | false =>
    obtain ⟨hdiscarded, hframes⟩ := recovered_of_parted hparted hcorrupt
    obtain ⟨hrecords', htail', -⟩ := scan_of_parted hparted.whole
    rw [← hframes] at hrecords' htail'
    have hreads : ReadsAs (recovered data) (recordsIn data) := by
      rw [hrecords, ← hrecords']
      exact readsAs_of_tail htail'
    refine ⟨by rw [recovered, if_pos hreads.2.2], fun _ => ⟨?_, hdiscarded, hframes, hreads, ?_⟩, nofun⟩
    · intro db c path e hfails
      rw [(replay_eq_error_iff.1 hfails).1] at hcorrupt
      cases hcorrupt
    · intro j writes hj hreadable hall
      rw [contents_writeAll (untorn_of_all hall), hall, hj, ← hreads.1]
      refine readsAs_append htail' fun r hr => ?_
      obtain ⟨w, hw, rfl⟩ := List.mem_map.1 hr
      exact hreadable w hw

theorem scan_partition_of_torn_end :
    let set : Request := ["SET", "a", "1"]
    let del : Request := ["DEL", "a"]
    let file : Bytes := bytesOf [set, []] ++ "*2\r\n$3\r\nDEL\r\n$1"
    let damaged : Bytes := "*1\r\n$x\r\n" ++ bytesOf [del]
    ReadsAs (recovered file) [set] ∧
      ReadsAs (writeAll { path := "log", contents := recovered file } [{ record := del }]).2.contents [set, del] ∧
      recovered damaged = damaged := by
  intro set del file damaged
  have hrecords : recordsIn file = [set] := by decide +kernel
  obtain ⟨_, _, -, -, -, -, hgood, -⟩ := scan_partition file
  obtain ⟨_, _, -, -, -, -, -, hbad⟩ := scan_partition damaged
  obtain ⟨-, -, -, hreads, hmore⟩ := hgood (by decide +kernel)
  rw [hrecords] at hreads hmore
  have hwritten := hmore { path := "log", contents := recovered file } [{ record := del }] rfl (by decide)
    (by decide +kernel)
  exact ⟨hreads, hwritten, (hbad (by decide +kernel)).2.2⟩

end Journal
end KeyStore
