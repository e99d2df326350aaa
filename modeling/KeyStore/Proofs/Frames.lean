import KeyStore.Journal
import KeyStore.Proofs.Numerals

/-!
# Frames and journals read back

Reading the encoding of byte strings finds them again, whatever follows, and finds nothing in a
proper part of an encoding. So a journal that was written record by record, and cut anywhere, gives
the records that are complete.
-/

namespace KeyStore

namespace Bytes

theorem crlfFrom_cons {b : UInt8} (hb : b ≠ 13) (line s : Bytes) :
    crlfFrom line (b :: s) = crlfFrom (b :: line) s := by
  rw [crlfFrom]
  intro s' h
  exact absurd h hb

theorem crlfFrom_append {digits : Bytes} (h : (13 : UInt8) ∉ digits) (line rest : Bytes) :
    crlfFrom line (digits ++ 13 :: 10 :: rest) = some (line.reverse ++ digits, rest) := by
  induction digits generalizing line with
  | nil => simp [crlfFrom]
  | cons b digits ih =>
    have hb : b ≠ 13 := fun hb => h (hb ▸ List.mem_cons_self)
    have hd : (13 : UInt8) ∉ digits := fun hd => h (List.mem_cons_of_mem _ hd)
    rw [List.cons_append, crlfFrom_cons hb, ih hd]
    simp

theorem crlfFrom_more {line s l rest : Bytes} (h : crlfFrom line s = some (l, rest)) (more : Bytes) :
    crlfFrom line (s ++ more) = some (l, rest ++ more) := by
  fun_induction crlfFrom line s with
  | case1 line s => simpa [crlfFrom] using h
  | case2 line b s hne ih =>
    have hstep : crlfFrom line (b :: (s ++ more)) = crlfFrom (b :: line) (s ++ more) := by
      by_cases hb : b = 13
      · cases s with
        | nil => simp [crlfFrom] at h
        | cons a s =>
          rw [crlfFrom]
          intro s' _ ha
          exact hne s hb (by rw [(List.cons.inj ha).1])
      · exact crlfFrom_cons hb line _
    rw [List.cons_append, hstep]
    exact ih h
  | case3 => simp at h

theorem splitExact_append (s rest : Bytes) : splitExact s.length (s ++ rest) = some (s, rest) := by
  simp [splitExact]

theorem splitExact_more {n : Nat} {s item rest : Bytes} (h : splitExact n s = some (item, rest))
    (more : Bytes) : splitExact n (s ++ more) = some (item, rest ++ more) := by
  simp only [splitExact, List.length_take] at h
  split at h
  · next hn =>
    have hle : n ≤ s.length := by omega
    obtain ⟨rfl, rfl⟩ := Prod.mk.inj (Option.some.inj h)
    simp [splitExact, List.take_append_of_le_length hle, List.drop_append_of_le_length hle, hle]
  · simp at h

end Bytes

namespace Frame

def maxLength : Nat := 9223372036854775807

/-- Byte strings whose number and lengths a frame can tell. -/
def Sized (items : List Bytes) : Prop := items.length ≤ maxLength ∧ ∀ s ∈ items, s.length ≤ maxLength

instance (items : List Bytes) : Decidable (Sized items) := inferInstanceAs (Decidable (_ ∧ _))

def Incomplete (s : Bytes) : Prop := ∀ items size rest, parse s ≠ .done items size rest

theorem incomplete_nil : Incomplete [] := by
  intro items size rest h
  simp at h

theorem lengthLine_ofNat {n : Nat} (h : n ≤ maxLength) (rest : Bytes) :
    lengthLine (Numeral.ofNat n ++ 13 :: 10 :: rest) = some (some n, (Numeral.ofNat n).length + 2, rest) := by
  have h13 : (13 : UInt8) ∉ Numeral.ofNat n := Numeral.not_mem_ofNat (by decide)
  simp [lengthLine, Bytes.crlfLine?, Bytes.crlfFrom_append h13, Numeral.readLength_ofNat h]

theorem length_bulk (s : Bytes) : (bulk s).length = 1 + ((Numeral.ofNat s.length).length + 2) + s.length + 2 := by
  simp [bulk, Bytes.crlf]
  omega

theorem bulksFrom_bulk {s : Bytes} (h : s.length ≤ maxLength) (n : Nat) (items : List Bytes) (size : Nat)
    (rest : Bytes) :
    bulksFrom (n + 1) items size (bulk s ++ rest) = bulksFrom n (s :: items) (size + (bulk s).length) rest := by
  have hb : bulk s ++ rest = 36 :: (Numeral.ofNat s.length ++ 13 :: 10 :: (s ++ 13 :: 10 :: rest)) := by
    simp [bulk, Bytes.crlf]
  have hsize : size + 1 + ((Numeral.ofNat s.length).length + 2) + s.length + 2 = size + (bulk s).length := by
    rw [length_bulk]
    omega
  rw [hb]
  simp only [bulksFrom, if_true, lengthLine_ofNat h, Bytes.splitExact_append, hsize]

theorem bulksFrom_flatMap {more : List Bytes} (h : ∀ s ∈ more, s.length ≤ maxLength) (items : List Bytes)
    (size : Nat) (rest : Bytes) :
    bulksFrom more.length items size (more.flatMap bulk ++ rest) =
      .done (items.reverse ++ more) (size + (more.flatMap bulk).length) rest := by
  induction more generalizing items size with
  | nil => simp [bulksFrom]
  | cons s more ih =>
    have hs := bulksFrom_bulk (h s List.mem_cons_self) more.length items size (more.flatMap bulk ++ rest)
    have hmore := ih (fun t ht => h t (List.mem_cons_of_mem _ ht)) (s :: items) (size + (bulk s).length)
    rw [List.flatMap_cons, List.append_assoc, List.length_cons, hs, hmore]
    simp [Nat.add_assoc]

/-- Reading an encoding finds the byte strings, its size and what follows it. -/
theorem parse_encode {items : List Bytes} (h : Sized items) (rest : Bytes) :
    parse (encode items ++ rest) = .done items (encode items).length rest := by
  have he : encode items ++ rest =
      42 :: (Numeral.ofNat items.length ++ 13 :: 10 :: (items.flatMap bulk ++ rest)) := by
    simp [encode, Bytes.crlf]
  have hsize : 1 + ((Numeral.ofNat items.length).length + 2) + (items.flatMap bulk).length =
      (encode items).length := by
    simp [encode, Bytes.crlf]
    omega
  rw [he]
  simp only [parse, if_true, lengthLine_ofNat h.1, bulksFrom_flatMap h.2, hsize]
  rfl

theorem length_encode_pos (items : List Bytes) : 0 < (encode items).length := by simp [encode]

theorem lengthLine_more {s rest : Bytes} {n : Option Nat} {taken : Nat}
    (h : lengthLine s = some (n, taken, rest)) (more : Bytes) :
    lengthLine (s ++ more) = some (n, taken, rest ++ more) := by
  unfold lengthLine at h
  split at h
  · simp at h
  · next digits tail hline =>
    have hmore : Bytes.crlfLine? (s ++ more) = some (digits, tail ++ more) := Bytes.crlfFrom_more hline more
    simp only [Option.some.injEq, Prod.mk.injEq] at h
    obtain ⟨hn, ht, rfl⟩ := h
    simp [lengthLine, hmore, hn, ht]

theorem bulksFrom_more {n : Nat} {items out : List Bytes} {size total : Nat} {s rest : Bytes}
    (h : bulksFrom n items size s = .done out total rest) (more : Bytes) :
    bulksFrom n items size (s ++ more) = .done out total (rest ++ more) := by
  fun_induction bulksFrom n items size s with
  | case1 items size s =>
    cases h
    rfl
  | case6 n items size s len taken tail hline item tail' hsplit ih =>
    have hl := lengthLine_more hline more
    have hs := Bytes.splitExact_more hsplit more
    simp only [List.cons_append] at hs ⊢
    simp only [bulksFrom, if_true, hl, hs]
    exact ih h
  | _ => simp at h

theorem parse_more {s rest : Bytes} {items : List Bytes} {size : Nat} (h : parse s = .done items size rest)
    (more : Bytes) : parse (s ++ more) = .done items size (rest ++ more) := by
  unfold parse at h
  split at h
  · simp at h
  · next b s =>
    split at h
    · next hb =>
      split at h
      · simp at h
      · simp at h
      · next n taken rest' hline =>
        simp only [List.cons_append, parse, if_pos hb, lengthLine_more hline more]
        exact bulksFrom_more h more
    · simp at h

theorem incomplete_take_encode {items : List Bytes} (h : Sized items) {n : Nat} (hn : n < (encode items).length) :
    Incomplete ((encode items).take n) := by
  intro items' size rest hdone
  have hmore := parse_more hdone ((encode items).drop n)
  have hwhole := parse_encode h []
  rw [List.take_append_drop] at hmore
  rw [List.append_nil, hmore] at hwhole
  have hrest : rest ++ (encode items).drop n = [] := by injection hwhole
  have hdrop : (encode items).drop n = [] := (List.append_eq_nil_iff.1 hrest).2
  have hle := List.drop_eq_nil_iff.1 hdrop
  omega

end Frame

namespace Journal

/-- What a journal holds after the records were appended to it one after another. -/
def bytesOf (records : List (List Bytes)) : Bytes := records.flatMap Frame.encode

@[simp] theorem bytesOf_nil : bytesOf [] = [] := rfl

@[simp] theorem bytesOf_cons (r : List Bytes) (records : List (List Bytes)) :
    bytesOf (r :: records) = Frame.encode r ++ bytesOf records := rfl

@[simp] theorem bytesOf_append (records more : List (List Bytes)) :
    bytesOf (records ++ more) = bytesOf records ++ bytesOf more := List.flatMap_append

/-- A record that can be read back: not empty, with lengths that a frame can tell. -/
def Readable (record : List Bytes) : Prop := record ≠ [] ∧ Frame.Sized record

/-- The records that reading finds. -/
def recordsIn (contents : Bytes) : List (List Bytes) := (scan contents).records.map (·.1)

theorem scanFrom_of_incomplete {s : Bytes} (h : Frame.Incomplete s) (fuel offset : Nat) :
    scanFrom fuel offset s = ⟨[], offset, s⟩ := by
  cases fuel with
  | zero => rfl
  | succ fuel =>
    cases s with
    | nil => rfl
    | cons b s =>
      rw [scanFrom]
      split
      · next hd => exact absurd hd (h _ _ _)
      · rfl
      · simp

theorem scanFrom_encode {r : List Bytes} (h : Readable r) (fuel offset : Nat) (s : Bytes) :
    scanFrom (fuel + 1) offset (Frame.encode r ++ s) =
      let size := (Frame.encode r).length
      let scan := scanFrom fuel (offset + size) s
      { scan with records := (r, offset + size) :: scan.records } := by
  have hparse := Frame.parse_encode h.2 s
  have hne : r.isEmpty = false := by simp [h.1]
  have hcons : ∃ b t, Frame.encode r ++ s = b :: t := ⟨_, _, rfl⟩
  obtain ⟨b, t, hbt⟩ := hcons
  rw [hbt] at hparse ⊢
  rw [scanFrom]
  · simp [hparse, hne]
  · simp

/-- Reading records with an incomplete one behind them. -/
theorem scanFrom_bytesOf {records : List (List Bytes)} (h : ∀ r ∈ records, Readable r) {tail : Bytes}
    (htail : Frame.Incomplete tail) (fuel : Nat) (hf : (bytesOf records).length ≤ fuel) (offset : Nat) :
    ((scanFrom fuel offset (bytesOf records ++ tail)).records.map (·.1) = records) ∧
      (scanFrom fuel offset (bytesOf records ++ tail)).tail = tail ∧
      (scanFrom fuel offset (bytesOf records ++ tail)).valid = offset + (bytesOf records).length := by
  induction records generalizing fuel offset with
  | nil => simp [scanFrom_of_incomplete htail]
  | cons r records ih =>
    have hpos := Frame.length_encode_pos r
    simp only [bytesOf_cons, List.length_append] at hf
    obtain ⟨fuel, rfl⟩ : ∃ f, fuel = f + 1 := ⟨fuel - 1, by omega⟩
    have hrest := ih (fun s hs => h s (List.mem_cons_of_mem _ hs)) fuel (by omega)
      (offset + (Frame.encode r).length)
    rw [bytesOf_cons, List.append_assoc, scanFrom_encode (h r List.mem_cons_self)]
    simp [hrest, Nat.add_assoc]

theorem scan_bytesOf {records : List (List Bytes)} (h : ∀ r ∈ records, Readable r) {tail : Bytes}
    (htail : Frame.Incomplete tail) :
    recordsIn (bytesOf records ++ tail) = records ∧ (scan (bytesOf records ++ tail)).tail = tail ∧
      (scan (bytesOf records ++ tail)).valid = (bytesOf records).length := by
  have hscan := scanFrom_bytesOf h htail (bytesOf records ++ tail).length (by simp) 0
  simpa [recordsIn, scan] using hscan

theorem isCorrupt_scan_bytesOf {records : List (List Bytes)} (h : ∀ r ∈ records, Readable r) {tail : Bytes}
    (htail : Frame.Incomplete tail) : (scan (bytesOf records ++ tail)).isCorrupt = laterFrame tail := by
  rw [Scan.isCorrupt, (scan_bytesOf h htail).2.1]

theorem recordsIn_bytesOf {records : List (List Bytes)} (h : ∀ r ∈ records, Readable r) :
    recordsIn (bytesOf records) = records := by
  simpa using (scan_bytesOf h Frame.incomplete_nil).1

theorem tail_scan_bytesOf {records : List (List Bytes)} (h : ∀ r ∈ records, Readable r) :
    (scan (bytesOf records)).tail = [] := by
  simpa using (scan_bytesOf h Frame.incomplete_nil).2.1

/-- Nothing is cut off a journal that ends with a complete record. -/
theorem recovered_bytesOf {records : List (List Bytes)} (h : ∀ r ∈ records, Readable r) :
    recovered (bytesOf records) = bytesOf records := by
  simp [recovered, Scan.discarded, tail_scan_bytesOf h]

def wholeIn : Nat → List (List Bytes) → List (List Bytes)
  | _, [] => []
  | n, r :: records =>
    if (Frame.encode r).length ≤ n then r :: wholeIn (n - (Frame.encode r).length) records else []

theorem wholeIn_eq_take (n : Nat) (records : List (List Bytes)) :
    wholeIn n records = records.take (wholeIn n records).length := by
  induction records generalizing n with
  | nil => rfl
  | cons r records ih =>
    rw [wholeIn]
    split
    · rw [List.length_cons, List.take_succ_cons, ← ih]
    · rfl

theorem mem_of_mem_wholeIn {n : Nat} {records : List (List Bytes)} {r : List Bytes} (h : r ∈ wholeIn n records) :
    r ∈ records := by
  rw [wholeIn_eq_take] at h
  exact List.mem_of_mem_take h

/-- The first bytes of a journal are complete records and the first bytes of the next one. -/
theorem take_bytesOf (n : Nat) (records : List (List Bytes)) :
    ((bytesOf records).take n = bytesOf records ∧ wholeIn n records = records) ∨
      ∃ r k, records[(wholeIn n records).length]? = some r ∧ k < (Frame.encode r).length ∧
        (bytesOf records).take n = bytesOf (wholeIn n records) ++ (Frame.encode r).take k := by
  induction records generalizing n with
  | nil => exact Or.inl ⟨List.take_nil, rfl⟩
  | cons r records ih =>
    rw [wholeIn]
    split
    · next hle =>
      rcases ih (n - (Frame.encode r).length) with ⟨hall, hwhole⟩ | ⟨r', k, hr', hk, htake⟩
      · refine Or.inl ⟨?_, by rw [hwhole]⟩
        rw [bytesOf_cons, List.take_append, List.take_of_length_le hle, hall]
      · refine Or.inr ⟨r', k, hr', hk, ?_⟩
        rw [bytesOf_cons, List.take_append, List.take_of_length_le hle, htake, bytesOf_cons, List.append_assoc]
    · next hlt =>
      refine Or.inr ⟨r, n, rfl, Nat.lt_of_not_le hlt, ?_⟩
      rw [bytesOf_cons, List.take_append_of_le_length (by omega)]
      rfl

theorem exists_take_bytesOf {records : List (List Bytes)} (h : ∀ r ∈ records, Readable r) (n : Nat) :
    ∃ m tail, (bytesOf records).take n = bytesOf (records.take m) ++ tail ∧ Frame.Incomplete tail := by
  rcases take_bytesOf n records with ⟨hall, _⟩ | ⟨r, k, hr, hk, htake⟩
  · exact ⟨records.length, [], by rw [hall, List.take_length, List.append_nil], Frame.incomplete_nil⟩
  · refine ⟨(wholeIn n records).length, (Frame.encode r).take k, ?_,
      Frame.incomplete_take_encode (h r (List.mem_of_getElem? hr)).2 hk⟩
    rw [← wholeIn_eq_take, htake]

end Journal
end KeyStore
