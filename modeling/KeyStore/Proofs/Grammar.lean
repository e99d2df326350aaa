import KeyStore.Proofs.Scans

/-!
# Replies read back

The grammar of replies in frames, for a client that does not know what it asked: a status, an error and an integer
take a line, which ends at its first carriage return and line feed, and byte strings come with their length. Replies
one behind another are read back one by one if and only if no status or error among them has the end of a line in its
text (`Reply.decodes_flatMap_iff`).
-/

namespace KeyStore

namespace Bytes

theorem takeWhile_append_of_stop {p : UInt8 → Bool} {s t : Bytes} (hs : ∀ b ∈ s, p b = true)
    (ht : ∀ b, t.head? = some b → p b = false) : (s ++ t).takeWhile p = s ∧ (s ++ t).dropWhile p = t := by
  have htake : t.takeWhile p = [] ∧ t.dropWhile p = t := by
    cases t with
    | nil => exact ⟨rfl, rfl⟩
    | cons b t => simp [ht b rfl]
  rw [List.takeWhile_append_of_pos hs, List.dropWhile_append_of_pos hs, htake.1, htake.2, List.append_nil]
  exact ⟨rfl, rfl⟩

def IsLine (s : Bytes) : Prop := ¬ crlf <:+: s

theorem isLine_iff {s : Bytes} : IsLine s ↔ ∀ rest, ¬ LaterLine s rest := by
  refine ⟨fun h rest ⟨front, hs⟩ => h ⟨front, rest, by simp [hs, crlf]⟩, ?_⟩
  rintro h ⟨front, rest, hs⟩
  exact h rest ⟨front, by simp [← hs, crlf]⟩

theorem isLine_of_not_mem {s : Bytes} (h : (13 : UInt8) ∉ s) : IsLine s := isLine_iff.2 (not_laterLine h)

theorem isLine_append_left {s : Bytes} (h : (13 : UInt8) ∉ s) (t : Bytes) : IsLine (s ++ t) ↔ IsLine t := by
  induction s with
  | nil => rfl
  | cons b s ih =>
    have hb : b ≠ 13 := fun hb => h (hb ▸ List.mem_cons_self)
    rw [← ih fun hs => h (List.mem_cons_of_mem _ hs)]
    simp only [isLine_iff, List.cons_append, laterLine_cons, hb, false_and, false_or]

theorem isLine_append_right {s t : Bytes} (h : (13 : UInt8) ∉ t) (hhead : t.head? ≠ some 10) :
    IsLine (s ++ t) ↔ IsLine s := by
  simp only [isLine_iff, laterLine_append hhead]
  constructor
  · exact fun hall line hline => hall _ (.inl ⟨line, hline, rfl⟩)
  · rintro hall _ (⟨line, hline, rfl⟩ | hrest)
    · exact hall line hline
    · exact not_laterLine h _ hrest

theorem crlfFrom_of_isLine {text : Bytes} (h : IsLine text) (line rest : Bytes) :
    crlfFrom line (text ++ 13 :: 10 :: rest) = some (line.reverse ++ text, rest) := by
  induction text generalizing line with
  | nil => simp [crlfFrom]
  | cons b text ih =>
    rw [isLine_iff] at h
    simp only [laterLine_cons, not_or] at h
    rw [List.cons_append, crlfFrom, ih (isLine_iff.2 fun rest => (h rest).2), List.reverse_cons, List.append_assoc]
    · rfl
    · -- the line feed behind a carriage return would be one of the text
      intro s hb hs
      cases text with
      | nil => cases hs
      | cons a text =>
        obtain ⟨rfl, -⟩ := List.cons.inj hs
        exact (h text).1 ⟨hb, rfl⟩

theorem exists_isLine_of_crlfFrom {line s l rest : Bytes} (h : crlfFrom line s = some (l, rest)) :
    ∃ text, l = line.reverse ++ text ∧ IsLine text ∧ s = text ++ 13 :: 10 :: rest := by
  fun_induction crlfFrom line s with
  | case1 line s =>
    cases h
    exact ⟨[], (List.append_nil _).symm, isLine_of_not_mem List.not_mem_nil, rfl⟩
  | case2 line b s hne ih =>
    obtain ⟨text, rfl, htext, rfl⟩ := ih h
    refine ⟨b :: text, by simp, isLine_iff.2 fun rest' hlater => ?_, rfl⟩
    rcases laterLine_cons.1 hlater with ⟨hb, rfl⟩ | hlater
    · exact hne _ hb rfl
    · exact isLine_iff.1 htext rest' hlater
  | case3 => cases h

/-- The line at the front of a byte string is what stands there before the first end of a line. -/
theorem crlfLine?_eq_some_iff {s text rest : Bytes} :
    crlfLine? s = some (text, rest) ↔ IsLine text ∧ s = text ++ 13 :: 10 :: rest := by
  constructor
  · intro h
    obtain ⟨_, rfl, htext⟩ := exists_isLine_of_crlfFrom h
    exact htext
  · rintro ⟨htext, rfl⟩
    exact crlfFrom_of_isLine htext [] rest

theorem crlfLine?_append_crlf {s : Bytes} : crlfLine? (s ++ crlf) = some (s, []) ↔ IsLine s := by
  rw [crlfLine?_eq_some_iff]
  exact and_iff_left rfl

/-- Whether a text is a line is told by reading it. -/
instance (s : Bytes) : Decidable (IsLine s) := decidable_of_iff _ crlfLine?_append_crlf

end Bytes

namespace Numeral

/-- The number that digits denote. -/
def value (digits : Bytes) : Nat := digits.foldl (fun n b => 10 * n + (b.toNat - 48)) 0

def natural? (s : Bytes) : Option Nat := if !s.isEmpty && s.all Bytes.isDigit then some (value s) else none

def integer? : Bytes → Option Int
  | 45 :: s => (natural? s).map fun n => -(n : Int)
  | s => (natural? s).map fun n => (n : Int)

theorem foldl_digitsOnto {fuel n : Nat} (hf : n < fuel) (tail : Bytes) :
    (digitsOnto fuel n tail).foldl (fun n b => 10 * n + (b.toNat - 48)) 0 =
      tail.foldl (fun n b => 10 * n + (b.toNat - 48)) n := by
  induction fuel generalizing n tail with
  | zero => omega
  | succ fuel ih =>
    have hdigit : 10 * (n / 10) + ((48 + n % 10).toUInt8.toNat - 48) = n := by
      rw [toNat_digit]
      omega
    rw [digitsOnto]
    split
    · next hzero =>
      rw [hzero] at hdigit
      rw [List.foldl_cons, hdigit]
    · rw [ih (by omega), List.foldl_cons, hdigit]

theorem natural?_ofNat (n : Nat) : natural? (ofNat n) = some n := by
  have hne : (ofNat n).isEmpty = false := List.isEmpty_eq_false_iff.2 (ofNat_ne_nil n)
  have hdigits : (ofNat n).all Bytes.isDigit = true := List.all_eq_true.2 fun b hb => isDigit_of_mem_ofNat hb
  rw [natural?, hne, hdigits, Bool.not_false, Bool.and_self, if_pos rfl, value, ofNat,
    foldl_digitsOnto (Nat.lt_succ_self n)]
  rfl

theorem integer?_ofInt (n : Int) : integer? (ofInt n) = some n := by
  cases n with
  | ofNat n =>
    have hminus : ∀ s, ofNat n ≠ 45 :: s := fun s hs =>
      not_mem_ofNat (n := n) (b := 45) (by decide) (hs ▸ List.mem_cons_self)
    rw [ofInt, integer?]
    · simp [natural?_ofNat]
    · exact hminus
  | negSucc n => simp [ofInt, integer?, natural?_ofNat, Int.negSucc_eq]

theorem not_mem_ofInt {b : UInt8} (hb : Bytes.isDigit b = false) (hsign : b ≠ 45) (n : Int) : b ∉ ofInt n := by
  cases n with
  | ofNat n => exact not_mem_ofNat hb
  | negSucc n => simp [ofInt, hsign, not_mem_ofNat hb]

end Numeral

namespace Reply

def bulk? : Bytes → Option (Bytes × Bytes)
  | 36 :: s => do
    let (digits, s) ← Bytes.crlfLine? s
    let len ← Numeral.natural? digits
    let (item, s) ← Bytes.splitExact len s
    match s with
    | 13 :: 10 :: rest => some (item, rest)
    | _ => none
  | _ => none

def bulks? : Nat → Bytes → Option (List Bytes × Bytes)
  | 0, s => some ([], s)
  | n + 1, s => do
    let (item, s) ← bulk? s
    let (items, rest) ← bulks? n s
    some (item :: items, rest)

/-- The reply at the front of a byte string, and what follows it. -/
def decode? : Bytes → Option (Reply × Bytes)
  | 43 :: s => (Bytes.crlfLine? s).map fun (text, rest) => (.status text, rest)
  | 45 :: s => (Bytes.crlfLine? s).map fun (text, rest) => (.error text, rest)
  | 58 :: s => do
    let (digits, rest) ← Bytes.crlfLine? s
    let n ← Numeral.integer? digits
    some (.integer n, rest)
  | 36 :: s => do
    let (digits, rest) ← Bytes.crlfLine? s
    if digits = "-1" then some (.nil, rest)
    else (bulk? (36 :: s)).map fun (value, rest) => (.bulk value, rest)
  | 42 :: s => do
    let (digits, s) ← Bytes.crlfLine? s
    let n ← Numeral.natural? digits
    let (items, rest) ← bulks? n s
    some (.array items, rest)
  | _ => none

/-- The byte string is these replies one behind another, with nothing left. -/
inductive Decodes : Bytes → List Reply → Prop
  | nil : Decodes [] []
  | cons {s rest : Bytes} {reply : Reply} {replies : List Reply} (hread : decode? s = some (reply, rest))
      (hrest : Decodes rest replies) : Decodes s (reply :: replies)

def received : Reply → Reply
  | .error text => .error ("ERR " ++ text)
  | reply => reply

/-- A status or an error has no end of a line in its text. -/
def OneLine : Reply → Prop
  | .status text | .error text => Bytes.IsLine text
  | .integer _ | .bulk _ | .nil | .array _ => True

instance : (reply : Reply) → Decidable reply.OneLine
  | .status text | .error text => inferInstanceAs (Decidable text.IsLine)
  | .integer _ | .bulk _ | .nil | .array _ => inferInstanceAs (Decidable True)

theorem crlfLine?_ofNat (n : Nat) (rest : Bytes) :
    Bytes.crlfLine? (Numeral.ofNat n ++ 13 :: 10 :: rest) = some (Numeral.ofNat n, rest) :=
  Bytes.crlfLine?_eq_some_iff.2 ⟨Bytes.isLine_of_not_mem (Numeral.not_mem_ofNat (by decide)), rfl⟩

theorem bulk_append (value rest : Bytes) :
    Frame.bulk value ++ rest = 36 :: (Numeral.ofNat value.length ++ 13 :: 10 :: (value ++ 13 :: 10 :: rest)) := by
  simp [Frame.bulk, Bytes.crlf]

theorem bulk?_bulk (value rest : Bytes) : bulk? (Frame.bulk value ++ rest) = some (value, rest) := by
  simp [bulk_append, bulk?, crlfLine?_ofNat, Numeral.natural?_ofNat, Bytes.splitExact_append]

theorem bulks?_flatMap (items : List Bytes) (rest : Bytes) :
    bulks? items.length (items.flatMap Frame.bulk ++ rest) = some (items, rest) := by
  induction items with
  | nil => rfl
  | cons item items ih => simp [bulks?, bulk?_bulk, ih]

theorem decode?_bulk (value rest : Bytes) : decode? (Frame.bulk value ++ rest) = some (.bulk value, rest) := by
  have hread := bulk?_bulk value rest
  have hlength : Numeral.ofNat value.length ≠ Bytes.ofString "-1" := fun heq =>
    Numeral.not_mem_ofNat (n := value.length) (b := 45) (by decide) (heq ▸ List.mem_cons_self)
  rw [bulk_append] at hread ⊢
  simp [decode?, crlfLine?_ofNat, hlength, hread]

theorem decode?_encode (items : List Bytes) (rest : Bytes) :
    decode? (Frame.encode items ++ rest) = some (.array items, rest) := by
  have heq : Frame.encode items ++ rest =
      42 :: (Numeral.ofNat items.length ++ 13 :: 10 :: (items.flatMap Frame.bulk ++ rest)) := by
    simp [Frame.encode, Bytes.crlf]
  simp [heq, decode?, crlfLine?_ofNat, Numeral.natural?_ofNat, bulks?_flatMap]

/-- What is read of a text in front of the end of a line is the text itself if and only if it is a line. -/
theorem crlfLine?_append_iff {text rest rest' : Bytes} :
    Bytes.crlfLine? (text ++ 13 :: 10 :: rest) = some (text, rest') ↔ text.IsLine ∧ rest' = rest := by
  rw [Bytes.crlfLine?_eq_some_iff]
  refine and_congr_right fun _ => ?_
  simp only [List.append_cancel_left_eq, List.cons.injEq, true_and]
  exact eq_comm

theorem isLine_of_crlfLine? {text l : Bytes} (h : Bytes.crlfLine? (text ++ [13, 10]) = some (l, [])) : text.IsLine := by
  obtain ⟨hline, heq⟩ := Bytes.crlfLine?_eq_some_iff.1 h
  rwa [List.append_cancel_right heq]

theorem toFrame_status (text rest : Bytes) : (status text).toFrame ++ rest = 43 :: (text ++ 13 :: 10 :: rest) := by
  simp [toFrame, Bytes.crlf]

theorem toFrame_error (text rest : Bytes) :
    (error text).toFrame ++ rest = 45 :: (("ERR " ++ text : Bytes) ++ 13 :: 10 :: rest) := by
  have hmark : Bytes.ofString "-ERR " = 45 :: Bytes.ofString "ERR " := by decide
  simp [toFrame, Bytes.crlf, hmark]

theorem isLine_received (text : Bytes) : ("ERR " ++ text : Bytes).IsLine ↔ text.IsLine :=
  Bytes.isLine_append_left (by decide) text

/-- A reply is read back, and nothing of what follows it, if and only if its text is a line. -/
theorem decode?_toFrame_iff {reply : Reply} {rest rest' : Bytes} :
    decode? (reply.toFrame ++ rest) = some (reply.received, rest') ↔ reply.OneLine ∧ rest' = rest := by
  cases reply with
  | status text =>
    rw [toFrame_status, OneLine, ← crlfLine?_append_iff]
    simp [decode?, received]
  | error text =>
    rw [toFrame_error, OneLine, ← isLine_received, ← crlfLine?_append_iff]
    simp [decode?, received]
  | integer n =>
    have hline : Bytes.crlfLine? (Numeral.ofInt n ++ 13 :: 10 :: rest) = some (Numeral.ofInt n, rest) :=
      crlfLine?_append_iff.2 ⟨Bytes.isLine_of_not_mem (Numeral.not_mem_ofInt (by decide) (by decide) n), rfl⟩
    have heq : (integer n).toFrame ++ rest = 58 :: (Numeral.ofInt n ++ 13 :: 10 :: rest) := by
      simp [toFrame, Bytes.crlf]
    simp [heq, decode?, hline, Numeral.integer?_ofInt, received, OneLine, eq_comm]
  | bulk value => simp [toFrame, decode?_bulk, received, OneLine, eq_comm]
  | nil =>
    have hread : decode? (nil.toFrame ++ rest) = some (.nil, rest) := rfl
    simp [hread, received, OneLine, eq_comm]
  | array items => simp [toFrame, decode?_encode, received, OneLine, eq_comm]

theorem decodes_nil_iff {s : Bytes} : Decodes s [] ↔ s = [] := by
  constructor
  · rintro ⟨⟩
    rfl
  · rintro rfl
    exact .nil

theorem decodes_cons_iff {s : Bytes} {reply : Reply} {replies : List Reply} :
    Decodes s (reply :: replies) ↔ ∃ rest, decode? s = some (reply, rest) ∧ Decodes rest replies := by
  constructor
  · rintro (_ | ⟨hread, hrest⟩)
    exact ⟨_, hread, hrest⟩
  · rintro ⟨rest, hread, hrest⟩
    exact .cons hread hrest

instance decidableDecodes : (s : Bytes) → (replies : List Reply) → Decidable (Decodes s replies)
  | _, [] => decidable_of_iff _ decodes_nil_iff.symm
  | s, reply :: replies =>
    match h : decode? s with
    | none => isFalse fun hread => by simp [decodes_cons_iff, h] at hread
    | some (first, rest) =>
      have := decidableDecodes rest replies
      decidable_of_iff (first = reply ∧ Decodes rest replies) (by simp [decodes_cons_iff, h, and_assoc])

/-- Replies one behind another are read back one by one if and only if the text of each is a line. -/
theorem decodes_flatMap_iff {replies : List Reply} :
    Decodes (replies.flatMap toFrame) (replies.map received) ↔ ∀ reply ∈ replies, reply.OneLine := by
  induction replies with
  | nil => simp [Decodes.nil]
  | cons reply replies ih =>
    rw [List.flatMap_cons, List.map_cons, List.forall_mem_cons, ← ih, decodes_cons_iff]
    simp only [decode?_toFrame_iff, and_assoc, exists_and_left, exists_eq_left]

/-- A text that has the end of a line in it is read as a shorter one, and then comes a reply that was not sent. -/
example : Decodes (error "unknown command 'a\r\n+b'").toFrame [error "ERR unknown command 'a", status "b'"] := by
  decide

theorem decodes_toFrame_iff {reply : Reply} : (∃ one, Decodes reply.toFrame [one]) ↔ reply.OneLine := by
  constructor
  · rintro ⟨one, hone⟩
    obtain ⟨rest, hread, hrest⟩ := decodes_cons_iff.1 hone
    obtain rfl := decodes_nil_iff.1 hrest
    rw [← List.append_nil reply.toFrame] at hread
    cases reply with
    | status text =>
      rw [toFrame_status] at hread
      obtain ⟨⟨l, _⟩, hl, heq⟩ := Option.map_eq_some_iff.1 hread
      obtain ⟨-, rfl⟩ := Prod.mk.inj heq
      exact isLine_of_crlfLine? hl
    | error text =>
      rw [toFrame_error] at hread
      obtain ⟨⟨l, _⟩, hl, heq⟩ := Option.map_eq_some_iff.1 hread
      obtain ⟨-, rfl⟩ := Prod.mk.inj heq
      exact (isLine_received text).1 (isLine_of_crlfLine? hl)
    | _ => trivial
  · intro hline
    exact ⟨reply.received, by simpa using decodes_flatMap_iff.2 (List.forall_mem_singleton.2 hline)⟩

end Reply
end KeyStore
