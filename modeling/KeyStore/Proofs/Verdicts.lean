import KeyStore.Proofs.Grammar
import KeyStore.Proofs.Streams
import Mathlib.Data.List.Forall2

/-!
# What is said of the bytes at the front of a stream

The grammar of frames, with numerals as they may be spelled (`Frame.Spells`): reading finds a frame exactly where the
bytes spell one (`Frame.parse_eq_done_iff`). What is said of some bytes is final unless it is that more are needed. A
reader that goes by places instead of taking bytes off the front (`Frame.readAt`), with places and lengths that are
added as words, comes to the same, never asks for a byte outside, and ends its loop within as many rounds as there are
bytes (`Frame.verdict_exact`).
-/

namespace KeyStore

namespace Bytes

theorem exists_append_cons_cons {s : Bytes} {n : Nat} (h : n + 2 ≤ s.length) :
    ∃ front a b tail, s = front ++ a :: b :: tail ∧ front.length = n := by
  have ha : n < s.length := by omega
  have hb : n + 1 < s.length := by omega
  refine ⟨s.take n, s[n], s[n + 1], s.drop (n + 2), ?_, List.length_take_of_le (by omega)⟩
  rw [← List.drop_eq_getElem_cons hb, ← List.drop_eq_getElem_cons ha, List.take_append_drop]

theorem crlfLine?_cons {b : UInt8} (hb : b ≠ 13) (s : Bytes) :
    crlfLine? (b :: s) = (crlfLine? s).map fun (line, rest) => (b :: line, rest) := by
  ext ⟨line, rest⟩
  have hfront : ∀ text : Bytes, IsLine (b :: text) ↔ IsLine text := fun text =>
    isLine_append_left (s := [b]) (by simpa using hb.symm) text
  simp only [Option.map_eq_some_iff, Prod.exists, Prod.mk.injEq, crlfLine?_eq_some_iff]
  constructor
  · rintro ⟨hline, heq⟩
    cases line with
    | nil => exact absurd (List.cons.inj heq).1 hb
    | cons c line =>
      obtain ⟨rfl, rfl⟩ := List.cons.inj heq
      exact ⟨line, rest, ⟨(hfront line).1 hline, rfl⟩, rfl, rfl⟩
  · rintro ⟨line, rest, ⟨hline, rfl⟩, rfl, rfl⟩
    exact ⟨(hfront line).2 hline, rfl⟩

end Bytes

namespace Numeral

theorem le_foldl_value (s : Bytes) (m : Nat) : m ≤ s.foldl (fun n b => 10 * n + (b.toNat - 48)) m := by
  induction s generalizing m with
  | nil => exact Nat.le_refl m
  | cons b s ih =>
    have hstep : m ≤ 10 * m + (b.toNat - 48) := by omega
    exact Nat.le_trans hstep (ih _)

/-- Reading on within a limit is finding the value, if it is within the limit at the end. -/
theorem digitsFrom_eq_some_iff {limit m n : Nat} {s : Bytes} (hm : m ≤ limit) :
    digitsFrom limit m s = some n ↔
      s.all Bytes.isDigit = true ∧ s.foldl (fun n b => 10 * n + (b.toNat - 48)) m = n ∧ n ≤ limit := by
  induction s generalizing m with
  | nil =>
    simp only [digitsFrom, List.all_nil, List.foldl_nil, Option.some.injEq, true_and]
    exact ⟨fun h => ⟨h, h ▸ hm⟩, fun h => h.1⟩
  | cons b s ih =>
    simp only [digitsFrom, List.all_cons, List.foldl_cons]
    cases hb : Bytes.isDigit b with
    | false => simp
    | true =>
      simp only [if_true, Bool.true_and]
      split
      · next hle => exact ih hle
      · next hgt =>
        -- the value does not get less by the digits that follow
        have hge := le_foldl_value s (10 * m + (b.toNat - 48))
        constructor
        · intro h
          cases h
        · rintro ⟨-, rfl, hle⟩
          exact absurd (Nat.le_trans hge hle) hgt

theorem readNat_eq_some_iff {limit n : Nat} {s : Bytes} :
    readNat limit s = some n ↔ natural? s = some n ∧ n ≤ limit := by
  unfold readNat natural? value
  cases hs : s.isEmpty with
  | true => simp
  | false =>
    simp only [Bool.false_eq_true, if_false, digitsFrom_eq_some_iff (Nat.zero_le limit), Bool.not_false, Bool.true_and]
    cases s.all Bytes.isDigit <;> simp

def SpellsLength (s : Bytes) (n : Nat) : Prop :=
  n ≤ Frame.maxLength ∧ (natural? s = some n ∨ n = 0 ∧ ∃ zeros, s = 45 :: zeros ∧ natural? zeros = some 0)

theorem readInt_minus_eq_some_iff {s : Bytes} {i : Int} :
    readInt (45 :: s) = some i ↔ ∃ n : Nat, (natural? s = some n ∧ n ≤ 9223372036854775808) ∧ i = -(n : Int) := by
  simp only [← readNat_eq_some_iff, readInt]
  cases readNat 9223372036854775808 s with
  | none => simp
  | some n => simp [eq_comm]

theorem readInt_eq_some_iff {s : Bytes} {i : Int} (hsign : ∀ t, s ≠ 45 :: t) :
    readInt s = some i ↔ ∃ n : Nat, (natural? s = some n ∧ n ≤ Frame.maxLength) ∧ i = (n : Int) := by
  simp only [← readNat_eq_some_iff, Frame.maxLength]
  rw [readInt]
  · cases readNat 9223372036854775807 s with
    | none => simp
    | some n => simp [eq_comm]
  · exact hsign

theorem readLength_eq_some_iff {s : Bytes} {n : Nat} : readLength s = some n ↔ SpellsLength s n := by
  have hint : readLength s = some n ↔ readInt s = some (n : Int) := by
    unfold readLength
    cases readInt s with
    | none => simp
    | some i =>
      simp only [Option.some.injEq]
      split <;> simp <;> omega
  rw [hint]
  by_cases hsign : ∃ t, s = 45 :: t
  · obtain ⟨t, rfl⟩ := hsign
    have hnatural : natural? (45 :: t) = none := by simp [natural?, Bytes.isDigit]
    rw [readInt_minus_eq_some_iff]
    constructor
    · -- below a minus sign only zero is not negative
      rintro ⟨k, ⟨hk, -⟩, hneg⟩
      obtain ⟨rfl, rfl⟩ : k = 0 ∧ n = 0 := by omega
      exact ⟨Nat.zero_le _, .inr ⟨rfl, t, rfl, hk⟩⟩
    · rintro ⟨-, hdigits | ⟨rfl, zeros, heq, hzeros⟩⟩
      · simp [hnatural] at hdigits
      · obtain rfl := (List.cons.inj heq).2
        exact ⟨0, ⟨hzeros, Nat.zero_le _⟩, rfl⟩
  · have hsign' : ∀ t, s ≠ 45 :: t := fun t ht => hsign ⟨t, ht⟩
    simp only [readInt_eq_some_iff hsign', Int.natCast_inj]
    constructor
    · rintro ⟨k, ⟨hk, hle⟩, rfl⟩
      exact ⟨hle, .inl hk⟩
    · rintro ⟨hle, hdigits | ⟨-, zeros, rfl, -⟩⟩
      · exact ⟨n, ⟨hdigits, hle⟩, rfl⟩
      · exact absurd rfl (hsign' zeros)

theorem SpellsLength.length_pos {s : Bytes} {n : Nat} (h : SpellsLength s n) : 0 < s.length := by
  rw [← readLength_eq_some_iff] at h
  cases s with
  | nil => cases h
  | cons b s => exact Nat.zero_lt_succ _

theorem SpellsLength.lengthLine {s : Bytes} {n : Nat} (h : SpellsLength s n) (rest : Bytes) :
    Frame.lengthLine (s ++ 13 :: 10 :: rest) = some (some n, s.length + 2, rest) := by
  rw [← readLength_eq_some_iff] at h
  have hline : Bytes.crlfLine? (s ++ 13 :: 10 :: rest) = some (s, rest) :=
    Bytes.crlfFrom_append (not_mem_of_readLength h (by decide) (by decide)) [] rest
  simp only [Frame.lengthLine, hline, h]

end Numeral

namespace Frame

theorem lengthLine_eq_some_iff {s rest : Bytes} {n taken : Nat} :
    lengthLine s = some (some n, taken, rest) ↔
      ∃ digits, Numeral.SpellsLength digits n ∧ s = digits ++ 13 :: 10 :: rest ∧ taken = digits.length + 2 := by
  constructor
  · intro h
    unfold lengthLine at h
    split at h
    · cases h
    · next digits tail hline =>
      simp only [Option.some.injEq, Prod.mk.injEq] at h
      obtain ⟨hn, rfl, rfl⟩ := h
      exact ⟨digits, Numeral.readLength_eq_some_iff.1 hn, (Bytes.crlfLine?_eq_some_iff.1 hline).2, rfl⟩
  · rintro ⟨digits, hn, rfl, rfl⟩
    exact hn.lengthLine rest

def Group (item group : Bytes) : Prop :=
  ∃ digits, Numeral.SpellsLength digits item.length ∧ group = 36 :: digits ++ Bytes.crlf ++ item ++ Bytes.crlf

/-- The bytes of a frame: the number of the items in a line behind a marker, and so many groups. -/
def Spells (items : List Bytes) (front : Bytes) : Prop :=
  ∃ digits groups, Numeral.SpellsLength digits items.length ∧ List.Forall₂ Group items groups ∧
    front = 42 :: digits ++ Bytes.crlf ++ groups.flatten

theorem header_append (b : UInt8) (digits rest : Bytes) :
    b :: digits ++ Bytes.crlf ++ rest = b :: (digits ++ 13 :: 10 :: rest) := by simp [Bytes.crlf]

theorem length_header (b : UInt8) (digits : Bytes) : (b :: digits ++ Bytes.crlf).length = 1 + digits.length + 2 := by
  simp [Bytes.crlf]
  omega

theorem length_group (digits item : Bytes) :
    (36 :: digits ++ Bytes.crlf ++ item ++ Bytes.crlf).length = 1 + digits.length + 2 + item.length + 2 := by
  rw [List.length_append, List.length_append, length_header]
  rfl

theorem Group.bulksFrom {item group : Bytes} (h : Group item group) (n : Nat) (items : List Bytes) (size : Nat)
    (rest : Bytes) :
    bulksFrom (n + 1) items size (group ++ rest) = bulksFrom n (item :: items) (size + group.length) rest := by
  obtain ⟨digits, hlen, rfl⟩ := h
  have hbytes : 36 :: digits ++ Bytes.crlf ++ item ++ Bytes.crlf ++ rest =
      36 :: (digits ++ 13 :: 10 :: (item ++ 13 :: 10 :: rest)) := by simp [Bytes.crlf]
  have hsize : size + 1 + (digits.length + 2) + item.length + 2 =
      size + (36 :: digits ++ Bytes.crlf ++ item ++ Bytes.crlf).length := by
    rw [length_group]
    omega
  rw [hbytes]
  simp only [Frame.bulksFrom, if_true, hlen.lengthLine, Bytes.splitExact_append, hsize]

/-- So many items are found exactly where their groups stand one behind another. -/
theorem bulksFrom_eq_done_iff {n : Nat} {items out : List Bytes} {size total : Nat} {s rest : Bytes} :
    bulksFrom n items size s = .done out total rest ↔
      ∃ more groups, List.Forall₂ Group more groups ∧ more.length = n ∧ s = groups.flatten ++ rest ∧
        out = items.reverse ++ more ∧ total = size + groups.flatten.length := by
  constructor
  · intro h
    fun_induction bulksFrom n items size s with
    | case1 items size s =>
      cases h
      exact ⟨[], [], .nil, rfl, rfl, (List.append_nil _).symm, rfl⟩
    | case6 n items size s len taken tail hline item tail' hsplit ih =>
      obtain ⟨digits, hlen, rfl, rfl⟩ := lengthLine_eq_some_iff.1 hline
      obtain ⟨rfl, rfl⟩ := Bytes.splitExact_local hsplit
      obtain ⟨more, groups, hgroups, rfl, rfl, rfl, rfl⟩ := ih h
      have hgroup : Group item (36 :: digits ++ Bytes.crlf ++ item ++ Bytes.crlf) := ⟨digits, hlen, rfl⟩
      refine ⟨item :: more, _ :: groups, .cons hgroup hgroups, rfl, ?_, ?_, ?_⟩
      · simp [Bytes.crlf]
      · simp
      · rw [List.flatten_cons, List.length_append, length_group]
        omega
    | _ => cases h
  · rintro ⟨more, groups, hgroups, rfl, rfl, rfl, rfl⟩
    induction hgroups generalizing items size with
    | nil => simp [bulksFrom]
    | cons hgroup hgroups ih =>
      rw [List.flatten_cons, List.append_assoc, List.length_cons, hgroup.bulksFrom, ih]
      simp [Nat.add_assoc]

theorem parse_eq_done_iff {s rest : Bytes} {items : List Bytes} {size : Nat} :
    parse s = .done items size rest ↔ ∃ front, s = front ++ rest ∧ front.length = size ∧ Spells items front := by
  constructor
  · intro h
    unfold parse at h
    split at h
    · cases h
    · next b s =>
      split at h
      · next hb =>
        split at h
        · cases h
        · cases h
        · next n taken tail hline =>
          obtain ⟨digits, hn, rfl, rfl⟩ := lengthLine_eq_some_iff.1 hline
          obtain ⟨more, groups, hgroups, rfl, rfl, rfl, rfl⟩ := bulksFrom_eq_done_iff.1 h
          refine ⟨42 :: digits ++ Bytes.crlf ++ groups.flatten, ?_, ?_, digits, groups, hn, hgroups, rfl⟩
          · rw [List.append_assoc, header_append, hb]
          · rw [List.length_append, length_header]
            omega
      · cases h
  · rintro ⟨_, rfl, rfl, digits, groups, hn, hgroups, rfl⟩
    rw [List.append_assoc, header_append]
    simp only [parse, if_true, hn.lengthLine]
    refine bulksFrom_eq_done_iff.2 ⟨items, groups, hgroups, rfl, rfl, rfl, ?_⟩
    rw [List.length_append, length_header]
    omega

theorem Spells.four_le_length {items : List Bytes} {front : Bytes} (h : Spells items front) : 4 ≤ front.length := by
  obtain ⟨digits, groups, hn, -, rfl⟩ := h
  have hpos := hn.length_pos
  rw [List.length_append, length_header]
  omega

inductive Status where
  | ok
  | needMore
  | error
  deriving DecidableEq

/-- What is said of some bytes: how many at the front were taken, and the items that were found there. -/
structure Verdict where
  status : Status
  consumed : Nat
  items : List Bytes
  deriving DecidableEq

def Parsed.verdict : Parsed → Verdict
  | .done items size _ => ⟨.ok, size, items⟩
  | .needMore => ⟨.needMore, 0, []⟩
  | .malformed => ⟨.error, 0, []⟩

theorem verdict_parse_of_spells {items : List Bytes} {front : Bytes} (h : Spells items front) (rest : Bytes) :
    (parse (front ++ rest)).verdict = ⟨.ok, front.length, items⟩ := by
  rw [parse_eq_done_iff.2 ⟨front, rfl, rfl, h⟩]
  rfl

theorem spells_of_verdict {s : Bytes} {consumed : Nat} {items : List Bytes}
    (h : (parse s).verdict = ⟨.ok, consumed, items⟩) :
    4 ≤ consumed ∧ consumed ≤ s.length ∧ Spells items (s.take consumed) := by
  cases hparse : parse s with
  | done items' size rest =>
    rw [hparse] at h
    cases h
    obtain ⟨front, rfl, rfl, hspells⟩ := parse_eq_done_iff.1 hparse
    rw [List.take_left, List.length_append]
    exact ⟨hspells.four_le_length, Nat.le_add_right _ _, hspells⟩
  | needMore =>
    rw [hparse] at h
    cases h
  | malformed =>
    rw [hparse] at h
    cases h

theorem verdict_append {s : Bytes} (h : (parse s).verdict.status ≠ .needMore) (more : Bytes) :
    (parse (s ++ more)).verdict = (parse s).verdict := by
  cases hparse : parse s with
  | done items size rest =>
    rw [parse_more hparse more]
    rfl
  | needMore =>
    rw [hparse] at h
    exact absurd rfl h
  | malformed => rw [parse_of_malformed hparse more]

def addWords (a b : Nat) : Nat := (a + b) % UInt64.size

def lineEnd? (s : Bytes) (i : Nat) : Option Nat := (Bytes.crlfLine? (s.drop i)).map fun (line, _) => i + line.length

def slice? (s : Bytes) (i j : Nat) : Option Bytes :=
  if i ≤ j ∧ j ≤ s.length then some ((s.drop i).take (j - i)) else none

/-- What one round of the loop comes to: an item and the place of the next, or the end of the reading. -/
inductive Round where
  | item (value : Bytes) (next : Nat)
  | stop (status : Status)

def valueAt (s : Bytes) (start len : Nat) : Option Round := do
  let stop := addWords start len
  if s.length < addWords stop 2 then return .stop .needMore
  let first ← s[stop]?
  if first ≠ 13 then return .stop .error
  let second ← s[addWords stop 1]?
  if second ≠ 10 then return .stop .error
  let value ← slice? s start stop
  return .item value (addWords stop 2)

def roundAt (s : Bytes) (i : Nat) : Option Round := do
  if s.length ≤ i then return .stop .needMore
  let marker ← s[i]?
  if marker ≠ 36 then return .stop .error
  match lineEnd? s (i + 1) with
  | none => return .stop .needMore
  | some lineEnd =>
    let digits ← slice? s (i + 1) lineEnd
    match Numeral.readLength digits with
    | none => return .stop .error
    | some len => valueAt s (addWords lineEnd 2) len

def itemsAt (s : Bytes) : Nat → Nat → List Bytes → Option (Verdict × Nat)
  | 0, i, items => some (⟨.ok, i, items.reverse⟩, 0)
  | n + 1, i, items => do
    match ← roundAt s i with
    | .stop status => return (⟨status, 0, []⟩, 1)
    | .item value next =>
      let (verdict, rounds) ← itemsAt s n next (value :: items)
      return (verdict, rounds + 1)

/-- The verdict on some bytes, by places, and how many rounds the loop over the items starts. -/
def readAt (s : Bytes) : Option (Verdict × Nat) := do
  if s.isEmpty then return (⟨.needMore, 0, []⟩, 0)
  let marker ← s[0]?
  if marker ≠ 42 then return (⟨.error, 0, []⟩, 0)
  match lineEnd? s 0 with
  | none => return (⟨.needMore, 0, []⟩, 0)
  | some lineEnd =>
    let digits ← slice? s 1 lineEnd
    match Numeral.readLength digits with
    | none => return (⟨.error, 0, []⟩, 0)
    | some n => itemsAt s n (addWords lineEnd 2) []

section Places

variable {s u t : Bytes} {i : Nat}

theorem addWords_eq {a b : Nat} (h : a + b < 18446744073709551616) : addWords a b = a + b := Nat.mod_eq_of_lt h

theorem drop_of_drop_eq_append (h : s.drop i = u ++ t) : s.drop (i + u.length) = t := by
  rw [← List.drop_drop, h, List.drop_left]

theorem getElem?_of_drop_eq_cons {b : UInt8} (h : s.drop i = b :: t) : s[i]? = some b := by
  rw [← List.head?_drop, h, List.head?_cons]

theorem length_of_drop_eq_append (h : s.drop i = u ++ t) (hi : i ≤ s.length) :
    s.length = i + u.length + t.length := by
  have hlength := congrArg List.length h
  rw [List.length_drop, List.length_append] at hlength
  omega

theorem slice?_of_drop_eq_append (h : s.drop i = u ++ t) (hi : i ≤ s.length) : slice? s i (i + u.length) = some u := by
  have hlength := length_of_drop_eq_append h hi
  rw [slice?, if_pos ⟨by omega, by omega⟩, h, Nat.add_sub_cancel_left, List.take_left]

theorem lineEnd?_of_drop_eq_append {rest : Bytes} (h : s.drop i = u ++ 13 :: 10 :: rest) (hu : u.IsLine) :
    lineEnd? s i = some (i + u.length) := by
  rw [lineEnd?, Bytes.crlfLine?_eq_some_iff.2 ⟨hu, h⟩]
  rfl

end Places

section Rounds

variable {s item tail : Bytes} {start len : Nat} {a b : UInt8}

theorem valueAt_of_lt (hs : s.length < maxLength) (hstart : start ≤ s.length) (hlen : len ≤ maxLength)
    (hlt : s.length < start + len + 2) : valueAt s start len = some (.stop .needMore) := by
  simp only [maxLength] at hs hlen
  have hstop : addWords start len = start + len := addWords_eq (by omega)
  have hneed : addWords (start + len) 2 = start + len + 2 := addWords_eq (by omega)
  simp [valueAt, hstop, hneed, hlt]

theorem valueAt_of_drop (hs : s.length < maxLength) (hstart : start ≤ s.length)
    (h : s.drop start = item ++ a :: b :: tail) :
    valueAt s start item.length =
      some (if a = 13 ∧ b = 10 then .item item (start + item.length + 2) else .stop .error) := by
  have hlength := length_of_drop_eq_append h hstart
  simp only [List.length_cons] at hlength
  simp only [maxLength] at hs
  have hstop : addWords start item.length = start + item.length := addWords_eq (by omega)
  have hnext : addWords (start + item.length) 1 = start + item.length + 1 := addWords_eq (by omega)
  have hneed : addWords (start + item.length) 2 = start + item.length + 2 := addWords_eq (by omega)
  have hroom : ¬ s.length < start + item.length + 2 := by omega
  have hback := drop_of_drop_eq_append h
  have hfirst : s[start + item.length]? = some a := getElem?_of_drop_eq_cons hback
  have hsecond : s[start + item.length + 1]? = some b := by
    refine getElem?_of_drop_eq_cons (t := tail) ?_
    rw [← List.drop_drop, hback]
    rfl
  have hvalue : slice? s start (start + item.length) = some item := slice?_of_drop_eq_append h hstart
  by_cases ha : a = 13 <;> by_cases hb : b = 10 <;>
    simp [valueAt, hstop, hnext, hneed, hroom, hfirst, hsecond, hvalue, ha, hb]

theorem bulksFrom_of_lt {n taken size : Nat} {items : List Bytes} {rest : Bytes}
    (hline : lengthLine s = some (some len, taken, rest)) (hlt : rest.length < len + 2) :
    bulksFrom (n + 1) items size (36 :: s) = .needMore := by
  simp only [bulksFrom, if_true, hline]
  cases hsplit : Bytes.splitExact len rest with
  | none => rfl
  | some parts =>
    obtain ⟨item, tail⟩ := parts
    obtain ⟨rfl, rfl⟩ := Bytes.splitExact_local hsplit
    -- fewer than two bytes are left behind the item
    rcases tail with _ | ⟨c, _ | ⟨c', tail⟩⟩
    · rfl
    · simp
    · simp only [List.length_append, List.length_cons] at hlt
      omega

theorem bulksFrom_of_ne {n taken size : Nat} {items : List Bytes}
    (hline : lengthLine s = some (some item.length, taken, item ++ a :: b :: tail)) (hne : ¬ (a = 13 ∧ b = 10)) :
    bulksFrom (n + 1) items size (36 :: s) = .malformed := by
  simp only [bulksFrom, if_true, hline, Bytes.splitExact_append]
  split
  · next heq =>
    simp only [List.cons.injEq] at heq
    exact absurd ⟨heq.1, heq.2.1⟩ hne
  · rfl
  · next hnot => exact absurd rfl (hnot a b tail)

end Rounds

/-- What a round has to come to: an item where its group stands, and otherwise what is said of the bytes. -/
def Round.Agrees (s : Bytes) (i : Nat) : Round → Prop
  | .item value next =>
    i < next ∧ next ≤ s.length ∧
      ∀ n items size, bulksFrom (n + 1) items size (s.drop i) =
        bulksFrom n (value :: items) (size + (next - i)) (s.drop next)
  | .stop status =>
    ∀ n items size, (bulksFrom (n + 1) items size (s.drop i)).verdict = ⟨status, 0, []⟩

theorem exists_valueAt {s digits rest : Bytes} {i len : Nat} (hs : s.length < maxLength) (hi : i ≤ s.length)
    (hdrop : s.drop i = 36 :: (digits ++ 13 :: 10 :: rest)) (hlen : Numeral.SpellsLength digits len) :
    ∃ round, valueAt s (i + 1 + digits.length + 2) len = some round ∧ round.Agrees s i := by
  have hline := hlen.lengthLine rest
  have hfront : s.drop i = 36 :: digits ++ Bytes.crlf ++ rest := hdrop.trans (header_append 36 digits rest).symm
  have hlength := length_of_drop_eq_append hfront hi
  have hback := drop_of_drop_eq_append hfront
  have hplace : i + (36 :: digits ++ Bytes.crlf).length = i + 1 + digits.length + 2 := by
    rw [length_header]
    omega
  rw [hplace] at hlength hback
  by_cases hlt : rest.length < len + 2
  · refine ⟨.stop .needMore, valueAt_of_lt hs (by omega) hlen.1 (by omega), fun n items size => ?_⟩
    rw [hdrop, bulksFrom_of_lt hline hlt]
    rfl
  · obtain ⟨item, a, b, tail, rfl, rfl⟩ := Bytes.exists_append_cons_cons (Nat.le_of_not_lt hlt)
    refine ⟨_, valueAt_of_drop hs (by omega) hback, ?_⟩
    by_cases hcrlf : a = 13 ∧ b = 10
    · obtain ⟨rfl, rfl⟩ := hcrlf
      have hgroup : Group item (36 :: digits ++ Bytes.crlf ++ item ++ Bytes.crlf) := ⟨digits, hlen, rfl⟩
      have hwhole : s.drop i = 36 :: digits ++ Bytes.crlf ++ item ++ Bytes.crlf ++ tail := by simp [hdrop, Bytes.crlf]
      have hnext := drop_of_drop_eq_append hwhole
      have hnext' : i + (36 :: digits ++ Bytes.crlf ++ item ++ Bytes.crlf).length =
          i + 1 + digits.length + 2 + item.length + 2 := by
        rw [length_group]
        omega
      rw [if_pos ⟨rfl, rfl⟩]
      simp only [List.length_append, List.length_cons] at hlength
      refine ⟨by omega, by omega, fun n items size => ?_⟩
      rw [hwhole, hgroup.bulksFrom, ← hnext', hnext, Nat.add_sub_cancel_left]
    · rw [if_neg hcrlf]
      intro n items size
      rw [hdrop, bulksFrom_of_ne hline hcrlf]
      rfl

theorem exists_roundAt {s : Bytes} {i : Nat} (hs : s.length < maxLength) (hi : i ≤ s.length) :
    ∃ round, roundAt s i = some round ∧ round.Agrees s i := by
  cases hdrop : s.drop i with
  | nil =>
    have hle : s.length ≤ i := List.drop_eq_nil_iff.1 hdrop
    refine ⟨.stop .needMore, by simp [roundAt, hle], fun n items size => ?_⟩
    rw [hdrop]
    rfl
  | cons b t =>
    have hlt : ¬ s.length ≤ i := fun hle => by simp [List.drop_eq_nil_iff.2 hle] at hdrop
    have hmarker := getElem?_of_drop_eq_cons hdrop
    have hdrop' : s.drop (i + 1) = t := drop_of_drop_eq_append (u := [b]) hdrop
    by_cases hb : b = 36
    · subst hb
      cases hline : Bytes.crlfLine? t with
      | none =>
        refine ⟨.stop .needMore, by simp [roundAt, hlt, hmarker, lineEnd?, hdrop', hline], fun n items size => ?_⟩
        simp [hdrop, bulksFrom, lengthLine, hline, Parsed.verdict]
      | some parts =>
        obtain ⟨digits, rest⟩ := parts
        obtain ⟨hdigits, ht⟩ := Bytes.crlfLine?_eq_some_iff.1 hline
        rw [ht] at hdrop'
        have hend := lineEnd?_of_drop_eq_append hdrop' hdigits
        have hslice := slice?_of_drop_eq_append hdrop' (by omega)
        have hlength := length_of_drop_eq_append hdrop' (by omega)
        have hstart : addWords (i + 1 + digits.length) 2 = i + 1 + digits.length + 2 := by
          simp only [maxLength, List.length_cons] at hs hlength
          exact addWords_eq (by omega)
        cases hlen : Numeral.readLength digits with
        | none =>
          refine ⟨.stop .error, by simp [roundAt, hlt, hmarker, hend, hslice, hlen], fun n items size => ?_⟩
          simp [hdrop, bulksFrom, lengthLine, hline, hlen, Parsed.verdict]
        | some len =>
          have hround : roundAt s i = valueAt s (i + 1 + digits.length + 2) len := by
            simp [roundAt, hlt, hmarker, hend, hslice, hlen, hstart]
          rw [hround]
          exact exists_valueAt hs hi (hdrop.trans (by rw [ht])) (Numeral.readLength_eq_some_iff.1 hlen)
    · refine ⟨.stop .error, by simp [roundAt, hlt, hmarker, hb], fun n items size => ?_⟩
      simp [hdrop, bulksFrom, hb, Parsed.verdict]

/-- The loop does not look outside the bytes, says what is said of them, and each round takes one. -/
theorem exists_itemsAt {s : Bytes} (hs : s.length < maxLength) (n : Nat) {i : Nat} (hi : i ≤ s.length)
    (items : List Bytes) :
    ∃ rounds, i + rounds ≤ s.length + 1 ∧
      itemsAt s n i items = some ((bulksFrom n items i (s.drop i)).verdict, rounds) := by
  induction n generalizing i items with
  | zero => exact ⟨0, Nat.le_succ_of_le hi, rfl⟩
  | succ n ih =>
    obtain ⟨round, hround, hagrees⟩ := exists_roundAt hs hi
    cases round with
    | stop status => exact ⟨1, by omega, by simp [itemsAt, hround, hagrees n items i]⟩
    | item value next =>
      obtain ⟨hlt, hnext, hbulks⟩ := hagrees
      obtain ⟨rounds, hrounds, hitems⟩ := ih hnext (value :: items)
      refine ⟨rounds + 1, by omega, ?_⟩
      have hplace : i + (next - i) = next := by omega
      simp [itemsAt, hround, hitems, hbulks, hplace]

/-- Reading by places comes to what is said of the bytes, with as many rounds as there are bytes at the most. -/
theorem exists_readAt {s : Bytes} (hs : s.length < maxLength) :
    ∃ rounds, rounds ≤ s.length ∧ readAt s = some ((parse s).verdict, rounds) := by
  cases s with
  | nil => exact ⟨0, Nat.le_refl 0, rfl⟩
  | cons b t =>
    by_cases hb : b = 42
    · subst hb
      cases hline : Bytes.crlfLine? t with
      | none =>
        refine ⟨0, Nat.zero_le _, ?_⟩
        simp [readAt, lineEnd?, Bytes.crlfLine?_cons, hline, parse, lengthLine, Parsed.verdict]
      | some parts =>
        obtain ⟨digits, rest⟩ := parts
        obtain ⟨-, rfl⟩ := Bytes.crlfLine?_eq_some_iff.1 hline
        have hend : lineEnd? (42 :: (digits ++ 13 :: 10 :: rest)) 0 = some (1 + digits.length) := by
          simp [lineEnd?, Bytes.crlfLine?_cons, hline, Nat.add_comm]
        have hslice : slice? (42 :: (digits ++ 13 :: 10 :: rest)) 1 (1 + digits.length) = some digits :=
          slice?_of_drop_eq_append rfl (by simp)
        cases hlen : Numeral.readLength digits with
        | none =>
          refine ⟨0, Nat.zero_le _, ?_⟩
          simp [readAt, hend, hslice, hlen, parse, lengthLine, hline, Parsed.verdict]
        | some n =>
          have hback : (42 :: (digits ++ 13 :: 10 :: rest) : Bytes).drop (1 + digits.length + 2) = rest := by
            rw [← header_append, ← length_header 42 digits, List.drop_left]
          have hle : 1 + digits.length + 2 ≤ (42 :: (digits ++ 13 :: 10 :: rest) : Bytes).length := by
            rw [← header_append, List.length_append, length_header]
            omega
          have hstart : addWords (1 + digits.length) 2 = 1 + digits.length + 2 := by
            simp only [maxLength] at hs
            exact addWords_eq (by omega)
          obtain ⟨rounds, hrounds, hitems⟩ := exists_itemsAt hs n hle []
          refine ⟨rounds, by omega, ?_⟩
          rw [hback] at hitems
          have hparse : parse (42 :: (digits ++ 13 :: 10 :: rest)) = bulksFrom n [] (1 + digits.length + 2) rest := by
            simp [parse, lengthLine, hline, hlen, Nat.add_assoc]
          simp [readAt, hend, hslice, hlen, hstart, hitems, hparse]
    · exact ⟨0, Nat.zero_le _, by simp [readAt, parse, hb, Parsed.verdict]⟩

/-- What is said of some bytes is so. Items are found where the bytes at the front spell a frame of them, and only
there. Nothing is taken and nothing found otherwise. What is said stands whatever follows, unless it is that more bytes
are needed. And as long as the greatest length can be added to any place within a word, it is what a reader that goes by
places comes to, which does not look outside the bytes and starts no more rounds than there are bytes. -/
theorem verdict_exact {s : Bytes} {verdict : Verdict} (h : (parse s).verdict = verdict) :
    (verdict.status = .ok →
      4 ≤ verdict.consumed ∧ verdict.consumed ≤ s.length ∧ Spells verdict.items (s.take verdict.consumed)) ∧
    (∀ items front rest, Spells items front → s = front ++ rest → verdict = ⟨.ok, front.length, items⟩) ∧
    (verdict.status ≠ .ok → verdict.consumed = 0 ∧ verdict.items = []) ∧
    (verdict.status ≠ .needMore → ∀ more, (parse (s ++ more)).verdict = verdict) ∧
    (s.length < maxLength → ∃ rounds, rounds ≤ s.length ∧ readAt s = some (verdict, rounds)) := by
  subst h
  refine ⟨fun hok => ?_, ?_, fun hne => ?_, verdict_append, exists_readAt⟩
  · exact spells_of_verdict (s := s) (by rw [← hok])
  · rintro items front rest hspells rfl
    exact verdict_parse_of_spells hspells rest
  · cases hparse : parse s with
    | done items size rest =>
      rw [hparse] at hne
      exact absurd rfl hne
    | needMore => exact ⟨rfl, rfl⟩
    | malformed => exact ⟨rfl, rfl⟩

/-- A leading zero, a negative zero, and a byte behind the frame that is not its own. -/
theorem verdict_exact_of_minus_zero :
    (parse "*01\r\n$-0\r\n\r\n+").verdict = ⟨.ok, 12, [[]]⟩ ∧ Spells [[]] "*01\r\n$-0\r\n\r\n" ∧
      (∀ more, (parse ("*01\r\n$-0\r\n\r\n+" ++ more)).verdict = ⟨.ok, 12, [[]]⟩) ∧
      ∃ rounds, rounds ≤ 13 ∧ readAt "*01\r\n$-0\r\n\r\n+" = some (⟨.ok, 12, [[]]⟩, rounds) := by
  have h : (parse "*01\r\n$-0\r\n\r\n+").verdict = ⟨.ok, 12, [[]]⟩ := by decide
  obtain ⟨hok, -, -, hmore, hread⟩ := verdict_exact h
  exact ⟨h, (hok rfl).2.2, hmore (by decide), hread (by decide)⟩

/-- The greatest number of items a frame can tell, and none of them is there: one round is started. -/
example : readAt "*9223372036854775807\r\n" = some (⟨.needMore, 0, []⟩, 1) := by decide

end Frame
end KeyStore
