import KeyStore.Proofs.Stored
import Mathlib.Algebra.Group.Int.Defs

/-!
# Arithmetic on words

The arithmetic of requests as a machine does it, on signed 64-bit words: each operation fails where its exact result is
not a word (`Word.exact`), and what is compared beforehand is computed on words too. As long as the clock shows times
from 0 to 2 ^ 61 nothing fails, so that a request has the result that it has on integers (`Word.perform_eq`). For that
the deadlines that are stored have to be bounded, and they are (`Keyspace.Arises.bounded`).
-/

namespace KeyStore

namespace Word

/-- The exact result of an operation, if it is a word. -/
def exact (n : Int) : Option Int := if IsInt64 n then some n else none

def add (m n : Int) : Option Int := exact (m + n)

def sub (m n : Int) : Option Int := exact (m - n)

def mul (m n : Int) : Option Int := exact (m * n)

def neg (n : Int) : Option Int := exact (-n)

def quotient (m n : Int) : Option Int := exact (m.tdiv n)

theorem exact_of_isInt64 {n : Int} (h : IsInt64 n) : exact n = some n := if_pos h

def deadlineAfter (command : Bytes) (now amount unit : Int) : Option (Except CommandError Int) := do
  let limit ← quotient maxInt64 2
  let most ← quotient limit unit
  if most < amount then some (.error (.invalidExpireTime command))
  else do
    let least ← quotient (← neg limit) unit
    if amount < least then some (.error (.invalidExpireTime command))
    else do
      let deadline ← add now (← mul amount unit)
      some (.ok deadline)

def readTtl (option amount : Bytes) : Option (Except CommandError Int) :=
  match Command.readInt amount with
  | .error e => some (.error e)
  | .ok n =>
    if n ≤ 0 then some (.error (.invalidExpireTime "set"))
    else if option.upper = "EX" then deadlineAfter "set" 0 n 1000
    else if option.upper = "PX" then deadlineAfter "set" 0 n 1
    else some (.error .badSyntax)

def readDecrement (s : Bytes) : Option (Except CommandError Int) :=
  match Command.readInt s with
  | .error e => some (.error e)
  | .ok n => if n = minInt64 then some (.error .notAnInteger) else (neg n).map .ok

abbrev Form := List Bytes → Option (Option (Except CommandError Command))

def setForm : Form
  | [key, value, option, amount] =>
    (readTtl option amount).map fun ttl => some (ttl.map fun ms => .set key value (some ms))
  | operands => some (Command.setForm operands)

def decrementForm : Form
  | [key, amount] => (readDecrement amount).map fun delta => some (delta.map (.increment key))
  | _ => some none

def timedForm (name : Bytes) (unit : Int) (command : Bytes → Int → Command) : Form
  | [key, amount] =>
    match Command.readInt amount with
    | .error e => some (some (.error e))
    | .ok n => (deadlineAfter name 0 n unit).map fun ms => some (ms.map (command key))
  | _ => some none

def forms : List (Bytes × Form) := [
  ("set", setForm),
  ("decrby", decrementForm),
  ("expire", timedForm "expire" 1000 .expireIn),
  ("expireat", timedForm "expireat" 1000 .expireAt),
  ("pexpireat", timedForm "pexpireat" 1 .expireAt)]

def form (signature : Command.Signature) (operands : List Bytes) : Option (Option (Except CommandError Command)) :=
  match forms.find? (·.1 = signature.name) with
  | some (_, form) => form operands
  | none => some (signature.form operands)

def read (request : Request) : Option (Except CommandError Command) :=
  let name := Command.nameOf request
  match Command.signature? name with
  | none => some (.error (.unknownCommand name))
  | some signature => (form signature request.tail).map (·.getD (.error (.wrongArgumentCount name)))

def addInt (n delta : Int) : Option (Except CommandError Int) :=
  if 0 < delta then do
    let most ← sub maxInt64 delta
    if most < n then some (.error .notAnInteger) else (add n delta).map .ok
  else if delta < 0 then do
    let least ← sub minInt64 delta
    if n < least then some (.error .notAnInteger) else (add n delta).map .ok
  else (add n delta).map .ok

def increment (ks : Keyspace) (c : Clock) (key : Bytes) (delta : Int) : Option (After (Except CommandError Int)) :=
  let a := ks.live c key
  match Keyspace.integer (a.result.map (·.value)) with
  | .error e => some ⟨.error e, a.keyspace, a.clock⟩
  | .ok n => (addInt n delta).map fun
    | .error e => ⟨.error e, a.keyspace, a.clock⟩
    | .ok sum => ⟨.ok sum, a.keyspace.keep key ⟨.string (Numeral.ofInt sum), a.result.bind (·.deadline)⟩, a.clock⟩

def set (ks : Keyspace) (c : Clock) (key : Bytes) (value : Value) (ttl : Option Int) : Option (After (Option Int)) :=
  let a := ks.live c key
  let e : Entry := ⟨value, a.result.bind (·.deadline)⟩
  match ttl with
  | none => some ⟨none, a.keyspace.reschedule key e none, a.clock⟩
  | some ttl => (add a.clock.now ttl).map fun deadline =>
      ⟨some deadline, a.keyspace.reschedule key e (some deadline), a.clock.next⟩

def remaining (ks : Keyspace) (c : Clock) (key : Bytes) : Option (After Int) :=
  let a := ks.live c key
  match a.result with
  | none => some ⟨-2, a.keyspace, a.clock⟩
  | some e =>
    match e.deadline with
    | none => some ⟨-1, a.keyspace, a.clock⟩
    | some d => (sub d a.clock.now).map fun ms => ⟨ms, a.keyspace, a.clock.next⟩

def toSeconds (ms : Int) : Option Int :=
  if ms < 0 then some ms
  else do
    let rounded ← add ms 500
    quotient rounded 1000

def remainingSeconds (ks : Keyspace) (c : Clock) (key : Bytes) : Option (After Int) := do
  let a ← remaining ks c key
  let seconds ← toSeconds a.result
  some ⟨seconds, a.keyspace, a.clock⟩

def fromStart (size i : Int) : Option Int := if i < 0 then add i size else some i

def cut (size i : Int) : Option Int := if size ≤ i then sub size 1 else some i

def bounds (start stop : Int) (size : Nat) : Option (Option (Nat × Nat)) := do
  let n ← exact size
  let start ← fromStart n start
  let stop ← fromStart n stop
  let start := if start < 0 then 0 else start
  let stop ← cut n stop
  if n = 0 ∨ stop < start ∨ n ≤ start then some none else some (some (start.toNat, stop.toNat))

def slice {α : Type} (start stop : Int) (items : List α) : Option (List α) :=
  (bounds start stop items.length).map fun
    | none => []
    | some (first, last) => (items.drop first).take (last - first + 1)

def answer (v : Option Value) : Query → Option (Except CommandError Reply)
  | .listRange start stop =>
    match Keyspace.expect .list v with
    | .error e => some (.error e)
    | .ok items => (slice start stop (items.getD [])).map fun items => .ok (.array items)
  | .ranked start stop withScores =>
    match Keyspace.expect .sortedSet v with
    | .error e => some (.error e)
    | .ok z => (slice start stop (z.getD ∅).order).map fun members =>
        .ok (.array (Query.rankedItems withScores members))
  | query => some (query.answer v)

def run (report : Keyspace → Bytes) (request : Request) (ks : Keyspace) (c : Clock) :
    Command → Option (After (Except CommandError Answer))
  | .ask key query =>
    let a := ks.get c key
    (answer a.result query).map fun result => ⟨result.map ({ reply := · }), a.keyspace, a.clock⟩
  | .remaining key inSeconds =>
    (if inSeconds then remainingSeconds ks c key else remaining ks c key).map fun a =>
      ⟨.ok { reply := .integer a.result }, a.keyspace, a.clock⟩
  | .set key value ttl => (set ks c key (.string value) ttl).map fun a =>
      ⟨.ok { reply := .ok
             records := ["SET", key, value] :: (a.result.map (Command.deadlineRecord key)).toList },
        a.keyspace, a.clock⟩
  | .increment key delta => (increment ks c key delta).map fun a =>
      ⟨a.result.map fun sum => { reply := .integer sum, records := [request] }, a.keyspace, a.clock⟩
  | .expireIn key ms => (add c.now ms).map fun deadline =>
      Command.always (Command.applyDeadline ks c.next key deadline)
  | command => some (command.run report request ks c)

/-- Reads a request and runs the command that it spells. -/
def perform (report : Keyspace → Bytes) (request : Request) (ks : Keyspace) (c : Clock) :
    Option (Except CommandError (After (Except CommandError Answer))) := do
  match ← read request with
  | .error e => some (.error e)
  | .ok command => (run report request ks c command).map .ok

theorem deadlineAfter_eq {now amount unit : Int} (hnow : 0 ≤ now ∧ now ≤ 2 ^ 61) (hunit : unit = 1 ∨ unit = 1000)
    (command : Bytes) :
    deadlineAfter command now amount unit = some ((Command.readDuration command amount unit).map (now + ·)) := by
  have hlimit : quotient maxInt64 2 = some Command.durationLimit := by decide
  have hneg : neg Command.durationLimit = some (-Command.durationLimit) := by decide
  have hmost : quotient Command.durationLimit unit = some (Command.durationLimit / unit) := by
    obtain rfl | rfl := hunit <;> decide
  have hleast : quotient (-Command.durationLimit) unit = some (-(Command.durationLimit / unit)) := by
    obtain rfl | rfl := hunit <;> decide
  simp only [deadlineAfter, hlimit, hneg, hmost, hleast, Option.bind_eq_bind, Option.bind_some, Command.readDuration]
  by_cases hmore : Command.durationLimit / unit < amount
  · simp only [if_pos hmore, if_pos (Or.inl hmore)]
    rfl
  by_cases hless : amount < -(Command.durationLimit / unit)
  · simp only [if_neg hmore, if_pos hless, if_pos (Or.inr hless)]
    rfl
  have hproduct : IsInt64 (amount * unit) ∧ IsInt64 (now + amount * unit) := by
    simp only [IsInt64, minInt64, maxInt64, Command.durationLimit] at hmore hless ⊢
    obtain rfl | rfl := hunit <;> omega
  simp only [if_neg hmore, if_neg hless, if_neg (not_or.2 ⟨hmore, hless⟩), mul, add, exact_of_isInt64 hproduct.1,
    exact_of_isInt64 hproduct.2, Option.bind_some]
  rfl

theorem deadlineAfter_zero {amount unit : Int} (hunit : unit = 1 ∨ unit = 1000) (command : Bytes) :
    deadlineAfter command 0 amount unit = some (Command.readDuration command amount unit) := by
  rw [deadlineAfter_eq (by decide) hunit]
  cases Command.readDuration command amount unit with
  | error e => rfl
  | ok ms => simp only [Except.map, Int.zero_add]

theorem readTtl_eq (option amount : Bytes) : readTtl option amount = some (Command.readTtl option amount) := by
  cases hread : Command.readInt amount with
  | error e => simp only [readTtl, Command.readTtl, hread, bind, Except.bind]
  | ok n =>
    simp only [readTtl, Command.readTtl, hread, bind, Except.bind, deadlineAfter_zero (.inl rfl),
      deadlineAfter_zero (.inr rfl)]
    split
    · rfl
    · split
      · rfl
      · split <;> rfl

theorem readDecrement_eq (s : Bytes) : readDecrement s = some (Command.readDecrement s) := by
  cases hread : Command.readInt s with
  | error e => simp only [readDecrement, Command.readDecrement, hread, bind, Except.bind]
  | ok n =>
    simp only [readDecrement, Command.readDecrement, hread, bind, Except.bind]
    split
    · rfl
    · next hmin =>
      have hn := Numeral.isInt64_of_readInt (Command.readInt_eq_ok_iff.1 hread)
      have hneg : IsInt64 (-n) := by
        simp only [IsInt64, minInt64, maxInt64] at hmin hn ⊢
        omega
      rw [neg, exact_of_isInt64 hneg]
      rfl

theorem setForm_eq (operands : List Bytes) : setForm operands = some (Command.setForm operands) := by
  unfold setForm
  split
  · rw [readTtl_eq]
    rfl
  · rfl

theorem decrementForm_eq (operands : List Bytes) :
    decrementForm operands = some (Command.incrementing Command.readDecrement operands) := by
  unfold decrementForm Command.incrementing Command.twoOperands
  split
  · rw [readDecrement_eq]
    rfl
  · simp_all

theorem timedForm_eq {unit : Int} (hunit : unit = 1 ∨ unit = 1000) (name : Bytes) (command : Bytes → Int → Command)
    (operands : List Bytes) :
    timedForm name unit command operands = some (Command.timed name unit command operands) := by
  unfold timedForm Command.timed Command.twoOperands
  split
  · next key amount =>
    cases hread : Command.readInt amount with
    | error e => simp only [hread, bind, Except.bind]
    | ok n => simp only [hread, deadlineAfter_zero hunit, bind, Except.bind, Option.map_some]
  · simp_all

theorem exists_signature_of_mem_forms : ∀ x ∈ forms, ∃ signature, Command.signature? x.1 = some signature ∧
    ∀ operands, x.2 operands = some (signature.form operands) := by
  simp only [forms, List.forall_mem_cons, List.not_mem_nil, false_implies, implies_true, and_true]
  exact ⟨⟨_, rfl, setForm_eq⟩, ⟨_, rfl, decrementForm_eq⟩, ⟨_, rfl, timedForm_eq (.inr rfl) _ _⟩,
    ⟨_, rfl, timedForm_eq (.inr rfl) _ _⟩, ⟨_, rfl, timedForm_eq (.inl rfl) _ _⟩⟩

theorem form_eq {name : Bytes} {signature : Command.Signature} (h : Command.signature? name = some signature)
    (operands : List Bytes) : form signature operands = some (signature.form operands) := by
  unfold form
  split
  · next other form hfind =>
    obtain ⟨signature', hsignature', hform⟩ := exists_signature_of_mem_forms _ (List.mem_of_find?_eq_some hfind)
    have hother : other = signature.name := by simpa using List.find?_some hfind
    have hname : signature.name = name := by simpa using List.find?_some h
    obtain rfl : signature = signature' := by simpa [hother, hname, h] using hsignature'
    exact hform operands
  · rfl

theorem read_eq (request : Request) : read request = some ((Command.read request).map (·.2)) := by
  simp only [read, Command.read]
  cases hsignature : Command.signature? (Command.nameOf request) with
  | none => rfl
  | some signature =>
    simp only [form_eq hsignature, Option.map_some]
    cases signature.form request.tail with
    | none => rfl
    | some command => cases command <;> rfl

theorem addInt_eq {n delta : Int} (hn : IsInt64 n) (hdelta : IsInt64 delta) :
    addInt n delta = some (Keyspace.addInt n delta) := by
  have hmin : minInt64 = -9223372036854775808 := rfl
  have hmax : maxInt64 = 9223372036854775807 := rfl
  obtain ⟨_, _⟩ := hn
  obtain ⟨_, _⟩ := hdelta
  have hsum : ¬ (0 < delta ∧ maxInt64 - delta < n ∨ delta < 0 ∧ n < minInt64 - delta) →
      (add n delta).map Except.ok = some (Keyspace.addInt n delta) := by
    intro hfits
    rw [Keyspace.addInt, if_neg hfits, add, exact_of_isInt64 ⟨by omega, by omega⟩]
    rfl
  unfold addInt
  by_cases hpos : 0 < delta
  · have hmost : sub maxInt64 delta = some (maxInt64 - delta) := exact_of_isInt64 ⟨by omega, by omega⟩
    rw [if_pos hpos, hmost]
    by_cases hover : maxInt64 - delta < n
    · have hout : 0 < delta ∧ maxInt64 - delta < n ∨ delta < 0 ∧ n < minInt64 - delta := .inl ⟨hpos, hover⟩
      simp only [Keyspace.addInt, if_pos hout, Option.bind_eq_bind, Option.bind_some, if_pos hover]
    · simp only [Option.bind_eq_bind, Option.bind_some, if_neg hover]
      exact hsum (by omega)
  · rw [if_neg hpos]
    by_cases hneg : delta < 0
    · have hleast : sub minInt64 delta = some (minInt64 - delta) := exact_of_isInt64 ⟨by omega, by omega⟩
      rw [if_pos hneg, hleast]
      by_cases hunder : n < minInt64 - delta
      · have hout : 0 < delta ∧ maxInt64 - delta < n ∨ delta < 0 ∧ n < minInt64 - delta := .inr ⟨hneg, hunder⟩
        simp only [Keyspace.addInt, if_pos hout, Option.bind_eq_bind, Option.bind_some, if_pos hunder]
      · simp only [Option.bind_eq_bind, Option.bind_some, if_neg hunder]
        exact hsum (by omega)
    · rw [if_neg hneg]
      exact hsum (by omega)

theorem isInt64_of_integer {v : Option Value} {n : Int} (h : Keyspace.integer v = .ok n) : IsInt64 n := by
  unfold Keyspace.integer at h
  split at h
  · cases h
    decide
  · split at h
    · next hread =>
      cases h
      exact Numeral.isInt64_of_readInt hread
    · cases h
  · cases h

theorem increment_eq (ks : Keyspace) (c : Clock) (key : Bytes) {delta : Int} (hdelta : IsInt64 delta) :
    increment ks c key delta = some (ks.increment c key delta) := by
  simp only [increment, Keyspace.increment]
  cases hinteger : Keyspace.integer ((ks.live c key).result.map (·.value)) with
  | error e => rfl
  | ok n =>
    have hadd := addInt_eq (isInt64_of_integer hinteger) hdelta
    cases hsum : Keyspace.addInt n delta with
    | error e => simp only [hadd, hsum, Except.bind, bind, Option.map_some]
    | ok m => simp only [hadd, hsum, Except.bind, bind, Option.map_some]

theorem bounds_eq {start stop : Int} {size : Nat} (hstart : IsInt64 start) (hstop : IsInt64 stop)
    (hsize : (size : Int) ≤ maxInt64) : bounds start stop size = some (Slice.bounds start stop size) := by
  have hmin : minInt64 = -9223372036854775808 := rfl
  have hmax : maxInt64 = 9223372036854775807 := rfl
  have hn : exact size = some (size : Int) := exact_of_isInt64 ⟨by omega, hsize⟩
  have hfrom : ∀ i, IsInt64 i → fromStart size i = some (Slice.fromStart size i) := by
    rintro i ⟨hi, hi'⟩
    unfold fromStart Slice.fromStart
    split
    · exact exact_of_isInt64 ⟨by omega, by omega⟩
    · rfl
  have hfirst : ∀ i : Int, (if i < 0 then 0 else i) = max i 0 := fun i => by split <;> omega
  have hlast : ∀ i : Int, cut size i = some (min i (size - 1)) := by
    intro i
    unfold cut
    split
    · have heq : min i ((size : Int) - 1) = size - 1 := by omega
      rw [heq]
      exact exact_of_isInt64 ⟨by omega, by omega⟩
    · have heq : min i ((size : Int) - 1) = i := by omega
      rw [heq]
  simp only [bounds, Slice.bounds, hn, hfrom start hstart, hfrom stop hstop, hfirst, hlast, Option.bind_eq_bind,
    Option.bind_some, Int.natCast_eq_zero]
  split <;> rfl

theorem slice_eq {α : Type} {start stop : Int} (hstart : IsInt64 start) (hstop : IsInt64 stop) {items : List α}
    (hsize : (items.length : Int) ≤ maxInt64) : slice start stop items = some (Slice.of start stop items) := by
  rw [slice, bounds_eq hstart hstop hsize, Slice.of]
  cases Slice.bounds start stop items.length <;> rfl

def times : Set Int := {t | 0 ≤ t ∧ t ≤ 2 ^ 61}

/-- What may be stored as a deadline. -/
def deadlines : Set Int := {d | -(2 ^ 62) ≤ d ∧ d ≤ 2 ^ 61 + 2 ^ 62}

theorem isInt64_sub {d now : Int} (hd : d ∈ deadlines) (hnow : now ∈ times) : IsInt64 (d - now) := by
  obtain ⟨hd, hd'⟩ := hd
  obtain ⟨hnow, hnow'⟩ := hnow
  simp only [IsInt64, minInt64, maxInt64]
  omega

theorem add_mem_deadlines {now ms : Int} (hnow : now ∈ times) (hms : Command.WithinLimit ms) :
    now + ms ∈ deadlines := by
  obtain ⟨hnow, hnow'⟩ := hnow
  simp only [Command.WithinLimit, Command.durationLimit] at hms
  exact ⟨by omega, by omega⟩

theorem add_eq {now ms : Int} (hnow : now ∈ times) (hms : Command.WithinLimit ms) : add now ms = some (now + ms) := by
  obtain ⟨hmin, hmax⟩ := add_mem_deadlines hnow hms
  refine exact_of_isInt64 ?_
  simp only [IsInt64, minInt64, maxInt64]
  omega

theorem storesIn_of_isProper {command : Command} (h : command.IsProper) :
    command.StoresIn times deadlines Set.univ := by
  cases command with
  | set key value ttl =>
    refine ⟨trivial, fun ms hms now hnow => ?_⟩
    subst hms
    exact add_mem_deadlines hnow h.2
  | increment key delta => exact fun _ => trivial
  | expireIn key ms => exact fun now hnow => add_mem_deadlines hnow h
  | expireAt key d =>
    have hd : 0 + d ∈ deadlines := add_mem_deadlines ⟨by decide, by decide⟩ h
    rwa [Int.zero_add] at hd
  | edit key e => exact ⟨trivial, fun _ _ => trivial⟩
  | remove key r => exact ⟨trivial, fun _ _ => trivial⟩
  | _ => trivial

def count : Value → Nat
  | .list items => items.length
  | .sortedSet z => z.order.length
  | _ => 0

/-- A word counts the items. -/
def Countable (v : Value) : Prop := (count v : Int) ≤ maxInt64

instance (v : Value) : Decidable (Countable v) := inferInstanceAs (Decidable (_ ≤ _))

/-- What a command adds, and where the slices that it asks for begin and end, are words. -/
def Operands : Command → Prop
  | .increment _ delta => IsInt64 delta
  | .ask _ (.listRange start stop) | .ask _ (.ranked start stop _) => IsInt64 start ∧ IsInt64 stop
  | _ => True

theorem operands_of_means {name : Bytes} {words : List Bytes} {command : Command}
    (h : Command.Means name words command) : Operands command := by
  have hread := @Numeral.isInt64_of_readInt
  cases h with
  | increment key h =>
    cases h with
    | one => exact ⟨by decide, by decide⟩
    | minusOne => exact ⟨by decide, by decide⟩
    | amount hn => exact hread hn
    | minusAmount hn hmin =>
      have hword := hread hn
      simp only [Operands, IsInt64, minInt64, maxInt64] at hword hmin ⊢
      omega
  | ask key h =>
    cases h with
    | listRange ha hb => exact ⟨hread ha, hread hb⟩
    | ranked ha hb => exact ⟨hread ha, hread hb⟩
    | rankedWithScores _ ha hb => exact ⟨hread ha, hread hb⟩
    | _ => trivial
  | _ => trivial

section

variable {V : Set Value} {ks : Keyspace} {c : Clock}

/-- What a look-up finds is stored, and the clock goes on to show times of the set. -/
theorem live_spec (hks : ks.Stores deadlines V) (hc : c.Shows times) (key : Bytes) :
    (∀ e, (ks.live c key).result = some e → e.Of deadlines V) ∧ (ks.live c key).clock.Shows times := by
  have htouches := ks.touches_live (D := deadlines) (V := V) c key
  exact ⟨fun e he => htouches.stores hks key e (ks.find?_live c key ▸ he), hc.of_reading htouches.reading⟩

theorem set_eq (hks : ks.Stores deadlines V) (hc : c.Shows times) (key : Bytes) (value : Value) {ttl : Option Int}
    (httl : ∀ ms, ttl = some ms → Command.WithinLimit ms) :
    set ks c key value ttl = some (ks.set c key value ttl) := by
  obtain ⟨_, hclock⟩ := live_spec hks hc key
  cases ttl with
  | none => rfl
  | some ms => simp only [set, Keyspace.set, add_eq hclock.now (httl ms rfl), Option.map_some, Clock.read]

theorem remaining_eq (hks : ks.Stores deadlines V) (hc : c.Shows times) (key : Bytes) :
    remaining ks c key = some (ks.remaining c key) ∧ (ks.remaining c key).result ≤ 2 ^ 61 + 2 ^ 62 := by
  obtain ⟨hstored, hclock⟩ := live_spec hks hc key
  simp only [remaining, Keyspace.remaining]
  generalize ks.live c key = a at hstored hclock
  cases hresult : a.result with
  | none =>
    have hle : (-2 : Int) ≤ 2 ^ 61 + 2 ^ 62 := by decide
    exact ⟨rfl, hle⟩
  | some e =>
    cases hdeadline : e.deadline with
    | none =>
      have hle : (-1 : Int) ≤ 2 ^ 61 + 2 ^ 62 := by decide
      simp only [hdeadline]
      exact ⟨trivial, hle⟩
    | some d =>
      have hd := (hstored e hresult).deadline d hdeadline
      have hsub : sub d a.clock.now = some (d - a.clock.now) := exact_of_isInt64 (isInt64_sub hd hclock.now)
      have hnow : 0 ≤ a.clock.now := hclock.now.1
      simp only [hdeadline, hsub, Option.map_some, Clock.read]
      exact ⟨trivial, Int.le_trans (Int.sub_le_self d hnow) hd.2⟩

theorem toSeconds_eq {ms : Int} (h : ms ≤ 2 ^ 61 + 2 ^ 62) : toSeconds ms = some (Keyspace.toSeconds ms) := by
  unfold toSeconds Keyspace.toSeconds
  split
  · rfl
  · next hneg =>
    have hsum : add ms 500 = some (ms + 500) := by
      refine exact_of_isInt64 ?_
      simp only [IsInt64, minInt64, maxInt64]
      omega
    have hquotient : quotient (ms + 500) 1000 = some ((ms + 500) / 1000) := by
      rw [quotient, Int.tdiv_eq_ediv_of_nonneg (by omega)]
      refine exact_of_isInt64 ?_
      simp only [IsInt64, minInt64, maxInt64]
      omega
    simp only [hsum, hquotient, Option.bind_eq_bind, Option.bind_some]

theorem remainingSeconds_eq (hks : ks.Stores deadlines V) (hc : c.Shows times) (key : Bytes) :
    remainingSeconds ks c key = some (ks.remainingSeconds c key) := by
  obtain ⟨hremaining, hle⟩ := remaining_eq hks hc key
  simp only [remainingSeconds, hremaining, toSeconds_eq hle, Option.bind_eq_bind, Option.bind_some]
  rfl

theorem countable_of_expect {k : Kind} {v : Option Value} {x : Option k.Content} (hv : ∀ y, v = some y → Countable y)
    (h : Keyspace.expect k v = .ok x) : Countable (k.pack (x.getD k.empty)) := by
  unfold Keyspace.expect at h
  split at h
  · cases h
    cases k <;> decide
  · split at h
    · cases h
    · next has =>
      cases h
      rw [Option.getD_some, Value.pack_of_as? has]
      exact hv _ rfl

theorem answer_eq {v : Option Value} (hv : ∀ x, v = some x → Countable x) {key : Bytes} {query : Query}
    (h : Operands (.ask key query)) : answer v query = some (query.answer v) := by
  cases query with
  | listRange start stop =>
    simp only [answer, Query.answer, Query.onList]
    cases hexpect : Keyspace.expect .list v with
    | error e => rfl
    | ok items =>
      have hslice : slice start stop (items.getD []) = some (Slice.of start stop (items.getD [])) :=
        slice_eq h.1 h.2 (countable_of_expect hv hexpect)
      simp only [hslice, Option.map_some, Except.map]
  | ranked start stop withScores =>
    simp only [answer, Query.answer, Query.onSortedSet, SortedSet.range]
    cases hexpect : Keyspace.expect .sortedSet v with
    | error e => rfl
    | ok z =>
      have hslice : slice start stop (z.getD ∅).order = some (Slice.of start stop (z.getD ∅).order) :=
        slice_eq h.1 h.2 (countable_of_expect hv hexpect)
      simp only [hslice, Option.map_some, Except.map]
  | _ => rfl

/-- A command runs as without words. -/
theorem run_eq (hks : ks.Stores deadlines {v | Countable v}) (hc : c.Shows times) {command : Command}
    (hproper : command.IsProper) (hoperands : Operands command) (report : Keyspace → Bytes) (request : Request) :
    run report request ks c command = some (command.run report request ks c) := by
  cases command with
  | ask key query =>
    obtain ⟨hstored, _⟩ := live_spec hks hc key
    have hcount : ∀ x, (ks.get c key).result = some x → Countable x := by
      intro x hx
      obtain ⟨e, he, rfl⟩ := Option.map_eq_some_iff.1 hx
      exact (hstored e he).value
    simp only [run, answer_eq hcount hoperands, Option.map_some]
    rfl
  | remaining key inSeconds =>
    cases inSeconds with
    | true => simp only [run, if_true, remainingSeconds_eq hks hc key, Option.map_some]; rfl
    | false => simp only [run, Bool.false_eq_true, if_false, (remaining_eq hks hc key).1, Option.map_some]; rfl
  | set key value ttl =>
    have httl : ∀ ms, ttl = some ms → Command.WithinLimit ms := by
      rintro ms rfl
      exact hproper.2
    simp only [run, set_eq hks hc key (.string value) httl, Option.map_some]
    rfl
  | increment key delta =>
    simp only [run, increment_eq ks c key hoperands, Option.map_some]
    rfl
  | expireIn key ms =>
    simp only [run, add_eq hc.now hproper, Option.map_some]
    rfl
  | _ => rfl

end

end Word

open Word

namespace Keyspace

/-- No deadline out of bounds is ever stored, nor kept in the index. -/
theorem Arises.bounded {ks : Keyspace} (h : ks.Arises times) :
    ks.Stores deadlines Set.univ ∧ ∀ d key, (d, key) ∈ ks.index → d ∈ deadlines := by
  have hstores : ks.Stores deadlines Set.univ :=
    h.stores fun _ _ _ hread => storesIn_of_isProper (Command.spelled_of_read hread).proper
  refine ⟨hstores, fun d key hmem => ?_⟩
  obtain ⟨_, hsettled⟩ := h.exists_settled
  obtain ⟨e, he, hd⟩ := (hsettled.indexes.mem_iff d key).1 hmem
  exact (hstores key e he).deadline d hd

end Keyspace

namespace Word

/-- In every keyspace that arises while the clock shows times from 0 to 2 ^ 61, in whatever order, all deadlines are
between -2 ^ 62 and 2 ^ 61 + 2 ^ 62, and every request is read and answered on words as it is on integers, so that no
operation on the way has a result that is not a word. -/
theorem perform_eq {ks : Keyspace} (h : ks.Arises times) :
    (∀ key e d, ks.entries.find? key = some e → e.deadline = some d → -(2 ^ 62) ≤ d ∧ d ≤ 2 ^ 61 + 2 ^ 62) ∧
    (∀ d key, (d, key) ∈ ks.index → -(2 ^ 62) ≤ d ∧ d ≤ 2 ^ 61 + 2 ^ 62) ∧
    ∀ c : Clock, c.Shows times → ks.Stores Set.univ {v | Countable v} → ∀ report request,
      perform report request ks c = some ((Command.read request).map fun x => x.2.run report request ks c) := by
  obtain ⟨hstores, hindex⟩ := h.bounded
  refine ⟨fun key e d he hd => (hstores key e he).deadline d hd, hindex, fun c hc hcount report request => ?_⟩
  have hks : ks.Stores deadlines {v | Countable v} :=
    fun key e he => ⟨(hstores key e he).deadline, (hcount key e he).value⟩
  simp only [perform, read_eq, Option.bind_eq_bind, Option.bind_some]
  cases hread : Command.read request with
  | error e => rfl
  | ok x =>
    obtain ⟨signature, command⟩ := x
    have hproper := (Command.spelled_of_read hread).proper
    have hoperands := operands_of_means (Command.read_eq_ok_iff.1 ⟨signature, hread⟩)
    simp only [Except.map, run_eq hks hc hproper hoperands, Option.map_some]

/-- The farthest deadline that can be set, asked for as far back as the clock can go. -/
theorem perform_eq_of_farthest :
    let ks := ((Database.fresh "log" none).dispatch (.standing (2 ^ 61)) (.start none)
      ["SET", "k", "v", "PX", "4611686018427387903"]).database.keyspace
    ks.index = [((2 ^ 61 + 2 ^ 62 - 1 : Int), ("k" : Bytes))] ∧
      (perform (fun _ => []) ["TTL", "k"] ks (.standing 0)).map (·.map (·.result.map (·.reply))) =
        some (.ok (.ok (.integer 6917529027641082))) := by
  intro ks
  have h : ks.Arises times := Keyspace.Arises.empty.dispatch (Clock.shows_standing (by constructor <;> decide)) _ _
  have hc : (Clock.standing 0).Shows times := Clock.shows_standing (by constructor <;> decide)
  have hentries : ks.entries = (∅ : Table Entry).insert "k" ⟨.string "v", some (2 ^ 61 + 2 ^ 62 - 1)⟩ := by
    decide +kernel
  have hcount : ks.Stores Set.univ {v | Countable v} := by
    intro key e he
    rw [hentries, Table.find?_insert] at he
    split at he
    · cases he
      exact ⟨fun _ _ => trivial, by decide⟩
    · cases he
  refine ⟨by decide +kernel, ?_⟩
  rw [(perform_eq h).2.2 (.standing 0) hc hcount]
  decide +kernel

end Word
end KeyStore
