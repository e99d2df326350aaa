import KeyStore.Clock
import KeyStore.CommandError
import KeyStore.Glob
import KeyStore.Value

/-!
# The keyspace

Keys with their values and, for some, a deadline from which on the key counts as absent. An entry
past its deadline stays until something looks at its key or a sweep comes by; the keys removed then
are kept until they are asked for, so that their removal can be logged. While a log is being loaded
deadlines are stored and not enforced.

Deadlines are kept a second time, in an index by time, which the sweep reads.
-/

namespace KeyStore

structure Entry where
  value : Value
  deadline : Option Int := none
  deriving DecidableEq

/-- Whether the entry counts as absent at a time. -/
def Entry.hasElapsed (e : Entry) (now : Int) : Bool :=
  match e.deadline with
  | none => false
  | some d => d ≤ now

theorem Entry.hasElapsed_eq_true_iff {e : Entry} {now : Int} :
    e.hasElapsed now = true ↔ ∃ d, e.deadline = some d ∧ d ≤ now := by
  unfold hasElapsed
  split <;> simp_all

structure Keyspace where
  entries : Table Entry := ∅
  index : Ranking Int := []
  expired : Nat := 0
  unlogged : List Bytes := []
  loading : Bool := false
  deriving DecidableEq

structure After (α : Type) where
  result : α
  keyspace : Keyspace
  clock : Clock

namespace Keyspace

def empty : Keyspace := {}

instance : EmptyCollection Keyspace := ⟨empty⟩
instance : Inhabited Keyspace := ⟨empty⟩

def size (ks : Keyspace) : Nat := ks.entries.size

def volatileSize (ks : Keyspace) : Nat := ks.index.length

def schedule (index : Ranking Int) (key : Bytes) : Option Int → Ranking Int
  | none => index
  | some d => Ranking.insert id (d, key) index

def unschedule (index : Ranking Int) (key : Bytes) : Option Int → Ranking Int
  | none => index
  | some d => Ranking.erase id (d, key) index

/-- Takes out the entry `e` of a key. -/
def drop (ks : Keyspace) (key : Bytes) (e : Entry) : Keyspace :=
  { ks with entries := ks.entries.erase key, index := unschedule ks.index key e.deadline }

/-- Puts an entry at a key whose entry, if any, has the same deadline. -/
def keep (ks : Keyspace) (key : Bytes) (e : Entry) : Keyspace :=
  { ks with entries := ks.entries.insert key e }

/-- Gives the entry `e` of a key another deadline. -/
def reschedule (ks : Keyspace) (key : Bytes) (e : Entry) (deadline : Option Int) : Keyspace :=
  { ks with
    entries := ks.entries.insert key { e with deadline }
    index := schedule (unschedule ks.index key e.deadline) key deadline }

@[simp] theorem entries_drop (ks : Keyspace) (key : Bytes) (e : Entry) :
    (ks.drop key e).entries = ks.entries.erase key := rfl

@[simp] theorem entries_keep (ks : Keyspace) (key : Bytes) (e : Entry) :
    (ks.keep key e).entries = ks.entries.insert key e := rfl

@[simp] theorem entries_reschedule (ks : Keyspace) (key : Bytes) (e : Entry) (d : Option Int) :
    (ks.reschedule key e d).entries = ks.entries.insert key { e with deadline := d } := rfl

def evict (ks : Keyspace) (key : Bytes) (e : Entry) : Keyspace :=
  { ks.drop key e with unlogged := ks.unlogged ++ [key], expired := ks.expired + 1 }

/-- The entry of a key that is there. One past its deadline is removed. The time is looked at only if
it matters. -/
def live (ks : Keyspace) (c : Clock) (key : Bytes) : After (Option Entry) :=
  match ks.entries.find? key with
  | none => ⟨none, ks, c⟩
  | some e =>
    if ks.loading || e.deadline.isNone then ⟨some e, ks, c⟩
    else if e.hasElapsed c.now then ⟨none, ks.evict key e, c.next⟩
    else ⟨some e, ks, c.next⟩

theorem live_of_find?_eq_none {ks : Keyspace} {key : Bytes} (h : ks.entries.find? key = none)
    (c : Clock) : ks.live c key = ⟨none, ks, c⟩ := by
  simp [live, h]

theorem live_of_loading {ks : Keyspace} (h : ks.loading = true) (c : Clock) (key : Bytes) :
    ks.live c key = ⟨ks.entries.find? key, ks, c⟩ := by
  cases he : ks.entries.find? key <;> simp [live, he, h]

/-- A look-up finds what has not elapsed. -/
theorem result_live {ks : Keyspace} (h : ks.loading = false) (c : Clock) (key : Bytes) :
    (ks.live c key).result = (ks.entries.find? key).filter (!·.hasElapsed c.now) := by
  cases he : ks.entries.find? key with
  | none => simp [live, he]
  | some e =>
    cases hd : e.deadline with
    | none => simp [live, he, hd, Option.filter, Entry.hasElapsed]
    | some d => cases ht : e.hasElapsed c.now <;> simp [live, he, hd, h, ht, Option.filter]

theorem keyspace_live_of_eq_some {ks : Keyspace} {c : Clock} {key : Bytes} {e : Entry}
    (h : (ks.live c key).result = some e) : (ks.live c key).keyspace = ks := by
  grind [live]

def get (ks : Keyspace) (c : Clock) (key : Bytes) : After (Option Value) :=
  let a := ks.live c key
  ⟨a.result.map (·.value), a.keyspace, a.clock⟩

def contains (ks : Keyspace) (c : Clock) (key : Bytes) : After Bool :=
  let a := ks.live c key
  ⟨a.result.isSome, a.keyspace, a.clock⟩

def expect (k : Kind) : Option Value → Except CommandError (Option k.Content)
  | none => .ok none
  | some v =>
    match v.as? k with
    | none => .error .typeMismatch
    | some x => .ok (some x)

/-- The content of a key, which has to be of a kind if the key is there. -/
def find (ks : Keyspace) (c : Clock) (k : Kind) (key : Bytes) :
    After (Except CommandError (Option k.Content)) :=
  let a := ks.get c key
  ⟨expect k a.result, a.keyspace, a.clock⟩

/-- Stores a value, with a time to live or without a deadline. Gives the deadline. -/
def set (ks : Keyspace) (c : Clock) (key : Bytes) (value : Value) (ttl : Option Int) :
    After (Option Int) :=
  let a := ks.live c key
  let old : Option Int := a.result.bind (·.deadline)
  match ttl with
  | none => ⟨none, a.keyspace.reschedule key ⟨value, old⟩ none, a.clock⟩
  | some ttl =>
    let (now, c) := a.clock.read
    ⟨some (now + ttl), a.keyspace.reschedule key ⟨value, old⟩ (some (now + ttl)), c⟩

def delete (ks : Keyspace) (c : Clock) (key : Bytes) : After Bool :=
  let a := ks.live c key
  match a.result with
  | none => ⟨false, a.keyspace, a.clock⟩
  | some e => ⟨true, a.keyspace.drop key e, a.clock⟩

/-- Changes the content of a key of a kind, from an empty one if the key is absent. A key whose
content ends up empty is removed; one that stays keeps its deadline. -/
def modify {α : Type} (ks : Keyspace) (c : Clock) (k : Kind) (key : Bytes)
    (f : k.Content → k.Content × α) : After (Except CommandError α) :=
  let a := ks.live c key
  match a.result with
  | none =>
    let (x, r) := f k.empty
    ⟨.ok r, if k.isEmpty x then a.keyspace else a.keyspace.keep key ⟨k.pack x, none⟩, a.clock⟩
  | some e =>
    match e.value.as? k with
    | none => ⟨.error .typeMismatch, a.keyspace, a.clock⟩
    | some x =>
      let (x, r) := f x
      ⟨.ok r, if k.isEmpty x then a.keyspace.drop key e
        else a.keyspace.keep key { e with value := k.pack x }, a.clock⟩

/-- The integer that a string value denotes, an absent one being zero. -/
def integer : Option Value → Except CommandError Int
  | none => .ok 0
  | some (.string s) => match Numeral.readInt s with
    | some n => .ok n
    | none => .error .notAnInteger
  | some _ => .error .typeMismatch

/-- The sum of two 64-bit integers, if it is one. It is compared with the ends of the range before it is
formed. -/
def addInt (n delta : Int) : Except CommandError Int :=
  if 0 < delta ∧ maxInt64 - delta < n ∨ delta < 0 ∧ n < minInt64 - delta then .error .notAnInteger
  else .ok (n + delta)

/-- Adds to the integer that a string holds, and gives the sum. The key keeps its deadline. -/
def increment (ks : Keyspace) (c : Clock) (key : Bytes) (delta : Int) :
    After (Except CommandError Int) :=
  let a := ks.live c key
  match integer (a.result.map (·.value)) >>= (addInt · delta) with
  | .error e => ⟨.error e, a.keyspace, a.clock⟩
  | .ok sum =>
    let deadline := a.result.bind (·.deadline)
    ⟨.ok sum, a.keyspace.keep key ⟨.string (Numeral.ofInt sum), deadline⟩, a.clock⟩

/-- Gives a key a deadline, which removes it if that has passed. Tells whether the key was there. -/
def expireAt (ks : Keyspace) (c : Clock) (key : Bytes) (deadline : Int) : After Bool :=
  let a := ks.live c key
  match a.result with
  | none => ⟨false, a.keyspace, a.clock⟩
  | some e =>
    if a.keyspace.loading then ⟨true, a.keyspace.reschedule key e (some deadline), a.clock⟩
    else
      let (now, c) := a.clock.read
      if deadline ≤ now then ⟨true, a.keyspace.drop key e, c⟩
      else ⟨true, a.keyspace.reschedule key e (some deadline), c⟩

def persist (ks : Keyspace) (c : Clock) (key : Bytes) : After Bool :=
  let a := ks.live c key
  match a.result with
  | none => ⟨false, a.keyspace, a.clock⟩
  | some e =>
    if e.deadline.isSome then ⟨true, a.keyspace.reschedule key e none, a.clock⟩
    else ⟨false, a.keyspace, a.clock⟩

def deadline? (ks : Keyspace) (c : Clock) (key : Bytes) : After (Option Int) :=
  let a := ks.live c key
  ⟨a.result.bind (·.deadline), a.keyspace, a.clock⟩

/-- The milliseconds left to a key, -1 if it has no deadline and -2 if it is absent. The time is
looked at once to find the key and once to subtract. -/
def remaining (ks : Keyspace) (c : Clock) (key : Bytes) : After Int :=
  let a := ks.live c key
  match a.result with
  | none => ⟨-2, a.keyspace, a.clock⟩
  | some e =>
    match e.deadline with
    | none => ⟨-1, a.keyspace, a.clock⟩
    | some d =>
      let (now, c) := a.clock.read
      ⟨d - now, a.keyspace, c⟩

/-- Milliseconds as seconds, to the nearest, halves up. What is negative stands for itself. -/
def toSeconds (ms : Int) : Int := if ms < 0 then ms else (ms + 500) / 1000

def remainingSeconds (ks : Keyspace) (c : Clock) (key : Bytes) : After Int :=
  let a := ks.remaining c key
  ⟨toSeconds a.result, a.keyspace, a.clock⟩

/-- A pattern that is a single star takes every key; others match up to the first NUL byte. -/
def selects (pattern key : Bytes) : Bool :=
  pattern == [42] || Glob.isMatch pattern.untilNul key.untilNul

/-- The keys that a pattern takes, without those past their deadline, in ascending order. -/
def keysMatching (ks : Keyspace) (c : Clock) (pattern : Bytes) : After (List Bytes) :=
  let (now, c) := c.read
  let found := ks.entries.entries.filter fun (key, e) => !e.hasElapsed now && selects pattern key
  ⟨found.map (·.1), ks, c⟩

/-- Evicts the first key of the index as long as its deadline has come and fewer than `limit` were removed. The entry
takes its own deadline out of the index with it; a place that leads to no entry is only taken off. Every round takes out
an entry or a place. -/
def expireFrom (now : Int) (limit : Nat) : Nat → Nat → Keyspace → Nat × Keyspace
  | 0, removed, ks => (removed, ks)
  | rounds + 1, removed, ks =>
    match ks.index with
    | [] => (removed, ks)
    | (d, key) :: rest =>
      if limit ≤ removed ∨ now < d then (removed, ks)
      else
        match ks.entries.find? key with
        | none => expireFrom now limit rounds removed { ks with index := rest }
        | some e => expireFrom now limit rounds (removed + 1) (ks.evict key e)

/-- Removes up to `limit` keys past their deadline, and tells how many. -/
def removeExpired (ks : Keyspace) (c : Clock) (limit : Nat) : After Nat :=
  let (now, c) := c.read
  let (removed, ks) := expireFrom now limit (ks.index.length + ks.entries.size) 0 ks
  ⟨removed, ks, c⟩

/-- The keys that expired since they were last asked for, in order. -/
def takeExpired (ks : Keyspace) : List Bytes × Keyspace :=
  (ks.unlogged, { ks with unlogged := [] })

def clear (ks : Keyspace) : Keyspace := { ks with entries := ∅, index := [] }

end Keyspace
end KeyStore
