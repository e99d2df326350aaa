import KeyStore.SortedSet

/-!
# Values

What a key can hold: a string or one of four containers. `Value.as?` and `Kind.pack` go between a
value and its content as a thing of one kind.
-/

namespace KeyStore

inductive Value where
  | string (s : Bytes)
  | list (items : List Bytes)
  | hash (fields : Table Bytes)
  | set (members : Table Unit)
  | sortedSet (members : SortedSet)
  deriving DecidableEq

inductive Kind where
  | string
  | list
  | hash
  | set
  | sortedSet
  deriving DecidableEq

namespace Kind

def name : Kind → Bytes
  | string => "string"
  | list => "list"
  | hash => "hash"
  | set => "set"
  | sortedSet => "zset"

abbrev Content : Kind → Type
  | string => Bytes
  | list => List Bytes
  | hash => Table Bytes
  | set => Table Unit
  | sortedSet => SortedSet

def empty : (k : Kind) → k.Content
  | string => ([] : Bytes)
  | list => ([] : List Bytes)
  | hash => (∅ : Table Bytes)
  | set => (∅ : Table Unit)
  | sortedSet => (∅ : SortedSet)

def isEmpty : (k : Kind) → k.Content → Bool
  | string, s => List.isEmpty s
  | list, items => List.isEmpty items
  | hash, fields => Table.isEmpty fields
  | set, members => Table.isEmpty members
  | sortedSet, members => SortedSet.isEmpty members

def pack : (k : Kind) → k.Content → Value
  | string, s => .string s
  | list, items => .list items
  | hash, fields => .hash fields
  | set, members => .set members
  | sortedSet, members => .sortedSet members

end Kind

namespace Value

def kind : Value → Kind
  | string _ => .string
  | list _ => .list
  | hash _ => .hash
  | set _ => .set
  | sortedSet _ => .sortedSet

/-- The content of a value that is of the kind. -/
def as? : (k : Kind) → Value → Option k.Content
  | .string, .string s => some s
  | .list, .list items => some items
  | .hash, .hash fields => some fields
  | .set, .set members => some members
  | .sortedSet, .sortedSet members => some members
  | _, _ => none

@[simp] theorem kind_pack (k : Kind) (x : k.Content) : (k.pack x).kind = k := by
  cases k <;> rfl

theorem as?_eq_none_iff {k : Kind} {v : Value} : v.as? k = none ↔ v.kind ≠ k := by
  cases k <;> cases v <;> simp [as?, kind]

theorem pack_of_as? {k : Kind} {v : Value} {x : k.Content} (h : v.as? k = some x) :
    k.pack x = v := by
  cases k <;> cases v <;> simp_all [as?, Kind.pack]

end Value
end KeyStore
