import KeyStore.Keyspace
import KeyStore.Reply
import KeyStore.Score.Text

/-!
# Queries

What can be asked about the value of one key. An absent key answers as an empty container does, or
with nil where one thing is asked for; a value of another kind is refused.
-/

namespace KeyStore

inductive Query where
  | get
  | kind
  | listLength
  | listRange (start stop : Int)
  | field (name : Bytes)
  | fields
  | fieldNames
  | fieldValues
  | fieldCount
  | hasField (name : Bytes)
  | members
  | hasMember (member : Bytes)
  | memberCount
  | score (member : Bytes)
  | ranked (start stop : Int) (withScores : Bool)
  | rankedCount
  | rank (member : Bytes)
  deriving DecidableEq

namespace Query

def bulkOrNil : Option Bytes → Reply
  | none => .nil
  | some s => .bulk s

def integerOrNil : Option Nat → Reply
  | none => .nil
  | some n => .integer n

def rankedItems (withScores : Bool) (members : Ranking Score) : List Bytes :=
  members.flatMap fun (x, name) => if withScores then [name, x.text] else [name]

def onString (v : Option Value) (f : Option Bytes → Reply) : Except CommandError Reply :=
  (Keyspace.expect .string v).map f

/-- An absent list counts as an empty one, and so on below. -/
def onList (v : Option Value) (f : List Bytes → Reply) : Except CommandError Reply :=
  (Keyspace.expect .list v).map fun items => f (items.getD [])

def onHash (v : Option Value) (f : Table Bytes → Reply) : Except CommandError Reply :=
  (Keyspace.expect .hash v).map fun fields => f (fields.getD ∅)

def onSet (v : Option Value) (f : Table Unit → Reply) : Except CommandError Reply :=
  (Keyspace.expect .set v).map fun members => f (members.getD ∅)

def onSortedSet (v : Option Value) (f : SortedSet → Reply) : Except CommandError Reply :=
  (Keyspace.expect .sortedSet v).map fun members => f (members.getD ∅)

def kindName : Option Value → Bytes
  | none => "none"
  | some v => v.kind.name

def answer (v : Option Value) : Query → Except CommandError Reply
  | get => onString v bulkOrNil
  | kind => .ok (.status (kindName v))
  | listLength => onList v fun items => .integer items.length
  | listRange start stop => onList v fun items => .array (Slice.of start stop items)
  | field name => onHash v fun fields => bulkOrNil (fields.find? name)
  | fields => onHash v fun fields => .array (fields.entries.flatMap fun (name, x) => [name, x])
  | fieldNames => onHash v fun fields => .array fields.keys
  | fieldValues => onHash v fun fields => .array fields.values
  | fieldCount => onHash v fun fields => .integer fields.size
  | hasField name => onHash v fun fields => .ofBool (fields.contains name)
  | members => onSet v fun members => .array members.keys
  | hasMember member => onSet v fun members => .ofBool (members.contains member)
  | memberCount => onSet v fun members => .integer members.size
  | score member => onSortedSet v fun z => bulkOrNil ((z.score? member).map Score.text)
  | ranked start stop withScores => onSortedSet v fun z =>
    .array (rankedItems withScores (z.range start stop))
  | rankedCount => onSortedSet v fun z => .integer z.size
  | rank member => onSortedSet v fun z => integerOrNil (z.rank? member)

/-- The kind of value that the query is about; asking for the kind itself suits all. -/
def subject : Query → Option Kind
  | get => some .string
  | kind => none
  | listLength | listRange .. => some .list
  | field _ | fields | fieldNames | fieldValues | fieldCount | hasField _ => some .hash
  | members | hasMember _ | memberCount => some .set
  | score _ | ranked .. | rankedCount | rank _ => some .sortedSet

end Query
end KeyStore
