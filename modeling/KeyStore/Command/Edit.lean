import KeyStore.Keyspace
import KeyStore.Reply

/-!
# Edits and removals

Changes to the content of one container. An edit starts from an empty container if the key is
absent. A removal looks first whether the key is there, and changes nothing if it is not.

Each change gives the new content, the reply, and whether the log has to know of it.
-/

namespace KeyStore

inductive Side where
  | left
  | right
  deriving DecidableEq

structure Change (α : Type) where
  content : α
  reply : Reply
  logged : Bool

inductive Edit where
  | push (side : Side) (items : List Bytes)
  | setFields (fields : List (Bytes × Bytes))
  | addMembers (members : List Bytes)
  | rankMembers (members : List (Score × Bytes))
  deriving DecidableEq

namespace Edit

def pushed (items : List Bytes) : Side → List Bytes → List Bytes
  | .left, list => items.reverse ++ list
  | .right, list => list ++ items

/-- Sets fields one after another, counting those that are new, and noting any difference. -/
def setAll : List (Bytes × Bytes) → Table Bytes → Nat → Bool → Table Bytes × Nat × Bool
  | [], table, fresh, changed => (table, fresh, changed)
  | (name, x) :: rest, table, fresh, changed =>
    match table.find? name with
    | none => setAll rest (table.insert name x) (fresh + 1) true
    | some y =>
      if y = x then setAll rest table fresh changed
      else setAll rest (table.insert name x) fresh true

def addAll : List Bytes → Table Unit → Nat → Table Unit × Nat
  | [], set, fresh => (set, fresh)
  | m :: rest, set, fresh =>
    if set.contains m then addAll rest set fresh else addAll rest (set.insert m ()) (fresh + 1)

/-- Gives members their scores one after another, counting those that are new, and noting any
difference of number. -/
def rankAll : List (Score × Bytes) → SortedSet → Nat → Bool → SortedSet × Nat × Bool
  | [], z, fresh, changed => (z, fresh, changed)
  | (score, m) :: rest, z, fresh, changed =>
    let differs := match z.score? m with
      | none => true
      | some old => old.position != score.position
    let (z, isNew) := z.add m score
    rankAll rest z (if isNew then fresh + 1 else fresh) (changed || differs)

def kind : Edit → Kind
  | push .. => .list
  | setFields _ => .hash
  | addMembers _ => .set
  | rankMembers _ => .sortedSet

def apply : (e : Edit) → e.kind.Content → Change e.kind.Content
  | push side items, (list : List Bytes) =>
    let list := pushed items side list
    ⟨list, .integer list.length, true⟩
  | setFields fields, (table : Table Bytes) =>
    let (table, fresh, changed) := setAll fields table 0 false
    ⟨table, .integer fresh, changed⟩
  | addMembers members, (set : Table Unit) =>
    let (set, fresh) := addAll members set 0
    ⟨set, .integer fresh, 0 < fresh⟩
  | rankMembers members, (z : SortedSet) =>
    let (z, fresh, changed) := rankAll members z 0 false
    ⟨z, .integer fresh, changed⟩

end Edit

inductive Removal where
  | pop (side : Side)
  | fields (names : List Bytes)
  | members (members : List Bytes)
  | ranked (members : List Bytes)
  deriving DecidableEq

namespace Removal

def kind : Removal → Kind
  | pop _ => .list
  | fields _ => .hash
  | members _ => .set
  | ranked _ => .sortedSet

def absent : Removal → Reply
  | pop _ => .nil
  | _ => .integer 0

/-- The item at an end of a list; an empty list gives the empty string. -/
def popped : Side → List Bytes → Bytes × List Bytes
  | .left, list => (list.headD [], list.tail)
  | .right, list => (list.getLastD [], list.dropLast)

def eraseAll {α : Type} : List Bytes → Table α → Nat → Table α × Nat
  | [], table, gone => (table, gone)
  | name :: rest, table, gone =>
    if table.contains name then eraseAll rest (table.erase name) (gone + 1)
    else eraseAll rest table gone

def unrankAll : List Bytes → SortedSet → Nat → SortedSet × Nat
  | [], z, gone => (z, gone)
  | m :: rest, z, gone =>
    let (z, wasThere) := z.remove m
    unrankAll rest z (if wasThere then gone + 1 else gone)

def apply : (r : Removal) → r.kind.Content → Change r.kind.Content
  | pop side, (list : List Bytes) =>
    let (item, list) := popped side list
    ⟨list, .bulk item, true⟩
  | fields names, (table : Table Bytes) =>
    let (table, gone) := eraseAll names table 0
    ⟨table, .integer gone, 0 < gone⟩
  | members names, (set : Table Unit) =>
    let (set, gone) := eraseAll names set 0
    ⟨set, .integer gone, 0 < gone⟩
  | ranked names, (z : SortedSet) =>
    let (z, gone) := unrankAll names z 0
    ⟨z, .integer gone, 0 < gone⟩

end Removal
end KeyStore
