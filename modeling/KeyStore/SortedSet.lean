import KeyStore.Ranking
import KeyStore.Score
import KeyStore.Slice
import KeyStore.Table

/-!
# Sorted sets

Members with scores, kept twice: as a table from members to scores, and as a ranking by score.
-/

namespace KeyStore

structure SortedSet where
  scores : Table Score := ∅
  order : Ranking Score := []
  deriving DecidableEq

namespace SortedSet

def empty : SortedSet := {}

instance : EmptyCollection SortedSet := ⟨empty⟩
instance : Inhabited SortedSet := ⟨empty⟩

def size (z : SortedSet) : Nat := z.scores.size

def isEmpty (z : SortedSet) : Bool := z.scores.isEmpty

def score? (z : SortedSet) (member : Bytes) : Option Score := z.scores.find? member

/-- Gives a member a score, and tells whether the member is new. A score equal to the one it has, as
a number, leaves that in place. -/
def add (z : SortedSet) (member : Bytes) (score : Score) : SortedSet × Bool :=
  match z.score? member with
  | none =>
    ({ scores := z.scores.insert member score
       order := Ranking.insert Score.position (score, member) z.order }, true)
  | some old =>
    if old.position = score.position then (z, false)
    else
      ({ scores := z.scores.insert member score
         order := Ranking.insert Score.position (score, member)
           (Ranking.erase Score.position (old, member) z.order) }, false)

def remove (z : SortedSet) (member : Bytes) : SortedSet × Bool :=
  match z.score? member with
  | none => (z, false)
  | some old =>
    ({ scores := z.scores.erase member
       order := Ranking.erase Score.position (old, member) z.order }, true)

def rank? (z : SortedSet) (member : Bytes) : Option Nat :=
  (z.score? member).map fun score => Ranking.countBelow Score.position (score, member) z.order

/-- The members from one place to another of the ranking, with their scores. -/
def range (z : SortedSet) (start stop : Int) : Ranking Score := Slice.of start stop z.order

end SortedSet
end KeyStore
