import KeyStore.Bytes

/-!
# Rankings

Names with weights, in strictly ascending order of the weights' positions and, at one position, of
the names. Scores of members and deadlines of keys are kept so.
-/

namespace KeyStore

abbrev Ranking (α : Type) := List (α × Bytes)

namespace Ranking

variable {α : Type} (position : α → Int)

def compare (x y : α × Bytes) : Ordering :=
  if position x.1 < position y.1 then .lt
  else if position y.1 < position x.1 then .gt
  else Bytes.compare x.2 y.2

/-- Adds a name at its place; a name that is there already at that position stays as it is. -/
def insert (x : α × Bytes) : Ranking α → Ranking α
  | [] => [x]
  | y :: rest => match compare position x y with
    | .lt => x :: y :: rest
    | .eq => y :: rest
    | .gt => y :: insert x rest

def erase (x : α × Bytes) : Ranking α → Ranking α
  | [] => []
  | y :: rest => match compare position x y with
    | .lt => y :: rest
    | .eq => rest
    | .gt => y :: erase x rest

def countBelow (x : α × Bytes) : Ranking α → Nat
  | [] => 0
  | y :: rest => match compare position x y with
    | .gt => countBelow x rest + 1
    | _ => 0

@[simp] theorem compare_self (x : α × Bytes) : compare position x x = .eq := by
  simp [compare]

end Ranking
end KeyStore
