import KeyStore.Bytes

/-!
# Slices

The part of a sequence from a first to a last index, where a negative index counts from the end
and the part is cut to what the sequence has.
-/

namespace KeyStore.Slice

/-- The index that a possibly negative one stands for in a sequence of `size` items. -/
def fromStart (size : Nat) (i : Int) : Int := if i < 0 then i + size else i

/-- First and last index of the slice, unless it is empty. -/
def bounds (start stop : Int) (size : Nat) : Option (Nat × Nat) :=
  let first := max (fromStart size start) 0
  let last := min (fromStart size stop) (size - 1)
  if size = 0 ∨ last < first ∨ (size : Int) ≤ first then none else some (first.toNat, last.toNat)

def of {α : Type} (start stop : Int) (items : List α) : List α :=
  match bounds start stop items.length with
  | none => []
  | some (first, last) => (items.drop first).take (last - first + 1)

end KeyStore.Slice
