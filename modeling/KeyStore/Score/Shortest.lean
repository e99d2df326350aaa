import KeyStore.Score

/-!
# The shortest decimal that reads back

Around a magnitude lies the interval of the numbers that round to it, its ends included exactly
when its significand is even. The decimal chosen lies on the coarsest grid of a power of ten that
has a point in the interval, and is the point there nearest to the magnitude, of two equally near
ones the even one.
-/

namespace KeyStore.Score

/-- An interval and a number in it, all three counted in units of a quarter of the spacing above. -/
structure Neighbourhood where
  low : Nat
  middle : Nat
  high : Nat
  closed : Bool
  exponent : Int

/-- The numbers that round to a magnitude. Below a power of two the spacing is halved. -/
def neighbourhood (m : Nat) : Neighbourhood :=
  let s := significand m
  { low := if s = hiddenBit ∧ 2 * hiddenBit ≤ m then 4 * s - 1 else 4 * s - 2
    middle := 4 * s
    high := 4 * s + 2
    closed := s % 2 = 0
    exponent := exponent m - 2 }

namespace Neighbourhood

/-- Factors `(a, b)` that compare `c` on the grid `10 ^ k` with a count `x` as `c * a` with
`x * b`. -/
def factors (n : Neighbourhood) (k : Int) : Nat × Nat :=
  (Nat.pow 10 k.toNat <<< (-n.exponent).toNat, Nat.pow 10 (-k).toNat <<< n.exponent.toNat)

def holds (n : Neighbourhood) (a b c : Nat) : Bool :=
  if n.closed then n.low * b ≤ c * a && c * a ≤ n.high * b
  else n.low * b < c * a && c * a < n.high * b

def gridPoint? (n : Neighbourhood) (k : Int) : Option Nat :=
  let (a, b) := n.factors k
  let target := n.middle * b
  let below := target / a
  let above := below + 1
  match n.holds a b below, n.holds a b above with
  | false, false => none
  | true, false => some below
  | false, true => some above
  | true, true =>
    let left := target - below * a
    let right := above * a - target
    if left < right then some below
    else if right < left then some above
    else some (if below % 2 = 0 then below else above)

/-- Tries the grids from `10 ^ k` down to finer ones. -/
def coarsestFrom (n : Neighbourhood) : Nat → Int → Nat × Int
  | 0, k => (0, k)
  | fuel + 1, k =>
    match n.gridPoint? k with
    | some c => (c, k)
    | none => coarsestFrom n fuel (k - 1)

def topGrid (n : Neighbourhood) : Int := ((n.middle.log2 + 1 : Nat) + n.exponent) * 30103 / 100000 + 1

end Neighbourhood

/-- Digits `c` and exponent `k` of the shortest decimal `c * 10 ^ k` that reads back as `m`. -/
def shortest (m : Nat) : Nat × Int :=
  let n := neighbourhood m
  n.coarsestFrom 700 n.topGrid

end KeyStore.Score
