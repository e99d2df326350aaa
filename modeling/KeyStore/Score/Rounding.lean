import KeyStore.Score

/-!
# The score nearest to a fraction

Rounds a positive fraction to a binary64 number, halves to the even neighbour, in exact arithmetic.
A fraction is out of range when it rounds to no finite number, or when it is smaller than every
normal number even after rounding to 53 binary digits and digits of it are lost.
-/

namespace KeyStore.Score

/-- The integer nearest to `num / den`, halves to even. -/
def roundHalfEven (num den : Nat) : Nat :=
  let q := num / den
  let r := num % den
  if 2 * r < den then q else if den < 2 * r then q + 1 else q + q % 2

def inUnits (k : Int) (num den : Nat) : Nat × Nat :=
  (num <<< (-k).toNat, den <<< k.toNat)

def floorLog2 (num den : Nat) : Int :=
  let k : Int := (num.log2 : Int) - den.log2
  let (a, b) := inUnits k num den
  if b ≤ a then k else k - 1

def spacing (num den : Nat) : Int := max (floorLog2 num den - 52) (-1074)

/-- The magnitude nearest to `num / den`; infinite or beyond when no finite one is. -/
def nearestMagnitude (num den : Nat) : Nat :=
  let q := spacing num den
  let (a, b) := inUnits q num den
  (q + 1074).toNat * hiddenBit + roundHalfEven a b

/-- The first 53 binary digits make a score, and none is set behind the 54th, nor behind a number of
places after the point. The 54th digit itself is free. -/
def isKept (places num den : Nat) : Bool :=
  let k := floorLog2 num den
  let (a, b) := inUnits (k - 53) num den
  a % b = 0 && a / b / 2 % (1 <<< (-1022 - k).toNat) = 0 && (num <<< places) % den = 0

/-- Below the least normal number by more than half a unit of its 53rd binary digit. -/
def isTiny (num den : Nat) : Bool := num <<< 1076 < (4 * hiddenBit - 1) * den

/-- The score nearest to the fraction, if it is in range. Of a tiny fraction no digit may be set
behind a number of places after the point. -/
def ofFraction? (places : Nat) (negative : Bool) (num den : Nat) : Option Score :=
  if num = 0 then some (ofMagnitude negative 0)
  else if isTiny num den && !isKept places num den then none
  else
    let m := nearestMagnitude num den
    if m < infiniteMagnitude then some (ofMagnitude negative m) else none

end KeyStore.Score
