import KeyStore.Numeral

/-!
# Scores

A score is a binary64 number, given by its bits. Scores are compared as numbers: without the sign
bit the bits grow with the absolute value, so a signed reading of them is an order, in which both
zeros are one point.
-/

namespace KeyStore

structure Score where
  bits : UInt64
  deriving DecidableEq

namespace Score

def infiniteMagnitude : Nat := 0x7ff0000000000000

def signBit : Nat := 0x8000000000000000

/-- The bit in front of the fraction of a normal number, which is not stored. -/
def hiddenBit : Nat := 0x10000000000000

def isNegative (x : Score) : Bool := signBit ≤ x.bits.toNat

def magnitude (x : Score) : Nat := x.bits.toNat % signBit

def isNaN (x : Score) : Bool := infiniteMagnitude < x.magnitude

def isInfinite (x : Score) : Bool := x.magnitude = infiniteMagnitude

def ofMagnitude (negative : Bool) (m : Nat) : Score :=
  ⟨(if negative then signBit + m else m).toUInt64⟩

def infinity (negative : Bool) : Score := ofMagnitude negative infiniteMagnitude

def position (x : Score) : Int := if x.isNegative then -(x.magnitude : Int) else x.magnitude

/-- The integer `s` of a finite score `s * 2 ^ exponent`, up to sign. -/
def significand (m : Nat) : Nat :=
  if m < hiddenBit then m else m % hiddenBit + hiddenBit

/-- The power of two that a magnitude's significand counts in. -/
def exponent (m : Nat) : Int := (max (m / hiddenBit) 1 : Nat) - 1075

end Score
end KeyStore
