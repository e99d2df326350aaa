import KeyStore.Bytes

/-!
# Decimal numerals

The integers of commands, frames and settings are signed 64-bit numbers in decimal: an optional
minus sign and digits, nothing else. Leading zeros and a negative zero can be read; what is written
has neither.
-/

namespace KeyStore

def minInt64 : Int := -9223372036854775808

def maxInt64 : Int := 9223372036854775807

namespace Numeral

/-- Reads on from the value `n` of the digits before, while the value stays within `limit`. -/
def digitsFrom (limit : Nat) : Nat → Bytes → Option Nat
  | n, [] => some n
  | n, b :: s =>
    if Bytes.isDigit b then
      let m := 10 * n + (b.toNat - 48)
      if m ≤ limit then digitsFrom limit m s else none
    else none

/-- The value of a non-empty string of digits, if it is within `limit`. -/
def readNat (limit : Nat) (s : Bytes) : Option Nat :=
  if s.isEmpty then none else digitsFrom limit 0 s

/-- The signed 64-bit integer that the whole of `s` denotes. -/
def readInt : Bytes → Option Int
  | 45 :: s => (readNat 9223372036854775808 s).map fun n => -(n : Int)
  | s => (readNat 9223372036854775807 s).map fun n => (n : Int)

def readLength (s : Bytes) : Option Nat :=
  match readInt s with
  | some n => if 0 ≤ n then some n.toNat else none
  | none => none

/-- Puts the last `fuel` digits of `n` in front of `tail`, stopping at the leading one. -/
def digitsOnto : Nat → Nat → Bytes → Bytes
  | 0, _, tail => tail
  | fuel + 1, n, tail =>
    let tail := (48 + n % 10).toUInt8 :: tail
    if n / 10 = 0 then tail else digitsOnto fuel (n / 10) tail

def ofNat (n : Nat) : Bytes := digitsOnto (n + 1) n []

def ofInt : Int → Bytes
  | .ofNat n => ofNat n
  | .negSucc n => 45 :: ofNat (n + 1)

end Numeral
end KeyStore
