import KeyStore.Score.Rounding

/-!
# Reading scores

A score is written as a sign, then decimal digits with an optional point and an optional power of
ten, or `0x`, hexadecimal digits with an optional point and an optional power of two, or `inf` or
`infinity`. Letters may be of either case. The whole text has to be used.
-/

namespace KeyStore.Score

def isHexDigit (b : UInt8) : Bool :=
  Bytes.isDigit b || (97 ≤ Bytes.toLower b && Bytes.toLower b ≤ 102)

def hexValue (b : UInt8) : Nat :=
  if Bytes.isDigit b then b.toNat - 48 else (Bytes.toLower b).toNat - 87

/-- The digits before the point, those after it, and what follows. -/
def splitMantissa (isDigit : UInt8 → Bool) (s : Bytes) : Bytes × Bytes × Bytes :=
  match s.dropWhile isDigit with
  | 46 :: rest => (s.takeWhile isDigit, rest.takeWhile isDigit, rest.dropWhile isDigit)
  | rest => (s.takeWhile isDigit, [], rest)

def digitsValue (base : Nat) (value : UInt8 → Nat) (digits : Bytes) : Nat :=
  digits.foldl (fun n b => base * n + value b) 0

/-- Exponents beyond this bound are as good as infinite. -/
def exponentBound : Nat := 1000000000

def exponentDigits (s : Bytes) : Option Nat :=
  if s.isEmpty || !s.all Bytes.isDigit then none
  else some (s.foldl (fun n b => min (10 * n + (b.toNat - 48)) exponentBound) 0)

/-- The exponent behind a mantissa: nothing, or the mark, an optional sign and digits. -/
def exponentPart (mark : UInt8) : Bytes → Option Int
  | [] => some 0
  | b :: s =>
    if Bytes.toLower b = mark then
      match s with
      | 43 :: s => (exponentDigits s).map fun n => (n : Int)
      | 45 :: s => (exponentDigits s).map fun n => -(n : Int)
      | s => (exponentDigits s).map fun n => (n : Int)
    else none

/-- The digits of a number from the first that is not zero, and how many are left out at the end. Behind
1500 digits it only counts whether another is not zero, since all that scores are told apart by has
fewer. -/
def significant (digits : Bytes) : Bytes × Nat :=
  let digits := digits.dropWhile (· == 48)
  if digits.length ≤ 1500 then (digits, 0)
  else
    let last := if (digits.drop 1500).all (· == 48) then 48 else 49
    (digits.take 1500 ++ [last], digits.length - 1501)

def power (base : Nat) (n : Nat) (e : Int) : Nat × Nat := (n * base.pow e.toNat, base.pow (-e).toNat)

/-- A decimal number. Beyond 310 places before the point it is too great, and with 330 zeros behind
the point too small, whatever its digits. A tiny one is read to 1076 places behind the point. -/
def ofDecimal (negative : Bool) (s : Bytes) : Option Score :=
  let (whole, part, rest) := splitMantissa Bytes.isDigit s
  if whole.isEmpty && part.isEmpty then none
  else
    match exponentPart 101 rest with
    | none => none
    | some e =>
      let (digits, omitted) := significant (whole ++ part)
      let e := e - part.length + omitted
      let places := digits.length + e
      if digits.isEmpty then some (ofMagnitude negative 0)
      else if 310 < places || places < -330 then none
      else
        let (num, den) := power 10 (digitsValue 10 (fun b => b.toNat - 48) digits) e
        ofFraction? 1076 negative num den

/-- A hexadecimal number, given from behind its `0x`. A tiny one is read to the 54th binary digit of
the least score, which stands 1127 places behind the point. -/
def ofHexadecimal (negative : Bool) (s : Bytes) : Option Score :=
  let (whole, part, rest) := splitMantissa isHexDigit s
  if whole.isEmpty && part.isEmpty then none
  else
    match exponentPart 112 rest with
    | none => none
    | some e =>
      let (digits, omitted) := significant (whole ++ part)
      let n := digitsValue 16 hexValue digits
      let e := e - 4 * part.length + 4 * omitted
      let places := n.log2 + e
      if n = 0 then some (ofMagnitude negative 0)
      else if 1100 < places || places < -1200 then none
      else
        let (num, den) := power 2 n e
        ofFraction? 1127 negative num den

def ofUnsigned (negative : Bool) (s : Bytes) : Option Score :=
  let name := s.lower
  if name = "inf" ∨ name = "infinity" then some (infinity negative)
  else
    match s with
    | 48 :: x :: rest =>
      if Bytes.toLower x = 120 then ofHexadecimal negative rest else ofDecimal negative s
    | _ => ofDecimal negative s

/-- The score that a text denotes, if it is in range. -/
def read : Bytes → Option Score
  | 43 :: s => ofUnsigned false s
  | 45 :: s => ofUnsigned true s
  | s => ofUnsigned false s

end KeyStore.Score
