import KeyStore.Score.Shortest

/-!
# The text of a score

The shortest digits that read back, in the shorter of two layouts, of equally long ones the
positional. An integer in positional layout is written with all of its own digits.
-/

namespace KeyStore.Score

/-- The greatest power of ten that is written out, and the least. One digit needs no point in the
scientific layout, which makes it a byte shorter. -/
def positionalRange (digits : Nat) : Int × Int :=
  if digits = 1 then (-3, 4) else (-(digits + 3), 5)

def positional (m : Nat) (digits : Bytes) (k : Int) : Bytes :=
  if 0 ≤ k then
    Numeral.ofNat (significand m <<< (exponent m).toNat >>> (-exponent m).toNat)
  else
    let places := (-k).toNat
    if places < digits.length then
      digits.take (digits.length - places) ++ 46 :: digits.drop (digits.length - places)
    else 48 :: 46 :: (List.replicate (places - digits.length) 48 ++ digits)

/-- An exponent of at least two digits, with its sign. -/
def exponentText (e : Int) : Bytes :=
  let digits := Numeral.ofNat e.natAbs
  (if e < 0 then 45 else 43) :: (if digits.length < 2 then 48 :: digits else digits)

def scientific (digits : Bytes) (k : Int) : Bytes :=
  let mantissa := match digits with
    | d :: e :: rest => d :: 46 :: e :: rest
    | short => short
  mantissa ++ 101 :: exponentText (k + digits.length - 1)

def finiteText (m : Nat) : Bytes :=
  if m = 0 then [48]
  else
    let (c, k) := shortest m
    let digits := Numeral.ofNat c
    let (low, high) := positionalRange digits.length
    if low ≤ k ∧ k ≤ high then positional m digits k else scientific digits k

def text (x : Score) : Bytes :=
  (if x.isNegative then [45] else []) ++
    if x.isInfinite then Bytes.ofString "inf" else finiteText x.magnitude

end KeyStore.Score
