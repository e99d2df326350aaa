import KeyStore.Numeral

/-!
# Addresses

Internet addresses: four decimal numbers from 0 to 255 between dots, none with a leading zero.
-/

namespace KeyStore

structure Ipv4 where
  first : UInt8
  second : UInt8
  third : UInt8
  fourth : UInt8
  deriving DecidableEq

namespace Ipv4

def octet? : Bytes → Option UInt8
  | [48] => some 0
  | 48 :: _ => none
  | s => (Numeral.readNat 255 s).map Nat.toUInt8

def octetsFrom : List UInt8 → Bytes → Bytes → Option (List UInt8)
  | done, digits, [] => (octet? digits.reverse).map fun n => (n :: done).reverse
  | done, digits, 46 :: s => (octet? digits.reverse).bind fun n => octetsFrom (n :: done) [] s
  | done, digits, b :: s => octetsFrom done (b :: digits) s

/-- Reads an address. What stands behind a NUL byte does not count. -/
def read (s : Bytes) : Option Ipv4 :=
  match octetsFrom [] [] s.untilNul with
  | some [a, b, c, d] => some ⟨a, b, c, d⟩
  | _ => none

def text (a : Ipv4) : Bytes :=
  Numeral.ofNat a.first.toNat ++ "." ++ Numeral.ofNat a.second.toNat ++ "." ++
    Numeral.ofNat a.third.toNat ++ "." ++ Numeral.ofNat a.fourth.toNat

end Ipv4
end KeyStore
