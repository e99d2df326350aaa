import KeyStore.Bytes

/-!
# Transfers

Handing a byte string to a device by calls that each take a part of it. An interrupted call is made
again with what is left; a call that fails or takes nothing ends the transfer.
-/

namespace KeyStore

/-- What one call does with the bytes it is offered. -/
inductive WriteCall where
  | took (n : Nat)
  | interrupted
  | failed
  deriving DecidableEq

inductive TransferEnd where
  | complete
  | refused
  | pending
  deriving DecidableEq

/-- The bytes handed over, and whether that is all of them, or no more will be, or it goes on. -/
structure Transfer where
  sent : Bytes
  outcome : TransferEnd
  deriving DecidableEq

namespace Transfer

/-- Hands over a byte string, given what the calls do one after another. -/
def run : Bytes → List WriteCall → Transfer
  | [], _ => ⟨[], .complete⟩
  | _ :: _, [] => ⟨[], .pending⟩
  | _ :: _, .failed :: _ => ⟨[], .refused⟩
  | b :: s, .interrupted :: calls => run (b :: s) calls
  | _ :: _, .took 0 :: _ => ⟨[], .refused⟩
  | b :: s, .took (n + 1) :: calls =>
    let rest := run (s.drop n) calls
    ⟨b :: (s.take n ++ rest.sent), rest.outcome⟩

@[simp] theorem run_nil (calls : List WriteCall) : run [] calls = ⟨[], .complete⟩ := by
  cases calls <;> rfl

/-- The calls that a device makes of `size` bytes when it has room for only so many. -/
def callsWithin (room : Option Nat) (size : Nat) : List WriteCall :=
  match room with
  | none => [.took size]
  | some n => if size ≤ n then [.took size] else if n = 0 then [.failed] else [.took n, .failed]

end Transfer
end KeyStore
