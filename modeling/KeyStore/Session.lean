import KeyStore.CommandError
import KeyStore.Reply

/-!
# Sessions

Whether a connection may give commands. With a password configured it has to be given first, and
the third wrong attempt in a row locks the session for good.
-/

namespace KeyStore

inductive Access where
  | unauthenticated
  | authenticated
  | locked
  deriving DecidableEq

structure Session where
  secret : Option Bytes
  access : Access
  failures : Nat := 0
  deriving DecidableEq

namespace Session

def attemptLimit : Nat := 3

def start (secret : Option Bytes) : Session where
  secret := secret
  access := if secret.isSome then .unauthenticated else .authenticated

def isAuthenticated (s : Session) : Bool := s.access = .authenticated

def isLocked (s : Session) : Bool := s.access = .locked

/-- Folds the differing bits of two byte strings into one byte, over all of their bytes. -/
def difference : UInt8 → Bytes → Bytes → UInt8
  | d, a :: s, b :: t => difference (d ||| (a ^^^ b)) s t
  | d, _, _ => d

/-- Equality that looks at every byte, so that its time tells nothing of a common beginning. -/
def sameSecret (s t : Bytes) : Bool := s.length = t.length && difference 0 s t = 0

def refusal (failures : Nat) : Reply :=
  .error (CommandError.message (if failures < attemptLimit
    then .invalidPassword failures attemptLimit
    else .tooManyAttempts failures attemptLimit))

def authenticate (s : Session) (attempt : Bytes) : Reply × Session :=
  match s.secret with
  | none => (.error CommandError.passwordNotConfigured.message, s)
  | some secret =>
    if s.access = .locked then (.error (CommandError.tooManyAttempts s.failures attemptLimit).message, s)
    else if sameSecret attempt secret then (.ok, { s with access := .authenticated, failures := 0 })
    else
      let failures := s.failures + 1
      (refusal failures,
        { s with failures, access := if failures < attemptLimit then s.access else .locked })

@[simp] theorem authenticate_secret (s : Session) (attempt : Bytes) :
    (s.authenticate attempt).2.secret = s.secret := by
  unfold authenticate
  split <;> (try split) <;> (try split) <;> rfl

end Session
end KeyStore
