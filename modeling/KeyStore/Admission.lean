import KeyStore.ServerInfo

/-!
# Admission

How connections are let in and leave. The loop that accepts them counts each, raises the number of
clients, and compares what that number was with the limit: it lowers the number again and counts a
rejection, or lets the connection be served. Every served connection closes its socket, lowers the
number and finishes on its own. The loop stops between two connections, and the server returns when
as many connections have finished as were served.
-/

namespace KeyStore

namespace ServerInfo

def countConnection (s : ServerInfo) : ServerInfo := { s with connections := s.connections + 1 }

def raiseClients (s : ServerInfo) : ServerInfo := { s with connected := s.connected + 1 }

def lowerClients (s : ServerInfo) : ServerInfo := { s with connected := s.connected - 1 }

def countRejection (s : ServerInfo) : ServerInfo := { s with rejected := s.rejected + 1 }

end ServerInfo

/-- Where the accepting loop stands with a connection. -/
inductive Door where
  | free
  | counted
  | raised (before : Int)
  | refusing
  deriving DecidableEq

/-- How far a served connection has come. -/
inductive Stage where
  | serving
  | closed
  | lowered
  | finished
  deriving DecidableEq

structure Admission where
  limit : Nat
  info : ServerInfo
  door : Door := .free
  clients : List Stage := []
  /-- How many are served and have not finished. -/
  active : Nat := 0
  accepting : Bool := true
  returned : Bool := false
  deriving DecidableEq

namespace Admission

/-- The steps that can fall between each other; `advance i` is the next one of the connection `i`. -/
inductive Step where
  | count
  | raise
  | decide
  | refuse
  | advance (i : Nat)
  | stop
  | leave
  deriving DecidableEq

/-- The next stage of a connection, and what it does to the counters. -/
def advanceStage (a : Admission) : Stage → Option (Stage × Admission)
  | .serving => some (.closed, a)
  | .closed => some (.lowered, { a with info := a.info.lowerClients })
  | .lowered => some (.finished, { a with active := a.active - 1 })
  | .finished => none

/-- One step, if it can be taken. -/
def step? (a : Admission) : Step → Option Admission
  | .count =>
    if a.door = .free ∧ a.accepting then
      some { a with info := a.info.countConnection, door := .counted }
    else none
  | .raise =>
    if a.door = .counted then
      some { a with info := a.info.raiseClients, door := .raised a.info.connected }
    else none
  | .decide =>
    match a.door with
    | .raised before =>
      if (a.limit : Int) ≤ before then some { a with info := a.info.lowerClients, door := .refusing }
      else some { a with clients := a.clients ++ [.serving], active := a.active + 1, door := .free }
    | _ => none
  | .refuse =>
    if a.door = .refusing then some { a with info := a.info.countRejection, door := .free } else none
  | .advance i =>
    match a.clients[i]?.bind a.advanceStage with
    | some (stage, a) => some { a with clients := a.clients.set i stage }
    | none => none
  | .stop => if a.door = .free ∧ a.accepting then some { a with accepting := false } else none
  | .leave =>
    if !a.accepting ∧ a.active = 0 then some { a with returned := true } else none

def run (a : Admission) : List Step → Admission
  | [] => a
  | s :: rest => ((a.step? s).getD a).run rest

def tidy (a : Admission) : Admission :=
  if a.clients.all (· = .finished) then { a with clients := [] } else a

def arrival : List Step := [.count, .raise, .decide, .refuse]

def departure (i : Nat) : List Step := [.advance i, .advance i, .advance i]

end Admission
end KeyStore
