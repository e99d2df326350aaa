import KeyStore.Admission
import KeyStore.Config
import KeyStore.Connection
import KeyStore.Ipv4

/-!
# The server

Listens at an address and serves the connections that come one after another, among others that are
only held open. Those over the limit get one line and are closed.
-/

namespace KeyStore

inductive Visit where
  | send (peer stream : Bytes)
  | hold (peer : Bytes)
  | release
  deriving DecidableEq

structure Server where
  database : Database
  clock : Clock
  admission : Admission
  secret : Option Bytes := none
  /-- The connections held open, newest first. -/
  held : List (Nat × Bytes) := []

structure Service where
  server : Server
  out : List Bytes := []
  notices : List Notice := []

namespace Server

def rejection : Bytes := "-ERR max number of clients reached" ++ Bytes.crlf

def rejectionNotice (peer : Bytes) : Notice :=
  ⟨.warn, "max number of clients reached, rejecting " ++ peer⟩

def peerName (address : Ipv4) (port : Nat) : Bytes := address.text ++ ":" ++ Numeral.ofNat port

def connectNotice (peer : Bytes) : Notice := ⟨.debug, "client connected: " ++ peer⟩

def disconnectNotice (peer : Bytes) : Notice := ⟨.debug, "client disconnected: " ++ peer⟩

def addressNotice (address : Bytes) : Notice := ⟨.error, "invalid bind address '" ++ address ++ "'"⟩

def listenNotice (c : Config) : Notice :=
  ⟨.info, "listening on " ++ c.bind ++ ":" ++ Numeral.ofNat c.port⟩

def listen (c : Config) (db : Database) (clock : Clock) : Option Server :=
  (Ipv4.read c.bind).map fun _ =>
    { database := db, clock, admission := { limit := c.maxClients, info := db.info }
      secret := c.password }

def arrive (s : Server) : Bool × Server :=
  let admission := s.admission.run Admission.arrival
  (s.admission.clients.length < admission.clients.length, { s with admission })

def depart (s : Server) (i : Nat) : Server :=
  { s with admission := s.admission.run (Admission.departure i) }

def tidy (s : Server) : Server := { s with admission := s.admission.tidy }

/-- Lets a connection work on the database, with the counters in it meanwhile. -/
def lend (s : Server) (work : Database → Clock → Served) : Served × Server :=
  let r := work { s.database with info := s.admission.info } s.clock
  let database := r.connection.database
  (r, { s with
    database
    clock := r.connection.clock
    admission := { s.admission with info := database.info } })

def serve (s : Server) (stream : Bytes) : Bytes × Server × List Notice :=
  let (r, s) := s.lend fun db c => db.handle c s.secret stream
  (r.out, s, r.notices)

/-- Serves what a read brings to a connection that has come so far. -/
def receive (s : Server) (session : Session) (buffer bytes : Bytes) : Served × Server :=
  s.lend fun db c => Connection.receive ⟨db, c, session, buffer⟩ bytes

def sweep (s : Server) (batch : Nat) : Server × List Notice :=
  let o := s.database.runCycle s.clock batch
  ({ s with database := o.database, clock := o.clock },
    o.notices ++ Database.cycleNotices o.result)

def mapJournal (s : Server) (f : Journal → Journal) : Server :=
  { s with database := { s.database with journal := s.database.journal.map f } }

/-- What the journal holds. -/
def unwritten (s : Server) : Bytes := s.database.journal.elim [] (·.contents)

def written (s : Server) : Server := s.mapJournal .drained

/-- The server when its journal has room for so many bytes. -/
def withRoom (s : Server) (n : Nat) : Server := s.mapJournal fun j => { j with limit := some n }

def visit (s : Server) : Visit → Server × List Bytes × List Notice
  | .send peer stream =>
    match s.arrive with
    | (false, s) => (s, [rejection], [rejectionNotice peer])
    | (true, s) =>
      let (out, s, notices) := s.serve stream
      (s.depart (s.admission.clients.length - 1), [out],
        connectNotice peer :: notices ++ [disconnectNotice peer])
  | .hold peer =>
    match s.arrive with
    | (false, s) => (s, [], [rejectionNotice peer])
    | (true, s) =>
      ({ s with held := (s.admission.clients.length - 1, peer) :: s.held }, [], [connectNotice peer])
  | .release =>
    match s.held with
    | [] => (s, [], [])
    | (i, peer) :: held => ({ s.depart i with held }, [], [disconnectNotice peer])

/-- Stops accepting, and ends the connections still open. -/
def stop (s : Server) : Server × List Notice :=
  let admission := s.admission.run
    (.stop :: s.held.flatMap (fun (i, _) => Admission.departure i) ++ [.leave])
  ({ s with admission, database := { s.database with info := admission.info }, held := [] },
    s.held.map fun (_, peer) => disconnectNotice peer)

def visits (s : Server) : List Visit → Service
  | [] => let (s, notices) := s.stop; ⟨s, [], notices⟩
  | v :: rest =>
    let (s, out, notices) := s.visit v
    let t := s.visits rest
    { t with out := out ++ t.out, notices := notices ++ t.notices }

end Server
end KeyStore
