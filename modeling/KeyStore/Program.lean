import KeyStore.CommandLine
import KeyStore.Server

/-!
# The program

From arguments to a server with its journal: the settings are read, the journal at their path is
replayed, rid of a torn end and opened for appending. The program then serves until it is told to
stop. Whatever prevents it from starting is reported, and makes it fail.
-/

namespace KeyStore

inductive PathFault where
  | noSuchDirectory
  | notADirectory
  | isADirectory
  | nameTooLong
  | refused (reason : Bytes)
  deriving DecidableEq

def PathFault.message : PathFault → Bytes
  | noSuchDirectory => "No such file or directory"
  | notADirectory => "Not a directory"
  | isADirectory => "Is a directory"
  | nameTooLong => "File name too long"
  | refused reason => reason

/-- What a path leads to. A sealed file can be read and not written, a locked one can be neither; a
vacant path is one at which a file can be made. -/
inductive Node where
  | file (contents : Bytes)
  | sealed (contents : Bytes) (f : PathFault)
  | locked (f : PathFault)
  | directory
  | vacant
  | fault (f : PathFault)
  deriving DecidableEq

namespace Program

/-- How a run of the program ends, what it says to its user, and what to its operator: notices, and
an advice behind them. -/
structure Ended where
  status : Nat
  out : Bytes := []
  level : Level := .info
  notices : List Notice := []
  advice : Bytes := []
  deriving DecidableEq

def Ended.err (e : Ended) : Bytes := Notice.report e.level e.notices ++ e.advice

structure Ready where
  config : Config
  database : Database
  clock : Clock
  notices : List Notice

inductive Started where
  | ended (e : Ended)
  | ready (r : Ready)

def level (c : Config) : Level := .ofName c.logLevel

def replayNotice (path : Bytes) (stats : Database.ReplayStats) : Notice :=
  ⟨.info, "replayed " ++ Numeral.ofNat stats.applied ++ " records from " ++ path ++ " (" ++
    Numeral.ofNat stats.skipped ++ " skipped, " ++ Numeral.ofNat stats.expired ++
    " keys already expired)"⟩

/-- What is said when the journal cannot be used. A reason ends before a NUL byte. -/
def unavailable (reason : Bytes) : Notice :=
  ⟨.error, "durability log unavailable: " ++ reason.untilNul⟩

/-- What is said when the journal cannot be rid of a torn end. A reason ends before a NUL byte. -/
def unresized (reason : Bytes) : Notice :=
  ⟨.error, "cannot truncate durability log: filesystem error: " ++ reason.untilNul⟩

def cannotOpen (path : Bytes) (f : PathFault) : Notice :=
  unavailable ("open " ++ path ++ ": " ++ f.message)

def isADirectory : Notice :=
  unavailable "basic_filebuf::underflow error reading the file: Is a directory"

def cannotTruncate (path : Bytes) (f : PathFault) : Notice :=
  unresized ("cannot resize file: " ++ f.message ++ " [" ++ path ++ "]")

def cannotInspect (path : Bytes) (f : PathFault) : Notice :=
  unresized ("status: " ++ f.message ++ " [" ++ path ++ "]")

/-- The journal at a path, given what the path leads to: its contents, and why it cannot be written
if it cannot. -/
def journalAt (path : Bytes) : Node → Except Notice (Bytes × Option PathFault)
  | .file contents => .ok (contents, none)
  | .sealed contents f => .ok (contents, some f)
  | .vacant => .ok ([], none)
  | .directory => .error isADirectory
  | .locked f => .error (cannotOpen path f)
  | .fault .nameTooLong => .error (cannotInspect path .nameTooLong)
  | .fault f => .ok ([], some f)

/-- Replays the journal at a path and attaches it. On failure, what is said of it. -/
def recover (c : Clock) (path : Bytes) (node : Node) :
    Except (List Notice) (Database × Clock × List Notice) :=
  match journalAt path node with
  | .error notice => .error [notice]
  | .ok (contents, fault) =>
    let o := Database.replay {} c path contents
    match o.result with
    | .error e => .error (o.notices ++ [⟨.error, e.message⟩])
    | .ok stats =>
      let replayed := replayNotice path stats
      match fault with
      | some f =>
        .error (o.notices ++
          if stats.discarded = 0 then [replayed, cannotOpen path f] else [cannotTruncate path f])
      | none =>
        let journal : Journal := { path, contents := Journal.recovered contents }
        .ok ({ o.database with journal := some journal }, o.clock, o.notices ++ [replayed])

/-- What is read of a file of settings. A directory can be opened, and has no lines. -/
def contents? : Node → Option Bytes
  | .file contents | .sealed contents _ => some contents
  | .directory => some []
  | _ => none

/-- Starts the program, given what the paths that it looks at lead to. -/
def start (arguments : List Bytes) (node : Bytes → Node) (c : Clock) : Started :=
  let refuse (e : ConfigError) : Started :=
    .ended { status := 1, notices := [⟨.error, e.message⟩], advice := CommandLine.usage }
  match CommandLine.configure arguments fun path => contents? (node path) with
  | .error e => refuse e
  | .ok (config, help) =>
    if help then .ended { status := 0, out := CommandLine.usage }
    else if config.appendOnly then
      match recover c config.journalPath (node config.journalPath) with
      | .error notices => .ended { status := 1, level := level config, notices }
      | .ok (db, c, notices) => .ready ⟨config, db, c, notices⟩
    else .ready ⟨config, {}, c, []⟩

def shutdownNotice : Notice := ⟨.info, "shutting down"⟩

def Ready.serve (r : Ready) (visits : List Visit) : Nat × Service :=
  match Server.listen r.config r.database r.clock with
  | none =>
    let server : Server := { database := r.database, clock := r.clock
                             admission := { limit := r.config.maxClients, info := r.database.info } }
    (1, ⟨server, [], [Server.addressNotice r.config.bind]⟩)
  | some server =>
    let s := server.visits visits
    (0, { s with notices := Server.listenNotice r.config :: s.notices })

/-- A whole run: the program starts, serves visits and is told to stop. Gives the journal that it leaves, if it keeps
one. -/
def run (arguments : List Bytes) (node : Bytes → Node) (c : Clock) (visits : List Visit) : Ended × Option Journal :=
  match start arguments node c with
  | .ended e => (e, none)
  | .ready r =>
    let (status, s) := r.serve visits
    let notices := r.notices ++ s.notices ++ [shutdownNotice]
    ({ status, level := level r.config, notices }, s.server.database.journal)

end Program
end KeyStore
