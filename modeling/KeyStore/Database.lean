import KeyStore.Command.Run
import KeyStore.Journal
import KeyStore.ServerInfo
import KeyStore.Session

/-!
# The database

A keyspace with the server's counters and, while one is attached, a journal that every change is
appended to. Requests come in through `dispatch`, which counts them and asks for the password;
`execute` runs one and appends its records; `replay` runs the records of a journal again; `sweep`
removes keys past their deadline.
-/

namespace KeyStore

structure Database where
  keyspace : Keyspace := ∅
  info : ServerInfo := {}
  journal : Option Journal := none
  deriving DecidableEq

/-- What an operation on a database gives, and the notices it raised. -/
structure Outcome (α : Type) where
  result : α
  database : Database
  clock : Clock
  notices : List Notice := []

namespace Database

def report (db : Database) (ks : Keyspace) : Bytes :=
  db.info.report (db.journal.map (·.records)) ks.expired ks.size ks.volatileSize

def appendNotice (record : Request) (path : Bytes) : Notice :=
  ⟨.error, "failed to append '" ++ record.headD [] ++ "' to " ++ path⟩

/-- Appends records until one fails. -/
def appendAll : List Request → Journal → Bool × Journal × List Notice
  | [], j => (true, j, [])
  | record :: rest, j =>
    match j.append record with
    | (true, j) => appendAll rest j
    | (false, j) => (false, j, [appendNotice record j.path])

/-- Appends records to the journal, if one is attached. Tells whether all were. -/
def log (db : Database) (records : List Request) : Bool × Database × List Notice :=
  match db.journal with
  | none => (true, db, [])
  | some j =>
    let (done, j, notices) := appendAll records j
    (done, { db with journal := some j }, notices)

def expiryRecords (keys : List Bytes) : List Request := keys.map fun key => Command.deletionRecord [key]

/-- Runs a request. Keys found expired on the way are logged as deleted ahead of the request's own
records, also when it fails or writes nothing. Nothing is logged of a request that is replayed. -/
def execute (db : Database) (c : Clock) (request : Request) (replaying : Bool) :
    Outcome (Except CommandError Reply) :=
  match Command.read request with
  | .error e => ⟨.error e, db, Command.clockOfRefused c e, []⟩
  | .ok (signature, command) =>
    let a := command.run db.report request db.keyspace c
    let (expired, ks) := a.keyspace.takeExpired
    let db := { db with keyspace := ks }
    let own := match a.result with
      | .error _ => []
      | .ok answer => if signature.writes then answer.records else []
    let (logged, db, notices) :=
      if replaying then (true, db, []) else db.log (expiryRecords expired ++ own)
    let result := if logged then a.result.map (·.reply) else .error .persistenceFailure
    ⟨result, db, a.clock, notices⟩

def replyOf : Except CommandError Reply → Reply
  | .ok reply => reply
  | .error e => .error e.message

def countCommand (db : Database) : Database :=
  { db with info := { db.info with commands := db.info.commands + 1 } }

def countLockout (db : Database) : Database :=
  { db with info := { db.info with lockouts := db.info.lockouts + 1 } }

/-- Answers a request of a session. -/
def dispatch (db : Database) (c : Clock) (session : Session) (request : Request) :
    Outcome (Reply × Session) :=
  match request with
  | [] => ⟨(.error "empty command", session), db, c, []⟩
  | _ :: operands =>
    let db := db.countCommand
    if Command.nameOf request = "auth" then
      match operands with
      | [attempt] =>
        let (reply, session) := session.authenticate attempt
        ⟨(reply, session), if session.isLocked then db.countLockout else db, c, []⟩
      | _ => ⟨(.error (CommandError.wrongArgumentCount "auth").message, session), db, c, []⟩
    else if session.isAuthenticated then
      let o := db.execute c request false
      ⟨(replyOf o.result, session), o.database, o.clock, o.notices⟩
    else ⟨(.error CommandError.authRequired.message, session), db, c, []⟩

/-- Whether a request of a session pops an item from an empty list. What comes of it is then not determined. -/
def overdraws (db : Database) (c : Clock) (session : Session) (request : Request) : Bool :=
  match Command.read request with
  | .ok (_, .remove key (.pop _)) => session.isAuthenticated && Command.poppedFrom db.keyspace c key == some []
  | _ => false

structure ReplayStats where
  applied : Nat := 0
  skipped : Nat := 0
  discarded : Nat := 0
  expired : Nat := 0
  deriving DecidableEq

def skipNotice (record : Request) (e : CommandError) : Notice :=
  ⟨.warn, "skipping log record '" ++ Command.nameOf record ++ "': " ++ e.message⟩

def setLoading (db : Database) (loading : Bool) : Database :=
  { db with keyspace := { db.keyspace with loading } }

/-- Runs records in order, counting those that are accepted and those that are not. -/
def applyAll (db : Database) (c : Clock) (stats : ReplayStats) :
    List Request → List Notice → Outcome ReplayStats
  | [], notices => ⟨stats, db, c, notices.reverse⟩
  | record :: rest, notices =>
    let o := db.execute c record true
    match o.result with
    | .ok _ => applyAll o.database o.clock { stats with applied := stats.applied + 1 } rest notices
    | .error e => applyAll o.database o.clock { stats with skipped := stats.skipped + 1 } rest
        (skipNotice record e :: notices)

def sweepBatch : Nat := 1024

/-- Removes expired keys batch by batch until there are none, and counts them. -/
def expireAll (ks : Keyspace) (c : Clock) (n : Nat) : Nat → After Nat
  | 0 => ⟨n, ks, c⟩
  | fuel + 1 =>
    let a := ks.removeExpired c sweepBatch
    if a.result = 0 then ⟨n, a.keyspace, a.clock⟩
    else expireAll a.keyspace a.clock (n + a.result) fuel

/-- Replays a journal's contents, without enforcing deadlines, and then removes the keys whose
deadline has passed. A corrupt journal is replayed up to the damage. -/
def replay (db : Database) (c : Clock) (path contents : Bytes) :
    Outcome (Except Journal.Corrupt ReplayStats) :=
  let scan := Journal.scan contents
  let o := (db.setLoading true).applyAll c {} (scan.records.map (·.1)) []
  let db := o.database.setLoading false
  if scan.isCorrupt then ⟨.error ⟨path, scan.valid⟩, db, o.clock, o.notices⟩
  else
    let a := expireAll db.keyspace o.clock 0 (db.keyspace.volatileSize + 1)
    let stats := { o.result with discarded := scan.discarded, expired := a.result }
    ⟨.ok stats, { db with keyspace := a.keyspace.takeExpired.2 }, a.clock,
      o.notices ++ Journal.discardNotices path scan⟩

def sweepNotice : Notice :=
  ⟨.warn, "expired keys were removed but their deletions are missing from the log"⟩

/-- Removes up to `limit` keys past their deadline, earliest first, and logs their deletion. -/
def sweep (db : Database) (c : Clock) (limit : Nat) : Outcome Nat :=
  let a := db.keyspace.removeExpired c limit
  let (expired, ks) := a.keyspace.takeExpired
  let (logged, db, notices) := { db with keyspace := ks }.log (expiryRecords expired)
  ⟨a.result, db, a.clock, if logged then notices else notices ++ [sweepNotice]⟩

/-- Sweeps of `batch` keys until one comes short; `total` were removed before. -/
def sweepFrom (db : Database) (c : Clock) (batch total : Nat) : Nat → List Notice → Outcome Nat
  | 0, notices => ⟨total, db, c, notices⟩
  | fuel + 1, notices =>
    let o := db.sweep c batch
    let notices := notices ++ o.notices
    if o.result < batch then ⟨total + o.result, o.database, o.clock, notices⟩
    else sweepFrom o.database o.clock batch (total + o.result) fuel notices

/-- One cycle of the background expiry: sweeps of `batch` keys, at least one, until one comes short. -/
def runCycle (db : Database) (c : Clock) (batch : Nat) : Outcome Nat :=
  db.sweepFrom c (max batch 1) 0 (db.keyspace.volatileSize + 1) []

def cycleNotices (removed : Nat) : List Notice :=
  if removed = 0 then []
  else [⟨.debug, "active expiration removed " ++ Numeral.ofNat removed ++ " keys"⟩]

end Database
end KeyStore
