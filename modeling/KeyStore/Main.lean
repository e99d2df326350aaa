import KeyStore.Program
import Std.Async.Signal
import Std.Async.TCP
import Std.Async.Timer
import Std.Sync.CancellationToken
import Std.Sync.Mutex
import Std.Time.Zoned

/-!
# The executable

Runs the program on the system's files, sockets, clock and signals. What has been appended to the
journal is written out before a reply is sent; when it reaches the disk is left to the system.
-/

open Std Async Net

namespace KeyStore.Executable

def bytesOf (s : String) : Bytes := s.toUTF8.toList

def fileName (path : Bytes) : String := (String.fromUTF8? ⟨path.untilNul.toArray⟩).getD ""

def reasonOf (e : IO.Error) : Bytes :=
  match e with
  | .alreadyExists _ _ details | .otherError _ details | .resourceBusy _ details
  | .resourceVanished _ details | .unsupportedOperation _ details | .hardwareFault _ details
  | .unsatisfiedConstraints _ details | .illegalOperation _ details | .protocolError _ details
  | .timeExpired _ details | .interrupted _ _ details | .noFileOrDirectory _ _ details
  | .invalidArgument _ _ details | .permissionDenied _ _ details | .resourceExhausted _ _ details
  | .inappropriateType _ _ details | .noSuchThing _ _ details => bytesOf details
  | e => bytesOf (toString e)

/-- What stands at a path that cannot be read. -/
def unreadable : IO.Error → Node
  | .noFileOrDirectory .. => .vacant
  | .inappropriateType _ 21 _ => .directory
  | .inappropriateType .. => .fault .notADirectory
  | e => if reasonOf e = PathFault.nameTooLong.message then .fault .nameTooLong
    else .locked (.refused (reasonOf e))

def contentsOf (path : Bytes) : IO Bytes := do
  let file ← IO.FS.Handle.mk (fileName path) .read
  return (← file.readBinToEnd).toList

def lookUp (path : Bytes) : IO Node := do
  try return .file (← contentsOf path)
  catch e => return unreadable e

/-- Why a path cannot be opened for writing, if it cannot. A file is made where there is none. -/
def writeFault (path : Bytes) : IO (Option PathFault) := do
  try
    discard <| IO.FS.Handle.mk (fileName path) .append
    return none
  catch e => return some (.refused (reasonOf e))

def lookUpJournal (path : Bytes) : IO Node := do
  match ← lookUp path with
  | .file contents => return (← writeFault path).elim (.file contents) (.sealed contents)
  | .vacant => return (← writeFault path).elim .vacant .fault
  | .fault .notADirectory => return .fault ((← writeFault path).getD .notADirectory)
  | node => return node

def now : IO Int := do return (← Time.Timestamp.now).toMillisecondsSinceUnixEpoch.val

/-- The local time, or where no time zone is known that of the prime meridian. -/
def localTime : IO Time.PlainDateTime := do
  try Time.PlainDateTime.now
  catch _ => return .ofWallTime (.ofTimestamp (← Time.Timestamp.now) ⟨0⟩)

def tell (threshold : Level) (notices : List Notice) : IO Unit := do
  let err ← IO.getStderr
  for n in notices do
    if n.shownAt threshold then
      let time := (← localTime).format "uuuu-MM-dd HH:mm:ss"
      err.write ⟨(bytesOf ("[" ++ time ++ "] ") ++ n.line).toArray⟩

/-- What the connections of a running server share: the server, behind as much of its journal as has
been written out, and the size of that. -/
structure Station where
  config : Config
  began : Nat
  state : Mutex (Server × Nat)
  stopping : CancellationToken

namespace Station

def tell (s : Station) (notices : List Notice) : IO Unit :=
  Executable.tell (Program.level s.config) notices

def present (s : Station) (server : Server) : IO Server := do
  let uptime := (← IO.monoMsNow) - s.began
  let admission := server.admission
  return { server with
    clock := .standing (← now)
    admission := { admission with info := { admission.info with uptime := uptime / 1000 } } }

/-- Writes bytes to the end of the journal of a size, and gives how many it took. -/
def writeOut (s : Station) (size : Nat) (bytes : Bytes) : IO Nat := do
  if bytes.isEmpty then return 0
  try
    IO.FS.withFile (fileName s.config.journalPath) .append fun file => do
      file.write ⟨bytes.toArray⟩
      file.flush
    return bytes.length
  catch _ =>
    try return (← contentsOf s.config.journalPath).length - size
    catch _ => return 0

/-- Takes a step of the server. A step whose records were not all taken by the journal is taken again
with the room that there was. -/
def turn {α : Type} (s : Station) (step : Server → α × Server × List Notice) : IO α :=
  s.state.atomically do
    let (server, size) ← get
    let server ← s.present server
    let (a, next, notices) := step server
    let taken ← s.writeOut size next.unwritten
    let (a, next, notices) :=
      if taken < next.unwritten.length then step (server.withRoom taken) else (a, next, notices)
    set (next.written, size + taken)
    s.tell notices
    return a

/-- The next read of a connection, or nothing when it ends or was silent for too long. -/
def read (s : Station) (client : TCP.Socket.Client) : Async (Option Bytes) := do
  let arrives : Selectable (Option Bytes) :=
    .case (client.recvSelector Connection.readSize.toUInt64) fun bytes =>
      return bytes.map ByteArray.toList
  let stops : Selectable (Option Bytes) := .case s.stopping.selector fun _ => return none
  try
    if s.config.timeout = 0 then Selectable.one #[arrives, stops]
    else
      let sleeper ← Selector.sleep (.ofNat (1000 * s.config.timeout))
      Selectable.one #[arrives, stops,
        .case sleeper fun _ => throw (.userError "Resource temporarily unavailable")]
  catch e =>
    s.tell [⟨.debug, "closing connection: " ++ reasonOf e⟩]
    return none

def send (client : TCP.Socket.Client) (bytes : Bytes) : Async Bool := do
  if bytes.isEmpty then return true
  try
    client.send ⟨bytes.toArray⟩
    return true
  catch _ => return false

/-- Serves a connection until it ends. -/
partial def converse (s : Station) (client : TCP.Socket.Client) (session : Session)
    (buffer : Bytes) : Async Unit := do
  let some bytes ← s.read client | return
  let served ← s.turn fun server =>
    let (served, server) := server.receive session buffer bytes
    (served, server, served.notices)
  if (← send client served.out) && served.progress != .closed then
    s.converse client served.connection.session served.connection.buffer

def peerOf (client : TCP.Socket.Client) : IO Bytes := do
  match ← client.getPeerName with
  | .v4 a =>
    let n := a.addr.octets
    return Server.peerName ⟨n[0], n[1], n[2], n[3]⟩ a.port.toNat
  | .v6 a => return bytesOf (toString a.addr)

/-- Lets a connection in, serves it, and sees it out; or turns it away. -/
def welcome (s : Station) (client : TCP.Socket.Client) : Async Unit := do
  let peer ← peerOf client
  let place ← s.turn fun server =>
    match server.arrive with
    | (false, server) => (none, server, [Server.rejectionNotice peer])
    | (true, server) =>
      (some (server.admission.clients.length - 1), server, [Server.connectNotice peer])
  match place with
  | none => discard <| send client Server.rejection
  | some i =>
    s.converse client (.start s.config.password) []
    s.turn fun server => ((), (server.depart i).tidy, [Server.disconnectNotice peer])
  try client.shutdown catch _ => return

/-- Lets connections in until the server stops, and waits for those that are served. -/
partial def accept (s : Station) (listener : TCP.Socket.Server) (served : List (AsyncTask Unit)) :
    Async Unit := do
  let arrived ← Selectable.one #[
    .case listener.acceptSelector fun client => return some client,
    .case s.stopping.selector fun _ => return none]
  match arrived with
  | none => served.forM fun task => await task
  | some client =>
    let task ← async (s.welcome client)
    let served ← served.filterM fun task => return !(← IO.hasFinished task)
    s.accept listener (task :: served)

/-- Removes expired keys from time to time until the server stops. -/
partial def sweep (s : Station) : Async Unit := do
  let sleeper ← Selector.sleep (.ofNat (1000 / s.config.hz))
  let again ← Selectable.one #[
    .case sleeper fun _ => return true,
    .case s.stopping.selector fun _ => return false]
  if again then
    s.turn fun server => let (server, notices) := server.sweep s.config.sweepBatch; ((), server, notices)
    s.sweep

/-- Stops the server when a signal comes. -/
def stopOn (s : Station) (signal : Signal) : Async Unit := do
  let waiter ← Signal.Waiter.mk signal false
  discard <| await (← waiter.wait)
  s.stopping.cancel

end Station

/-- Looks at the paths that a start of the program asks for. -/
def lookAround (arguments : List Bytes) : IO (Bytes → Node) := do
  let (line, _) := CommandLine.read arguments
  let settings ← lookUp line.configPath
  match line.settings fun _ => Program.contents? settings with
  | .ok config =>
    if config.appendOnly && !line.help then
      let journal ← lookUpJournal config.journalPath
      return fun path => if path = config.journalPath then journal else settings
    return fun _ => settings
  | .error _ => return fun _ => settings

/-- Cuts a torn end off the journal's file, if it has one. -/
def cutTo (path : Bytes) (size : Nat) : IO Unit := do
  if (← contentsOf path).length ≤ size then return
  let file ← IO.FS.Handle.mk (fileName path) .readWrite
  discard <| file.read size.toUSize
  file.truncate

def serve (r : Program.Ready) : IO Nat := do
  let level := Program.level r.config
  match Ipv4.read r.config.bind, Server.listen r.config r.database r.clock with
  | some a, some server =>
    let listener ← TCP.Socket.Server.mk
    try
      listener.bind (.v4 ⟨.ofParts a.first a.second a.third a.fourth, r.config.port.toUInt16⟩)
      listener.listen 128
    catch e =>
      tell level [⟨.error, "bind() failed: " ++ reasonOf e⟩]
      return 1
    tell level [Server.listenNotice r.config]
    let state ← Mutex.new (server.written, server.unwritten.length)
    let station : Station :=
      { config := r.config, began := ← IO.monoMsNow, state, stopping := ← CancellationToken.new }
    Async.block do
      background (station.stopOn .sigint)
      background (station.stopOn .sigterm)
      let sweeps ← async station.sweep
      station.accept listener []
      await sweeps
    return 0
  | _, _ =>
    tell level [Server.addressNotice r.config.bind]
    return 1

end KeyStore.Executable

open KeyStore Executable in
def main (arguments : List String) : IO UInt32 := do
  let arguments := arguments.map bytesOf
  let node ← lookAround arguments
  match Program.start arguments node (.standing (← now)) with
  | .ended e =>
    (← IO.getStdout).write ⟨e.out.toArray⟩
    tell e.level e.notices
    (← IO.getStderr).write ⟨e.advice.toArray⟩
    return e.status.toUInt32
  | .ready r =>
    let level := Program.level r.config
    if let some journal := r.database.journal then
      try cutTo journal.path journal.contents.length
      catch e =>
        tell level (r.notices.dropLast ++
          [Program.cannotTruncate journal.path (.refused (reasonOf e))])
        return 1
    tell level r.notices
    let status ← serve r
    tell level [Program.shutdownNotice]
    return status.toUInt32
