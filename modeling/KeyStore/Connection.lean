import KeyStore.Database

/-!
# Connections

A connection sends requests one behind another, typed as lines or as frames, and gets a reply to
each in the same dialect. What has been received and not yet served waits in a buffer. The connection
ends when the client quits, sends bytes that no frame starts with, is locked out, or sends too much
of a request without ending it.
-/

namespace KeyStore

/-- How a request was sent, and how its reply is. -/
inductive Dialect where
  | line
  | frame
  deriving DecidableEq

/-- What stands at the front of a buffer. -/
inductive Incoming where
  | incomplete
  | malformed
  | request (dialect : Dialect) (request : Request) (rest : Bytes)
  deriving DecidableEq

namespace Dialect

def render (reply : Reply) : Dialect → Bytes
  | line => reply.toText ++ "\n"
  | frame => reply.toFrame

def goodbye : Dialect → Bytes := render .ok

end Dialect

def chomp (line : Bytes) : Bytes := if line.getLast? = some 13 then line.dropLast else line

/-- Reads the request at the front of a buffer. -/
def Incoming.read (buffer : Bytes) : Incoming :=
  if buffer.head? = some 42 then
    match Frame.parse buffer with
    | .needMore => .incomplete
    | .malformed => .malformed
    | .done items _ rest => .request .frame items rest
  else
    match buffer.line? with
    | none => .incomplete
    | some (line, rest) => .request .line (chomp line).words rest

def isQuit : Request → Bool
  | [name] => name.lower = "quit" || name.lower = "exit"
  | _ => false

structure Connection where
  database : Database
  clock : Clock
  session : Session
  buffer : Bytes := []

inductive Progress where
  | waiting
  | handled
  | closed
  deriving DecidableEq

/-- What serving a connection for a while comes to. -/
structure Served where
  connection : Connection
  out : Bytes := []
  notices : List Notice := []
  progress : Progress

namespace Connection

def protocolError : Bytes := "-ERR Protocol error" ++ Bytes.crlf

def tooLarge : Bytes := "-ERR request too large" ++ Bytes.crlf

def lockoutNotice : Notice := ⟨.warn, "closing connection after too many failed AUTH attempts"⟩

/-- The most bytes that an unfinished request may have. -/
def requestLimit : Nat := 1048576

/-- The most bytes that one read gives. -/
def readSize : Nat := 4096

/-- Answers a request, and ends the connection if that locked the session. -/
def answer (k : Connection) (dialect : Dialect) (request : Request) : Served :=
  let o := k.database.dispatch k.clock k.session request
  let (reply, session) := o.result
  let k := { k with database := o.database, clock := o.clock, session }
  if session.isLocked then
    ⟨k, dialect.render reply, o.notices ++ [lockoutNotice], .closed⟩
  else ⟨k, dialect.render reply, o.notices, .handled⟩

/-- Serves at most one request from the front of the buffer. -/
def serveOne (k : Connection) : Served :=
  match Incoming.read k.buffer with
  | .incomplete => ⟨k, [], [], .waiting⟩
  | .malformed => ⟨k, protocolError, [], .closed⟩
  | .request dialect request rest =>
    let k := { k with buffer := rest }
    if request.isEmpty then ⟨k, [], [], .handled⟩
    else if isQuit request then ⟨k, dialect.goodbye, [], .closed⟩
    else k.answer dialect request

/-- Serves the buffer until it is empty or the connection has to wait or ends. -/
def serveBuffer (k : Connection) : Nat → Served
  | 0 => ⟨k, [], [], .waiting⟩
  | fuel + 1 =>
    if k.buffer.isEmpty then ⟨k, [], [], .waiting⟩
    else
      let s := k.serveOne
      match s.progress with
      | .handled =>
        let t := s.connection.serveBuffer fuel
        { t with out := s.out ++ t.out, notices := s.notices ++ t.notices }
      | _ => s

/-- Serves what a read has added to the buffer. -/
def receive (k : Connection) (bytes : Bytes) : Served :=
  let buffer := k.buffer ++ bytes
  let s := { k with buffer }.serveBuffer buffer.length
  if s.progress = .waiting ∧ requestLimit < s.connection.buffer.length then
    { s with out := s.out ++ tooLarge, progress := .closed }
  else s

/-- Serves the reads of a connection until it ends or the client has sent all. -/
def serve (k : Connection) : List Bytes → Served
  | [] => ⟨k, [], [], .closed⟩
  | bytes :: reads =>
    let s := k.receive bytes
    match s.progress with
    | .closed => s
    | _ =>
      let t := s.connection.serve reads
      { t with out := s.out ++ t.out, notices := s.notices ++ t.notices }

def piecesFrom (n : Nat) : Nat → Bytes → List Bytes
  | _, [] => []
  | 0, s => [s]
  | fuel + 1, s => s.take n :: piecesFrom n fuel (s.drop n)

def reads (stream : Bytes) : List Bytes := piecesFrom readSize stream.length stream

end Connection

def Database.handle (db : Database) (c : Clock) (secret : Option Bytes) (stream : Bytes) : Served :=
  Connection.serve ⟨db, c, .start secret, []⟩ (Connection.reads stream)

end KeyStore
