import KeyStore.Command

/-!
# Running commands

What a command does to the keyspace, what it replies, and the records by which a log tells of it.
Records name deadlines as points in time, so that they mean the same whenever they are replayed.
-/

namespace KeyStore

structure Answer where
  reply : Reply
  records : List Request := []

namespace Command

def deadlineRecord (key : Bytes) (deadline : Int) : Request :=
  ["PEXPIREAT", key, Numeral.ofInt deadline]

def deletionRecord (keys : List Bytes) : Request := "DEL" :: keys

def deleteAll (ks : Keyspace) (c : Clock) : List Bytes → After (List Bytes)
  | [] => ⟨[], ks, c⟩
  | key :: rest =>
    let a := ks.delete c key
    let b := deleteAll a.keyspace a.clock rest
    ⟨if a.result then key :: b.result else b.result, b.keyspace, b.clock⟩

def countAll (ks : Keyspace) (c : Clock) (n : Nat) : List Bytes → After Nat
  | [] => ⟨n, ks, c⟩
  | key :: rest =>
    let a := ks.contains c key
    countAll a.keyspace a.clock (if a.result then n + 1 else n) rest

/-- Sets a deadline. If that made the key vanish, the log is told of the deletion. -/
def applyDeadline (ks : Keyspace) (c : Clock) (key : Bytes) (deadline : Int) : After Answer :=
  let a := ks.expireAt c key deadline
  if a.result then
    let b := a.keyspace.contains a.clock key
    ⟨{ reply := .integer 1
       records := [if b.result then deadlineRecord key deadline else deletionRecord [key]] },
      b.keyspace, b.clock⟩
  else ⟨{ reply := .integer 0 }, a.keyspace, a.clock⟩

/-- The outcome of a change to one container, which the request itself records. -/
def changed (request : Request) (a : After (Except CommandError (Reply × Bool))) :
    After (Except CommandError Answer) :=
  ⟨a.result.map fun (reply, logged) => { reply, records := if logged then [request] else [] },
    a.keyspace, a.clock⟩

def runEdit (ks : Keyspace) (c : Clock) (request : Request) (key : Bytes) (e : Edit) :
    After (Except CommandError Answer) :=
  changed request <| ks.modify c e.kind key fun x =>
    let change := e.apply x
    (change.content, change.reply, change.logged)

/-- A removal looks the key up twice: to see whether it is there, and to change it. -/
def runRemoval (ks : Keyspace) (c : Clock) (request : Request) (key : Bytes) (r : Removal) :
    After (Except CommandError Answer) :=
  let a := ks.find c r.kind key
  match a.result with
  | .error e => ⟨.error e, a.keyspace, a.clock⟩
  | .ok none => ⟨.ok { reply := r.absent }, a.keyspace, a.clock⟩
  | .ok (some _) =>
    changed request <| a.keyspace.modify a.clock r.kind key fun x =>
      let change := r.apply x
      (change.content, change.reply, change.logged)

/-- The list that a pop takes its item from: what the second look-up finds, an empty one if it finds nothing. There is
none if the first look-up ends the pop. -/
def poppedFrom (ks : Keyspace) (c : Clock) (key : Bytes) : Option (List Bytes) :=
  let a := ks.find c .list key
  match a.result with
  | .ok (some _) =>
    match (a.keyspace.find a.clock .list key).result with
    | .ok items => some (items.getD [])
    | .error _ => none
  | _ => none

def runSet (ks : Keyspace) (c : Clock) (key value : Bytes) (ttl : Option Int) : After Answer :=
  let a := ks.set c key (.string value) ttl
  ⟨{ reply := .ok
     records := ["SET", key, value] :: (a.result.map (deadlineRecord key)).toList },
    a.keyspace, a.clock⟩

def always (a : After Answer) : After (Except CommandError Answer) :=
  ⟨.ok a.result, a.keyspace, a.clock⟩

/-- Runs a command given by a request. `report` is the text that `info` replies. -/
def run (report : Keyspace → Bytes) (request : Request) (ks : Keyspace) (c : Clock) :
    Command → After (Except CommandError Answer)
  | ping none => ⟨.ok { reply := .status "PONG" }, ks, c⟩
  | ping (some message) => ⟨.ok { reply := .bulk message }, ks, c⟩
  | echo message => ⟨.ok { reply := .bulk message }, ks, c⟩
  | info => ⟨.ok { reply := .bulk (report ks) }, ks, c⟩
  | count => ⟨.ok { reply := .integer ks.size }, ks, c⟩
  | flush =>
    if ks.size = 0 then ⟨.ok { reply := .ok }, ks, c⟩
    else ⟨.ok { reply := .ok, records := [request] }, ks.clear, c⟩
  | ask key query =>
    let a := ks.get c key
    ⟨(query.answer a.result).map ({ reply := · }), a.keyspace, a.clock⟩
  | exist names =>
    let a := countAll ks c 0 names
    ⟨.ok { reply := .integer a.result }, a.keyspace, a.clock⟩
  | keys pattern =>
    let a := ks.keysMatching c pattern
    ⟨.ok { reply := .array a.result }, a.keyspace, a.clock⟩
  | remaining key inSeconds =>
    let a := if inSeconds then ks.remainingSeconds c key else ks.remaining c key
    ⟨.ok { reply := .integer a.result }, a.keyspace, a.clock⟩
  | set key value ttl => always (runSet ks c key value ttl)
  | delete names =>
    let a := deleteAll ks c names
    ⟨.ok { reply := .integer a.result.length
           records := if a.result.isEmpty then [] else [deletionRecord a.result] },
      a.keyspace, a.clock⟩
  | increment key delta =>
    let a := ks.increment c key delta
    ⟨a.result.map fun sum => { reply := .integer sum, records := [request] }, a.keyspace, a.clock⟩
  | expireIn key ms =>
    let (now, c) := c.read
    always (applyDeadline ks c key (now + ms))
  | expireAt key deadline => always (applyDeadline ks c key deadline)
  | persist key =>
    let a := ks.persist c key
    ⟨.ok { reply := .ofBool a.result, records := if a.result then [request] else [] },
      a.keyspace, a.clock⟩
  | edit key e => runEdit ks c request key e
  | remove key r => runRemoval ks c request key r

/-- The clock behind a request that is refused before it runs. An `expire` looks at the time before it finds that its
amount exceeds the limit. -/
def clockOfRefused (c : Clock) (e : CommandError) : Clock :=
  if e = .invalidExpireTime "expire" then c.next else c

theorem stands_clockOfRefused {c : Clock} {now : Int} (hc : c.Stands now) (e : CommandError) :
    (clockOfRefused c e).Stands now := by
  unfold clockOfRefused
  split
  · exact hc.next
  · exact hc

end Command
end KeyStore
