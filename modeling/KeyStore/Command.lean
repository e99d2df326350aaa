import KeyStore.Command.Edit
import KeyStore.Command.Query
import KeyStore.Score.Reader

/-!
# Commands

A command and the requests that spell it: a name, whose case does not matter, and operands. All that
can be wrong with a request by itself is found before the command runs.
-/

namespace KeyStore

abbrev Request := List Bytes

inductive Command where
  | ping (message : Option Bytes)
  | echo (message : Bytes)
  | info
  | count
  | flush
  | ask (key : Bytes) (query : Query)
  | exist (keys : List Bytes)
  | keys (pattern : Bytes)
  | remaining (key : Bytes) (inSeconds : Bool)
  | set (key value : Bytes) (ttl : Option Int)
  | delete (keys : List Bytes)
  | increment (key : Bytes) (delta : Int)
  | expireIn (key : Bytes) (ms : Int)
  | expireAt (key : Bytes) (deadline : Int)
  | persist (key : Bytes)
  | edit (key : Bytes) (edit : Edit)
  | remove (key : Bytes) (removal : Removal)
  deriving DecidableEq

namespace Command

def readInt (s : Bytes) : Except CommandError Int :=
  match Numeral.readInt s with
  | none => .error .notAnInteger
  | some n => .ok n

def readScore (s : Bytes) : Except CommandError Score :=
  match Score.read s with
  | none => .error .notAFloat
  | some x => .ok x

/-- Half of the greatest 64-bit integer, so that a sum with a time of day stays one. -/
def durationLimit : Int := 4611686018427387903

/-- So many units as milliseconds, within the limit. -/
def readDuration (command : Bytes) (amount unit : Int) : Except CommandError Int :=
  if durationLimit / unit < amount ∨ amount < -(durationLimit / unit)
  then .error (.invalidExpireTime command) else .ok (amount * unit)

/-- The time to live of a `set`: a positive number of the unit that the option names. -/
def readTtl (option amount : Bytes) : Except CommandError Int := do
  let amount ← readInt amount
  if amount ≤ 0 then .error (.invalidExpireTime "set")
  else if option.upper = "EX" then readDuration "set" amount 1000
  else if option.upper = "PX" then readDuration "set" amount 1
  else .error .badSyntax

def pairsFrom : List (Bytes × Bytes) → List Bytes → Option (List (Bytes × Bytes))
  | done, [] => some done.reverse
  | _, [_] => none
  | done, a :: b :: rest => pairsFrom ((a, b) :: done) rest

def pairs (operands : List Bytes) : Option (List (Bytes × Bytes)) := pairsFrom [] operands

def readScores (members : List (Bytes × Bytes)) : Except CommandError (List (Score × Bytes)) :=
  members.mapM fun (score, member) => (readScore score).map (·, member)

/-- The negated integer, which the least one does not have. -/
def readDecrement (s : Bytes) : Except CommandError Int := do
  let n ← readInt s
  if n = minInt64 then .error .notAnInteger else .ok (-n)

def readRange (start stop : Bytes) (f : Int → Int → Query) : Except CommandError Query := do
  let start ← readInt start
  let stop ← readInt stop
  .ok (f start stop)

/-- How operands are read: `none` if no command of the name takes that number of them. -/
abbrev Form := List Bytes → Option (Except CommandError Command)

def noOperand (command : Command) : Form
  | [] => some (.ok command)
  | _ => none

def oneOperand (command : Bytes → Command) : Form
  | [a] => some (.ok (command a))
  | _ => none

def twoOperands (command : Bytes → Bytes → Except CommandError Command) : Form
  | [a, b] => some (command a b)
  | _ => none

def keyAndSome (command : Bytes → List Bytes → Command) : Form
  | key :: a :: rest => some (.ok (command key (a :: rest)))
  | _ => none

def someOperands (command : List Bytes → Command) : Form
  | a :: rest => some (.ok (command (a :: rest)))
  | [] => none

def keyAndPairs (command : Bytes → List (Bytes × Bytes) → Except CommandError Command) : Form
  | key :: a :: rest => (pairs (a :: rest)).map (command key)
  | _ => none

def pingForm : Form
  | [] => some (.ok (.ping none))
  | [message] => some (.ok (.ping (some message)))
  | _ => none

/-- Takes an operand, and ignores it. -/
def infoForm : Form
  | [] => some (.ok .info)
  | [_] => some (.ok .info)
  | _ => none

def setForm : Form
  | [key, value] => some (.ok (.set key value none))
  | [_, _, _] => some (.error .badSyntax)
  | [key, value, option, amount] => some ((readTtl option amount).map fun ms => .set key value (some ms))
  | _ => none

def listRangeForm : Form
  | [key, start, stop] => some ((readRange start stop .listRange).map (.ask key))
  | _ => none

def rankedForm : Form
  | [key, start, stop] => some ((readRange start stop fun a b => .ranked a b false).map (.ask key))
  | [key, start, stop, option] => some <|
    if option.upper = "WITHSCORES"
    then (readRange start stop fun a b => .ranked a b true).map (.ask key)
    else .error .badSyntax
  | _ => none

def asking (query : Query) : Form := oneOperand fun key => .ask key query

def askingOf (query : Bytes → Query) : Form := twoOperands fun key a => .ok (.ask key (query a))

def incrementing (read : Bytes → Except CommandError Int) : Form :=
  twoOperands fun key amount => (read amount).map (.increment key)

def timed (name : Bytes) (unit : Int) (command : Bytes → Int → Command) : Form :=
  twoOperands fun key amount => do
    let amount ← readInt amount
    (readDuration name amount unit).map (command key)

structure Signature where
  name : Bytes
  writes : Bool
  form : Form

def table : List Signature := [
  ⟨"ping", false, pingForm⟩,
  ⟨"echo", false, oneOperand .echo⟩,
  ⟨"info", false, infoForm⟩,
  ⟨"dbsize", false, noOperand .count⟩,
  ⟨"flushdb", true, noOperand .flush⟩,
  ⟨"get", false, asking .get⟩,
  ⟨"set", true, setForm⟩,
  ⟨"del", true, someOperands .delete⟩,
  ⟨"exists", false, someOperands .exist⟩,
  ⟨"keys", false, oneOperand .keys⟩,
  ⟨"type", false, asking .kind⟩,
  ⟨"incr", true, oneOperand fun key => .increment key 1⟩,
  ⟨"decr", true, oneOperand fun key => .increment key (-1)⟩,
  ⟨"incrby", true, incrementing readInt⟩,
  ⟨"decrby", true, incrementing readDecrement⟩,
  ⟨"expire", true, timed "expire" 1000 .expireIn⟩,
  ⟨"expireat", true, timed "expireat" 1000 .expireAt⟩,
  ⟨"pexpireat", true, timed "pexpireat" 1 .expireAt⟩,
  ⟨"ttl", false, oneOperand fun key => .remaining key true⟩,
  ⟨"pttl", false, oneOperand fun key => .remaining key false⟩,
  ⟨"persist", true, oneOperand .persist⟩,
  ⟨"lpush", true, keyAndSome fun key items => .edit key (.push .left items)⟩,
  ⟨"rpush", true, keyAndSome fun key items => .edit key (.push .right items)⟩,
  ⟨"lpop", true, oneOperand fun key => .remove key (.pop .left)⟩,
  ⟨"rpop", true, oneOperand fun key => .remove key (.pop .right)⟩,
  ⟨"llen", false, asking .listLength⟩,
  ⟨"lrange", false, listRangeForm⟩,
  ⟨"hset", true, keyAndPairs fun key fields => .ok (.edit key (.setFields fields))⟩,
  ⟨"hget", false, askingOf .field⟩,
  ⟨"hgetall", false, asking .fields⟩,
  ⟨"hkeys", false, asking .fieldNames⟩,
  ⟨"hvals", false, asking .fieldValues⟩,
  ⟨"hdel", true, keyAndSome fun key names => .remove key (.fields names)⟩,
  ⟨"hlen", false, asking .fieldCount⟩,
  ⟨"hexists", false, askingOf .hasField⟩,
  ⟨"sadd", true, keyAndSome fun key members => .edit key (.addMembers members)⟩,
  ⟨"srem", true, keyAndSome fun key members => .remove key (.members members)⟩,
  ⟨"smembers", false, asking .members⟩,
  ⟨"sismember", false, askingOf .hasMember⟩,
  ⟨"scard", false, asking .memberCount⟩,
  ⟨"zadd", true, keyAndPairs fun key members =>
    (readScores members).map fun members => .edit key (.rankMembers members)⟩,
  ⟨"zrem", true, keyAndSome fun key members => .remove key (.ranked members)⟩,
  ⟨"zscore", false, askingOf .score⟩,
  ⟨"zrange", false, rankedForm⟩,
  ⟨"zcard", false, asking .rankedCount⟩,
  ⟨"zrank", false, askingOf .rank⟩]

def signature? (name : Bytes) : Option Signature := table.find? (·.name = name)

/-- The name that a request is looked up by. -/
def nameOf (request : Request) : Bytes := (request.headD []).lower

/-- The signature of a request's name and the command that it spells. -/
def read (request : Request) : Except CommandError (Signature × Command) :=
  let name := nameOf request
  match signature? name with
  | none => .error (.unknownCommand name)
  | some signature =>
    match signature.form request.tail with
    | none => .error (.wrongArgumentCount name)
    | some command => command.map (signature, ·)

end Command
end KeyStore
