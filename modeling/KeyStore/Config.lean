import KeyStore.Notice
import KeyStore.Numeral
import KeyStore.Table

/-!
# Settings

The settings of a server, each with its range. Settings are changed by directives, a name and a
value; the name's case does not matter. Every directive is remembered as it was given, also one that
is refused or not known.
-/

namespace KeyStore

/-- When the journal is forced to the disk. -/
inductive SyncPolicy where
  | always
  | everySecond
  | never
  deriving DecidableEq

structure Config where
  bind : Bytes := "127.0.0.1"
  port : Nat := 2112
  maxClients : Nat := 10000
  /-- Seconds until an idle client is disconnected, or zero. -/
  timeout : Nat := 0
  requirePass : Bytes := []
  appendOnly : Bool := true
  appendFileName : Bytes := "appendonly.aof"
  dir : Bytes := "."
  syncPolicy : SyncPolicy := .everySecond
  /-- Sweeps per second. -/
  hz : Nat := 10
  sweepBatch : Nat := 64
  logLevel : Bytes := "info"
  directives : Table Bytes := ∅
  deriving DecidableEq

inductive ConfigError where
  | invalidValue (name value : Bytes)
  | notYesOrNo (name value : Bytes)
  | cannotOpen (path : Bytes)
  | unexpectedArgument (argument : Bytes)
  | missingValue (argument : Bytes)
  | inFile (path : Bytes) (line : Nat) (cause : ConfigError)
  deriving DecidableEq

namespace ConfigError

/-- The text, which ends before the first NUL byte of what it quotes. -/
def message : ConfigError → Bytes
  | invalidValue name value => Bytes.untilNul ("invalid value '" ++ value ++ "' for '" ++ name ++ "'")
  | notYesOrNo name value =>
    Bytes.untilNul ("invalid value '" ++ value ++ "' for '" ++ name ++ "', expected yes or no")
  | cannotOpen path => Bytes.untilNul ("cannot open config file '" ++ path ++ "'")
  | unexpectedArgument argument => Bytes.untilNul ("unexpected argument '" ++ argument ++ "'")
  | missingValue argument => Bytes.untilNul ("missing value for '" ++ argument ++ "'")
  | inFile path line cause =>
    Bytes.untilNul (path ++ ":" ++ Numeral.ofNat line ++ ": " ++ cause.message)

end ConfigError

namespace Config

/-- No password is needed if the one set is empty. -/
def password (c : Config) : Option Bytes := if c.requirePass.isEmpty then none else some c.requirePass

/-- Joins a directory and a file name; an absolute name stands for itself. -/
def joinPath (dir name : Bytes) : Bytes :=
  if name.head? = some 47 then name
  else if dir.isEmpty ∨ dir.getLast? = some 47 then dir ++ name
  else dir ++ 47 :: name

def journalPath (c : Config) : Bytes := joinPath c.dir c.appendFileName

def readNumber (name value : Bytes) (low high : Nat) : Except ConfigError Nat :=
  match Numeral.readInt value with
  | none => .error (.invalidValue name value)
  | some n => if (low : Int) ≤ n ∧ n ≤ high then .ok n.toNat else .error (.invalidValue name value)

def readBool (name value : Bytes) : Except ConfigError Bool :=
  let v := value.lower
  if v = "yes" ∨ v = "true" ∨ v = "1" then .ok true
  else if v = "no" ∨ v = "false" ∨ v = "0" then .ok false
  else .error (.notYesOrNo name value)

def readSyncPolicy (name value : Bytes) : Except ConfigError SyncPolicy :=
  let v := value.lower
  if v = "always" then .ok .always
  else if v = "everysec" then .ok .everySecond
  else if v = "no" then .ok .never
  else .error (.invalidValue name value)

def readLevel (name value : Bytes) : Except ConfigError Bytes :=
  if (Level.named? value.lower).isSome then .ok value.lower else .error (.invalidValue name value)

def intMax : Nat := 2147483647

/-- The settings after a directive of a lower-case name. A name that is not known changes none. -/
def change (c : Config) (name value : Bytes) : Except ConfigError Config :=
  if name = "port" then (readNumber name value 0 65535).map fun n => { c with port := n }
  else if name = "bind" then .ok { c with bind := value }
  else if name = "maxclients" then
    (readNumber name value 1 intMax).map fun n => { c with maxClients := n }
  else if name = "timeout" then (readNumber name value 0 intMax).map fun n => { c with timeout := n }
  else if name = "requirepass" then .ok { c with requirePass := value }
  else if name = "appendonly" then (readBool name value).map fun b => { c with appendOnly := b }
  else if name = "appendfilename" then .ok { c with appendFileName := value }
  else if name = "dir" then .ok { c with dir := value }
  else if name = "appendfsync" then
    (readSyncPolicy name value).map fun p => { c with syncPolicy := p }
  else if name = "hz" then (readNumber name value 1 500).map fun n => { c with hz := n }
  else if name = "sweep-batch" then
    (readNumber name value 1 1000000).map fun n => { c with sweepBatch := n }
  else if name = "loglevel" then (readLevel name value).map fun l => { c with logLevel := l }
  else .ok c

/-- Applies a directive. A refused one is only remembered. -/
def apply (c : Config) (name value : Bytes) : Config × Option ConfigError :=
  let c := { c with directives := c.directives.insert name.lower value }
  match c.change name.lower value with
  | .ok c => (c, none)
  | .error e => (c, some e)

/-- Applies directives up to the first that is refused. -/
def applyAll (c : Config) : List (Bytes × Bytes) → Except ConfigError Config
  | [] => .ok c
  | (name, value) :: rest =>
    match c.apply name value with
    | (c, none) => c.applyAll rest
    | (_, some e) => .error e

/-- The lines of a text. What follows the last line feed is a line if there is any of it. -/
def linesFrom : List Bytes → Bytes → Bytes → List Bytes
  | done, line, [] => (if line.isEmpty then done else line.reverse :: done).reverse
  | done, line, b :: s => if b = 10 then linesFrom (line.reverse :: done) [] s
    else linesFrom done (b :: line) s

def lines (s : Bytes) : List Bytes := linesFrom [] [] s

/-- The directive of a line, if there is one: a word, and what follows it without white space at its
ends. A number sign starts a comment. -/
def directive? (line : Bytes) : Option (Bytes × Bytes) :=
  let text := Bytes.trim (line.takeWhile (· != 35))
  if text.isEmpty then none
  else some (text.takeWhile (!Bytes.isSpace ·), Bytes.trim (text.dropWhile (!Bytes.isSpace ·)))

def applyLines (c : Config) (path : Bytes) (n : Nat) : List Bytes → Except ConfigError Config
  | [] => .ok c
  | line :: rest =>
    match directive? line with
    | none => c.applyLines path (n + 1) rest
    | some (name, value) =>
      match c.apply name value with
      | (c, none) => c.applyLines path (n + 1) rest
      | (_, some e) => .error (.inFile path n e)

/-- The settings of a file, given its contents if it could be opened. No path, no file. -/
def ofFile (path : Bytes) (contents : Option Bytes) : Except ConfigError Config :=
  if path.isEmpty then .ok {}
  else
    match contents with
    | none => .error (.cannotOpen path)
    | some s => applyLines {} path 1 (lines s)

end Config
end KeyStore
