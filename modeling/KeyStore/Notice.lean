import KeyStore.Bytes

/-!
# Notices

What the store tells its operator: lines of four levels of urgency, of which those above a chosen
level are left out.
-/

namespace KeyStore

inductive Level where
  | error
  | warn
  | info
  | debug
  deriving DecidableEq

namespace Level

/-- Zero is the most urgent. -/
def rank : Level → Nat
  | error => 0
  | warn => 1
  | info => 2
  | debug => 3

def label : Level → Bytes
  | error => "ERROR"
  | warn => "WARN"
  | info => "INFO"
  | debug => "DEBUG"

def named? (name : Bytes) : Option Level :=
  if name = "error" then some .error
  else if name = "warn" then some .warn
  else if name = "info" then some .info
  else if name = "debug" then some .debug
  else none

/-- A name that is no level's stands for `info`. -/
def ofName (name : Bytes) : Level := (named? name).getD .info

end Level

structure Notice where
  level : Level
  text : Bytes
  deriving DecidableEq

namespace Notice

def line (n : Notice) : Bytes := "[" ++ n.level.label ++ "] " ++ n.text ++ "\n"

def shownAt (threshold : Level) (n : Notice) : Bool := n.level.rank ≤ threshold.rank

def report (threshold : Level) (notices : List Notice) : Bytes :=
  (notices.filter (shownAt threshold)).flatMap line

end Notice
end KeyStore
