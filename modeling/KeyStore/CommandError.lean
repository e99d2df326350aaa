import KeyStore.Numeral

/-!
# Why a command fails

A cause and its text. The text ends before the first NUL byte that a quoted name holds.
-/

namespace KeyStore

inductive CommandError where
  | unknownCommand (name : Bytes)
  | wrongArgumentCount (name : Bytes)
  | typeMismatch
  | notAnInteger
  | notAFloat
  | badSyntax
  | invalidExpireTime (command : Bytes)
  | authRequired
  | passwordNotConfigured
  | invalidPassword (failures limit : Int)
  | tooManyAttempts (failures limit : Int)
  | persistenceFailure
  deriving DecidableEq

namespace CommandError

def wording : CommandError → Bytes
  | unknownCommand name => "unknown command '" ++ name ++ "'"
  | wrongArgumentCount name => "wrong number of arguments for '" ++ name ++ "'"
  | typeMismatch => "WRONGTYPE Operation against a key holding the wrong kind of value"
  | notAnInteger => "value is not an integer or out of range"
  | notAFloat => "value is not a valid float"
  | badSyntax => "syntax error"
  | invalidExpireTime command => "invalid expire time in '" ++ command ++ "'"
  | authRequired => "NOAUTH Authentication required"
  | passwordNotConfigured => "AUTH called without any password configured"
  | invalidPassword failures limit =>
    "invalid password (" ++ Numeral.ofInt failures ++ "/" ++ Numeral.ofInt limit ++ ")"
  | tooManyAttempts failures limit =>
    "invalid password (" ++ Numeral.ofInt failures ++ "/" ++ Numeral.ofInt limit ++
      "), too many failed attempts, closing connection"
  | persistenceFailure => "failed to append to the durability log"

def message (e : CommandError) : Bytes := e.wording.untilNul

end CommandError
end KeyStore
