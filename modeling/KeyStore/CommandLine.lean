import KeyStore.Config

/-!
# The command line

Flags with a value each: one names a file of directives, every other is a directive itself. The file
is read first, wherever its flag stands, and of several the last.
-/

namespace KeyStore

structure CommandLine where
  help : Bool := false
  configPath : Bytes := []
  directives : List (Bytes × Bytes) := []
  deriving DecidableEq

namespace CommandLine

def isHelp (argument : Bytes) : Bool := argument = "--help" || argument = "-h"

/-- Reads flags, and tells what has been read when one is refused. -/
def readFrom (l : CommandLine) : List Bytes → CommandLine × Option ConfigError
  | [] => ({ l with directives := l.directives.reverse }, none)
  | [flag] =>
    if isHelp flag then ({ l with help := true, directives := l.directives.reverse }, none)
    else if flag.take 2 = "--" then (l, some (.missingValue flag))
    else (l, some (.unexpectedArgument flag))
  | flag :: value :: rest =>
    if isHelp flag then readFrom { l with help := true } (value :: rest)
    else if flag.take 2 ≠ "--" then (l, some (.unexpectedArgument flag))
    else if flag = "--config" then readFrom { l with configPath := value } rest
    else readFrom { l with directives := (flag.drop 2, value) :: l.directives } rest

/-- Reads the arguments, each up to its first NUL byte. -/
def read (arguments : List Bytes) : CommandLine × Option ConfigError :=
  readFrom {} (arguments.map Bytes.untilNul)

/-- The settings of a command line, given how the contents of a file are found. -/
def settings (l : CommandLine) (open? : Bytes → Option Bytes) : Except ConfigError Config :=
  match Config.ofFile l.configPath (open? l.configPath) with
  | .error e => .error e
  | .ok c => c.applyAll l.directives

/-- The settings that arguments ask for, given how the contents of a file are found, and whether they ask for help. -/
def configure (arguments : List Bytes) (open? : Bytes → Option Bytes) : Except ConfigError (Config × Bool) :=
  match read arguments with
  | (_, some e) => .error e
  | (l, none) => (l.settings open?).map (·, l.help)

def usage : Bytes :=
  "Usage: hexkv-server [--config <path>] [--port <port>] [--bind <ip>] [--requirepass <password>]\n" ++
  "                    [--appendonly yes|no] [--appendfilename <name>] [--dir <path>]\n" ++
  "                    [--appendfsync always|everysec|no] [--maxclients <n>] [--timeout <sec>]\n" ++
  "                    [--loglevel error|warn|info|debug]\n"

end CommandLine
end KeyStore
