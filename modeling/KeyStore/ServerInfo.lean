import KeyStore.Numeral

/-!
# Counters

What the server counts about itself, and the report it gives of it.
-/

namespace KeyStore

structure ServerInfo where
  uptime : Int := 0
  connected : Int := 0
  connections : Nat := 0
  rejected : Nat := 0
  commands : Nat := 0
  lockouts : Nat := 0
  deriving DecidableEq

namespace ServerInfo

def row (name : String) (n : Int) : Bytes := name ++ ":" ++ Numeral.ofInt n ++ Bytes.crlf

def heading (title : String) : Bytes := "# " ++ title ++ Bytes.crlf

/-- The report. `journal` is the number of records appended, if there is a journal. -/
def report (s : ServerInfo) (journal : Option Nat) (expired keys volatiles : Nat) : Bytes :=
  heading "Server" ++
  "hexkv_version:1.0.0" ++ Bytes.crlf ++
  row "uptime_in_seconds" s.uptime ++ Bytes.crlf ++
  heading "Clients" ++
  row "connected_clients" s.connected ++
  row "total_connections_received" s.connections ++
  row "rejected_connections" s.rejected ++
  row "auth_lockouts" s.lockouts ++ Bytes.crlf ++
  heading "Stats" ++
  row "total_commands_processed" s.commands ++
  row "expired_keys" expired ++ Bytes.crlf ++
  heading "Persistence" ++
  row "aof_enabled" (if journal.isSome then 1 else 0) ++
  row "aof_records_appended" (journal.getD 0) ++ Bytes.crlf ++
  heading "Keyspace" ++
  row "keys" keys ++
  row "expires" volatiles

end ServerInfo
end KeyStore
