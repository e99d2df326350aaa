import KeyStore.Frame
import KeyStore.Notice
import KeyStore.Transfer

/-!
# The journal

The durability log is a file of frames, one record to a frame, written at its end only. Reading it
takes complete frames from the front. What is left then is the torn end of a record that was being
written, unless a complete frame starts at some later line: then records would be lost with it, and
the journal is corrupt.
-/

namespace KeyStore

structure Journal where
  path : Bytes
  contents : Bytes := []
  records : Nat := 0
  /-- The greatest size that the file may grow to. -/
  limit : Option Nat := none
  deriving DecidableEq

namespace Journal

/-- Appends a record. A record that does not fit is cut, and has failed. With `appendfsync always` a record that is
written whole and counted can fail as well, when `fdatasync` does not get it to the disk: that failure does not occur
here, where what is written is written. -/
def append (j : Journal) (record : List Bytes) : Bool × Journal :=
  let bytes := Frame.encode record
  let room := j.limit.map (· - j.contents.length)
  let t := Transfer.run bytes (Transfer.callsWithin room bytes.length)
  let contents := j.contents ++ t.sent
  if t.outcome = .complete then (true, { j with contents, records := j.records + 1 })
  else (false, { j with contents })

/-- The journal behind what it holds, once that is kept elsewhere. -/
def drained (j : Journal) : Journal := { j with contents := [], limit := none }

/-- Whether a complete frame starts at the beginning of a later line. -/
def laterFrame : Bytes → Bool
  | 13 :: 10 :: 42 :: s =>
    match Frame.parse (42 :: s) with
    | .done .. => true
    | _ => laterFrame (10 :: 42 :: s)
  | _ :: s => laterFrame s
  | [] => false

/-- The records of a journal, each with the offset of its end; the size of the complete frames, some
of which may be empty and no records; and the bytes behind them. -/
structure Scan where
  records : List (List Bytes × Nat)
  valid : Nat
  tail : Bytes
  deriving DecidableEq

def scanFrom : Nat → Nat → Bytes → Scan
  | 0, offset, s => ⟨[], offset, s⟩
  | _ + 1, offset, [] => ⟨[], offset, []⟩
  | fuel + 1, offset, s =>
    match Frame.parse s with
    | .done items size rest =>
      let scan := scanFrom fuel (offset + size) rest
      if items.isEmpty then scan
      else { scan with records := (items, offset + size) :: scan.records }
    | _ => ⟨[], offset, s⟩

def scan (s : Bytes) : Scan := scanFrom s.length 0 s

namespace Scan

def isCorrupt (r : Scan) : Bool := laterFrame r.tail

/-- The size of a torn end. -/
def discarded (r : Scan) : Nat := if r.isCorrupt then 0 else r.tail.length

end Scan

/-- The contents without a torn end. -/
def recovered (s : Bytes) : Bytes :=
  let r := scan s
  if r.discarded = 0 then s else s.take r.valid

structure Corrupt where
  path : Bytes
  offset : Nat
  deriving DecidableEq

def Corrupt.message (e : Corrupt) : Bytes :=
  Bytes.untilNul ("corrupt record in durability log '" ++ e.path ++ "' at offset " ++
    Numeral.ofNat e.offset)

def discardNotices (path : Bytes) (r : Scan) : List Notice :=
  if r.discarded = 0 then []
  else [⟨.warn, "durability log " ++ path ++ ": discarding " ++ Numeral.ofNat r.discarded ++
    " bytes of incomplete trailing record at offset " ++ Numeral.ofNat r.valid⟩]

end Journal
end KeyStore
