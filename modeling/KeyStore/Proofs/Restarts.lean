import KeyStore.Program
import KeyStore.Proofs.Replays

/-!
# Restarts

A server that comes up reads its journal, loads the records that are complete, and then takes out the keys
past their deadline. So it has what the records load, as far as it is visible.
-/

namespace KeyStore

namespace Database

variable {c : Clock} {now : Int} {path : Bytes} {records : List Request} {tail : Bytes} {t : Table Entry}

theorem result_replay (hread : ∀ record ∈ records, Journal.Readable record) (htail : Frame.Incomplete tail)
    (hlater : Journal.laterFrame tail = false) (c : Clock) (path : Bytes) :
    ∃ stats, (replay {} c path (Journal.bytesOf records ++ tail)).result = .ok stats ∧
      stats.skipped = ((setLoading {} true).applyAll c {} records []).result.skipped ∧
      stats.discarded = tail.length := by
  obtain ⟨hrecords, hend, _⟩ := Journal.scan_bytesOf hread htail
  have hcorrupt := (Journal.isCorrupt_scan_bytesOf hread htail).trans hlater
  simp only [Journal.recordsIn] at hrecords
  simp only [replay, hcorrupt, hrecords]
  refine ⟨_, rfl, rfl, ?_⟩
  simp [Journal.Scan.discarded, hcorrupt, hend]

theorem replay_of_loads (hread : ∀ record ∈ records, Journal.Readable record) (htail : Frame.Incomplete tail)
    (hlater : Journal.laterFrame tail = false) (hloads : Loads ∅ records t) (hc : c.Stands now) (path : Bytes) :
    let db := (replay {} c path (Journal.bytesOf records ++ tail)).database
    db.keyspace.entries = t.filter (!·.hasElapsed now) ∧ (Full t → db.keyspace.Sound) := by
  obtain ⟨hrecords, hend, _⟩ := Journal.scan_bytesOf hread htail
  have hcorrupt := (Journal.isCorrupt_scan_bytesOf hread htail).trans hlater
  obtain ⟨hent, _, hidx, hclock⟩ := hloads (setLoading {} true) c now {} [] rfl rfl hc
  have hindexes := hidx Indexes.empty
  simp only [Journal.recordsIn] at hrecords
  simp only [replay, hcorrupt, hrecords]
  generalize (setLoading {} true).applyAll c {} records [] = o at hent hindexes hclock
  have hidx' : Indexes (o.database.setLoading false).keyspace.index (o.database.setLoading false).keyspace.entries :=
    hent ▸ hindexes
  have hfuel : (o.database.setLoading false).keyspace.index.length <
      (o.database.setLoading false).keyspace.volatileSize + 1 := Nat.lt_succ_self _
  obtain ⟨hent', hload', hidx''⟩ := expireAll_spec hidx' hclock hfuel 0
  have hvisible : (o.database.setLoading false).keyspace.visible now = t.filter (!·.hasElapsed now) := by
    rw [Keyspace.visible, ← hent]
    rfl
  rw [hvisible] at hent'
  refine ⟨hent', fun hfull => ⟨hidx'', ?_, rfl, hload'⟩⟩
  intro key e he
  simp only [Bool.false_eq_true, if_false, Keyspace.takeExpired] at he
  rw [hent', Table.find?_filter] at he
  exact hfull key e (Option.filter_eq_some_iff.1 he).1

end Database

namespace Program

variable {c : Clock} {now : Int} {path contents : Bytes} {records : List Request} {tail : Bytes} {t : Table Entry}

/-- A server whose journal is replayed comes up with what was replayed, and goes on with the journal. -/
theorem recover_of_replay {stats : Database.ReplayStats} (h : (Database.replay {} c path contents).result = .ok stats) :
    recover c path (.file contents) =
      let o := Database.replay {} c path contents
      .ok ({ o.database with journal := some { path, contents := Journal.recovered contents } }, o.clock,
        o.notices ++ [replayNotice path stats]) := by
  simp [recover, journalAt, h]

theorem exists_recover (hread : ∀ record ∈ records, Journal.Readable record) (htail : Frame.Incomplete tail)
    (hlater : Journal.laterFrame tail = false) (hloads : Loads ∅ records t) (hc : c.Stands now) (path : Bytes) :
    ∃ db c' notices, recover c path (.file (Journal.bytesOf records ++ tail)) = .ok (db, c', notices) ∧
      db.journal = some { path, contents := Journal.recovered (Journal.bytesOf records ++ tail) } ∧
      db.keyspace.entries = t.filter (!·.hasElapsed now) ∧ (Full t → db.keyspace.Sound) := by
  obtain ⟨stats, hres, _⟩ := Database.result_replay hread htail hlater c path
  obtain ⟨hent, hsound⟩ := Database.replay_of_loads hread htail hlater hloads hc path
  exact ⟨_, _, _, recover_of_replay hres, rfl, hent, hsound⟩

end Program
end KeyStore
