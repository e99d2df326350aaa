import KeyStore.Proofs.Invariants
import KeyStore.Proofs.Partitions

/-!
# Replays of any bytes

The records of a journal are run while deadlines are not enforced. One that is refused then leaves everything as it
was (`Database.execute_of_error`), so those that are accepted lead to the same by themselves
(`Database.applyAll_accepted`). At the end the keys past their deadline are taken out, batch by batch, until there
are none (`Database.size_expireAll`). So whatever the bytes are, a replay leaves a sound store without any such key,
or stops at damage with what is in front of it (`Database.replay_clean`).
-/

namespace KeyStore

theorem Indexes.eq {index index' : Ranking Int} {entries : Table Entry} (h : Indexes index entries)
    (h' : Indexes index' entries) : index = index' := by
  refine (h.perm.trans h'.perm.symm).eq_of_pairwise (fun x y _ _ hxy hyx => ?_) h.ascending h'.ascending
  rw [Ranking.compare_gt_iff.2 hxy] at hyx
  cases hyx

namespace Keyspace

variable {ks : Keyspace} {now : Int} {key : Bytes}

theorem Does.unique {α : Type} {act : Action α} {a a' : After α} (hi : Indexes ks.index ks.entries)
    (h : ks.Does now key act a) (h' : ks.Does now key act a') : a.result = a'.result ∧ a.keyspace = a'.keyspace := by
  have hentries : a.keyspace.entries = a'.keyspace.entries := h.2.entries.trans h'.2.entries.symm
  have hindex : a.keyspace.index = a'.keyspace.index := (h.2.indexes hi).eq (hentries ▸ h'.2.indexes hi)
  have hexpired : a.keyspace.expired = a'.keyspace.expired := h.2.expired.trans h'.2.expired.symm
  have hunlogged : a.keyspace.unlogged = a'.keyspace.unlogged := h.2.unlogged.trans h'.2.unlogged.symm
  have hloading : a.keyspace.loading = a'.keyspace.loading := h.2.loading.trans h'.2.loading.symm
  refine ⟨h.1.trans h'.1.symm, ?_⟩
  cases hks : a.keyspace
  cases hks' : a'.keyspace
  simp_all

end Keyspace
namespace Command

open Keyspace

variable {ks : Keyspace} {now : Int} {c c' : Clock} {report : Keyspace → Bytes} {request : Request}
  {command : Command} {e : CommandError}

theorem modify_of_error {α : Type} {k : Kind} {key : Bytes} {f : k.Content → k.Content × α}
    (hl : ks.loading = true) (h : (ks.modify c k key f).result = .error e) : (ks.modify c k key f).keyspace = ks := by
  simp only [Keyspace.modify, Keyspace.live_of_loading hl] at h ⊢
  split at h
  · cases h
  · next x _ =>
    cases hv : x.value.as? k with
    | none => rfl
    | some content => simp [hv] at h

theorem keyspace_find (hl : ks.loading = true) (k : Kind) (key : Bytes) : (ks.find c k key).keyspace = ks := by
  simp only [Keyspace.find, Keyspace.get, Keyspace.live_of_loading hl]

theorem runRemoval_of_error {key : Bytes} {r : Removal} (hl : ks.loading = true)
    (h : (runRemoval ks c request key r).result = .error e) : (runRemoval ks c request key r).keyspace = ks := by
  simp only [runRemoval, keyspace_find hl] at h ⊢
  split at h
  · rfl
  · cases h
  · exact modify_of_error hl (map_eq_error h)

theorem run_of_error (hl : ks.loading = true) (h : (command.run report request ks c).result = .error e) :
    (command.run report request ks c).keyspace = ks := by
  cases command with
  | ask key query => simp only [run, Keyspace.get, Keyspace.live_of_loading hl]
  | increment key delta =>
    simp only [run, Keyspace.increment, Keyspace.live_of_loading hl] at h ⊢
    split at h
    · rfl
    · cases h
  | edit key edit => exact modify_of_error hl (map_eq_error h)
  | remove key r => exact runRemoval_of_error hl h
  | ping message => cases message <;> cases h
  | flush =>
    simp only [run] at h
    split at h <;> cases h
  | _ => cases h

theorem stands_run (hc : c.Stands now) (ks : Keyspace) (report : Keyspace → Bytes) (request : Request)
    (command : Command) : (command.run report request ks c).clock.Stands now := by
  cases hact : command.action? request now ks.loading with
  | some p => exact (ks.does_run hc report hact).2.clock
  | none =>
    cases command with
    | ping message => cases message <;> exact hc
    | flush =>
      simp only [run]
      split <;> exact hc
    | echo message => exact hc
    | info => exact hc
    | count => exact hc
    | keys pattern => exact hc.next
    | exist names =>
      obtain ⟨_, hturns⟩ := exists_turns_countAll ks hc 0 names
      exact hturns.clock
    | delete names =>
      obtain ⟨_, hdeletes⟩ := exists_deletes ks hc names
      exact hdeletes.turns.clock
    | _ => cases hact

theorem deleteAll_of_stands (hi : Indexes ks.index ks.entries) (hc : c.Stands now) (hc' : c'.Stands now)
    (names : List Bytes) :
    (deleteAll ks c names).result = (deleteAll ks c' names).result ∧
      (deleteAll ks c names).keyspace = (deleteAll ks c' names).keyspace := by
  induction names generalizing ks c c' with
  | nil => exact ⟨rfl, rfl⟩
  | cons name names ih =>
    have hdoes := ks.does_delete hc name
    have hdoes' := ks.does_delete hc' name
    obtain ⟨hresult, hkeyspace⟩ := hdoes.unique hi hdoes'
    obtain ⟨hrest, hafter⟩ := ih (hdoes.2.indexes hi) hdoes.2.clock hdoes'.2.clock
    simp only [deleteAll, ← hresult, ← hkeyspace]
    exact ⟨by rw [hrest], hafter⟩

theorem countAll_of_stands (hi : Indexes ks.index ks.entries) (hc : c.Stands now) (hc' : c'.Stands now) (n : Nat)
    (names : List Bytes) :
    (countAll ks c n names).result = (countAll ks c' n names).result ∧
      (countAll ks c n names).keyspace = (countAll ks c' n names).keyspace := by
  induction names generalizing ks c c' n with
  | nil => exact ⟨rfl, rfl⟩
  | cons name names ih =>
    have hdoes := ks.does_contains hc name
    have hdoes' := ks.does_contains hc' name
    obtain ⟨hresult, hkeyspace⟩ := hdoes.unique hi hdoes'
    simp only [countAll, ← hresult, ← hkeyspace]
    exact ih (hdoes.2.indexes hi) hdoes.2.clock hdoes'.2.clock _

theorem run_of_stands (hi : Indexes ks.index ks.entries) (hc : c.Stands now) (hc' : c'.Stands now)
    (report : Keyspace → Bytes) (request : Request) (command : Command) :
    (command.run report request ks c).result = (command.run report request ks c').result ∧
      (command.run report request ks c).keyspace = (command.run report request ks c').keyspace := by
  cases hact : command.action? request now ks.loading with
  | some p => exact (ks.does_run hc report hact).unique hi (ks.does_run hc' report hact)
  | none =>
    cases command with
    | ping message => cases message <;> exact ⟨rfl, rfl⟩
    | echo message => exact ⟨rfl, rfl⟩
    | info => exact ⟨rfl, rfl⟩
    | count => exact ⟨rfl, rfl⟩
    | flush =>
      simp only [run]
      split <;> exact ⟨rfl, rfl⟩
    | keys pattern =>
      simp only [run, keysMatching, Clock.read, hc.now_eq, hc'.now_eq]
      exact ⟨trivial, trivial⟩
    | exist names =>
      obtain ⟨hresult, hkeyspace⟩ := countAll_of_stands hi hc hc' 0 names
      simp only [run, hresult, hkeyspace]
      exact ⟨trivial, trivial⟩
    | delete names =>
      obtain ⟨hresult, hkeyspace⟩ := deleteAll_of_stands hi hc hc' names
      simp only [run, hresult, hkeyspace]
      exact ⟨trivial, trivial⟩
    | _ => cases hact

end Command

namespace Database

variable {db : Database} {c : Clock} {now : Int} {record : Request} {records : List Request}

/-- The database after the records were run without enforcing deadlines. -/
def load (db : Database) (c : Clock) (records : List Request) : Outcome ReplayStats :=
  (db.setLoading true).applyAll c {} records []

def accepted (db : Database) (c : Clock) : List Request → List Request
  | [] => []
  | record :: rest =>
    let o := db.execute c record true
    match o.result with
    | .ok _ => record :: accepted o.database o.clock rest
    | .error _ => accepted o.database o.clock rest

theorem execute_of_error (h : db.keyspace.AtRest true) {e : CommandError}
    (he : (db.execute c record true).result = .error e) : (db.execute c record true).database = db := by
  cases hread : Command.read record with
  | error e' => rw [execute_of_read_error hread]
  | ok p =>
    obtain ⟨signature, command⟩ := p
    rw [execute_of_read hread] at he ⊢
    have hrun : (command.run db.report record db.keyspace c).result = .error e := Command.map_eq_error he
    -- nothing expired either, so taking that out changes nothing
    have htaken : db.keyspace.takeExpired.2 = db.keyspace := by
      simp only [Keyspace.takeExpired, ← h.unlogged]
    simp only [Command.run_of_error h.loading hrun, htaken]

theorem execute_replaying (db : Database) (c : Clock) (record : Request) :
    (db.execute c record true).database.journal = db.journal ∧ (db.execute c record true).database.info = db.info := by
  simp only [execute]
  split <;> exact ⟨rfl, rfl⟩

theorem stands_execute (hc : c.Stands now) (db : Database) (record : Request) :
    (db.execute c record true).clock.Stands now := by
  simp only [execute]
  split
  · exact Command.stands_clockOfRefused hc _
  · exact Command.stands_run hc db.keyspace db.report record _

theorem execute_of_stands (hi : Indexes db.keyspace.index db.keyspace.entries) (hc : c.Stands now) {c' : Clock}
    (hc' : c'.Stands now) (record : Request) :
    (db.execute c record true).result = (db.execute c' record true).result ∧
      (db.execute c record true).database = (db.execute c' record true).database := by
  cases hread : Command.read record with
  | error e =>
    rw [execute_of_read_error hread, execute_of_read_error hread]
    exact ⟨rfl, rfl⟩
  | ok p =>
    obtain ⟨hresult, hkeyspace⟩ := Command.run_of_stands hi hc hc' db.report record p.2
    rw [execute_of_read hread, execute_of_read hread]
    simp only [hresult, hkeyspace]
    exact ⟨trivial, trivial⟩

theorem applyAll_replaying (db : Database) (c : Clock) (stats : ReplayStats) (records : List Request)
    (notices : List Notice) :
    (db.applyAll c stats records notices).database.journal = db.journal ∧
      (db.applyAll c stats records notices).database.info = db.info := by
  induction records generalizing db c stats notices with
  | nil => exact ⟨rfl, rfl⟩
  | cons record records ih =>
    obtain ⟨hjournal, hinfo⟩ := db.execute_replaying c record
    rw [← hjournal, ← hinfo]
    simp only [applyAll]
    split <;> exact ih ..

theorem stands_applyAll (hc : c.Stands now) (db : Database) (stats : ReplayStats) (records : List Request)
    (notices : List Notice) : (db.applyAll c stats records notices).clock.Stands now := by
  induction records generalizing db c stats notices with
  | nil => exact hc
  | cons record records ih =>
    simp only [applyAll]
    split <;> exact ih (stands_execute hc db record) _ _ _

theorem accepted_sublist (db : Database) (c : Clock) (records : List Request) :
    (db.accepted c records).Sublist records := by
  induction records generalizing db c with
  | nil => exact .slnil
  | cons record records ih =>
    simp only [accepted]
    split
    · exact (ih ..).cons_cons record
    · exact (ih ..).cons record

/-- The accepted records by themselves are all accepted, and lead to the same database as all records; the others are
those that were skipped. -/
theorem applyAll_accepted (h : db.keyspace.AtRest true) (hc : c.Stands now) {c' : Clock} (hc' : c'.Stands now)
    (stats stats' : ReplayStats) (records : List Request) (notices notices' : List Notice) :
    let o := db.applyAll c stats records notices
    let o' := db.applyAll c' stats' (db.accepted c records) notices'
    o'.database = o.database ∧ o'.result = { stats' with applied := stats'.applied + (db.accepted c records).length } ∧
      o.result.applied = stats.applied + (db.accepted c records).length ∧
      o.result.applied + o.result.skipped = stats.applied + stats.skipped + records.length := by
  induction records generalizing db c c' stats stats' notices notices' with
  | nil => exact ⟨rfl, rfl, rfl, rfl⟩
  | cons record records ih =>
    have hnext := stands_execute hc db record
    cases hres : (db.execute c record true).result with
    | error e =>
      -- a refused record may have looked at the time, which those behind it do not notice
      simp only [applyAll, accepted, hres, execute_of_error h hres]
      obtain ⟨hdb, hstats, happlied, htotal⟩ := ih h hnext hc' { stats with skipped := stats.skipped + 1 } stats'
        (skipNotice record e :: notices) notices'
      refine ⟨hdb, hstats, happlied, ?_⟩
      simp only [htotal, List.length_cons]
      omega
    | ok reply =>
      obtain ⟨hsame, hdatabase⟩ := execute_of_stands h.indexes hc hc' record
      simp only [applyAll, accepted, hres, ← hsame, ← hdatabase]
      obtain ⟨hdb, hstats, happlied, htotal⟩ := ih (atRest_execute h c record true) hnext (stands_execute hc' db record)
        { stats with applied := stats.applied + 1 } { stats' with applied := stats'.applied + 1 } notices notices'
      refine ⟨hdb, ?_, ?_, ?_⟩
      · rw [hstats, List.length_cons, Nat.add_assoc, Nat.add_comm 1]
      · simp only [happlied, List.length_cons]
        omega
      · simp only [htotal, List.length_cons]
        omega

theorem size_removeExpired {ks : Keyspace} (h : Indexes ks.index ks.entries) (c : Clock) (limit : Nat) :
    ks.size = (ks.removeExpired c limit).keyspace.size + (ks.removeExpired c limit).result := by
  have hdue : (Keyspace.due c.now limit ks.index).Sublist ks.index :=
    (List.take_sublist ..).trans (List.takeWhile_sublist _)
  rw [Keyspace.removeExpired_eq h]
  refine Table.size_eraseAll (h.nodup_keys.sublist (hdue.map _)) fun key hkey => ?_
  obtain ⟨x, hx, rfl⟩ := List.mem_map.1 hkey
  obtain ⟨e, he, -⟩ := Keyspace.hasElapsed_of_mem_due h hx
  exact ⟨e, he⟩

theorem size_expireAll {ks : Keyspace} (h : Indexes ks.index ks.entries) (c : Clock) (n fuel : Nat) :
    ks.size + n = (expireAll ks c n fuel).keyspace.size + (expireAll ks c n fuel).result := by
  induction fuel generalizing ks c n with
  | zero => rfl
  | succ fuel ih =>
    have hsize := size_removeExpired h c sweepBatch
    rw [expireAll]
    split
    · next hnone => rw [hsize, hnone, Nat.add_zero]
    · have hrest := ih (Keyspace.swept_removeExpired h c sweepBatch).indexes (ks.removeExpired c sweepBatch).clock
        (n + (ks.removeExpired c sweepBatch).result)
      rw [← hrest, hsize]
      omega

theorem atRest_setLoading (h : db.keyspace.Sound) : (db.setLoading true).keyspace.AtRest true :=
  ⟨⟨h.indexes, h.full, rfl⟩, h.unlogged⟩

/-- At every place of the records, one that is refused there leaves what the records before it have loaded. -/
theorem load_of_refused (h : db.keyspace.Sound) (c : Clock) (before : List Request) {e : CommandError}
    (he : ((db.load c before).database.execute (db.load c before).clock record true).result = .error e) :
    ((db.load c before).database.execute (db.load c before).clock record true).database =
      (db.load c before).database := by
  have hrest := atRest_applyAll (atRest_setLoading h) c {} before []
  exact execute_of_error hrest he

theorem load_accepted (h : db.keyspace.Sound) (hc : c.Stands now) (records : List Request) :
    let accepted := (db.setLoading true).accepted c records
    (db.load c accepted).database = (db.load c records).database ∧
      (db.load c accepted).result = { applied := accepted.length } ∧
      (db.load c records).result.applied = accepted.length ∧
      (db.load c records).result.applied + (db.load c records).result.skipped = records.length := by
  have hall := applyAll_accepted (atRest_setLoading h) hc hc {} {} records [] []
  simp only [Nat.zero_add] at hall
  exact hall

theorem replay_eq (db : Database) (c : Clock) (path contents : Bytes) :
    db.replay c path contents =
      let loaded := db.load c (Journal.recordsIn contents)
      let db := loaded.database.setLoading false
      let scan := Journal.scan contents
      if scan.isCorrupt then ⟨.error ⟨path, scan.valid⟩, db, loaded.clock, loaded.notices⟩
      else
        let a := expireAll db.keyspace loaded.clock 0 (db.keyspace.volatileSize + 1)
        ⟨.ok { loaded.result with discarded := scan.discarded, expired := a.result },
          { db with keyspace := a.keyspace.takeExpired.2 }, a.clock,
          loaded.notices ++ Journal.discardNotices path scan⟩ := rfl

/-- A replay up to the end of the journal. -/
theorem replay_of_ok (h : db.keyspace.Sound) (hc : c.Stands now) {path contents : Bytes} {stats : ReplayStats}
    (hok : (db.replay c path contents).result = .ok stats) :
    let loaded := db.load c (Journal.recordsIn contents)
    let ks := (db.replay c path contents).database.keyspace
    stats.applied = loaded.result.applied ∧ stats.skipped = loaded.result.skipped ∧
      ks.entries = loaded.database.keyspace.visible now ∧
      loaded.database.keyspace.size = ks.size + stats.expired := by
  have hrest : (db.load c (Journal.recordsIn contents)).database.keyspace.AtRest true :=
    atRest_applyAll (atRest_setLoading h) c {} _ []
  have hstands : (db.load c (Journal.recordsIn contents)).clock.Stands now :=
    stands_applyAll hc (db.setLoading true) {} _ []
  rw [replay_eq] at hok ⊢
  generalize db.load c (Journal.recordsIn contents) = loaded at *
  have hindexes : Indexes (loaded.database.setLoading false).keyspace.index
    (loaded.database.setLoading false).keyspace.entries := hrest.indexes
  have hfuel := Nat.lt_succ_self (loaded.database.setLoading false).keyspace.volatileSize
  obtain ⟨hentries, -⟩ := expireAll_spec hindexes hstands hfuel 0
  have hsize := size_expireAll hindexes loaded.clock 0 ((loaded.database.setLoading false).keyspace.volatileSize + 1)
  simp only at hok ⊢
  split at hok
  · cases hok
  · next hgood =>
    cases hok
    rw [if_neg hgood]
    exact ⟨rfl, rfl, hentries, hsize⟩

theorem replay_of_error {path contents : Bytes} {e : Journal.Corrupt}
    (herror : (db.replay c path contents).result = .error e) :
    (db.replay c path contents).database.keyspace.entries =
      (db.load c (Journal.recordsIn contents)).database.keyspace.entries := by
  rw [replay_eq] at herror ⊢
  simp only at herror ⊢
  split at herror
  · next hcorrupt =>
    rw [if_pos hcorrupt]
    rfl
  · cases herror

theorem replay_replaying (db : Database) (c : Clock) (path contents : Bytes) :
    (db.replay c path contents).database.journal = db.journal ∧
      (db.replay c path contents).database.info = db.info := by
  obtain ⟨hjournal, hinfo⟩ := (db.setLoading true).applyAll_replaying c {} (Journal.recordsIn contents) []
  simp only [replay]
  split <;> exact ⟨hjournal, hinfo⟩

/-- A replay of any bytes under a clock that stands. Whether it comes to the end of the journal or stops at damage,
the store is left sound, nothing is appended and no request is counted; and a record that is refused, wherever it
stands, changes nothing. At the end each record has been applied or skipped; what is left is what the applied ones
by themselves have loaded, without the keys past their deadline, and as many of these were taken out as are told. At
damage what is left is what the records in front of it have loaded. -/
theorem replay_clean (h : db.keyspace.Sound) (hc : c.Stands now) (path contents : Bytes) :
    let records := Journal.recordsIn contents
    let accepted := (db.setLoading true).accepted c records
    let loaded := (db.load c accepted).database.keyspace
    let o := db.replay c path contents
    let ks := o.database.keyspace
    (ks.Sound ∧ o.database.journal = db.journal ∧ o.database.info = db.info) ∧
      (∀ before record e, ((db.load c before).database.execute (db.load c before).clock record true).result = .error e →
        ((db.load c before).database.execute (db.load c before).clock record true).database =
          (db.load c before).database) ∧
      (∀ stats, o.result = .ok stats →
        (accepted.Sublist records ∧ (db.load c accepted).result = { applied := accepted.length }) ∧
          stats.applied = accepted.length ∧ stats.applied + stats.skipped = records.length ∧
          ks.entries = loaded.entries.filter (!·.hasElapsed now) ∧
          (∀ key e, ks.entries.find? key = some e → e.hasElapsed now = false) ∧ ks.size = (ks.visible now).size ∧
          loaded.size = ks.size + stats.expired) ∧
      ∀ e, o.result = .error e → e = ⟨path, (Journal.scan contents).valid⟩ ∧
        ks.entries = (db.load c (Journal.recordsIn (contents.take e.offset))).database.keyspace.entries := by
  intro records accepted loaded o ks
  refine ⟨⟨sound_replay h c path contents, replay_replaying db c path contents⟩,
    fun before record e he => load_of_refused h c before he, fun stats hok => ?_, fun e herror => ?_⟩
  · obtain ⟨hdb, hall, happlied, htotal⟩ := load_accepted h hc records
    obtain ⟨happlied', hskipped, hentries, hsize⟩ := replay_of_ok h hc hok
    have hloaded : loaded = (db.load c records).database.keyspace := congrArg (·.keyspace) hdb
    have hnone : ∀ key e, ks.entries.find? key = some e → e.hasElapsed now = false := by
      intro key e he
      rw [hentries, Keyspace.find?_visible] at he
      simpa using (Option.filter_eq_some_iff.1 he).2
    have hvisible : ks.visible now = ks.entries := Table.ext_find? fun key => by
      rw [Keyspace.find?_visible]
      cases he : ks.entries.find? key with
      | none => rfl
      | some e => simp [Option.filter, hnone key e he]
    refine ⟨⟨accepted_sublist _ c records, hall⟩, happlied'.trans happlied, ?_, ?_, hnone,
      congrArg Table.size hvisible.symm, ?_⟩
    · rw [happlied', hskipped, htotal]
    · rw [hloaded, hentries]
      rfl
    · rw [hloaded, hsize]
  · obtain ⟨-, rfl⟩ := Journal.replay_eq_error_iff.1 herror
    rw [Journal.recordsIn_take_valid]
    exact ⟨rfl, replay_of_error herror⟩

/-- A log with records that are refused and one whose key is past its deadline, and one that is damaged, replayed on a
live database that holds such a key. -/
theorem replay_clean_of_skipped :
    let set : Request := ["SET", "b", "2"]
    let live := ((fresh "log" none).dispatch (.standing 1000) (.start none) ["SET", "k", "v", "PX", "500"]).database
    let file : Bytes := Journal.bytesOf [["SET", "a", "1"], ["LPUSH", "a", "x"], ["PEXPIREAT", "a", "1900"], ["NO"],
      ["GET", "a"], set] ++ "*2\r\n$7\r\nFLUSH"
    let damaged : Bytes := Journal.bytesOf [set] ++ "\r\n" ++ Journal.bytesOf [["FLUSHDB"]]
    let o := live.replay (.standing 2000) "log" file
    let o' := live.replay (.standing 2000) "log" damaged
    (o.database.keyspace.Sound ∧ o.database.journal = live.journal ∧ o.result = .ok ⟨4, 2, 13, 2⟩ ∧
        o.database.keyspace.size = (o.database.keyspace.visible 2000).size) ∧
      o'.database.keyspace.Sound ∧ o'.result = .error ⟨"log", 27⟩ ∧
        o'.database.keyspace.entries =
          (live.load (.standing 2000) [set]).database.keyspace.entries := by
  intro set live file damaged o o'
  have hlive : live.keyspace.Sound := sound_dispatch Keyspace.sound_empty _ _ _
  have hc := Clock.stands_standing 2000
  have hok : o.result = .ok ⟨4, 2, 13, 2⟩ := by
    have hstats : o.result.toOption = some ⟨4, 2, 13, 2⟩ := by decide +kernel
    cases hres : o.result with
    | error e =>
      rw [hres] at hstats
      cases hstats
    | ok stats =>
      rw [hres] at hstats
      exact congrArg Except.ok (Option.some.inj hstats)
  have herror : o'.result = .error ⟨"log", 27⟩ :=
    Journal.replay_eq_error_iff.2 ⟨by decide +kernel, by decide +kernel⟩
  have hbefore : Journal.recordsIn (damaged.take 27) = [set] := by decide +kernel
  have hgood := replay_clean hlive hc "log" file
  have hbad := replay_clean hlive hc "log" damaged
  have ho : live.replay (.standing 2000) "log" file = o := rfl
  have ho' : live.replay (.standing 2000) "log" damaged = o' := rfl
  -- the replays are not to be run again from here on
  clear_value o o'
  simp only [ho, ho'] at hgood hbad
  obtain ⟨⟨hsound, hjournal, -⟩, -, hclean, -⟩ := hgood
  obtain ⟨⟨hsound', -⟩, -, -, hstopped⟩ := hbad
  obtain ⟨-, -, -, -, -, hsize, -⟩ := hclean _ hok
  obtain ⟨-, hentries⟩ := hstopped _ herror
  rw [hbefore] at hentries
  exact ⟨⟨hsound, hjournal, hok, hsize⟩, hsound', herror, hentries⟩

end Database
end KeyStore
