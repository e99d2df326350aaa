import KeyStore.Proofs.Answers
import KeyStore.Proofs.Cycles
import KeyStore.Proofs.Expiry
import KeyStore.Proofs.Stored

/-!
# Expirations

An event takes out some keys because their deadline has come (`Database.expiring`): the keys that a command looks up, or
the front of the index. It counts each of them once and tells the log of each once, ahead of what the command itself has
to tell (`Database.Expires`), and so does a course of events (`Database.expirations_exact`).
-/

namespace KeyStore

def Event.command? : Event → Option Command
  | .request session r => if session.isAuthenticated then (Command.read r).toOption.map (·.2) else none
  | .sweep _ | .cycle _ => none

theorem Event.exists_of_command? {session : Session} {request : Request} {command : Command}
    (h : (Event.request session request).command? = some command) :
    session.isAuthenticated = true ∧ ∃ signature, Command.read request = .ok (signature, command) := by
  simp only [command?] at h
  split at h
  · next hs =>
    cases hread : Command.read request with
    | error e =>
      rw [hread] at h
      cases h
    | ok p =>
      rw [hread] at h
      cases h
      exact ⟨hs, p.1, rfl⟩
  · cases h

namespace Command

open Keyspace

variable {ks : Keyspace} {now : Int} {c : Clock} {request : Request} {command : Command} {m m' : Table Entry}
  {records : List Request} {names : List Bytes} {key : Bytes}

theorem Told.hasElapsed_of_new (h : Told request now m records m') (hnone : m.find? key = none) {e : Entry}
    (he : m'.find? key = some e) : e.hasElapsed now = false := by
  have hold : m.find? key ≠ some e := fun heq => by cases hnone.symm.trans heq
  cases h with
  | nothing => exact absurd he hold
  | flushed hread => cases he
  | deleted hread hne => exact absurd (Table.eraseAll_subset _ _ key e he) hold
  | stored hread =>
    obtain ⟨_, hx⟩ := (Table.of_find?_put he).resolve_right hold
    cases hx
    rfl
  | @storedUntil _ k value ms hread =>
    obtain ⟨_, hx⟩ := (Table.of_find?_put he).resolve_right hold
    cases hx
    have hms : 0 < ms := (spelled_of_read hread).proper.1
    simp only [Entry.hasElapsed, decide_eq_false_iff_not]
    omega
  | scheduled hread hd hx =>
    obtain ⟨rfl, _⟩ := (Table.of_find?_put he).resolve_right hold
    cases hnone.symm.trans hx
  | updated hread hup =>
    obtain ⟨rfl, hx⟩ := (Table.of_find?_put he).resolve_right hold
    rw [hnone] at hx
    simp only [Entry.hasElapsed, (deadline_of_update hup hx).1]

theorem exists_of_look (hl : ks.loading = false) {e : Entry} (h : ks.look now key = some e) :
    ks.entries.find? key = some e ∧ e.hasElapsed now = false := by
  rw [look_of_not_loading hl, find?_visible] at h
  obtain ⟨hfind, hel⟩ := Option.filter_eq_some_iff.1 h
  exact ⟨hfind, by simpa using hel⟩

theorem exists_of_mem_deleteAll (hl : ks.loading = false) (hc : c.Stands now)
    (h : key ∈ (deleteAll ks c names).result) :
    ∃ e, ks.entries.find? key = some e ∧ e.hasElapsed now = false := by
  induction names generalizing ks c with
  | nil => cases h
  | cons name names ih =>
    obtain ⟨hres, hleaves⟩ := ks.does_delete hc name
    simp only [Action.delete] at hres hleaves
    have hrest (hmem : key ∈ (deleteAll (ks.delete c name).keyspace (ks.delete c name).clock names).result) :
        ∃ e, ks.entries.find? key = some e ∧ e.hasElapsed now = false := by
      obtain ⟨e, he, hel⟩ := ih (hleaves.loading.trans hl) hleaves.clock hmem
      rw [hleaves.entries] at he
      exact ⟨e, Table.eraseAll_subset ks.entries [name] key e he, hel⟩
    simp only [deleteAll, hres] at h
    split at h
    · next hsome =>
      rcases List.mem_cons.1 h with rfl | hmem
      · obtain ⟨e, he⟩ := Option.isSome_iff_exists.1 hsome
        exact ⟨e, exists_of_look hl he⟩
      · exact hrest hmem
    · exact hrest h

theorem eq_delete_of_read {signature : Signature} (hread : read (deletionRecord names) = .ok (signature, command))
    (hkey : key ∈ names) : command = .delete names := by
  obtain ⟨signature', hdel⟩ := read_deletionRecord (List.ne_nil_of_mem hkey)
  exact (Prod.mk.inj (Except.ok.inj (hread.symm.trans hdel))).2

theorem exists_of_mem_setDeadline (hl : ks.loading = false) {k : Bytes} {d : Int}
    (hmem : deletionRecord names ∈ recordsOf (Action.setDeadline ks.loading now k d (ks.look now k)).1)
    (hkey : key ∈ names) : ∃ e, ks.entries.find? key = some e ∧ e.hasElapsed now = false := by
  cases hlook : ks.look now k with
  | none =>
    rw [hlook] at hmem
    cases hmem
  | some e =>
    simp only [hlook, Action.setDeadline] at hmem
    split at hmem
    · obtain rfl : names = [k] := (List.cons.inj (List.mem_singleton.1 hmem)).2
      obtain rfl := List.mem_singleton.1 hkey
      exact ⟨e, exists_of_look hl hlook⟩
    · cases (List.cons.inj (List.mem_singleton.1 hmem)).1

theorem exists_of_mem_action (hl : ks.loading = false) {k : Bytes} {act : Action (Except CommandError Answer)}
    (hact : command.action? request now ks.loading = some (k, act))
    (hown : deletionRecord names = request → command = .delete names)
    (hmem : deletionRecord names ∈ recordsOf (act (ks.look now k)).1) (hkey : key ∈ names) :
    ∃ e, ks.entries.find? key = some e ∧ e.hasElapsed now = false := by
  have hupdate : command.update? request ≠ some (k, act) := fun hup => by
    rcases records_update hup (ks.look now k) with hrec | hrec
    · rw [hrec] at hmem
      cases hmem
    · rw [hrec] at hmem
      rw [hown (List.mem_singleton.1 hmem)] at hup
      cases hup
  cases command with
  | ask k query =>
    cases hact
    rw [Action.ask] at hmem
    cases hq : query.answer ((ks.look now k).map (·.value)) <;> (rw [hq] at hmem; cases hmem)
  | remaining k inSeconds =>
    cases hact
    cases hmem
  | set k value ttl =>
    cases hact
    rcases List.mem_cons.1 hmem with heq | hmem
    · cases (List.cons.inj heq).1
    · cases ttl with
      | none => cases hmem
      | some ms => cases (List.cons.inj (List.mem_singleton.1 hmem)).1
  | expireIn k ms =>
    cases hact
    exact exists_of_mem_setDeadline hl hmem hkey
  | expireAt k d =>
    cases hact
    exact exists_of_mem_setDeadline hl hmem hkey
  | increment k delta => exact absurd hact hupdate
  | persist k => exact absurd hact hupdate
  | edit k e => exact absurd hact hupdate
  | remove k r => exact absurd hact hupdate
  | _ => cases hact

theorem exists_of_deletionRecord_mem (hl : ks.loading = false) (hc : c.Stands now) {signature : Signature}
    (hread : read request = .ok (signature, command)) {report : Keyspace → Bytes}
    (hmem : deletionRecord names ∈ recordsOf (command.run report request ks c).result) (hkey : key ∈ names) :
    ∃ e, ks.entries.find? key = some e ∧ e.hasElapsed now = false := by
  have hown (h : deletionRecord names = request) : command = .delete names := eq_delete_of_read (h ▸ hread) hkey
  cases hact : command.action? request now ks.loading with
  | some p =>
    rw [(ks.does_run hc report hact).1] at hmem
    exact exists_of_mem_action hl hact hown hmem hkey
  | none =>
    cases command with
    | ping message => cases message <;> cases hmem
    | flush =>
      simp only [run] at hmem
      split at hmem
      · cases hmem
      · cases hown (List.mem_singleton.1 hmem)
    | delete names' =>
      simp only [run, recordsOf] at hmem
      split at hmem
      · cases hmem
      · obtain rfl : names = _ := (List.cons.inj (List.mem_singleton.1 hmem)).2
        exact exists_of_mem_deleteAll hl hc hkey
    | info => cases hmem
    | count => cases hmem
    | keys pattern => cases hmem
    | exist names' => cases hmem
    | echo message => cases hmem
    | _ => cases hact

theorem find?_run_of_not_mem (hflush : command ≠ .flush) (hkey : key ∉ command.lookups)
    (report : Keyspace → Bytes) (request : Request) (ks : Keyspace) (c : Clock) :
    (command.run report request ks c).keyspace.entries.find? key = ks.entries.find? key := by
  have htouches := touches_run (T := Set.univ) (fun _ => Set.mem_univ _) (command.storesIn_univ Set.univ) report request
    ks (c := c)
  rw [reach_eq hflush] at htouches
  exact htouches.others key hkey

theorem records_run (report report' : Keyspace → Bytes) (request : Request) (command : Command) (ks : Keyspace)
    (c : Clock) :
    recordsOf (command.run report request ks c).result = recordsOf (command.run report' request ks c).result := by
  cases command with
  | ping message => cases message <;> rfl
  | _ => rfl

end Command

namespace Database

open Keyspace

variable {db db' : Database} {now : Int} {c : Clock} {keys : List Bytes} {own : List Request} {notices : List Notice}

/-- The keys that an event takes out because their deadline has come, in the order in which they are taken out. -/
def expiring (db : Database) (now : Int) : Event → List Bytes
  | .request session request => db.evicted now session request
  | .sweep limit => ((db.keyspace.overdue now).take limit).map (·.2)
  | .cycle _ => (db.keyspace.overdue now).map (·.2)

def ownRecords (db : Database) (now : Int) (event : Event) : List Request :=
  match event.command? with
  | some command => recordsOf (command.run db.report event.request? db.keyspace (.standing now)).result
  | none => []

/-- An event that leads from `db` to `db'` takes out `keys` because their deadline has come, counts and logs these, and
tells the log of `own` besides. -/
structure Expires (db : Database) (now : Int) (clears : Prop) (keys : List Bytes) (own : List Request)
    (notices : List Notice) (db' : Database) : Prop where
  nodup : keys.Nodup
  /-- They are the keys whose entry was past its deadline and is not there any more. -/
  mem_iff : ¬ clears → ∀ key, key ∈ keys ↔ ∃ e, db.keyspace.entries.find? key = some e ∧ e.hasElapsed now = true ∧
    db'.keyspace.entries.find? key ≠ some e
  eq_nil : clears → keys = []
  expired : db'.keyspace.expired = db.keyspace.expired + keys.length
  /-- What the command tells of itself to be deleted was there and its deadline had not come. -/
  live : ∀ names, Command.deletionRecord names ∈ own → ∀ key ∈ names, ∃ e, db.keyspace.entries.find? key = some e ∧
    e.hasElapsed now = false
  journal : notices = [] → db'.journal = db.journal.map (·.extended (expiryRecords keys ++ own))

/-- An event that leaves the keyspace and the journal as they are. -/
theorem expires_nothing (clears : Prop) (hks : db'.keyspace = db.keyspace) (hj : db'.journal = db.journal) :
    db.Expires now clears [] [] notices db' where
  nodup := List.nodup_nil
  mem_iff := fun _ key => by
    rw [hks]
    exact ⟨fun h => (by cases h), fun ⟨e, he, _, hne⟩ => absurd he hne⟩
  eq_nil := fun _ => rfl
  expired := by rw [hks]; rfl
  live := fun _ h => by cases h
  journal := fun _ => by
    rw [hj, expiryRecords, List.map_nil, List.append_nil]
    cases db.journal <;> simp

theorem Expires.of_eq {db₁ : Database} {clears : Prop} (h : db₁.Expires now clears keys own notices db')
    (hks : db₁.keyspace = db.keyspace) (hj : db₁.journal = db.journal) :
    db.Expires now clears keys own notices db' :=
  ⟨h.nodup, hks ▸ h.mem_iff, h.eq_nil, hks ▸ h.expired, hks ▸ h.live, hj ▸ h.journal⟩

theorem expires_execute (h : db.keyspace.Sound) (hc : c.Stands now) {request : Request} {signature : Command.Signature}
    {command : Command} (hread : Command.read request = .ok (signature, command)) :
    let o := db.execute c request false
    db.Expires now (command = .flush) (db.keyspace.entries.elapsedAmong now command.lookups)
      (recordsOf (command.run db.report request db.keyspace c).result) o.notices o.database := by
  obtain ⟨evicted, hturns, htold⟩ := Command.exists_told h.loading h.full hc hread db.report
  have hunlogged : (command.run db.report request db.keyspace c).keyspace.unlogged =
      db.keyspace.entries.elapsedAmong now command.lookups := by
    rw [Command.unlogged_run h.loading hc, h.unlogged]
    rfl
  obtain rfl : evicted = db.keyspace.entries.elapsedAmong now command.lookups := by
    rw [← hunlogged, hturns.unlogged, h.unlogged]
    rfl
  have hkeyspace : (db.execute c request false).database.keyspace =
      (command.run db.report request db.keyspace c).keyspace.takeExpired.2 := by
    rw [execute_live hread]
    exact keyspace_log _ _
  refine ⟨Table.nodup_elapsedAmong _ _ _, fun hflush key => ?_, ?_, ?_, ?_, fun hnil => ?_⟩
  · rw [hkeyspace]
    constructor
    · intro hkey
      obtain ⟨e, he, hel⟩ := (Table.mem_elapsedAmong hkey).2
      refine ⟨e, he, hel, fun hafter => ?_⟩
      have hgone : (db.keyspace.entries.eraseAll (db.keyspace.entries.elapsedAmong now command.lookups)).find? key =
          none := by rw [Table.find?_eraseAll, if_pos hkey]
      exact Bool.false_ne_true ((htold.hasElapsed_of_new hgone hafter).symm.trans hel)
    · rintro ⟨e, he, hel, hafter⟩
      by_cases hkey : key ∈ command.lookups
      · exact List.mem_eraseDups.2 (List.mem_filter.2 ⟨hkey, by rw [he]; exact hel⟩)
      · exact absurd ((Command.find?_run_of_not_mem hflush hkey _ _ _ _).trans he) hafter
  · rintro rfl
    rfl
  · rw [hkeyspace]
    exact hturns.expired
  · exact fun names hmem key hkey => Command.exists_of_deletionRecord_mem h.loading hc hread hmem hkey
  · rw [execute_live hread] at hnil ⊢
    simp only at hnil ⊢
    rw [log_of_notices_eq_nil hnil, hunlogged]

theorem dispatch_of_command?_eq_none {session : Session} {request : Request}
    (h : (Event.request session request).command? = none) (db : Database) (c : Clock) :
    (db.dispatch c session request).database.keyspace = db.keyspace ∧
      (db.dispatch c session request).database.journal = db.journal := by
  by_cases hgranted : Granted session request
  · rw [dispatch_of_granted hgranted]
    cases hread : Command.read request with
    | error e =>
      simp only [execute, hread]
      exact ⟨rfl, rfl⟩
    | ok p => simp [Event.command?, hgranted.2.2, hread, Except.toOption] at h
  · exact dispatch_of_not_granted hgranted db c

theorem expires_request (h : db.keyspace.Sound) (now : Int) (session : Session) (request : Request) :
    let event : Event := .request session request
    let o := db.happen now event
    db.Expires now (event.command? = some .flush) (db.expiring now event) (db.ownRecords now event) o.notices
      o.database := by
  intro event o
  cases hcommand : event.command? with
  | none =>
    obtain ⟨hks, hj⟩ := dispatch_of_command?_eq_none hcommand db (.standing now)
    have hevicted : db.expiring now event = [] := by
      simp only [event, Event.command?, expiring, evicted] at hcommand ⊢
      split
      · next hs hread =>
        rw [hs, hread] at hcommand
        cases hcommand
      · rfl
    have hown : db.ownRecords now event = [] := by simp only [ownRecords, hcommand]
    rw [hevicted, hown]
    exact expires_nothing _ hks hj
  | some command =>
    obtain ⟨hs, signature, hread⟩ := Event.exists_of_command? hcommand
    have hgranted : Granted session request := granted_of_means hs (Command.read_eq_ok_iff.1 ⟨signature, hread⟩)
    have hcount : db.countCommand.keyspace.Sound := h
    have hexecute := expires_execute hcount (Clock.stands_standing now) hread
    rw [Command.records_run _ db.report] at hexecute
    have hevicted : db.expiring now event = db.keyspace.entries.elapsedAmong now command.lookups := by
      simp only [event, expiring, evicted, hs, hread]
    simp only [hevicted, ownRecords, hcommand, Option.some.injEq]
    simp only [o, event, happen, dispatch_of_granted hgranted]
    exact hexecute.of_eq rfl rfl

theorem nodup_overdue (h : db.keyspace.Sound) (now : Int) : ((db.keyspace.overdue now).map (·.2)).Nodup :=
  h.indexes.nodup_keys.sublist ((List.takeWhile_sublist _).map _)

/-- Taking out the first of the overdue keys, with their deletion logged. -/
theorem Purges.expires {n : Nat} {o : Outcome Nat} (h : db.Purges now n o) (hsound : db.keyspace.Sound) {clears : Prop}
    (hclears : ¬ clears)
    (htakes : o.notices = [] → db.Takes (expiryRecords (((db.keyspace.overdue now).take n).map (·.2)))) :
    db.Expires now clears (((db.keyspace.overdue now).take n).map (·.2)) [] o.notices o.database where
  nodup := (nodup_overdue hsound now).sublist ((List.take_sublist _ _).map _)
  mem_iff := fun _ key => by
    have hafter : o.database.keyspace.entries =
        db.keyspace.entries.eraseAll (((db.keyspace.overdue now).take n).map (·.2)) := by rw [h.keyspace]; rfl
    rw [hafter, Table.find?_eraseAll]
    constructor
    · intro hkey
      obtain ⟨⟨d, _⟩, hmem, rfl⟩ := List.mem_map.1 hkey
      obtain ⟨e, he, hd, hle⟩ := (mem_overdue_iff hsound.indexes d _).1 (List.mem_of_mem_take hmem)
      exact ⟨e, he, Entry.hasElapsed_eq_true_iff.2 ⟨d, hd, hle⟩, by rw [if_pos hkey]; nofun⟩
    · rintro ⟨e, he, -, hne⟩
      by_contra hkey
      exact hne (by rw [if_neg hkey, he])
  eq_nil := fun hc => absurd hc hclears
  expired := by
    rw [h.keyspace, List.length_map, List.length_take]
    rfl
  live := fun _ h => by cases h
  journal := fun hnil => by rw [List.append_nil, (h.logged (htakes hnil)).2]

theorem takes_of_notices_sweep (h : db.keyspace.Sound) (hc : c.Stands now) {limit : Nat}
    (hnil : (db.sweep c limit).notices = []) :
    db.Takes (expiryRecords (((db.keyspace.overdue now).take limit).map (·.2))) := by
  have hremoved := Keyspace.removeExpired_eq_purged h.indexes c limit
  rw [h.unlogged, List.nil_append, hc.now_eq] at hremoved
  simp only [sweep, hremoved, Keyspace.takeExpired] at hnil
  split at hnil
  · next hlogged => exact @Takes.of_journal_eq { db with keyspace := _ } db _ hlogged rfl
  · simp at hnil

theorem Cycle.takes {batch rounds : Nat} {o : Outcome Nat} (h : Cycle batch rounds db c o) (hsound : db.keyspace.Sound)
    (hc : c.Stands now) (hnil : o.notices = []) :
    db.Takes (expiryRecords ((db.keyspace.overdue now).map (·.2))) := by
  induction h with
  | @last db c hshort =>
    have htakes := takes_of_notices_sweep hsound hc hnil
    rw [(sweep_spec hsound hc batch).1.result] at hshort
    rwa [List.take_of_length_le (by omega)] at htakes
  | @more db c rounds o hfull rest ih =>
    obtain ⟨hfirst, hlast⟩ := List.append_eq_nil_iff.1 hnil
    have htakes := takes_of_notices_sweep hsound hc hfirst
    obtain ⟨hpurges, hnext⟩ := sweep_spec hsound hc batch
    have hrest := ih (sound_sweep hsound c batch) hnext hlast
    rw [hpurges.keyspace, overdue_purged] at hrest
    have hall := htakes.append (hpurges.logged htakes).2 hrest
    rwa [expiryRecords, expiryRecords, ← List.map_append, ← List.map_append, List.take_append_drop] at hall

theorem expires_happen (h : db.keyspace.Sound) (now : Int) (event : Event) :
    let o := db.happen now event
    db.Expires now (event.command? = some .flush) (db.expiring now event) (db.ownRecords now event) o.notices
      o.database := by
  have hc := Clock.stands_standing now
  cases event with
  | request session request => exact expires_request h now session request
  | sweep limit => exact (sweep_spec h hc limit).1.expires h nofun (takes_of_notices_sweep h hc)
  | cycle batch =>
    have hcycle := cycle_runCycle h hc batch
    obtain ⟨hpurges, -⟩ := hcycle.spec (Nat.lt_of_lt_of_le Nat.one_pos (Nat.le_max_right batch 1)) h hc
    have hclears : (Event.cycle batch).command? ≠ some .flush := nofun
    have hexpires := hpurges.expires h hclears fun hnil => by
      rw [List.take_length]
      exact hcycle.takes h hc hnil
    rwa [List.take_length] at hexpires

/-- For each event of a course the keys that it takes out because of their deadline, and what its command tells. -/
def expirations (db : Database) : List (Int × Event) → List (List Bytes × List Request)
  | [] => []
  | (now, event) :: events =>
    (db.expiring now event, db.ownRecords now event) :: (db.happen now event).database.expirations events

theorem expired_course (h : db.keyspace.Sound) (events : List (Int × Event)) :
    (db.course events).database.keyspace.expired =
      db.keyspace.expired + ((db.expirations events).flatMap (·.1)).length := by
  induction events generalizing db with
  | nil => rfl
  | cons x events ih =>
    obtain ⟨now, event⟩ := x
    simp only [course, expirations, List.flatMap_cons, List.length_append]
    rw [ih (sound_happen h now event), (expires_happen h now event).expired, Nat.add_assoc]

theorem journal_course (h : db.keyspace.Sound) {events : List (Int × Event)} (hnil : (db.course events).notices = []) :
    (db.course events).database.journal =
      db.journal.map (·.extended ((db.expirations events).flatMap fun (keys, own) => expiryRecords keys ++ own)) := by
  induction events generalizing db with
  | nil =>
    simp only [course, expirations, List.flatMap_nil]
    cases db.journal <;> simp
  | cons x events ih =>
    obtain ⟨now, event⟩ := x
    simp only [course, List.append_eq_nil_iff] at hnil
    simp only [course, expirations, List.flatMap_cons]
    rw [ih (sound_happen h now event) hnil.2, (expires_happen h now event).journal hnil.1, Option.map_map]
    exact congrArg (Option.map · db.journal) (funext fun j => Journal.extended_extended j _ _)

/-- **Expirations are counted and logged exactly once.** Each event of a course from an empty database counts as
expired, once each, the entries that were past their deadline and that it took out, unless it cleared everything: then
none. If nothing failed, the log has one record for each of them, in the order in which they were taken out and ahead of
what the command itself has to tell, so that these records are as many as the entries counted. -/
theorem expirations_exact (path : Bytes) (limit : Option Nat) (events : List (Int × Event)) :
    let db := fresh path limit
    let last := db.course events
    (∀ before now event after, events = before ++ (now, event) :: after →
      let db := (db.course before).database
      let o := db.happen now event
      db.Expires now (event.command? = some .flush) (db.expiring now event) (db.ownRecords now event) o.notices
        o.database) ∧
    last.database.keyspace.expired = ((db.expirations events).flatMap fun x => expiryRecords x.1).length ∧
    (last.notices = [] → last.database.journal = some (Journal.extended { path, limit }
      ((db.expirations events).flatMap fun (keys, own) => expiryRecords keys ++ own))) := by
  intro db last
  have hsound : db.keyspace.Sound := Keyspace.sound_empty
  refine ⟨fun before now event after _ => ?_, ?_, journal_course hsound⟩
  · exact expires_happen (Keyspace.Reachable.course .empty before).sound now event
  · rw [expired_course hsound, List.length_flatMap, List.length_flatMap]
    simp only [expiryRecords, List.length_map]
    exact Nat.zero_add _

/-- Two keys are found past their deadline by a command that only reads, and a third by one that then makes a list of
it. That a deadline in the past takes the list out, and the store is cleared of a fourth, is not counted. -/
theorem expirations_exact_of_exists :
    let give (now : Int) (request : Request) : Int × Event := (now, .request (.start none) request)
    let before := [give 1000 ["SET", "a", "1", "PX", "100"], give 1000 ["SET", "b", "2", "PX", "50"]]
    let after := [give 2000 ["SET", "d", "4", "PX", "1"], give 3000 ["RPUSH", "d", "x"], give 3000 ["EXPIRE", "d", "0"],
      give 3000 ["SET", "e", "5", "PX", "9"], give 4000 ["FLUSHDB"]]
    let exist : Event := .request (.start none) ["EXISTS", "b", "a", "b"]
    let events := before ++ (2000, exist) :: after
    let db := ((fresh "log" none).course before).database
    let o := db.happen 2000 exist
    db.Expires 2000 False [("b" : Bytes), ("a" : Bytes)] [] o.notices o.database ∧
      ((fresh "log" none).course events).database.keyspace.expired = 3 ∧
      ((fresh "log" none).course events).notices = [] ∧
      ((fresh "log" none).course events).database.journal = some (Journal.extended { path := "log" }
        [["SET", "a", "1"], ["PEXPIREAT", "a", "1100"], ["SET", "b", "2"], ["PEXPIREAT", "b", "1050"], ["DEL", "b"],
          ["DEL", "a"], ["SET", "d", "4"], ["PEXPIREAT", "d", "2001"], ["DEL", "d"], ["RPUSH", "d", "x"], ["DEL", "d"],
          ["SET", "e", "5"], ["PEXPIREAT", "e", "3009"], ["FLUSHDB"]]) := by
  intro give before after exist events db o
  obtain ⟨hsteps, hexpired, hjournal⟩ := expirations_exact "log" none events
  have hkeys : db.expiring 2000 exist = [("b" : Bytes), ("a" : Bytes)] := by decide +kernel
  have hown : db.ownRecords 2000 exist = [] := by decide +kernel
  have hclears : (exist.command? = some .flush) = False := eq_false (by decide +kernel)
  have hnotices : ((fresh "log" none).course events).notices = [] := by decide +kernel
  have hexpires : db.Expires 2000 _ _ _ o.notices o.database := hsteps before 2000 exist after rfl
  rw [hkeys, hown, hclears] at hexpires
  refine ⟨hexpires, hexpired.trans ?_, hnotices, (hjournal hnotices).trans ?_⟩
  · decide +kernel
  · decide +kernel

end Database
end KeyStore
