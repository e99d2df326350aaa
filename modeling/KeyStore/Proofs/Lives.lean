import KeyStore.Proofs.Courses
import KeyStore.Proofs.Restarts

/-!
# Lives of a database

Between events the program may be stopped and started again on the journal that it left. A start drops
the entries past their deadline without telling the journal, so the journal may tell more than the keyspace
holds: entries that are past their deadline (`Database.Lasts`).
-/

namespace KeyStore

/-- An event, or a stop of the program and a start on the journal that it left. -/
inductive Occurrence where
  | event (e : Event)
  | restart
  deriving DecidableEq

def Occurrence.Sized : Int × Occurrence → Prop
  | (now, .event e) => Event.Sized (now, e)
  | (_, .restart) => True

instance : (x : Int × Occurrence) → Decidable (Occurrence.Sized x)
  | (now, .event e) => inferInstanceAs (Decidable (Event.Sized (now, e)))
  | (_, .restart) => inferInstanceAs (Decidable True)

def Journal.told (j : Journal) : Table Entry :=
  ((Database.setLoading {} true).applyAll (.standing 0) {} (recordsIn j.contents) []).database.keyspace.entries

namespace Database

def restarted (db : Database) (now : Int) : Option Database :=
  match db.journal with
  | none => some {}
  | some j => (Program.recover (.standing now) j.path (.file j.contents)).toOption.map (·.1)

/-- A restart at a time succeeds and changes nothing that is visible. -/
def Survives (db : Database) (now : Int) : Prop :=
  ∃ db', db.restarted now = some db' ∧ db'.keyspace.visible now = db.keyspace.visible now

/-- The event creates a key, other than by a `set`, that the journal still tells an entry of. -/
def Revives (db : Database) (now : Int) (event : Event) : Prop :=
  ∃ j, db.journal = some j ∧
    KeyStore.Revives event.request? db.keyspace.entries j.told (db.happen now event).database.keyspace.entries

end Database

structure Life where
  database : Option Database
  notices : List Notice := []

namespace Life

def next (l : Life) : Int × Occurrence → Life
  | (now, .event e) =>
    match l.database with
    | none => l
    | some db =>
      let o := db.happen now e
      ⟨some o.database, l.notices ++ o.notices⟩
  | (now, .restart) => { l with database := l.database.bind (·.restarted now) }

def of (path : Bytes) (limit : Option Nat) (history : List (Int × Occurrence)) : Life :=
  history.foldl next ⟨some (Database.fresh path limit), []⟩

theorem of_snoc (path : Bytes) (limit : Option Nat) (history : List (Int × Occurrence)) (x : Int × Occurrence) :
    of path limit (history ++ [x]) = (of path limit history).next x := by
  rw [of, of, List.foldl_append]
  rfl

/-- Every append has succeeded, and the deadlines that the journal tells of are accepted when it is loaded. -/
structure Clean (l : Life) : Prop where
  notices : l.notices = []
  timely : ∀ db j, l.database = some db → db.journal = some j → Command.Timely (Journal.recordsIn j.contents)

end Life

namespace Database

/-- What holds of a database whose journal began with nothing: loading the journal leaves the entries `t`,
which are those of the keyspace and besides only some that are past their deadline. -/
structure Lasts (db : Database) (now : Int) (j : Journal) (records : List Request) (t : Table Entry) : Prop where
  journal : db.journal = some j
  contents : j.contents = Journal.bytesOf records
  readable : ∀ record ∈ records, Journal.Readable record
  loads : Loads ∅ records t
  sound : db.keyspace.Sound
  fits : Fits t
  full : Full t
  subset : db.keyspace.entries ⊆ t
  elapsed : ∀ key e, db.keyspace.entries.find? key = none → t.find? key = some e → e.hasElapsed now = true

theorem lasts_fresh (path : Bytes) (limit : Option Nat) (now : Int) :
    (fresh path limit).Lasts now { path, limit } [] ∅ where
  journal := rfl
  contents := rfl
  readable := by simp
  loads := Loads.nil ∅
  sound := Keyspace.sound_empty
  fits := fun _ _ h => by cases h
  full := fun _ _ h => by cases h
  subset := Table.subset_refl ∅
  elapsed := fun _ _ _ h => by cases h

namespace Lasts

variable {db : Database} {now later : Int} {j : Journal} {records : List Request} {t : Table Entry}

theorem mono (h : db.Lasts now j records t) (hle : now ≤ later) : db.Lasts later j records t :=
  { h with elapsed := fun key e hnone he => Entry.hasElapsed_mono hle (h.elapsed key e hnone he) }

theorem told (h : db.Lasts now j records t) : j.told = t := by
  have hrecords : Journal.recordsIn j.contents = records := by
    rw [h.contents, Journal.recordsIn_bytesOf h.readable]
  rw [Journal.told, hrecords]
  exact (h.loads _ _ 0 {} [] rfl rfl (Clock.stands_standing 0)).1

theorem filter_eq (h : db.Lasts now j records t) : t.filter (!·.hasElapsed now) = db.keyspace.visible now := by
  refine Table.ext_find? fun k => ?_
  rw [Table.find?_filter, Keyspace.find?_visible]
  cases hk : db.keyspace.entries.find? k with
  | some e => rw [h.subset k e hk]
  | none =>
    cases ht : t.find? k with
    | none => rfl
    | some e => simp [Option.filter, h.elapsed k e hk ht]

theorem restarted_eq (hj : db.journal = some j) (hcontents : j.contents = Journal.bytesOf records)
    (hread : ∀ record ∈ records, Journal.Readable record) (hloads : Loads ∅ records t) (now : Int) :
    ∃ db', db.restarted now = some db' ∧ db'.journal = some { path := j.path, contents := j.contents } ∧
      db'.keyspace.entries = t.filter (!·.hasElapsed now) ∧ (Full t → db'.keyspace.Sound) := by
  have hlater : Journal.laterFrame [] = false := rfl
  obtain ⟨db', c', notices, hrec, hjournal, hent, hsound⟩ :=
    Program.exists_recover hread Frame.incomplete_nil hlater hloads (Clock.stands_standing now) j.path
  rw [List.append_nil, ← hcontents] at hrec hjournal
  refine ⟨db', ?_, ?_, hent, hsound⟩
  · simp only [restarted, hj, hrec]
    rfl
  · rw [hjournal, hcontents, Journal.recovered_bytesOf hread]

theorem restart (h : db.Lasts now j records t) :
    ∃ db', db.restarted now = some db' ∧ db'.keyspace.visible now = db.keyspace.visible now ∧
      db'.Lasts now { path := j.path, contents := j.contents } records t := by
  obtain ⟨db', hdb, hjournal, hent, hsound⟩ := restarted_eq h.journal h.contents h.readable h.loads now
  refine ⟨db', hdb, ?_, hjournal, h.contents, h.readable, h.loads, hsound h.full, h.fits, h.full, ?_, ?_⟩
  · rw [Keyspace.visible, hent, Table.filter_visible _ (Int.le_refl now), h.filter_eq]
  · intro k e he
    rw [hent, Table.find?_filter] at he
    exact (Option.filter_eq_some_iff.1 he).1
  · -- what is not among the entries any more was past its deadline
    intro k e hnone he
    rw [hent, Table.find?_filter, he] at hnone
    simpa [Option.filter] using hnone

theorem survives (h : db.Lasts now j records t) : db.Survives now := by
  obtain ⟨db', hdb, hvisible, _⟩ := h.restart
  exact ⟨db', hdb, hvisible⟩

/-- The records of a step come behind those that the journal has. -/
theorem appended (h : db.Lasts now j records t) {event : Event} (hsized : Event.Sized (now, event))
    (hn : (db.happen now event).notices = []) {evicted : List Bytes} {own : List Request}
    (hsteps : db.Steps now event.request? evicted own (db.happen now event).notices (db.happen now event).database) :
    ∃ j', (db.happen now event).database.journal = some j' ∧
      j'.contents = Journal.bytesOf (records ++ (expiryRecords evicted ++ own)) ∧
      ∀ record ∈ records ++ (expiryRecords evicted ++ own), Journal.Readable record := by
  have hfits : Fits db.keyspace.entries := h.fits.of_subset h.subset
  refine ⟨j.extended (expiryRecords evicted ++ own), hsteps.journal_eq hn h.journal, ?_, ?_⟩
  · rw [Journal.bytesOf_append records, ← h.contents]
    rfl
  · exact List.forall_mem_append.2 ⟨h.readable, hsteps.readable hfits hsized.2 hsized.1⟩

/-- An event that revives no key is told to the journal. -/
theorem happen (h : db.Lasts now j records t) {event : Event} (hsized : Event.Sized (now, event))
    (hn : (db.happen now event).notices = []) (hnew : ¬ db.Revives now event)
    (htime : ∀ j', (db.happen now event).database.journal = some j' →
      Command.Timely (Journal.recordsIn j'.contents)) :
    ∃ j' records' t', (db.happen now event).database.Lasts now j' records' t' := by
  obtain ⟨evicted, own, hsteps, _⟩ := exists_steps h.sound now event
  obtain ⟨j', hjournal, hcontents, hreadable⟩ := h.appended hsized hn hsteps
  have htime' := htime _ hjournal
  rw [hcontents, Journal.recordsIn_bytesOf hreadable] at htime'
  have hnew' : ¬ KeyStore.Revives event.request? db.keyspace.entries t
      (db.happen now event).database.keyspace.entries := fun hrev => hnew ⟨j, h.journal, h.told.symm ▸ hrev⟩
  obtain ⟨_, hown⟩ := Command.timely_append.1 (Command.timely_append.1 htime').2
  obtain ⟨t', hreloads, hfollows⟩ := hsteps.reloads hown h.subset hnew'
  have hfits' := hsteps.fits (h.fits.of_subset h.subset) hsized.2
  refine ⟨j', _, t', hjournal, hcontents, hreadable, h.loads.append hreloads.loads, hsteps.sound, ?_, ?_,
    hfollows.subset, ?_⟩
  · intro k e he
    rcases hfollows k with heq | ⟨_, _, heq⟩
    · exact hfits' k e (heq ▸ he)
    · exact h.fits k e (heq ▸ he)
  · intro k e he
    rcases hfollows k with heq | ⟨_, _, heq⟩
    · exact hsteps.sound.full k e (heq ▸ he)
    · exact h.full k e (heq ▸ he)
  · intro k e hnone he
    rcases hfollows k with heq | ⟨hbefore, _, heq⟩
    · rw [heq, hnone] at he
      cases he
    · exact h.elapsed k e hbefore (heq ▸ he)

theorem not_survives (h : db.Lasts now j records t) {event : Event} (hsized : Event.Sized (now, event))
    (hn : (db.happen now event).notices = []) (hrev : db.Revives now event) :
    ¬ (db.happen now event).database.Survives now := by
  obtain ⟨evicted, own, hsteps, _⟩ := exists_steps h.sound now event
  obtain ⟨j', hj', key, hnone, hold, hafter, hset⟩ := hrev
  obtain rfl : j = j' := Option.some.inj (h.journal.symm.trans hj')
  rw [h.told] at hold
  obtain ⟨old, ht⟩ := Option.ne_none_iff_exists'.1 hold
  have hkey : key ∉ evicted := by
    intro hmem
    obtain ⟨e, he, _⟩ := hsteps.elapsed key hmem
    simp [hnone] at he
  have hnone' : (db.keyspace.entries.eraseAll evicted).find? key = none := by
    rw [Table.find?_eraseAll, if_neg hkey, hnone]
  obtain ⟨signature, command, act, e, hread, hup, rfl, hact, he⟩ := hsteps.told.exists_update hnone' hafter hset
  -- the journal has the request run on the old entry, whose deadline stays
  have hloads := h.loads.append <| (Reloads.deletions t evicted).loads.append
    (Loads.of_action hread (fun now => Command.action?_of_update? hup now true) fun _ => rfl)
  have ht' : (t.eraseAll evicted).find? key = some old := by rw [Table.find?_eraseAll, if_neg hkey, ht]
  obtain ⟨hfree, hkeeps⟩ := Command.deadline_of_update hup hact
  obtain ⟨j', hjournal, hcontents, hreadable⟩ := h.appended hsized hn hsteps
  obtain ⟨db', hdb, _, hent, _⟩ := restarted_eq hjournal hcontents hreadable hloads now
  rintro ⟨db'', hdb', hvisible⟩
  obtain rfl : db' = db'' := Option.some.inj (hdb.symm.trans hdb')
  have hlost : (db'.keyspace.visible now).find? key = none := by
    rw [Keyspace.find?_visible, hent, Table.find?_filter, Table.find?_put_self, ht']
    cases hy : (act (some old)).2 with
    | none => rfl
    | some y =>
      have hel : y.hasElapsed now = true := by
        have hold := h.elapsed key old hnone ht
        rwa [Entry.hasElapsed, ← hkeeps old y hy] at hold
      simp [Option.filter, hel]
  rw [hvisible, Keyspace.find?_visible, he] at hlost
  simp [Option.filter, Entry.hasElapsed, hfree] at hlost

end Lasts

end Database
end KeyStore
