import KeyStore.Proofs.Replays
import KeyStore.Proofs.Sizes

/-!
# Courses of events

Requests of sessions, sweeps and cycles of the background expiry happen to a database one after another,
each at a time at which the clock stands. Whatever happens, some keys are found past their deadline, the
log is told of those and then of the rest (`Database.Steps`), and the keyspace stays sound.
-/

namespace KeyStore

namespace Transfer

theorem run_took_length (s : Bytes) : run s [.took s.length] = ⟨s, .complete⟩ := by
  cases s with
  | nil => rfl
  | cons b s => simp [run]

theorem run_took_failed {s : Bytes} {n : Nat} (h : n < s.length) (hn : n ≠ 0) :
    run s [.took n, .failed] = ⟨s.take n, .refused⟩ := by
  obtain ⟨n, rfl⟩ := Nat.exists_eq_succ_of_ne_zero hn
  cases s with
  | nil => cases h
  | cons b s =>
    have hrest : s.drop n ≠ [] := fun hnil => by
      have hle := List.drop_eq_nil_iff.1 hnil
      rw [List.length_cons] at h
      omega
    obtain ⟨a, t, hat⟩ := List.exists_cons_of_ne_nil hrest
    simp [run, hat]

theorem exists_run_callsWithin (s : Bytes) (room : Option Nat) :
    ∃ k ≤ s.length, (run s (callsWithin room s.length)).sent = s.take k ∧
      ((run s (callsWithin room s.length)).outcome = .complete ↔ k = s.length) := by
  have hall : ∃ k ≤ s.length, (run s [.took s.length]).sent = s.take k ∧
      ((run s [.took s.length]).outcome = .complete ↔ k = s.length) :=
    ⟨s.length, Nat.le_refl _, by simp [run_took_length]⟩
  cases room with
  | none => exact hall
  | some n =>
    simp only [callsWithin]
    split
    · exact hall
    · next hlt =>
      have hs : s ≠ [] := by
        rintro rfl
        exact hlt (Nat.zero_le n)
      split
      · obtain ⟨b, t, rfl⟩ := List.exists_cons_of_ne_nil hs
        exact ⟨0, Nat.zero_le _, by simp [run]⟩
      · next hn =>
        rw [run_took_failed (by omega) hn]
        exact ⟨n, by omega, rfl, by simp; omega⟩

end Transfer

namespace Journal

/-- The journal with more records at its end. -/
def extended (j : Journal) (records : List Request) : Journal :=
  { j with contents := j.contents ++ bytesOf records, records := j.records + records.length }

@[simp] theorem extended_nil (j : Journal) : j.extended [] = j := by simp [extended]

theorem extended_extended (j : Journal) (records more : List Request) :
    (j.extended records).extended more = j.extended (records ++ more) := by
  simp [extended, Nat.add_assoc]

theorem append_of_fst {j : Journal} {record : Request} (h : (j.append record).1 = true) :
    j.append record = (true, j.extended [record]) := by
  unfold append at h ⊢
  simp only at h ⊢
  split at h
  · next hdone =>
    obtain ⟨k, _, hsent, hall⟩ := Transfer.exists_run_callsWithin (Frame.encode record)
      (j.limit.map (· - j.contents.length))
    rw [if_pos hdone, hsent, hall.1 hdone, List.take_length]
    simp [extended]
  · cases h

end Journal

namespace Database

theorem appendAll_of_notices_eq_nil {records : List Request} {j : Journal} (h : (appendAll records j).2.2 = []) :
    appendAll records j = (true, j.extended records, []) := by
  induction records generalizing j with
  | nil => simp [appendAll]
  | cons record records ih =>
    simp only [appendAll] at h ⊢
    cases hfst : (j.append record).1 with
    | true =>
      rw [Journal.append_of_fst hfst] at h ⊢
      simp only at h ⊢
      rw [ih h, Journal.extended_extended]
      rfl
    | false =>
      cases hj : j.append record with
      | mk done j' =>
        rw [hj] at hfst h
        simp only at hfst
        subst hfst
        cases h

theorem log_of_notices_eq_nil {db : Database} {records : List Request} (h : (db.log records).2.2 = []) :
    db.log records = (true, { db with journal := db.journal.map (·.extended records) }, []) := by
  obtain ⟨ks, info, journal⟩ := db
  cases journal with
  | none => rfl
  | some j =>
    simp only [log] at h ⊢
    rw [appendAll_of_notices_eq_nil h]
    rfl

theorem keyspace_log (db : Database) (records : List Request) : (db.log records).2.1.keyspace = db.keyspace := by
  simp only [log]
  split <;> rfl

end Database

/-- A request of a session, a sweep of a number of keys, or a cycle of the background expiry. -/
inductive Event where
  | request (session : Session) (request : Request)
  | sweep (limit : Nat)
  | cycle (batch : Nat)
  deriving DecidableEq

def Event.request? : Event → Request
  | .request _ r => r
  | .sweep _ | .cycle _ => []

def Event.isGranted : Event → Bool
  | .request session _ => session.isAuthenticated
  | .sweep _ | .cycle _ => false

/-- An event at a time of 64 bits, with byte strings of lengths that a frame can tell. -/
def Event.Sized (x : Int × Event) : Prop := IsInt64 x.1 ∧ Frame.Sized x.2.request?

instance (n : Int) : Decidable (IsInt64 n) := inferInstanceAs (Decidable (_ ∧ _))

instance (x : Int × Event) : Decidable (Event.Sized x) := inferInstanceAs (Decidable (_ ∧ _))

structure Course where
  database : Database
  replies : List (Reply × Session) := []
  notices : List Notice := []

namespace Database

def fresh (path : Bytes) (limit : Option Nat) : Database := { journal := some { path, limit } }

def happen (db : Database) (now : Int) : Event → Outcome (Option (Reply × Session))
  | .request session request =>
    let o := db.dispatch (.standing now) session request
    ⟨some o.result, o.database, o.clock, o.notices⟩
  | .sweep limit =>
    let o := db.sweep (.standing now) limit
    ⟨none, o.database, o.clock, o.notices⟩
  | .cycle batch =>
    let o := db.runCycle (.standing now) batch
    ⟨none, o.database, o.clock, o.notices⟩

def course (db : Database) : List (Int × Event) → Course
  | [] => { database := db }
  | (now, event) :: events =>
    let o := db.happen now event
    let rest := course o.database events
    ⟨rest.database, o.result.toList ++ rest.replies, o.notices ++ rest.notices⟩

/-- What happens to a database in which `evicted` are found past their deadline and the log is told of
`own` besides. -/
structure Steps (db : Database) (now : Int) (request : Request) (evicted : List Bytes) (own : List Request)
    (notices : List Notice) (db' : Database) : Prop where
  told : Command.Told request now (db.keyspace.entries.eraseAll evicted) own db'.keyspace.entries
  elapsed : ∀ key ∈ evicted, ∃ e, db.keyspace.entries.find? key = some e ∧ e.hasElapsed now = true
  sound : db'.keyspace.Sound
  journal : notices = [] → db'.journal = db.journal.map (·.extended (expiryRecords evicted ++ own))

variable {db db' : Database} {now : Int}

theorem readable_deletionRecord {key : Bytes} (h : key.length ≤ Frame.maxLength) :
    Journal.Readable (Command.deletionRecord [key]) :=
  ⟨List.cons_ne_nil _ _, by simp [Command.deletionRecord, Frame.maxLength],
    List.forall_mem_cons.2 ⟨by decide, List.forall_mem_singleton.2 h⟩⟩

theorem Steps.readable {request : Request} {evicted : List Bytes} {own : List Request} {notices : List Notice}
    (h : db.Steps now request evicted own notices db') (hfits : Fits db.keyspace.entries) (hs : Frame.Sized request)
    (hnow : IsInt64 now) : ∀ record ∈ expiryRecords evicted ++ own, Journal.Readable record := by
  refine List.forall_mem_append.2 ⟨List.forall_mem_map.2 fun key hkey => ?_, h.told.readable hs hnow⟩
  obtain ⟨e, he, _⟩ := h.elapsed key hkey
  exact readable_deletionRecord (hfits key e he)

theorem Steps.fits {request : Request} {evicted : List Bytes} {own : List Request} {notices : List Notice}
    (h : db.Steps now request evicted own notices db') (hfits : Fits db.keyspace.entries) (hs : Frame.Sized request) :
    Fits db'.keyspace.entries :=
  h.told.fits hs (hfits.of_subset (Table.eraseAll_subset _ _))

/-- Where nothing is reported, the records are behind those that the journal had. -/
theorem Steps.journal_eq {request : Request} {evicted : List Bytes} {own : List Request} {notices : List Notice}
    {j : Journal} (h : db.Steps now request evicted own notices db') (hn : notices = []) (hj : db.journal = some j) :
    db'.journal = some (j.extended (expiryRecords evicted ++ own)) := by
  rw [h.journal hn, hj]
  rfl

theorem steps_self (h : db.keyspace.Sound) (now : Int) (request : Request) (notices : List Notice) :
    db.Steps now request [] [] notices db :=
  ⟨Command.Told.nothing, by simp, h, fun _ => by cases hj : db.journal <;> simp [expiryRecords]⟩

theorem Steps.of_eq {db₁ db₁' : Database} {request : Request} {evicted : List Bytes} {own : List Request}
    {notices : List Notice} (h : db.Steps now request evicted own notices db') (hks : db₁.keyspace = db.keyspace)
    (hj : db₁.journal = db.journal) (hks' : db₁'.keyspace = db'.keyspace) (hj' : db₁'.journal = db'.journal) :
    db₁.Steps now request evicted own notices db₁' :=
  ⟨by rw [hks, hks']; exact h.told, by rw [hks]; exact h.elapsed, hks' ▸ h.sound, by rw [hj, hj']; exact h.journal⟩

/-- Running a request that spells a command: the command runs, and its records are appended behind those of
the keys that expired. -/
theorem execute_live {request : Request} {signature : Command.Signature} {command : Command}
    (hread : Command.read request = .ok (signature, command)) (db : Database) (c : Clock) :
    db.execute c request false =
      let a := command.run db.report request db.keyspace c
      let logged := { db with keyspace := a.keyspace.takeExpired.2 }.log
        (expiryRecords a.keyspace.unlogged ++ recordsOf a.result)
      ⟨if logged.1 then a.result.map (·.reply) else .error .persistenceFailure, logged.2.1, a.clock, logged.2.2⟩ := by
  have hreads : signature.writes = false →
      recordsOf (command.run db.report request db.keyspace c).result = [] := by
    intro hw
    have hwrites : command.writes = false := (Command.spelled_of_read hread).writes.trans hw
    exact Command.records_of_writes_eq_false hwrites db.report db.keyspace c
  simp only [execute, hread, Keyspace.takeExpired]
  cases hres : (command.run db.report request db.keyspace c).result with
  | error e => rfl
  | ok answer =>
    cases hw : signature.writes with
    | true => rfl
    | false =>
      have hnil : answer.records = [] := by simpa [hres, recordsOf] using hreads hw
      simp only [recordsOf, hnil]
      rfl

theorem exists_steps_execute (h : db.keyspace.Sound) {c : Clock} (hc : c.Stands now) (request : Request) :
    ∃ evicted own, db.Steps now request evicted own (db.execute c request false).notices
      (db.execute c request false).database := by
  cases hread : Command.read request with
  | error e =>
    refine ⟨[], [], ?_⟩
    simp only [execute, hread]
    exact steps_self h now request _
  | ok p =>
    obtain ⟨signature, command⟩ := p
    obtain ⟨evicted, hturns, htold⟩ := Command.exists_told h.loading h.full hc hread db.report
    have hfull : Full (db.keyspace.entries.eraseAll evicted) := fun k e he =>
      h.full k e (Table.eraseAll_subset _ _ k e he)
    have hevicted : (command.run db.report request db.keyspace c).keyspace.unlogged = evicted := by
      rw [hturns.unlogged, h.unlogged]
      rfl
    refine ⟨evicted, recordsOf (command.run db.report request db.keyspace c).result, ?_⟩
    rw [execute_live hread]
    simp only [hevicted]
    refine ⟨?_, fun key hkey => (hturns.elapsed key hkey).2, ?_, ?_⟩
    · rw [keyspace_log]
      exact htold
    · rw [keyspace_log]
      exact ⟨hturns.indexes h.indexes, htold.full hfull, rfl, hturns.loading.trans h.loading⟩
    · intro hnil
      rw [log_of_notices_eq_nil hnil]

theorem exists_steps_dispatch (h : db.keyspace.Sound) {c : Clock} (hc : c.Stands now) (session : Session)
    (request : Request) :
    ∃ evicted own, db.Steps now request evicted own (db.dispatch c session request).notices
        (db.dispatch c session request).database ∧ (own = [] ∨ session.isAuthenticated = true) := by
  cases request with
  | nil => exact ⟨[], [], steps_self h now [] _, Or.inl rfl⟩
  | cons name operands =>
    simp only [dispatch]
    split
    · split
      · split
        · exact ⟨[], [], (steps_self h now _ _).of_eq rfl rfl rfl rfl, Or.inl rfl⟩
        · exact ⟨[], [], (steps_self h now _ _).of_eq rfl rfl rfl rfl, Or.inl rfl⟩
      · exact ⟨[], [], (steps_self h now _ _).of_eq rfl rfl rfl rfl, Or.inl rfl⟩
    · split
      · next hauth =>
        have hcount : db.countCommand.keyspace.Sound := h
        obtain ⟨evicted, own, hsteps⟩ := exists_steps_execute hcount hc (name :: operands)
        exact ⟨evicted, own, hsteps.of_eq rfl rfl rfl rfl, Or.inr hauth⟩
      · exact ⟨[], [], (steps_self h now _ _).of_eq rfl rfl rfl rfl, Or.inl rfl⟩

/-- Loading what is appended does what was done. -/
theorem Steps.reloads {request : Request} {evicted : List Bytes} {own : List Request} {notices : List Notice}
    (h : db.Steps now request evicted own notices db') (htime : Command.Timely own) {t : Table Entry}
    (hsub : db.keyspace.entries ⊆ t) (hnew : ¬ Revives request db.keyspace.entries t db'.keyspace.entries) :
    ∃ t', Reloads t (expiryRecords evicted ++ own) t' ∧ Follows db.keyspace.entries t db'.keyspace.entries t' := by
  have hnew' : ¬ Revives request (db.keyspace.entries.eraseAll evicted) (t.eraseAll evicted)
      db'.keyspace.entries := by
    rintro ⟨key, hnone, hsome, hafter, hset⟩
    rw [Table.find?_eraseAll] at hnone hsome
    split at hsome
    · exact hsome rfl
    · next hkey => exact hnew ⟨key, by simpa [hkey] using hnone, hsome, hafter, hset⟩
  obtain ⟨t', hreloads, hfollows⟩ := h.told.reloads htime (Table.eraseAll_mono hsub evicted) hnew'
  exact ⟨t', (Reloads.deletions t evicted).append hreloads, (Follows.eraseAll hsub evicted).trans hfollows⟩

theorem Steps.reloads_self {request : Request} {evicted : List Bytes} {own : List Request} {notices : List Notice}
    (h : db.Steps now request evicted own notices db') (htime : Command.Timely own) :
    Reloads db.keyspace.entries (expiryRecords evicted ++ own) db'.keyspace.entries := by
  obtain ⟨t', hreloads, hfollows⟩ := h.reloads htime (Table.subset_refl _) (not_revives_self _ _ _)
  exact hfollows.eq ▸ hreloads

theorem exists_steps_sweep (h : db.keyspace.Sound) {c : Clock} (hc : c.Stands now) (limit : Nat) :
    ∃ evicted, db.Steps now [] evicted [] (db.sweep c limit).notices (db.sweep c limit).database ∧
      (db.sweep c limit).clock.Stands now := by
  have hswept := Keyspace.swept_removeExpired h.indexes c limit
  rw [hc.now_eq] at hswept
  have hclock : (db.keyspace.removeExpired c limit).clock = c.next := by rw [Keyspace.removeExpired_eq h.indexes]
  generalize (Keyspace.due now limit db.keyspace.index).map (·.2) = evicted at hswept
  have hevicted : (db.keyspace.removeExpired c limit).keyspace.unlogged = evicted := by
    rw [hswept.unlogged, h.unlogged]
    rfl
  refine ⟨evicted, ?_, ?_⟩
  · simp only [sweep, Keyspace.takeExpired, hevicted]
    refine ⟨?_, hswept.elapsed, ?_, ?_⟩
    · rw [keyspace_log]
      simp only
      rw [hswept.entries]
      exact Command.Told.nothing
    · rw [keyspace_log]
      refine ⟨hswept.indexes, ?_, rfl, hswept.loading.trans h.loading⟩
      simp only
      rw [hswept.entries]
      exact fun k e he => h.full k e (Table.eraseAll_subset _ _ k e he)
    · intro hnil
      split at hnil
      · rw [log_of_notices_eq_nil hnil, List.append_nil]
      · simp at hnil
  · simp only [sweep]
    rw [hclock]
    exact hc.next

theorem Steps.trans_sweep {db'' : Database} {evicted more : List Bytes} {notices notices' : List Notice}
    (h : db.Steps now [] evicted [] notices db') (h' : db'.Steps now [] more [] notices' db'') :
    db.Steps now [] (evicted ++ more) [] (notices ++ notices') db'' := by
  have hent : db'.keyspace.entries = db.keyspace.entries.eraseAll evicted := h.told.eq_of_nil
  refine ⟨?_, ?_, h'.sound, ?_⟩
  · rw [Table.eraseAll_append, ← hent]
    exact h'.told
  · intro key hkey
    rcases List.mem_append.1 hkey with hkey | hkey
    · exact h.elapsed key hkey
    · obtain ⟨e, he, hel⟩ := h'.elapsed key hkey
      exact ⟨e, Table.eraseAll_subset _ _ key e (hent ▸ he), hel⟩
  · intro hnil
    obtain ⟨hn, hn'⟩ := List.append_eq_nil_iff.1 hnil
    rw [h'.journal hn', h.journal hn, Option.map_map]
    refine congrArg (Option.map · db.journal) (funext fun j => ?_)
    simp [Journal.extended_extended, expiryRecords]

theorem exists_steps_sweepFrom (h : db.keyspace.Sound) {c : Clock} (hc : c.Stands now) (batch total fuel : Nat)
    (notices : List Notice) :
    ∃ evicted more, (db.sweepFrom c batch total fuel notices).notices = notices ++ more ∧
      db.Steps now [] evicted [] more (db.sweepFrom c batch total fuel notices).database := by
  induction fuel generalizing db c total notices with
  | zero => exact ⟨[], [], (List.append_nil _).symm, steps_self h now [] []⟩
  | succ fuel ih =>
    obtain ⟨evicted, hsteps, hclock⟩ := exists_steps_sweep h hc batch
    simp only [sweepFrom]
    split
    · exact ⟨evicted, _, rfl, hsteps⟩
    · obtain ⟨more, notices', heq, hrest⟩ := ih hsteps.sound hclock
        (total + (db.sweep c batch).result) (notices ++ (db.sweep c batch).notices)
      exact ⟨evicted ++ more, _, by rw [heq, List.append_assoc], hsteps.trans_sweep hrest⟩

theorem exists_steps (h : db.keyspace.Sound) (now : Int) (event : Event) :
    ∃ evicted own, db.Steps now event.request? evicted own (db.happen now event).notices
        (db.happen now event).database ∧ (own = [] ∨ event.isGranted = true) := by
  have hc := Clock.stands_standing now
  cases event with
  | request session request => exact exists_steps_dispatch h hc session request
  | sweep limit =>
    obtain ⟨evicted, hsteps, _⟩ := exists_steps_sweep h hc limit
    exact ⟨evicted, [], hsteps, Or.inl rfl⟩
  | cycle batch =>
    obtain ⟨evicted, more, heq, hsteps⟩ := exists_steps_sweepFrom h hc (max batch 1) 0
      (db.keyspace.volatileSize + 1) []
    refine ⟨evicted, [], ?_, Or.inl rfl⟩
    simp only [happen, runCycle]
    rw [heq]
    exact hsteps

end Database
end KeyStore
