import KeyStore.Proofs.LogFidelity

/-!
# What a crash leaves

A crash leaves some first bytes of the log. What a server has that comes up with them was visible after
some of the events, with one exception: a `set` with a time to live is two records, and if only the first
is left, the key is back without its deadline.
-/

namespace KeyStore

/-- A `set` with a time to live, and the same without. -/
inductive Event.Untimed : Event → Event → Prop
  | set {session : Session} {request : Request} {signature : Command.Signature} {key value : Bytes} {ms : Int}
      (hread : Command.read request = .ok (signature, .set key value (some ms))) :
      Untimed (.request session request) (.request session ["SET", key, value])

theorem Command.Told.take {request : Request} {now : Int} {m m' : Table Entry} {records : List Request}
    (h : Told request now m records m') (n : Nat) :
    records.take (n + 1) = records ∨ (records ≠ [] ∧ ∃ signature key value ms,
      read request = .ok (signature, .set key value (some ms)) ∧
        records.take (n + 1) = [(["SET", key, value] : Request)]) := by
  cases h with
  | @storedUntil signature key value ms hread =>
    cases n with
    | zero => exact Or.inr ⟨List.cons_ne_nil _ _, signature, key, value, ms, hread, rfl⟩
    | succ n => exact Or.inl (by simp)
  | _ => exact Or.inl (by simp)

namespace Database

open Keyspace

variable {db db' : Database} {now : Int}

theorem entries_happen_set (db : Database) (now : Int) {session : Session} (h : session.isAuthenticated = true)
    (key value : Bytes) :
    (db.happen now (.request session ["SET", key, value])).database.keyspace.entries =
      db.keyspace.entries.put key (some ⟨.string value, none⟩) := by
  have hname : ¬ Command.nameOf ["SET", key, value] = "auth" := by
    rw [show Command.nameOf ["SET", key, value] = "set" from rfl]
    decide
  obtain ⟨signature, hread⟩ := Command.read_set key value
  have hact : (Command.set key value none).action? ["SET", key, value] now db.countCommand.keyspace.loading =
      some (key, Action.store now key value none) := rfl
  have hleaves := (Keyspace.does_run _ (Clock.stands_standing now) db.countCommand.report hact).2
  simp only [happen, dispatch, hname, h, if_true, if_false]
  rw [execute_live hread]
  simp only [keyspace_log]
  exact hleaves.entries

theorem Steps.reloads_take {request : Request} {evicted : List Bytes} {own : List Request} {notices : List Notice}
    (h : db.Steps now request evicted own notices db') (n : Nat)
    (htime : Command.Timely ((expiryRecords evicted ++ own).take n)) :
    ∃ t, Reloads db.keyspace.entries ((expiryRecords evicted ++ own).take n) t ∧
      ((∀ later, now ≤ later → t.filter (!·.hasElapsed later) = db.keyspace.visible later) ∨
        t = db'.keyspace.entries ∨
        (own ≠ [] ∧ ∃ signature key value ms, Command.read request = .ok (signature, .set key value (some ms)) ∧
          ∀ later, now ≤ later → t.filter (!·.hasElapsed later) =
            (db.keyspace.entries.put key (some ⟨.string value, none⟩)).filter (!·.hasElapsed later))) := by
  have helapsed : ∀ keys, (∀ key ∈ keys, key ∈ evicted) → ∀ later, now ≤ later →
      (db.keyspace.entries.eraseAll keys).filter (!·.hasElapsed later) = db.keyspace.visible later := by
    intro keys hkeys later hle
    refine visible_eraseAll fun key hkey => ?_
    obtain ⟨e, he, hel⟩ := h.elapsed key (hkeys key hkey)
    exact ⟨e, he, Entry.hasElapsed_mono hle hel⟩
  rw [List.take_append] at htime ⊢
  by_cases hn : n ≤ evicted.length
  · -- the cut is among the keys that expired
    have hnil : n - (expiryRecords evicted).length = 0 := by
      rw [expiryRecords, List.length_map]
      omega
    have htake : (expiryRecords evicted).take n = expiryRecords (evicted.take n) := by
      rw [expiryRecords, expiryRecords, List.map_take]
    rw [hnil, List.take_zero, List.append_nil, htake]
    exact ⟨_, Reloads.deletions _ _, Or.inl (helapsed _ fun key => List.mem_of_mem_take)⟩
  · obtain ⟨i, hi⟩ : ∃ i, n - (expiryRecords evicted).length = i + 1 := by
      refine ⟨n - evicted.length - 1, ?_⟩
      rw [expiryRecords, List.length_map]
      omega
    have hall : (expiryRecords evicted).take n = expiryRecords evicted := by
      refine List.take_of_length_le ?_
      rw [expiryRecords, List.length_map]
      omega
    rw [hall, hi] at htime ⊢
    rcases h.told.take i with htake | ⟨hne, signature, key, value, ms, hread, htake⟩
    · rw [htake] at htime ⊢
      exact ⟨_, h.reloads_self (Command.timely_append.1 htime).2, Or.inr (Or.inl rfl)⟩
    · rw [htake]
      refine ⟨_, (Reloads.deletions _ evicted).append (Reloads.set _ key value),
        Or.inr (Or.inr ⟨hne, signature, key, value, ms, hread, fun later hle => ?_⟩)⟩
      rw [filter_put, filter_put, helapsed evicted (fun _ => id) later hle]
      rfl

/-- What is visible at a time after some of the events, or after some of them and the next one, a `set` with
a time to live, as if it were without. -/
def IsAfterSome (db : Database) (events : List (Int × Event)) (later : Int) (t : Table Entry) : Prop :=
  (∃ n, t = (db.course (events.take n)).database.keyspace.visible later) ∨
    ∃ n now event event', events[n]? = some (now, event) ∧ Event.Untimed event event' ∧
      t = (db.course (events.take n ++ [(now, event')])).database.keyspace.visible later

theorem IsAfterSome.cons {event : Event} {events : List (Int × Event)} {later : Int} {t : Table Entry}
    (h : (db.happen now event).database.IsAfterSome events later t) :
    db.IsAfterSome ((now, event) :: events) later t := by
  rcases h with ⟨n, rfl⟩ | ⟨n, now', e, e', hget, huntimed, rfl⟩
  · exact Or.inl ⟨n + 1, rfl⟩
  · exact Or.inr ⟨n + 1, now', e, e', hget, huntimed, rfl⟩

theorem exists_isAfterSome_happen {event : Event} {evicted : List Bytes} {own : List Request}
    (hsteps : db.Steps now event.request? evicted own (db.happen now event).notices (db.happen now event).database)
    (hgranted : own = [] ∨ event.isGranted = true) (n : Nat)
    (htime : Command.Timely ((expiryRecords evicted ++ own).take n)) (events : List (Int × Event)) :
    ∃ t, Reloads db.keyspace.entries ((expiryRecords evicted ++ own).take n) t ∧
      ∀ later, now ≤ later → db.IsAfterSome ((now, event) :: events) later (t.filter (!·.hasElapsed later)) := by
  obtain ⟨t, hreloads, hcases⟩ := hsteps.reloads_take n htime
  refine ⟨t, hreloads, fun later hle => ?_⟩
  rcases hcases with hbefore | rfl | ⟨hne, signature, key, value, ms, hread, hset⟩
  · exact Or.inl ⟨0, hbefore later hle⟩
  · exact Or.inl ⟨1, rfl⟩
  · cases event with
    | request session request =>
      refine Or.inr ⟨0, now, _, _, rfl, Event.Untimed.set hread, ?_⟩
      have hauth : session.isAuthenticated = true := hgranted.resolve_left hne
      rw [hset later hle, ← entries_happen_set db now hauth key value]
      rfl
    | sweep limit => cases hread
    | cycle batch => cases hread

/-- The first records of the log of a course load what was visible after some of the events. -/
theorem exists_isAfterSome {j : Journal} (hj : db.journal = some j) (hsound : db.keyspace.Sound)
    (hfits : Fits db.keyspace.entries) {events : List (Int × Event)} (hsized : ∀ x ∈ events, Event.Sized x)
    (hn : (db.course events).notices = []) :
    ∃ records, (db.course events).database.journal = some (j.extended records) ∧
      (∀ record ∈ records, Journal.Readable record) ∧
      ∀ n, Command.Timely (records.take n) → ∃ t, Reloads db.keyspace.entries (records.take n) t ∧
        ∀ later, (∀ x ∈ events, x.1 ≤ later) → db.IsAfterSome events later (t.filter (!·.hasElapsed later)) := by
  induction events generalizing db j with
  | nil =>
    refine ⟨[], by rw [Journal.extended_nil]; exact hj, by simp, fun n _ => ⟨_, ?_, fun later _ => Or.inl ⟨0, rfl⟩⟩⟩
    rw [List.take_nil]
    exact Reloads.nil _
  | cons x events ih =>
    obtain ⟨now, event⟩ := x
    obtain ⟨hx, hrest⟩ := List.forall_mem_cons.1 hsized
    obtain ⟨hfirst, hafter⟩ := List.append_eq_nil_iff.1 hn
    obtain ⟨evicted, own, hsteps, hgranted⟩ := exists_steps hsound now event
    obtain ⟨more, hjournal, hreadable, hcut⟩ :=
      ih (hsteps.journal_eq hfirst hj) hsteps.sound (hsteps.fits hfits hx.2) hrest hafter
    refine ⟨expiryRecords evicted ++ own ++ more, ?_, ?_, fun n htime => ?_⟩
    · rw [← Journal.extended_extended]
      exact hjournal
    · exact List.forall_mem_append.2 ⟨hsteps.readable hfits hx.2 hx.1, hreadable⟩
    · rw [List.take_append] at htime ⊢
      by_cases hlen : n ≤ (expiryRecords evicted ++ own).length
      · -- the cut is among the records of the first event
        rw [Nat.sub_eq_zero_of_le hlen, List.take_zero, List.append_nil] at htime ⊢
        obtain ⟨t, hreloads, hafterSome⟩ := exists_isAfterSome_happen hsteps hgranted n htime events
        exact ⟨t, hreloads, fun later hlater => hafterSome later (hlater (now, event) List.mem_cons_self)⟩
      · have hall : (expiryRecords evicted ++ own).take n = expiryRecords evicted ++ own :=
          List.take_of_length_le (by omega)
        rw [hall] at htime ⊢
        obtain ⟨hfront, hback⟩ := Command.timely_append.1 htime
        obtain ⟨t, hreloads, hafterSome⟩ := hcut _ hback
        have hreloads' := hsteps.reloads_self (Command.timely_append.1 hfront).2
        refine ⟨t, hreloads'.append hreloads, fun later hlater => ?_⟩
        exact (hafterSome later fun x hx => hlater x (List.mem_cons_of_mem _ hx)).cons

/-- A crash leaves a prefix. Whatever first part of the log of a course that began with nothing is left, if it
is not taken for corrupt, a server comes up with it; and if it skips no record then it has what was visible
after some of the events, save that a `set` with a time to live may be back without. -/
theorem crash_leaves_prefix (path : Bytes) (limit : Option Nat) (events : List (Int × Event))
    (hsized : ∀ x ∈ events, Event.Sized x) (hn : ((fresh path limit).course events).notices = []) :
    ∃ j, ((fresh path limit).course events).database.journal = some j ∧
      ∀ (n : Nat) (c : Clock) (later : Int), c.Stands later → (∀ x ∈ events, x.1 ≤ later) →
        (Journal.scan (j.contents.take n)).isCorrupt = false →
        ∃ stats db c' notices, (replay {} c path (j.contents.take n)).result = .ok stats ∧
          Program.recover c path (.file (j.contents.take n)) = .ok (db, c', notices) ∧
          (stats.skipped = 0 → (fresh path limit).IsAfterSome events later (db.keyspace.visible later)) := by
  have hfits : Fits (∅ : Table Entry) := fun _ _ h => by cases h
  have hsound : (fresh path limit).keyspace.Sound := Keyspace.sound_empty
  obtain ⟨records, hjournal, hreadable, hcut⟩ := exists_isAfterSome rfl hsound hfits hsized hn
  refine ⟨_, hjournal, fun n c later hc hlater hcorrupt => ?_⟩
  obtain ⟨m, tail, htake, htail⟩ := Journal.exists_take_bytesOf hreadable n
  have hreadable' : ∀ record ∈ records.take m, Journal.Readable record := fun record h =>
    hreadable record (List.mem_of_mem_take h)
  have hcontents : (({ path, limit } : Journal).extended records).contents.take n =
      Journal.bytesOf (records.take m) ++ tail := htake
  rw [hcontents] at hcorrupt ⊢
  have hlaterFrame : Journal.laterFrame tail = false := by
    rwa [Journal.Scan.isCorrupt, (Journal.scan_bytesOf hreadable' htail).2.1] at hcorrupt
  obtain ⟨stats, hres, hskip, _⟩ := result_replay hreadable' htail hlaterFrame c path
  refine ⟨stats, _, _, _, hres, Program.recover_of_replay hres, fun hzero => ?_⟩
  have htime := Command.timely_of_legible (legible_of_skipped_eq (hskip.symm.trans hzero))
  obtain ⟨t, hreloads, hafter⟩ := hcut m htime
  have hent := (replay_of_loads hreadable' htail hlaterFrame hreloads.loads hc path).1
  have hvisible : (replay {} c path (Journal.bytesOf (records.take m) ++ tail)).database.keyspace.visible later =
      t.filter (!·.hasElapsed later) := by
    rw [visible, hent, Table.filter_visible _ (Int.le_refl later)]
  exact hvisible ▸ hafter later hlater

theorem crash_leaves_prefix_of_set :
    let set : Event := .request (.start none) ["SET", "k", "v", "PX", "5000"]
    ∃ j db c' notices, ((fresh "log" none).course [(1000, set)]).database.journal = some j ∧
      Program.recover (.standing 1000) "log" (.file (j.contents.take 27)) = .ok (db, c', notices) ∧
      (fresh "log" none).IsAfterSome [(1000, set)] 1000 (db.keyspace.visible 1000) := by
  intro set
  obtain ⟨j, hj, h⟩ := crash_leaves_prefix "log" none [(1000, set)] (by decide) (by decide +kernel)
  have hread : ∀ o, ((fresh "log" none).course [(1000, set)]).database.journal = o →
      (o.map fun j => ((Journal.scan (j.contents.take 27)).isCorrupt,
        (replay {} (.standing 1000) "log" (j.contents.take 27)).result.toOption.map (·.skipped))) =
          some (false, some 0) := by
    rintro _ rfl
    decide +kernel
  have hj' := Prod.mk.inj (Option.some.inj (hread _ hj))
  obtain ⟨stats, db, c', notices, hres, hrec, hafter⟩ :=
    h 27 (.standing 1000) 1000 (Clock.stands_standing 1000) (by decide) hj'.1
  have hskip := hj'.2
  rw [hres] at hskip
  exact ⟨j, db, c', notices, hj, hrec, hafter (Option.some.inj hskip)⟩

/-- A cut between the two records of a `set` with a time to live brings a key back without its deadline, which
is not what was visible after any number of the events. -/
theorem crash_loses_deadline :
    ¬ ∀ (path : Bytes) (limit : Option Nat) (events : List (Int × Event)), (∀ x ∈ events, Event.Sized x) →
      ((fresh path limit).course events).notices = [] →
      ∀ (j : Journal), ((fresh path limit).course events).database.journal = some j →
      ∀ (n : Nat) (c : Clock) (later : Int), c.Stands later → (∀ x ∈ events, x.1 ≤ later) →
        (Journal.scan (j.contents.take n)).isCorrupt = false →
        ∃ db c' notices, Program.recover c path (.file (j.contents.take n)) = .ok (db, c', notices) ∧
          ∃ k, db.keyspace.visible later =
            ((fresh path limit).course (events.take k)).database.keyspace.visible later := by
  intro h
  let set : Event := .request (.start none) ["SET", "k", "v", "PX", "5000"]
  have hcut : ∀ o, ((fresh "log" none).course [(1000, set)]).database.journal = o →
      (o.map fun j => ((Journal.scan (j.contents.take 27)).isCorrupt,
        (Program.recover (.standing 1000) "log" (.file (j.contents.take 27))).toOption.map
          fun r => r.1.keyspace.visible 1000)) =
        some (false, some ((∅ : Table Entry).insert "k" ⟨.string "v", none⟩)) := by
    rintro _ rfl
    decide +kernel
  cases hj : ((fresh "log" none).course [(1000, set)]).database.journal with
  | none => cases hcut _ hj
  | some j =>
    have hj' := Prod.mk.inj (Option.some.inj (hcut _ hj))
    obtain ⟨db, c', notices, hrec, k, hk⟩ := h "log" none [(1000, set)] (by decide) (by decide +kernel) j hj 27
      (.standing 1000) 1000 (Clock.stands_standing 1000) (by decide) hj'.1
    have hvisible := hj'.2
    rw [hrec] at hvisible
    have hvisible' : db.keyspace.visible 1000 = (∅ : Table Entry).insert "k" ⟨.string "v", none⟩ :=
      Option.some.inj hvisible
    rw [hvisible'] at hk
    cases k with
    | zero =>
      revert hk
      decide +kernel
    | succ k =>
      rw [List.take_succ_cons, List.take_nil] at hk
      revert hk
      decide +kernel

end Database
end KeyStore
