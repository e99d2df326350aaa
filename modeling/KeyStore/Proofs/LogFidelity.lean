import KeyStore.Proofs.Courses
import KeyStore.Proofs.Restarts

/-!
# The log and the keyspace

What is appended while something happens to a database does the same to a keyspace that is loading. So
the log of a course of events, replayed at any time, gives the keyspace that the course has led to, as
far as it is not past its deadlines then.
-/

namespace KeyStore.Database

/-- What holds of a database with a journal that tells everything about its keyspace: the entries `t` of
before, and the records since. -/
structure Tells (db : Database) (t : Table Entry) (j : Journal) (records : List Request) : Prop where
  journal : db.journal = some (j.extended records)
  sound : db.keyspace.Sound
  fits : Fits db.keyspace.entries
  readable : ∀ record ∈ records, Journal.Readable record
  reloads : Command.Timely records → Reloads t records db.keyspace.entries

theorem Tells.nil {db : Database} {j : Journal} (hj : db.journal = some j) (hsound : db.keyspace.Sound)
    (hfits : Fits db.keyspace.entries) : Tells db db.keyspace.entries j [] :=
  ⟨by rw [Journal.extended_nil]; exact hj, hsound, hfits, by simp, fun _ => Reloads.nil _⟩

theorem Tells.trans {db db' : Database} {t : Table Entry} {j : Journal} {records more : List Request}
    (h : Tells db t j records) (h' : Tells db' db.keyspace.entries (j.extended records) more) :
    Tells db' t j (records ++ more) where
  journal := by rw [← Journal.extended_extended]; exact h'.journal
  sound := h'.sound
  fits := h'.fits
  readable := List.forall_mem_append.2 ⟨h.readable, h'.readable⟩
  reloads := fun htime =>
    (h.reloads (Command.timely_append.1 htime).1).append (h'.reloads (Command.timely_append.1 htime).2)

theorem Steps.tells {db db' : Database} {now : Int} {request : Request} {evicted : List Bytes} {own : List Request}
    {notices : List Notice} {j : Journal} (h : db.Steps now request evicted own notices db') (hj : db.journal = some j)
    (hfits : Fits db.keyspace.entries) (hs : Frame.Sized request) (hnow : IsInt64 now) (hn : notices = []) :
    Tells db' db.keyspace.entries j (expiryRecords evicted ++ own) :=
  ⟨h.journal_eq hn hj, h.sound, h.fits hfits hs, h.readable hfits hs hnow,
    fun htime => h.reloads_self (Command.timely_append.1 htime).2⟩

theorem exists_tells_happen {db : Database} {j : Journal} (hj : db.journal = some j) (hsound : db.keyspace.Sound)
    (hfits : Fits db.keyspace.entries) {now : Int} {event : Event} (hsized : Event.Sized (now, event))
    (hn : (db.happen now event).notices = []) :
    ∃ records, Tells (db.happen now event).database db.keyspace.entries j records := by
  obtain ⟨evicted, own, hsteps, _⟩ := exists_steps hsound now event
  exact ⟨expiryRecords evicted ++ own, hsteps.tells hj hfits hsized.2 hsized.1 hn⟩

theorem exists_tells_course {db : Database} {j : Journal} (hj : db.journal = some j) (hsound : db.keyspace.Sound)
    (hfits : Fits db.keyspace.entries) {events : List (Int × Event)} (hsized : ∀ x ∈ events, Event.Sized x)
    (hn : (db.course events).notices = []) :
    ∃ records, Tells (db.course events).database db.keyspace.entries j records := by
  induction events generalizing db j with
  | nil => exact ⟨[], Tells.nil hj hsound hfits⟩
  | cons x events ih =>
    obtain ⟨now, event⟩ := x
    obtain ⟨hx, hrest⟩ := List.forall_mem_cons.1 hsized
    obtain ⟨hfirst, hafter⟩ := List.append_eq_nil_iff.1 hn
    obtain ⟨records, h⟩ := exists_tells_happen hj hsound hfits hx hfirst
    obtain ⟨more, h'⟩ := ih h.journal h.sound h.fits hrest hafter
    exact ⟨records ++ more, h.trans h'⟩

/-- The log tells the keyspace. What is appended while an event happens, read back and loaded on top of the
entries of before, gives the entries of after; and the log of a course of events that began with nothing,
replayed at any time, gives the entries that are not past their deadline then. Both provided that the
loading skips no record. -/
theorem log_tells_keyspace :
    (∀ (live : Database) (j : Journal) (now : Int) (event : Event),
      live.journal = some j → live.keyspace.Sound → Fits live.keyspace.entries → Event.Sized (now, event) →
      (live.happen now event).notices = [] →
      ∃ bytes, (live.happen now event).database.journal.map (·.contents) = some (j.contents ++ bytes) ∧
        (Journal.scan bytes).tail = [] ∧
        ∀ (copy : Database) (c : Clock) (later : Int) (stats : ReplayStats) (notices : List Notice),
          copy.keyspace.loading = true → copy.keyspace.entries = live.keyspace.entries → c.Stands later →
          (copy.applyAll c stats (Journal.recordsIn bytes) notices).result.skipped = stats.skipped →
          (copy.applyAll c stats (Journal.recordsIn bytes) notices).database.keyspace.entries =
            (live.happen now event).database.keyspace.entries) ∧
    (∀ (path : Bytes) (limit : Option Nat) (events : List (Int × Event)), (∀ x ∈ events, Event.Sized x) →
      ((fresh path limit).course events).notices = [] →
      ∃ j, ((fresh path limit).course events).database.journal = some j ∧
        ∀ (c : Clock) (later : Int), c.Stands later →
          ∃ stats, (replay {} c path j.contents).result = .ok stats ∧ stats.discarded = 0 ∧
            (stats.skipped = 0 → (replay {} c path j.contents).database.keyspace.entries =
              ((fresh path limit).course events).database.keyspace.visible later)) := by
  constructor
  · intro live j now event hj hsound hfits hsized hn
    obtain ⟨records, h⟩ := exists_tells_happen hj hsound hfits hsized hn
    refine ⟨Journal.bytesOf records, by rw [h.journal]; rfl, Journal.tail_scan_bytesOf h.readable, ?_⟩
    intro copy c later stats notices hload hent hc hskip
    rw [Journal.recordsIn_bytesOf h.readable] at hskip ⊢
    have htime := Command.timely_of_legible (legible_of_skipped_eq hskip)
    exact ((h.reloads htime).loads copy c later stats notices hload hent hc).1
  · intro path limit events hsized hn
    have hfits : Fits (∅ : Table Entry) := fun _ _ h => by cases h
    obtain ⟨records, h⟩ : ∃ records, Tells ((fresh path limit).course events).database ∅ { path, limit } records :=
      exists_tells_course rfl Keyspace.sound_empty hfits hsized hn
    refine ⟨_, h.journal, fun c later hc => ?_⟩
    have hlater : Journal.laterFrame [] = false := rfl
    obtain ⟨stats, hres, hskip, hdisc⟩ := result_replay h.readable Frame.incomplete_nil hlater c path
    simp only [List.append_nil] at hres
    refine ⟨stats, hres, hdisc, fun hzero => ?_⟩
    have hloads := h.reloads (Command.timely_of_legible (legible_of_skipped_eq (hskip.symm.trans hzero)))
    have hvisible := (replay_of_loads h.readable Frame.incomplete_nil hlater hloads.loads hc path).1
    rw [List.append_nil] at hvisible
    exact hvisible

theorem log_tells_keyspace_with_deadline :
    let set : Event := .request (.start none) ["SET", "k", "v", "PX", "5000"]
    let events := [(1000, set), (1500, .request (.start none) ["RPUSH", "l", "a"]), (7000, .sweep 10)]
    (∃ bytes, ((fresh "log" none).happen 1000 set).database.journal.map (·.contents) = some bytes ∧
      ((setLoading {} true).applyAll (.standing 0) {} (Journal.recordsIn bytes) []).database.keyspace.entries =
        ((fresh "log" none).happen 1000 set).database.keyspace.entries) ∧
    ∃ j, ((fresh "log" none).course events).database.journal = some j ∧
      (replay {} (.standing 2000) "log" j.contents).database.keyspace.entries =
        ((fresh "log" none).course events).database.keyspace.visible 2000 := by
  intro set events
  constructor
  · obtain ⟨bytes, hbytes, _, h⟩ := log_tells_keyspace.1 (fresh "log" none) { path := "log" } 1000 set rfl
      Keyspace.sound_empty (fun _ _ h => by cases h) (by decide) (by decide +kernel)
    have hskip : ∀ o, ((fresh "log" none).happen 1000 set).database.journal.map (·.contents) = o →
        (o.map fun bytes => ((setLoading {} true).applyAll (.standing 0) {} (Journal.recordsIn bytes)
          []).result.skipped) = some 0 := by
      rintro _ rfl
      decide +kernel
    have hzero := Option.some.inj (hskip _ hbytes)
    exact ⟨bytes, hbytes, h (setLoading {} true) (.standing 0) 0 {} [] rfl rfl (Clock.stands_standing 0) hzero⟩
  · obtain ⟨j, hj, h⟩ := log_tells_keyspace.2 "log" none events (by decide) (by decide +kernel)
    obtain ⟨stats, hres, _, hent⟩ := h (.standing 2000) 2000 (Clock.stands_standing 2000)
    have hskip : ∀ o, ((fresh "log" none).course events).database.journal = o → (o.map fun j =>
        (replay {} (.standing 2000) "log" j.contents).result.toOption.map (·.skipped)) = some (some 0) := by
      rintro _ rfl
      decide +kernel
    have hzero := hskip _ hj
    simp only [Option.map_some, hres, Except.toOption] at hzero
    exact ⟨j, hj, hent (Option.some.inj (Option.some.inj hzero))⟩

end KeyStore.Database
