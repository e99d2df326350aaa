import KeyStore.Proofs.LogFidelity
import KeyStore.Proofs.Skips

/-!
# Deadlines that the log cannot tell

A command may set any time to live within the limit, and the log is told of the deadline that comes of it,
which may be beyond the limit. A record of such a deadline spells no command. So the replay of a log skips
as many records as there are such deadlines in it, and none if and only if no key ever had one
(`Database.replay_skips_iff`).
-/

namespace KeyStore

namespace Command

theorem isInt64_of_withinLimit {d : Int} (h : WithinLimit d) : IsInt64 d := by
  simp only [WithinLimit, durationLimit] at h
  simp only [IsInt64, minInt64, maxInt64]
  omega

theorem legible_deadlineRecord_iff {key : Bytes} {d : Int} : Legible (deadlineRecord key d) ↔ WithinLimit d := by
  constructor
  · rintro ⟨signature, command, hread⟩
    have hproper := (spelled_of_read hread).proper
    rwa [eq_expireAt_of_read hread] at hproper
  · intro h
    have hint : readInt (Numeral.ofInt d) = .ok d := by
      simp [readInt, Numeral.readInt_ofInt (isInt64_of_withinLimit h)]
    have hdur : readDuration "pexpireat" d 1 = .ok d := by
      simp only [WithinLimit] at h
      simp only [readDuration, Int.ediv_one, Int.mul_one]
      rw [if_neg (by omega)]
    refine ⟨⟨"pexpireat", true, timed "pexpireat" 1 .expireAt⟩, .expireAt key d, ?_⟩
    rw [read_deadlineRecord, hint]
    change Except.map _ (Except.map _ (readDuration "pexpireat" d 1)) = _
    rw [hdur]
    rfl

end Command

def Near (entries : Table Entry) : Prop :=
  ∀ key e d, entries.find? key = some e → e.deadline = some d → Command.WithinLimit d

theorem near_iff_forall_mem {entries : Table Entry} :
    Near entries ↔ ∀ x ∈ entries.entries, ∀ d ∈ x.2.deadline, Command.WithinLimit d := by
  simp only [Near, Table.find?_eq_some_iff, Prod.forall, Option.mem_def]
  exact ⟨fun h key e hmem d hd => h key e d hmem hd, fun h key e d hmem hd => h key e hmem d hd⟩

instance (d : Int) : Decidable (Command.WithinLimit d) := inferInstanceAs (Decidable (_ ∧ _))

instance (entries : Table Entry) : Decidable (Near entries) := decidable_of_iff' _ near_iff_forall_mem

theorem Near.empty : Near ∅ := fun _ _ _ h => by cases h

theorem Near.eraseAll {m : Table Entry} (h : Near m) (keys : List Bytes) : Near (m.eraseAll keys) :=
  fun key e d he => h key e d (Table.eraseAll_subset m keys key e he)

namespace Command

variable {request : Request} {now : Int} {m m' : Table Entry} {records : List Request} {command : Command} {key : Bytes}
  {act : Action (Except CommandError Answer)}

theorem deadline_of_snd_update (h : command.update? request = some (key, act)) {x : Option Entry} {e : Entry}
    {d : Int} (he : (act x).2 = some e) (hd : e.deadline = some d) : ∃ y, x = some y ∧ y.deadline = some d := by
  have hbind : x.bind (·.deadline) = some d → ∃ y, x = some y ∧ y.deadline = some d := Option.bind_eq_some_iff.1
  cases command with
  | increment key delta =>
    cases h
    exact hbind ((Action.deadline_of_increment he).symm.trans hd)
  | persist key =>
    cases h
    cases x with
    | none => cases he
    | some y =>
      cases he
      cases hd
  | edit key edit =>
    cases h
    cases x with
    | none => simp [Action.deadline_of_stored he] at hd
    | some y =>
      refine ⟨y, rfl, ?_⟩
      simp only [Action.edit] at he
      split at he
      · cases he
        exact hd
      · exact (Action.deadline_of_stored he).symm.trans hd
  | remove key r =>
    cases h
    cases x with
    | none => cases he
    | some y =>
      refine ⟨y, rfl, ?_⟩
      simp only [Action.remove] at he
      split at he
      · cases he
        exact hd
      · exact (Action.deadline_of_stored he).symm.trans hd
  | _ => cases h

theorem Told.legible_or_deadline (h : Told request now m records m') {record : Request} (hmem : record ∈ records) :
    Legible record ∨ ∃ key d e, record = deadlineRecord key d ∧ m'.find? key = some e ∧ e.deadline = some d := by
  cases h with
  | nothing => cases hmem
  | flushed hread =>
    obtain rfl := List.mem_singleton.1 hmem
    exact Or.inl ⟨_, _, hread⟩
  | deleted hread hne =>
    obtain rfl := List.mem_singleton.1 hmem
    obtain ⟨signature, hdel⟩ := read_deletionRecord hne
    exact Or.inl ⟨_, _, hdel⟩
  | stored hread =>
    obtain rfl := List.mem_singleton.1 hmem
    obtain ⟨signature, hset⟩ := read_set _ _
    exact Or.inl ⟨_, _, hset⟩
  | @storedUntil _ key value ms hread =>
    rcases List.mem_cons.1 hmem with rfl | hmem
    · obtain ⟨signature, hset⟩ := read_set key value
      exact Or.inl ⟨_, _, hset⟩
    · exact Or.inr ⟨key, now + ms, _, List.mem_singleton.1 hmem, Table.find?_put_self _ _ _, rfl⟩
  | @scheduled _ _ key d e hread hd he =>
    exact Or.inr ⟨key, d, _, List.mem_singleton.1 hmem, Table.find?_put_self _ _ _, rfl⟩
  | updated hread =>
    obtain rfl := List.mem_singleton.1 hmem
    exact Or.inl ⟨_, _, hread⟩

theorem Told.deadline_old_or_told (h : Told request now m records m') {key : Bytes} {e : Entry} {d : Int}
    (he : m'.find? key = some e) (hd : e.deadline = some d) :
    (∃ x, m.find? key = some x ∧ x.deadline = some d) ∨ deadlineRecord key d ∈ records := by
  cases h with
  | nothing => exact Or.inl ⟨e, he, hd⟩
  | flushed hread => cases he
  | deleted hread hne => exact Or.inl ⟨e, Table.eraseAll_subset _ _ key e he, hd⟩
  | stored hread =>
    rcases Table.of_find?_put he with ⟨rfl, hx⟩ | hold
    · cases hx
      cases hd
    · exact Or.inl ⟨e, hold, hd⟩
  | storedUntil hread =>
    rcases Table.of_find?_put he with ⟨rfl, hx⟩ | hold
    · cases hx
      cases hd
      exact Or.inr (by simp)
    · exact Or.inl ⟨e, hold, hd⟩
  | scheduled hread =>
    rcases Table.of_find?_put he with ⟨rfl, hx⟩ | hold
    · cases hx
      cases hd
      exact Or.inr (by simp)
    · exact Or.inl ⟨e, hold, hd⟩
  | updated hread hup =>
    rcases Table.of_find?_put he with ⟨rfl, hx⟩ | hold
    · exact Or.inl (deadline_of_snd_update hup hx hd)
    · exact Or.inl ⟨e, hold, hd⟩

end Command

namespace Database

variable {db db' : Database} {now : Int} {request : Request} {evicted : List Bytes} {own : List Request}
  {notices : List Notice}

theorem legible_of_mem_expiryRecords {keys : List Bytes} {record : Request} (h : record ∈ expiryRecords keys) :
    Command.Legible record := by
  obtain ⟨key, _, rfl⟩ := List.mem_map.1 h
  obtain ⟨signature, hread⟩ := Command.read_deletionRecord (List.cons_ne_nil key [])
  exact ⟨_, _, hread⟩

theorem Steps.legible_or_deadline (h : db.Steps now request evicted own notices db') {record : Request}
    (hmem : record ∈ expiryRecords evicted ++ own) :
    Command.Legible record ∨ ∃ key d e, record = Command.deadlineRecord key d ∧
      db'.keyspace.entries.find? key = some e ∧ e.deadline = some d := by
  rcases List.mem_append.1 hmem with hmem | hmem
  · exact Or.inl (legible_of_mem_expiryRecords hmem)
  · exact h.told.legible_or_deadline hmem

theorem Steps.near_iff (h : db.Steps now request evicted own notices db') (hnear : Near db.keyspace.entries) :
    Near db'.keyspace.entries ↔ ∀ record ∈ expiryRecords evicted ++ own, Command.Legible record := by
  constructor
  · intro hnear' record hmem
    rcases h.legible_or_deadline hmem with hleg | ⟨key, d, e, rfl, he, hd⟩
    · exact hleg
    · exact Command.legible_deadlineRecord_iff.2 (hnear' key e d he hd)
  · intro hleg key e d he hd
    rcases h.told.deadline_old_or_told he hd with ⟨x, hx, hxd⟩ | htold
    · exact hnear.eraseAll evicted key x d hx hxd
    · exact Command.legible_deadlineRecord_iff.1 (hleg _ (List.mem_append_right _ htold))

/-- Loading what is appended on top of the values of before skips only records that spell no command, and
leaves the values of after. -/
theorem Steps.skips (h : db.Steps now request evicted own notices db') {t : Table Entry}
    (hsame : SameValues t db.keyspace.entries) :
    ∃ t', Skips t (expiryRecords evicted ++ own) t' ∧ SameValues t' db'.keyspace.entries := by
  obtain ⟨t', hskips, hsame'⟩ := h.told.skips (hsame.eraseAll evicted)
  exact ⟨t', (Skips.of_reloads (Reloads.deletions t evicted)).append hskips, hsame'⟩

/-- What the records `records` of a course of events from `db` to `db'` tell, and what loading them skips. -/
structure Recalls (db db' : Database) (j : Journal) (records : List Request) : Prop where
  tells : Tells db' db.keyspace.entries j records
  skips : ∀ t, SameValues t db.keyspace.entries → ∃ t', Skips t records t' ∧ SameValues t' db'.keyspace.entries
  far : ∀ record ∈ records, Command.Legible record ∨ ∃ key d, record = Command.deadlineRecord key d

theorem exists_recalls_happen {j : Journal} (hj : db.journal = some j) (hsound : db.keyspace.Sound)
    (hfits : Fits db.keyspace.entries) {event : Event} (hsized : Event.Sized (now, event))
    (hn : (db.happen now event).notices = []) :
    ∃ records, Recalls db (db.happen now event).database j records ∧
      (Near db.keyspace.entries → (Near (db.happen now event).database.keyspace.entries ↔
        ∀ record ∈ records, Command.Legible record)) := by
  obtain ⟨evicted, own, hsteps, _⟩ := exists_steps hsound now event
  refine ⟨expiryRecords evicted ++ own, ⟨hsteps.tells hj hfits hsized.2 hsized.1 hn, fun t => hsteps.skips,
    fun record hmem => ?_⟩, hsteps.near_iff⟩
  exact (hsteps.legible_or_deadline hmem).imp_right fun ⟨key, d, _, heq, _⟩ => ⟨key, d, heq⟩

theorem Recalls.nil {j : Journal} (hj : db.journal = some j) (hsound : db.keyspace.Sound)
    (hfits : Fits db.keyspace.entries) : Recalls db db j [] where
  tells := Tells.nil hj hsound hfits
  skips := fun t hsame => ⟨t, Skips.of_reloads (Reloads.nil t), hsame⟩
  far := by simp

theorem Recalls.trans {db'' : Database} {j : Journal} {records more : List Request} (h : Recalls db db' j records)
    (h' : Recalls db' db'' (j.extended records) more) : Recalls db db'' j (records ++ more) where
  tells := h.tells.trans h'.tells
  skips := fun t hsame => by
    obtain ⟨t', hskips, hsame'⟩ := h.skips t hsame
    obtain ⟨t'', hskips', hsame''⟩ := h'.skips t' hsame'
    exact ⟨t'', hskips.append hskips', hsame''⟩
  far := List.forall_mem_append.2 ⟨h.far, h'.far⟩

/-- The records of a course of events all spell commands if and only if no deadline was beyond the limit at any
time. -/
theorem exists_recalls_course {j : Journal} (hj : db.journal = some j) (hsound : db.keyspace.Sound)
    (hfits : Fits db.keyspace.entries) {events : List (Int × Event)} (hsized : ∀ x ∈ events, Event.Sized x)
    (hn : (db.course events).notices = []) :
    ∃ records, Recalls db (db.course events).database j records ∧
      (Near db.keyspace.entries → ((∀ past, past <+: events → Near (db.course past).database.keyspace.entries) ↔
        ∀ record ∈ records, Command.Legible record)) := by
  induction events generalizing db j with
  | nil =>
    refine ⟨[], Recalls.nil hj hsound hfits, fun hnear => ?_⟩
    simpa [course] using hnear
  | cons x events ih =>
    obtain ⟨now, event⟩ := x
    obtain ⟨hx, hrest⟩ := List.forall_mem_cons.1 hsized
    obtain ⟨hfirst, hafter⟩ := List.append_eq_nil_iff.1 hn
    obtain ⟨records, h, hiff⟩ := exists_recalls_happen hj hsound hfits hx hfirst
    obtain ⟨more, h', hiff'⟩ := ih h.tells.journal h.tells.sound h.tells.fits hrest hafter
    refine ⟨records ++ more, h.trans h', fun hnear => ?_⟩
    -- the first event settles the entries from which the others begin
    rw [List.forall_mem_append, ← hiff hnear]
    constructor
    · intro hall
      have hnow : Near (db.happen now event).database.keyspace.entries :=
        hall [(now, event)] ⟨events, rfl⟩
      refine ⟨hnow, (hiff' hnow).1 fun past hpast => ?_⟩
      exact hall ((now, event) :: past) (List.cons_prefix_cons.2 ⟨rfl, hpast⟩)
    · rintro ⟨hnow, hmore⟩ past hpast
      rcases List.prefix_cons_iff.1 hpast with rfl | ⟨past, rfl, hpast'⟩
      · exact hnear
      · exact (hiff' hnow).2 hmore past hpast'

/-- The log of a course of events that began with nothing can be replayed, to its end and at any time. The
replay skips the records that spell no command, and these are records of deadlines beyond the limit. It skips
none if and only if no key ever had such a deadline; then it gives the entries that the course has led to,
with their deadlines, as far as they are not past them. -/
theorem replay_skips_iff (path : Bytes) (limit : Option Nat) (events : List (Int × Event))
    (hsized : ∀ x ∈ events, Event.Sized x) (hn : ((fresh path limit).course events).notices = []) :
    ∃ j, ((fresh path limit).course events).database.journal = some j ∧
      (∀ record ∈ Journal.recordsIn j.contents, ¬ Command.Legible record →
        ∃ key d, record = Command.deadlineRecord key d ∧ ¬ Command.WithinLimit d) ∧
      ∀ (c : Clock) (later : Int), c.Stands later →
        ∃ stats, (replay {} c path j.contents).result = .ok stats ∧ stats.discarded = 0 ∧
          stats.skipped = Command.illegible (Journal.recordsIn j.contents) ∧
          (stats.skipped = 0 ↔ ∀ past, past <+: events →
            Near ((fresh path limit).course past).database.keyspace.entries) ∧
          (stats.skipped = 0 → (replay {} c path j.contents).database.keyspace.entries =
            ((fresh path limit).course events).database.keyspace.visible later) := by
  have hfits : Fits (∅ : Table Entry) := fun _ _ h => by cases h
  have hjournal : (fresh path limit).journal = some { path, limit } := rfl
  obtain ⟨records, h, hnear⟩ := exists_recalls_course hjournal Keyspace.sound_empty hfits hsized hn
  have hrecords : Journal.recordsIn (Journal.bytesOf records) = records := Journal.recordsIn_bytesOf h.tells.readable
  have hcontents : (Journal.extended { path, limit } records).contents = Journal.bytesOf records := List.nil_append _
  refine ⟨_, h.tells.journal, ?_, fun c later hc => ?_⟩
  · rw [hcontents, hrecords]
    intro record hmem hleg
    obtain ⟨key, d, rfl⟩ := (h.far record hmem).resolve_left hleg
    exact ⟨key, d, rfl, fun hlimit => hleg (Command.legible_deadlineRecord_iff.2 hlimit)⟩
  · rw [hcontents, hrecords]
    have hlater : Journal.laterFrame [] = false := rfl
    obtain ⟨stats, hres, hskip, hdisc⟩ := result_replay h.tells.readable Frame.incomplete_nil hlater c path
    obtain ⟨t', hskips, _⟩ := h.skips ∅ (SameValues.refl ∅)
    rw [hskips.skips (setLoading {} true) c later {} [] rfl rfl hc, Nat.zero_add] at hskip
    have hnone : stats.skipped = 0 ↔ ∀ record ∈ records, Command.Legible record := by
      rw [hskip, Command.illegible, List.countP_eq_zero]
      simp
    rw [List.append_nil] at hres
    refine ⟨stats, hres, hdisc, hskip, hnone.trans (hnear Near.empty).symm, fun hzero => ?_⟩
    have hloads := (h.tells.reloads (Command.timely_of_legible (hnone.1 hzero))).loads
    have hvisible := (replay_of_loads h.tells.readable Frame.incomplete_nil hlater hloads hc path).1
    rwa [List.append_nil] at hvisible

theorem replay_skips_of_ttl :
    let set (ttl : Bytes) : Int × Event := (1000, .request (.start none) ["SET", "k", "v", "PX", ttl])
    let isSkipped (ttl : Bytes) (skipped : Nat → Prop) : Prop :=
      ∃ j stats, ((fresh "log" none).course [set ttl]).database.journal = some j ∧
        (replay {} (.standing 1000) "log" j.contents).result = .ok stats ∧ skipped stats.skipped
    isSkipped "5000" (· = 0) ∧ isSkipped "4611686018427387903" (· ≠ 0) := by
  intro set isSkipped
  have hc := Clock.stands_standing 1000
  constructor
  · obtain ⟨j, hj, _, h⟩ := replay_skips_iff "log" none [set "5000"] (by decide) (by decide +kernel)
    obtain ⟨stats, hres, _, _, hnear, _⟩ := h (.standing 1000) 1000 hc
    refine ⟨j, stats, hj, hres, hnear.2 fun past hpast => ?_⟩
    rcases List.prefix_cons_iff.1 hpast with rfl | ⟨past, rfl, hnil⟩
    · exact Near.empty
    · rw [List.prefix_nil.1 hnil]
      decide +kernel
  · obtain ⟨j, hj, _, h⟩ := replay_skips_iff "log" none [set "4611686018427387903"] (by decide) (by decide +kernel)
    obtain ⟨stats, hres, _, _, hnear, _⟩ := h (.standing 1000) 1000 hc
    refine ⟨j, stats, hj, hres, fun hzero => ?_⟩
    have hnow := hnear.1 hzero _ (List.prefix_refl _)
    revert hnow
    decide +kernel

end Database
end KeyStore
