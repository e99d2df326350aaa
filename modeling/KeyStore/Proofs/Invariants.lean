import KeyStore.Proofs.Courses

/-!
# The invariant of the store

The entries and the deadline index are changed side by side. Every operation keeps them in step and leaves no
empty container, whatever the clock shows and whether deadlines are enforced or not (`Keyspace.Settled`). So
do requests, sweeps and replays of any bytes, which besides leave nothing unlogged and deadlines enforced
(`Keyspace.invariant_of_reachable`).
-/

namespace KeyStore

theorem Full.insert {t : Table Entry} (h : Full t) {e : Entry} (he : e.value.isHollow = false) (key : Bytes) :
    Full (t.insert key e) := by
  intro k x hx
  rw [Table.find?_insert] at hx
  split at hx
  · cases hx
    exact he
  · exact h k x hx

theorem Full.eraseAll {t : Table Entry} (h : Full t) (keys : List Bytes) : Full (t.eraseAll keys) :=
  fun k x hx => h k x (Table.eraseAll_subset t keys k x hx)

/-- The index is the deadlines of the entries, in order. -/
theorem Indexes.perm {index : Ranking Int} {entries : Table Entry} (h : Indexes index entries) :
    index.Perm (entries.entries.filterMap fun (key, e) => e.deadline.map (·, key)) := by
  have hindex : index.Nodup := h.ascending.imp fun {x y} hxy heq => by simp [heq] at hxy
  have hentries : (entries.entries.filterMap fun (key, e) => e.deadline.map (·, key)).Nodup := by
    refine entries.ascending.filterMap _ fun (key, e) (key', e') hlt x hx x' hx' heq => ?_
    obtain ⟨d, _, rfl⟩ := Option.map_eq_some_iff.1 hx
    obtain ⟨d', _, rfl⟩ := Option.map_eq_some_iff.1 hx'
    obtain ⟨rfl, rfl⟩ := Prod.mk.inj heq
    simp at hlt
  refine (List.perm_ext_iff_of_nodup hindex hentries).2 fun (d, key) => ?_
  simp only [h.mem_iff, List.mem_filterMap, Table.find?_eq_some_iff, Option.map_eq_some_iff, Prod.exists,
    Prod.mk.injEq]
  constructor
  · rintro ⟨e, he, hd⟩
    exact ⟨key, e, he, d, hd, rfl, rfl⟩
  · rintro ⟨_, e, he, _, hd, rfl, rfl⟩
    exact ⟨e, he, hd⟩

namespace Keyspace

/-- What holds of a keyspace also while an operation goes on. -/
structure Settled (loading : Bool) (ks : Keyspace) : Prop where
  indexes : Indexes ks.index ks.entries
  full : Full ks.entries
  loading : ks.loading = loading

/-- What holds between operations, with deadlines enforced or not. -/
structure AtRest (loading : Bool) (ks : Keyspace) : Prop extends Settled loading ks where
  unlogged : ks.unlogged = []

theorem Sound.atRest {ks : Keyspace} (h : ks.Sound) : ks.AtRest false := ⟨⟨h.indexes, h.full, h.loading⟩, h.unlogged⟩

theorem AtRest.sound {ks : Keyspace} (h : ks.AtRest false) : ks.Sound := ⟨h.indexes, h.full, h.unlogged, h.loading⟩

theorem Settled.takeExpired {loading : Bool} {ks : Keyspace} (h : ks.Settled loading) :
    ks.takeExpired.2.AtRest loading := ⟨⟨h.indexes, h.full, h.loading⟩, rfl⟩

theorem find?_live (ks : Keyspace) (c : Clock) (key : Bytes) :
    (ks.live c key).keyspace.entries.find? key = (ks.live c key).result := by
  unfold live
  split
  · assumption
  · next e he =>
    split
    · exact he
    · split
      · exact Table.find?_erase_self ks.entries key
      · exact he

variable {loading : Bool} {ks : Keyspace} {key : Bytes} {e : Entry}

namespace Settled

theorem drop (h : ks.Settled loading) (he : ks.entries.find? key = some e) : (ks.drop key e).Settled loading :=
  ⟨h.indexes.drop he, h.full.eraseAll [key], h.loading⟩

theorem keep (h : ks.Settled loading) (he : (ks.entries.find? key).bind (·.deadline) = e.deadline)
    (hfull : e.value.isHollow = false) : (ks.keep key e).Settled loading :=
  ⟨h.indexes.keep he, h.full.insert hfull key, h.loading⟩

theorem reschedule (h : ks.Settled loading) (he : (ks.entries.find? key).bind (·.deadline) = e.deadline)
    (hfull : e.value.isHollow = false) (d : Option Int) : (ks.reschedule key e d).Settled loading :=
  have hfull' : ({ e with deadline := d } : Entry).value.isHollow = false := hfull
  ⟨h.indexes.reschedule he d, h.full.insert hfull' key, h.loading⟩

theorem live (h : ks.Settled loading) (c : Clock) (key : Bytes) : (ks.live c key).keyspace.Settled loading := by
  unfold Keyspace.live
  split
  · exact h
  · next e he =>
    split
    · exact h
    · split
      · have hdrop := h.drop he
        exact ⟨hdrop.indexes, hdrop.full, hdrop.loading⟩
      · exact h

theorem set (h : ks.Settled loading) (c : Clock) (key : Bytes) {value : Value} (hfull : value.isHollow = false)
    (ttl : Option Int) : (ks.set c key value ttl).keyspace.Settled loading := by
  have hl := h.live c key
  have hfind := ks.find?_live c key
  simp only [Keyspace.set]
  generalize ks.live c key = a at hl hfind ⊢
  obtain ⟨x, ks', c'⟩ := a
  have hold : (ks'.entries.find? key).bind (·.deadline) = (⟨value, x.bind (·.deadline)⟩ : Entry).deadline :=
    congrArg (·.bind (·.deadline)) hfind
  cases ttl with
  | none => exact hl.reschedule hold hfull none
  | some ttl => exact hl.reschedule hold hfull _

theorem delete (h : ks.Settled loading) (c : Clock) (key : Bytes) : (ks.delete c key).keyspace.Settled loading := by
  have hl := h.live c key
  have hfind := ks.find?_live c key
  simp only [Keyspace.delete]
  generalize ks.live c key = a at hl hfind ⊢
  obtain ⟨x, ks', c'⟩ := a
  cases x with
  | none => exact hl
  | some e => exact hl.drop hfind

theorem modify {α : Type} (h : ks.Settled loading) (c : Clock) (k : Kind) (key : Bytes)
    (f : k.Content → k.Content × α) : (ks.modify c k key f).keyspace.Settled loading := by
  have hl := h.live c key
  have hfind := ks.find?_live c key
  simp only [Keyspace.modify]
  generalize ks.live c key = a at hl hfind ⊢
  obtain ⟨x, ks', c'⟩ := a
  cases x with
  | none =>
    simp only
    split
    · exact hl
    · next hne =>
      exact hl.keep (by rw [hfind]; rfl) (Value.isHollow_pack_of_isEmpty_eq_false (Bool.eq_false_iff.2 hne))
  | some e =>
    cases hv : e.value.as? k with
    | none =>
      simp only [hv]
      exact hl
    | some content =>
      simp only [hv]
      split
      · exact hl.drop hfind
      · next hne =>
        exact hl.keep (by rw [hfind]; rfl) (Value.isHollow_pack_of_isEmpty_eq_false (Bool.eq_false_iff.2 hne))

theorem increment (h : ks.Settled loading) (c : Clock) (key : Bytes) (delta : Int) :
    (ks.increment c key delta).keyspace.Settled loading := by
  have hl := h.live c key
  have hfind := ks.find?_live c key
  simp only [Keyspace.increment]
  generalize ks.live c key = a at hl hfind ⊢
  obtain ⟨x, ks', c'⟩ := a
  simp only at hl hfind ⊢
  split
  · exact hl
  · exact hl.keep (by rw [hfind]) rfl

theorem expireAt (h : ks.Settled loading) (c : Clock) (key : Bytes) (d : Int) :
    (ks.expireAt c key d).keyspace.Settled loading := by
  have hl := h.live c key
  have hfind := ks.find?_live c key
  simp only [Keyspace.expireAt]
  generalize ks.live c key = a at hl hfind ⊢
  obtain ⟨x, ks', c'⟩ := a
  cases x with
  | none => exact hl
  | some e =>
    have hresched : (ks'.reschedule key e (some d)).Settled loading :=
      hl.reschedule (by rw [hfind]; rfl) (hl.full key e hfind) _
    simp only
    split
    · exact hresched
    · split
      · exact hl.drop hfind
      · exact hresched

theorem persist (h : ks.Settled loading) (c : Clock) (key : Bytes) : (ks.persist c key).keyspace.Settled loading := by
  have hl := h.live c key
  have hfind := ks.find?_live c key
  simp only [Keyspace.persist]
  generalize ks.live c key = a at hl hfind ⊢
  obtain ⟨x, ks', c'⟩ := a
  cases x with
  | none => exact hl
  | some e =>
    simp only
    split
    · exact hl.reschedule (by rw [hfind]; rfl) (hl.full key e hfind) none
    · exact hl

theorem remaining (h : ks.Settled loading) (c : Clock) (key : Bytes) :
    (ks.remaining c key).keyspace.Settled loading := by
  have hl := h.live c key
  simp only [Keyspace.remaining]
  split
  · exact hl
  · split <;> exact hl

theorem removeExpired (h : ks.Settled loading) (c : Clock) (limit : Nat) :
    (ks.removeExpired c limit).keyspace.Settled loading := by
  have hswept := swept_removeExpired h.indexes c limit
  exact ⟨hswept.indexes, hswept.entries ▸ h.full.eraseAll _, hswept.loading.trans h.loading⟩

theorem clear (h : ks.Settled loading) : ks.clear.Settled loading :=
  ⟨Indexes.empty, fun _ _ he => by simp [Keyspace.clear] at he, h.loading⟩

theorem deleteAll (h : ks.Settled loading) (c : Clock) (names : List Bytes) :
    (Command.deleteAll ks c names).keyspace.Settled loading := by
  induction names generalizing ks c with
  | nil => exact h
  | cons name names ih => exact ih (h.delete c name) _

theorem countAll (h : ks.Settled loading) (c : Clock) (n : Nat) (names : List Bytes) :
    (Command.countAll ks c n names).keyspace.Settled loading := by
  induction names generalizing ks c n with
  | nil => exact h
  | cons name names ih => exact ih (h.live c name) _ _

theorem applyDeadline (h : ks.Settled loading) (c : Clock) (key : Bytes) (d : Int) :
    (Command.applyDeadline ks c key d).keyspace.Settled loading := by
  have hl := h.expireAt c key d
  simp only [Command.applyDeadline]
  split
  · exact hl.live _ key
  · exact hl

theorem runRemoval (h : ks.Settled loading) (c : Clock) (request : Request) (key : Bytes) (r : Removal) :
    (Command.runRemoval ks c request key r).keyspace.Settled loading := by
  have hl := h.live c key
  simp only [Command.runRemoval]
  split
  · exact hl
  · exact hl
  · exact hl.modify _ r.kind key fun x => ((r.apply x).content, (r.apply x).reply, (r.apply x).logged)

/-- No command brings the index out of step or leaves an empty container. -/
theorem run (h : ks.Settled loading) (report : Keyspace → Bytes) (request : Request) (c : Clock)
    (command : Command) : (command.run report request ks c).keyspace.Settled loading := by
  cases command with
  | ping message => cases message <;> exact h
  | echo message => exact h
  | info => exact h
  | count => exact h
  | flush =>
    simp only [Command.run]
    split
    · exact h
    · exact h.clear
  | ask key query => exact h.live c key
  | exist names => exact h.countAll c 0 names
  | keys pattern => exact h
  | remaining key inSeconds => cases inSeconds <;> exact h.remaining c key
  | set key value ttl => exact h.set c key rfl ttl
  | delete names => exact h.deleteAll c names
  | increment key delta => exact h.increment c key delta
  | expireIn key ms => exact h.applyDeadline _ key _
  | expireAt key deadline => exact h.applyDeadline c key deadline
  | persist key => exact h.persist c key
  | edit key e => exact h.modify c e.kind key fun x => ((e.apply x).content, (e.apply x).reply, (e.apply x).logged)
  | remove key r => exact h.runRemoval c request key r

end Settled
end Keyspace

namespace Database

variable {loading : Bool} {db : Database}

theorem atRest_execute (h : db.keyspace.AtRest loading) (c : Clock) (request : Request) (replaying : Bool) :
    (db.execute c request replaying).database.keyspace.AtRest loading := by
  simp only [execute]
  split
  · exact h
  · next command _ =>
    have hrun := (h.toSettled.run db.report request c command).takeExpired
    cases replaying with
    | true => exact hrun
    | false =>
      simp only [Bool.false_eq_true, if_false, keyspace_log]
      exact hrun

theorem sound_dispatch (h : db.keyspace.Sound) (c : Clock) (session : Session) (request : Request) :
    (db.dispatch c session request).database.keyspace.Sound := by
  cases request with
  | nil => exact h
  | cons name operands =>
    simp only [dispatch]
    split
    · split
      · split <;> exact h
      · exact h
    · split
      · have hcount : db.countCommand.keyspace.AtRest false := h.atRest
        exact (atRest_execute hcount c (name :: operands) false).sound
      · exact h

theorem sound_sweep (h : db.keyspace.Sound) (c : Clock) (limit : Nat) :
    (db.sweep c limit).database.keyspace.Sound := by
  simp only [sweep, keyspace_log]
  exact (h.atRest.toSettled.removeExpired c limit).takeExpired.sound

/-- What each sweep keeps, sweeping until nothing is left to do keeps. -/
theorem sweepFrom_induction {P : Keyspace → Prop} {c : Clock} {batch : Nat} (hsweep : ∀ (db : Database) (c' : Clock),
      c'.reading = c.reading → P db.keyspace → P (db.sweep c' batch).database.keyspace)
    (h : P db.keyspace) (total fuel : Nat) (notices : List Notice) :
    P (db.sweepFrom c batch total fuel notices).database.keyspace := by
  induction fuel generalizing db c total notices with
  | zero => exact h
  | succ fuel ih =>
    have hswept := hsweep db c rfl h
    have hnext : (db.sweep c batch).clock.reading = c.reading := rfl
    simp only [sweepFrom]
    split
    · exact hswept
    · exact ih (fun db c' hc => hsweep db c' (hc.trans hnext)) hswept _ _

theorem sound_sweepFrom (h : db.keyspace.Sound) (c : Clock) (batch total fuel : Nat) (notices : List Notice) :
    (db.sweepFrom c batch total fuel notices).database.keyspace.Sound :=
  sweepFrom_induction (fun _ c _ h => sound_sweep h c batch) h total fuel notices

theorem atRest_applyAll (h : db.keyspace.AtRest loading) (c : Clock) (stats : ReplayStats) (records : List Request)
    (notices : List Notice) : (db.applyAll c stats records notices).database.keyspace.AtRest loading := by
  induction records generalizing db c stats notices with
  | nil => exact h
  | cons record records ih =>
    simp only [applyAll]
    split <;> exact ih (atRest_execute h c record true) _ _ _

theorem settled_expireAll {ks : Keyspace} (h : ks.Settled loading) (c : Clock) (n fuel : Nat) :
    (expireAll ks c n fuel).keyspace.Settled loading := by
  induction fuel generalizing ks c n with
  | zero => exact h
  | succ fuel ih =>
    rw [expireAll]
    split
    · exact h.removeExpired c sweepBatch
    · exact ih (h.removeExpired c sweepBatch) _ _

/-- A replay leaves the store at rest, also when it stops at a damaged record. -/
theorem sound_replay (h : db.keyspace.Sound) (c : Clock) (path contents : Bytes) :
    (db.replay c path contents).database.keyspace.Sound := by
  have hload : (db.setLoading true).keyspace.AtRest true := ⟨⟨h.indexes, h.full, rfl⟩, h.unlogged⟩
  have happlied := atRest_applyAll hload c {} ((Journal.scan contents).records.map (·.1)) []
  simp only [replay]
  generalize applyAll _ c {} ((Journal.scan contents).records.map (·.1)) [] = o at happlied ⊢
  have hdone : (o.database.setLoading false).keyspace.Sound :=
    ⟨happlied.indexes, happlied.full, happlied.unlogged, rfl⟩
  split
  · exact hdone
  · exact (settled_expireAll hdone.atRest.toSettled o.clock 0 _).takeExpired.sound

end Database

namespace Keyspace

/-- The keyspaces that requests, sweeps, cycles of the background expiry and replays lead to from the empty one,
whatever the clock shows each time, and whatever the counters and the journal are. -/
inductive Reachable : Keyspace → Prop
  | empty : Reachable ∅
  | request {db : Database} (h : Reachable db.keyspace) (c : Clock) (session : Session) (request : Request) :
      Reachable (db.dispatch c session request).database.keyspace
  | sweep {db : Database} (h : Reachable db.keyspace) (c : Clock) (limit : Nat) :
      Reachable (db.sweep c limit).database.keyspace
  | cycle {db : Database} (h : Reachable db.keyspace) (c : Clock) (batch : Nat) :
      Reachable (db.runCycle c batch).database.keyspace
  | replay {db : Database} (h : Reachable db.keyspace) (c : Clock) (path contents : Bytes) :
      Reachable (db.replay c path contents).database.keyspace

theorem Reachable.sound {ks : Keyspace} (h : ks.Reachable) : ks.Sound := by
  induction h with
  | empty => exact sound_empty
  | request _ c session request ih => exact Database.sound_dispatch ih c session request
  | sweep _ c limit ih => exact Database.sound_sweep ih c limit
  | cycle _ c batch ih => exact Database.sound_sweepFrom ih c _ _ _ _
  | replay _ c path contents ih => exact Database.sound_replay ih c path contents

theorem Reachable.course {db : Database} (h : db.keyspace.Reachable) (events : List (Int × Event)) :
    (db.course events).database.keyspace.Reachable := by
  induction events generalizing db with
  | nil => exact h
  | cons x events ih =>
    obtain ⟨now, event⟩ := x
    cases event with
    | request session request => exact ih (.request h (.standing now) session request)
    | sweep limit => exact ih (.sweep h (.standing now) limit)
    | cycle batch => exact ih (.cycle h (.standing now) batch)

/-- In every reachable keyspace the deadline index is the deadlines of the entries, in order and with no key
twice, so that its size is the number of entries with a deadline; no entry is an empty container; every key that
expired has been logged; and deadlines are enforced. -/
theorem invariant_of_reachable {ks : Keyspace} (h : ks.Reachable) :
    (ks.index.Perm (ks.entries.entries.filterMap fun (key, e) => e.deadline.map (·, key)) ∧
      Ranking.Ascending id ks.index ∧
      ks.volatileSize = ks.entries.entries.countP (·.2.deadline.isSome) ∧
      (ks.index.map (·.2)).Nodup) ∧
    (∀ key e, ks.entries.find? key = some e → e.value.isHollow = false) ∧
    ks.unlogged = [] ∧
    ks.loading = false := by
  have hsound := h.sound
  have hperm := hsound.indexes.perm
  have hsize : ks.volatileSize = ks.entries.entries.countP (·.2.deadline.isSome) := by
    rw [volatileSize, hperm.length_eq, List.length_filterMap_eq_countP]
    simp
  exact ⟨⟨hperm, hsound.indexes.ascending, hsize, hsound.indexes.nodup_keys⟩, hsound.full, hsound.unlogged,
    hsound.loading⟩

/-- A log that gives a key another deadline and ends in the middle of a record, replayed on a live database whose
journal is full. -/
theorem invariant_of_reachable_of_replay :
    let live := ((Database.fresh "log" (some 20)).dispatch (.standing 1000) (.start none)
      ["SET", "k", "v", "PX", "500"]).database
    let ks := (live.replay (.ticking 1200 7) "log" (Frame.encode ["PEXPIREAT", "k", "9000"] ++
      Frame.encode ["RPUSH", "l", "a"] ++ Frame.encode ["LPOP", "l"] ++ "*2\r\n$4\r\nINCR")).database.keyspace
    ks.Reachable ∧ ks.index = [((9000 : Int), ("k" : Bytes))] ∧ (ks.index.map (·.2)).Nodup ∧ ks.volatileSize = 1 ∧
      ks.unlogged = [] ∧ ks.loading = false := by
  intro live ks
  have hreachable : ks.Reachable := .replay (.request .empty _ _ _) _ _ _
  have hindex : ks.index = [((9000 : Int), ("k" : Bytes))] := by decide +kernel
  obtain ⟨⟨_, _, _, hnodup⟩, _, hunlogged, hloading⟩ := invariant_of_reachable hreachable
  exact ⟨hreachable, hindex, hnodup, congrArg List.length hindex, hunlogged, hloading⟩

end Keyspace
end KeyStore
