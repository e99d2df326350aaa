import KeyStore.Proofs.Meanings
import KeyStore.Proofs.Refusals
import Mathlib.Data.Set.Insert

/-!
# What is stored

Whatever the clock shows, a command leaves the entries of keys that it does not look up as they are, and stores only
deadlines and values that its operands and the clock account for (`Keyspace.Touches`). So sets of deadlines and of
values that hold all that commands make of them hold all that is ever stored (`Arises.stores`), also in the middle of
a replay.
-/

namespace KeyStore

def Clock.Shows (c : Clock) (T : Set Int) : Prop := ∀ i, c.reading i ∈ T

theorem Clock.shows_standing {T : Set Int} {now : Int} (h : now ∈ T) : (Clock.standing now).Shows T := fun _ => h

theorem Clock.Shows.now {c : Clock} {T : Set Int} (h : c.Shows T) : c.now ∈ T := h c.taken

theorem Clock.Shows.of_reading {c c' : Clock} {T : Set Int} (h : c.Shows T) (hc : c'.reading = c.reading) :
    c'.Shows T := fun i => hc ▸ h i

structure Entry.Of (D : Set Int) (V : Set Value) (e : Entry) : Prop where
  deadline : ∀ d, e.deadline = some d → d ∈ D
  value : e.value ∈ V

theorem Entry.of_fresh {D : Set Int} {V : Set Value} {value : Value} (h : value ∈ V) :
    (⟨value, none⟩ : Entry).Of D V where
  deadline := fun _ hd => by cases hd
  value := h

namespace Keyspace

def Stores (D : Set Int) (V : Set Value) (ks : Keyspace) : Prop :=
  ∀ key e, ks.entries.find? key = some e → e.Of D V

theorem Stores.of_subset {D : Set Int} {V : Set Value} {ks ks' : Keyspace} (h : ks.Stores D V)
    (hsub : ks'.entries ⊆ ks.entries) : ks'.Stores D V := fun key e he => h key e (hsub key e he)

/-- What an operation makes of a keyspace and a clock: the entries of other keys are as they were, all that is stored
is of `D` and `V` if it was before, and the clock is the same some readings later. -/
structure Touches (keys : Set Bytes) (D : Set Int) (V : Set Value) (ks : Keyspace) (c : Clock) (ks' : Keyspace)
    (c' : Clock) : Prop where
  others : ∀ k, k ∉ keys → ks'.entries.find? k = ks.entries.find? k
  stores : ks.Stores D V → ks'.Stores D V
  reading : c'.reading = c.reading

variable {keys : Set Bytes} {D : Set Int} {V : Set Value} {ks ks' ks'' : Keyspace} {c c' c'' : Clock} {key : Bytes}

namespace Touches

theorem of_entries (h : ks'.entries = ks.entries) (hc : c'.reading = c.reading) : ks.Touches keys D V c ks' c' where
  others := fun k _ => by rw [h]
  stores := fun hs key e he => hs key e (h ▸ he)
  reading := hc

theorem refl (keys : Set Bytes) (D : Set Int) (V : Set Value) (ks : Keyspace) (c : Clock) :
    ks.Touches keys D V c ks c := of_entries rfl rfl

theorem trans (h : ks.Touches keys D V c ks' c') (h' : ks'.Touches keys D V c' ks'' c'') :
    ks.Touches keys D V c ks'' c'' where
  others := fun k hk => (h'.others k hk).trans (h.others k hk)
  stores := fun hs => h'.stores (h.stores hs)
  reading := h'.reading.trans h.reading

theorem mono {more : Set Bytes} (h : ks.Touches keys D V c ks' c') (hsub : keys ⊆ more) :
    ks.Touches more D V c ks' c' :=
  ⟨fun k hk => h.others k fun hmem => hk (hsub hmem), h.stores, h.reading⟩

/-- An operation on a key that goes on to leave an entry there, or none. -/
theorem put (h : ks.Touches {key} D V c ks' c') {x : Option Entry}
    (hx : ks'.Stores D V → ∀ e, x = some e → e.Of D V) (hput : ks''.entries = ks'.entries.put key x)
    (hc : c''.reading = c'.reading) : ks.Touches {key} D V c ks'' c'' where
  others := fun k hk => by
    have hne : k ≠ key := fun heq => hk heq
    rw [hput, Table.find?_put, if_neg hne]
    exact h.others k hk
  stores := fun hs k e he => by
    rw [hput] at he
    obtain ⟨_, he⟩ | he := Table.of_find?_put he
    · exact hx (h.stores hs) e he
    · exact h.stores hs k e he
  reading := hc.trans h.reading

theorem drop {e : Entry} (h : ks.Touches {key} D V c ks' c') (hc : c''.reading = c'.reading) :
    ks.Touches {key} D V c (ks'.drop key e) c'' :=
  h.put (x := none) (fun _ _ he => by cases he) rfl hc

theorem keep {e : Entry} (h : ks.Touches {key} D V c ks' c') (he : ks'.Stores D V → e.Of D V) :
    ks.Touches {key} D V c (ks'.keep key e) c' :=
  h.put (x := some e) (fun hs _ heq => Option.some.inj heq ▸ he hs) rfl rfl

theorem reschedule {e : Entry} {d : Option Int} (h : ks.Touches {key} D V c ks' c')
    (hv : ks'.Stores D V → e.value ∈ V) (hd : ∀ t, d = some t → t ∈ D) (hc : c''.reading = c'.reading) :
    ks.Touches {key} D V c (ks'.reschedule key e d) c'' :=
  h.put (x := some { e with deadline := d }) (fun hs _ heq => Option.some.inj heq ▸ ⟨hd, hv hs⟩) rfl hc

end Touches

theorem touches_live (ks : Keyspace) (c : Clock) (key : Bytes) :
    ks.Touches {key} D V c (ks.live c key).keyspace (ks.live c key).clock := by
  have hself := Touches.refl {key} D V ks c
  unfold live
  split
  · exact hself
  · split
    · exact hself
    · split
      · exact hself.put (x := none) (fun _ _ he => by cases he) rfl rfl
      · exact Touches.of_entries rfl rfl

theorem touches_set (ks : Keyspace) (c : Clock) (key : Bytes) {value : Value} (hv : value ∈ V) {ttl : Option Int}
    (hd : ∀ ms, ttl = some ms → ∀ i, c.reading i + ms ∈ D) :
    ks.Touches {key} D V c (ks.set c key value ttl).keyspace (ks.set c key value ttl).clock := by
  have hl := ks.touches_live (D := D) (V := V) c key
  simp only [set]
  generalize ks.live c key = a at hl ⊢
  obtain ⟨x, ks', c'⟩ := a
  cases ttl with
  | none => exact hl.reschedule (fun _ => hv) (fun _ ht => by cases ht) rfl
  | some ms =>
    refine hl.reschedule (fun _ => hv) (fun t ht => ?_) rfl
    obtain rfl := Option.some.inj ht
    have hnow : c'.now = c.reading c'.taken := congrFun hl.reading c'.taken
    simp only [Clock.read, hnow]
    exact hd ms rfl c'.taken

theorem touches_delete (ks : Keyspace) (c : Clock) (key : Bytes) :
    ks.Touches {key} D V c (ks.delete c key).keyspace (ks.delete c key).clock := by
  have hl := ks.touches_live (D := D) (V := V) c key
  simp only [delete]
  generalize ks.live c key = a at hl ⊢
  obtain ⟨x, ks', c'⟩ := a
  cases x with
  | none => exact hl
  | some e => exact hl.drop rfl

def Preserves (V : Set Value) (k : Kind) (f : k.Content → k.Content) : Prop :=
  k.pack (f k.empty) ∈ V ∧ ∀ content, k.pack content ∈ V → k.pack (f content) ∈ V

theorem touches_modify {α : Type} (ks : Keyspace) (c : Clock) (k : Kind) (key : Bytes) {f : k.Content → k.Content × α}
    (hf : Preserves V k fun x => (f x).1) :
    ks.Touches {key} D V c (ks.modify c k key f).keyspace (ks.modify c k key f).clock := by
  have hl := ks.touches_live (D := D) (V := V) c key
  have hfind := ks.find?_live c key
  simp only [modify]
  generalize ks.live c key = a at hl hfind ⊢
  obtain ⟨x, ks', c'⟩ := a
  cases x with
  | none =>
    simp only
    split
    · exact hl
    · exact hl.keep fun _ => Entry.of_fresh hf.1
  | some e =>
    cases hv : e.value.as? k with
    | none =>
      simp only [hv]
      exact hl
    | some content =>
      simp only [hv]
      split
      · exact hl.drop rfl
      · refine hl.keep fun hs => ?_
        obtain ⟨hdeadline, hvalue⟩ := hs key e hfind
        rw [← Value.pack_of_as? hv] at hvalue
        exact ⟨hdeadline, hf.2 content hvalue⟩

theorem touches_increment (ks : Keyspace) (c : Clock) (key : Bytes) (delta : Int)
    (hv : ∀ n, .string (Numeral.ofInt n) ∈ V) :
    ks.Touches {key} D V c (ks.increment c key delta).keyspace (ks.increment c key delta).clock := by
  have hl := ks.touches_live (D := D) (V := V) c key
  have hfind := ks.find?_live c key
  simp only [increment]
  generalize ks.live c key = a at hl hfind ⊢
  obtain ⟨x, ks', c'⟩ := a
  simp only at hl hfind ⊢
  split
  · exact hl
  · refine hl.keep fun hs => ⟨fun d hd => ?_, hv _⟩
    obtain ⟨e, rfl, hd⟩ := Option.bind_eq_some_iff.1 hd
    exact (hs key e hfind).deadline d hd

theorem touches_expireAt (ks : Keyspace) (c : Clock) (key : Bytes) {d : Int} (hd : d ∈ D) :
    ks.Touches {key} D V c (ks.expireAt c key d).keyspace (ks.expireAt c key d).clock := by
  have hl := ks.touches_live (D := D) (V := V) c key
  have hfind := ks.find?_live c key
  simp only [expireAt]
  generalize ks.live c key = a at hl hfind ⊢
  obtain ⟨x, ks', c'⟩ := a
  cases x with
  | none => exact hl
  | some e =>
    have hvalue : ks'.Stores D V → e.value ∈ V := fun hs => (hs key e hfind).value
    have hdeadline : ∀ t, some d = some t → t ∈ D := fun _ ht => Option.some.inj ht ▸ hd
    simp only
    split
    · exact hl.reschedule hvalue hdeadline rfl
    · split
      · exact hl.drop rfl
      · exact hl.reschedule hvalue hdeadline rfl

theorem touches_persist (ks : Keyspace) (c : Clock) (key : Bytes) :
    ks.Touches {key} D V c (ks.persist c key).keyspace (ks.persist c key).clock := by
  have hl := ks.touches_live (D := D) (V := V) c key
  have hfind := ks.find?_live c key
  simp only [persist]
  generalize ks.live c key = a at hl hfind ⊢
  obtain ⟨x, ks', c'⟩ := a
  cases x with
  | none => exact hl
  | some e =>
    simp only
    split
    · exact hl.reschedule (fun hs => (hs key e hfind).value) (fun _ ht => by cases ht) rfl
    · exact hl

theorem touches_remaining (ks : Keyspace) (c : Clock) (key : Bytes) :
    ks.Touches {key} D V c (ks.remaining c key).keyspace (ks.remaining c key).clock := by
  have hl := ks.touches_live (D := D) (V := V) c key
  simp only [remaining]
  split
  · exact hl
  · split
    · exact hl
    · exact hl.trans (Touches.of_entries rfl rfl)

theorem touches_deleteAll (ks : Keyspace) (c : Clock) (names : List Bytes) :
    ks.Touches {k | k ∈ names} D V c (Command.deleteAll ks c names).keyspace (Command.deleteAll ks c names).clock := by
  induction names generalizing ks c with
  | nil => exact Touches.refl _ D V ks c
  | cons name names ih =>
    have hfirst : ks.Touches {k | k ∈ name :: names} D V c (ks.delete c name).keyspace (ks.delete c name).clock :=
      (ks.touches_delete c name).mono fun k hk => List.mem_cons.2 (.inl hk)
    exact hfirst.trans ((ih _ _).mono fun k hk => List.mem_cons_of_mem _ hk)

theorem touches_countAll (ks : Keyspace) (c : Clock) (n : Nat) (names : List Bytes) :
    ks.Touches {k | k ∈ names} D V c (Command.countAll ks c n names).keyspace
      (Command.countAll ks c n names).clock := by
  induction names generalizing ks c n with
  | nil => exact Touches.refl _ D V ks c
  | cons name names ih =>
    have hfirst : ks.Touches {k | k ∈ name :: names} D V c (ks.live c name).keyspace (ks.live c name).clock :=
      (ks.touches_live c name).mono fun k hk => List.mem_cons.2 (.inl hk)
    exact hfirst.trans ((ih _ _ _).mono fun k hk => List.mem_cons_of_mem _ hk)

theorem touches_applyDeadline (ks : Keyspace) (c : Clock) (key : Bytes) {d : Int} (hd : d ∈ D) :
    ks.Touches {key} D V c (Command.applyDeadline ks c key d).keyspace (Command.applyDeadline ks c key d).clock := by
  have hl := ks.touches_expireAt (V := V) c key hd
  simp only [Command.applyDeadline]
  split
  · exact hl.trans (touches_live _ _ key)
  · exact hl

theorem touches_runRemoval (ks : Keyspace) (c : Clock) (request : Request) (key : Bytes) {r : Removal}
    (hr : Preserves V r.kind fun x => (r.apply x).content) :
    ks.Touches {key} D V c (Command.runRemoval ks c request key r).keyspace
      (Command.runRemoval ks c request key r).clock := by
  have hl := ks.touches_live (D := D) (V := V) c key
  simp only [Command.runRemoval]
  split
  · exact hl
  · exact hl
  · exact hl.trans (touches_modify _ _ r.kind key
      (f := fun x => ((r.apply x).content, (r.apply x).reply, (r.apply x).logged)) hr)

end Keyspace

namespace Command

/-- All that the command can store is of `D` and `V`, when a clock shows times of `T`. -/
def StoresIn (T D : Set Int) (V : Set Value) : Command → Prop
  | set _ value ttl => .string value ∈ V ∧ ∀ ms, ttl = some ms → ∀ now ∈ T, now + ms ∈ D
  | increment _ _ => ∀ n, .string (Numeral.ofInt n) ∈ V
  | expireIn _ ms => ∀ now ∈ T, now + ms ∈ D
  | expireAt _ d => d ∈ D
  | edit _ e => Keyspace.Preserves V e.kind fun x => (e.apply x).content
  | remove _ r => Keyspace.Preserves V r.kind fun x => (r.apply x).content
  | _ => True

def reach : Command → Set Bytes
  | flush => Set.univ
  | command => {k | k ∈ command.lookups}

theorem reach_eq {command : Command} (h : command ≠ flush) : command.reach = {k | k ∈ command.lookups} := by
  cases command with
  | flush => exact absurd rfl h
  | _ => rfl

/-- A command changes only entries that it looks up, and stores only what its operands and the clock account for. -/
theorem touches_run {T D : Set Int} {V : Set Value} {c : Clock} (hc : c.Shows T) {command : Command}
    (h : command.StoresIn T D V) (report : Keyspace → Bytes) (request : Request) (ks : Keyspace) :
    ks.Touches command.reach D V c (command.run report request ks c).keyspace
      (command.run report request ks c).clock := by
  have hone : ∀ {key : Bytes} {ks' : Keyspace} {c' : Clock}, ks.Touches {key} D V c ks' c' →
      ks.Touches {k | k ∈ [key]} D V c ks' c' :=
    fun htouches => htouches.mono fun k hk => List.mem_singleton.2 hk
  cases command with
  | ping message => cases message <;> exact .refl _ D V ks c
  | echo message => exact .refl _ D V ks c
  | info => exact .refl _ D V ks c
  | count => exact .refl _ D V ks c
  | flush =>
    simp only [run]
    split
    · exact .refl _ D V ks c
    · have hnone : ks.clear.Stores D V := fun key e he => by cases he
      exact ⟨fun k hk => absurd (Set.mem_univ k) hk, fun _ => hnone, rfl⟩
  | ask key query => exact hone (ks.touches_live c key)
  | exist names => exact ks.touches_countAll c 0 names
  | keys pattern => exact .of_entries rfl rfl
  | remaining key inSeconds => cases inSeconds <;> exact hone (ks.touches_remaining c key)
  | set key value ttl => exact hone (ks.touches_set c key h.1 fun ms hms i => h.2 ms hms _ (hc i))
  | delete names => exact ks.touches_deleteAll c names
  | increment key delta => exact hone (ks.touches_increment c key delta h)
  | expireIn key ms =>
    have hd : c.now + ms ∈ D := h _ hc.now
    have htouches := ks.touches_applyDeadline (V := V) c.next key hd
    exact hone ⟨htouches.others, htouches.stores, htouches.reading⟩
  | expireAt key d => exact hone (ks.touches_applyDeadline c key h)
  | persist key => exact hone (ks.touches_persist c key)
  | edit key e =>
    exact hone (ks.touches_modify c e.kind key
      (f := fun x => ((e.apply x).content, (e.apply x).reply, (e.apply x).logged)) h)
  | remove key r => exact hone (ks.touches_runRemoval c request key h)

theorem storesIn_univ (T : Set Int) (command : Command) : command.StoresIn T Set.univ Set.univ := by
  cases command with
  | set key value ttl => exact ⟨trivial, fun _ _ _ _ => trivial⟩
  | increment key delta => exact fun _ => trivial
  | expireIn key ms => exact fun _ _ => trivial
  | expireAt key d => exact Set.mem_univ d
  | edit key e => exact ⟨trivial, fun _ _ => trivial⟩
  | remove key r => exact ⟨trivial, fun _ _ => trivial⟩
  | _ => trivial

end Command

namespace Database

variable {T D : Set Int} {V : Set Value} {db : Database} {c : Clock}

/-- What the log is told does not matter to the keyspace. -/
theorem keyspace_execute {request : Request} {signature : Command.Signature} {command : Command}
    (h : Command.read request = .ok (signature, command)) (db : Database) (c : Clock) (replaying : Bool) :
    let a := command.run db.report request db.keyspace c
    let o := db.execute c request replaying
    o.database.keyspace = a.keyspace.takeExpired.2 ∧ o.clock = a.clock := by
  cases replaying with
  | true =>
    rw [execute_of_read h]
    exact ⟨rfl, rfl⟩
  | false =>
    rw [execute_live h]
    exact ⟨keyspace_log _ _, rfl⟩

theorem touches_execute (hc : c.Shows T) {request : Request} {signature : Command.Signature} {command : Command}
    (h : Command.read request = .ok (signature, command)) (hstores : command.StoresIn T D V) (db : Database)
    (replaying : Bool) :
    db.keyspace.Touches command.reach D V c (db.execute c request replaying).database.keyspace
      (db.execute c request replaying).clock := by
  obtain ⟨hks, hclock⟩ := keyspace_execute h db c replaying
  rw [hks, hclock]
  exact (Command.touches_run hc hstores db.report request db.keyspace).trans (.of_entries rfl rfl)

theorem reading_execute (db : Database) (c : Clock) (request : Request) (replaying : Bool) :
    (db.execute c request replaying).clock.reading = c.reading := by
  cases hread : Command.read request with
  | error e =>
    rw [execute_of_read_error hread, Command.clockOfRefused]
    split <;> rfl
  | ok p =>
    exact (touches_execute (fun _ => Set.mem_univ _) hread (p.2.storesIn_univ Set.univ) db replaying).reading

end Database

namespace Keyspace

/-- The keyspaces that arise from the empty one, step by step, also in the middle of a replay or of a sweep, when the
clock shows times of `T` and moves as it likes. -/
inductive Arises (T : Set Int) : Keyspace → Prop
  | empty : Arises T ∅
  | request {db : Database} (h : Arises T db.keyspace) {c : Clock} (hc : c.Shows T) (request : Request)
      (replaying : Bool) : Arises T (db.execute c request replaying).database.keyspace
  | removal {ks : Keyspace} (h : Arises T ks) {c : Clock} (hc : c.Shows T) (limit : Nat) :
      Arises T (ks.removeExpired c limit).keyspace
  | taking {ks : Keyspace} (h : Arises T ks) : Arises T ks.takeExpired.2
  | loading {ks : Keyspace} (h : Arises T ks) (loading : Bool) : Arises T { ks with loading }

namespace Arises

variable {T D : Set Int} {V : Set Value} {ks : Keyspace} {db : Database} {c : Clock}

/-- What holds of a keyspace throughout holds of one that arises. -/
theorem exists_settled (h : ks.Arises T) : ∃ loading, ks.Settled loading := by
  induction h with
  | empty => exact ⟨false, sound_empty.atRest.toSettled⟩
  | @request db _ c _ request replaying ih =>
    obtain ⟨loading, hsettled⟩ := ih
    cases hread : Command.read request with
    | error e =>
      rw [Database.execute_of_read_error hread]
      exact ⟨loading, hsettled⟩
    | ok p =>
      rw [(Database.keyspace_execute hread db c replaying).1]
      exact ⟨loading, (hsettled.run db.report request c p.2).takeExpired.toSettled⟩
  | removal _ _ limit ih =>
    obtain ⟨loading, hsettled⟩ := ih
    exact ⟨loading, hsettled.removeExpired _ limit⟩
  | taking _ ih =>
    obtain ⟨loading, hsettled⟩ := ih
    exact ⟨loading, hsettled.takeExpired.toSettled⟩
  | loading _ loading ih =>
    obtain ⟨_, hsettled⟩ := ih
    exact ⟨loading, hsettled.indexes, hsettled.full, rfl⟩

/-- If all that commands store is of `D` and `V`, then so is all that is ever stored. -/
theorem stores (h : ks.Arises T) (hread : ∀ request signature command,
    Command.read request = .ok (signature, command) → command.StoresIn T D V) : ks.Stores D V := by
  induction h with
  | empty => exact fun key e he => by cases he
  | @request db _ c hc request replaying ih =>
    cases hcommand : Command.read request with
    | error e =>
      rw [Database.execute_of_read_error hcommand]
      exact ih
    | ok p => exact (Database.touches_execute hc hcommand (hread _ _ _ hcommand) db replaying).stores ih
  | @removal ks harises c _ limit ih =>
    obtain ⟨_, hsettled⟩ := harises.exists_settled
    refine ih.of_subset ?_
    rw [(swept_removeExpired hsettled.indexes c limit).entries]
    exact Table.eraseAll_subset _ _
  | taking _ ih => exact ih
  | loading _ _ ih => exact ih

theorem dispatch (h : db.keyspace.Arises T) (hc : c.Shows T) (session : Session) (request : Request) :
    (db.dispatch c session request).database.keyspace.Arises T := by
  by_cases hgranted : Database.Granted session request
  · have hcount : db.countCommand.keyspace.Arises T := h
    rw [Database.dispatch_of_granted hgranted]
    exact hcount.request hc request false
  · rw [(Database.dispatch_of_not_granted hgranted db c).1]
    exact h

theorem sweep (h : db.keyspace.Arises T) (hc : c.Shows T) (limit : Nat) :
    (db.sweep c limit).database.keyspace.Arises T := by
  simp only [Database.sweep, Database.keyspace_log]
  exact (h.removal hc limit).taking

theorem sweepFrom (h : db.keyspace.Arises T) (hc : c.Shows T) (batch total fuel : Nat) (notices : List Notice) :
    (db.sweepFrom c batch total fuel notices).database.keyspace.Arises T :=
  Database.sweepFrom_induction (P := Arises T) (fun _ _ hreading h => h.sweep (hc.of_reading hreading) batch) h total
    fuel notices

theorem applyAll (h : db.keyspace.Arises T) (hc : c.Shows T) (stats : Database.ReplayStats) (records : List Request)
    (notices : List Notice) :
    (db.applyAll c stats records notices).database.keyspace.Arises T ∧
      (db.applyAll c stats records notices).clock.Shows T := by
  induction records generalizing db c stats notices with
  | nil => exact ⟨h, hc⟩
  | cons record records ih =>
    have hnext := hc.of_reading (db.reading_execute c record true)
    simp only [Database.applyAll]
    split <;> exact ih (h.request hc record true) hnext _ _

theorem expireAll (h : ks.Arises T) (hc : c.Shows T) (n fuel : Nat) :
    (Database.expireAll ks c n fuel).keyspace.Arises T := by
  induction fuel generalizing ks c n with
  | zero => exact h
  | succ fuel ih =>
    have hnext : (ks.removeExpired c Database.sweepBatch).clock.Shows T := hc.of_reading rfl
    rw [Database.expireAll]
    split
    · exact h.removal hc Database.sweepBatch
    · exact ih (h.removal hc Database.sweepBatch) hnext _

theorem replay (h : db.keyspace.Arises T) (hc : c.Shows T) (path contents : Bytes) :
    (db.replay c path contents).database.keyspace.Arises T := by
  have hload : (db.setLoading true).keyspace.Arises T := h.loading true
  obtain ⟨happlied, hnext⟩ := hload.applyAll hc {} ((Journal.scan contents).records.map (·.1)) []
  have hdone := happlied.loading false
  simp only [Database.replay]
  split
  · exact hdone
  · exact (hdone.expireAll hnext 0 _).taking

end Arises

end Keyspace
end KeyStore
