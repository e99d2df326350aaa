import KeyStore.Proofs.Frames
import KeyStore.Proofs.Records

/-!
# Replaying records

A database that is loading takes the records of a command in and changes its entries as the command
did (`Command.Told.reloads`), also if it holds more entries than the database that ran the command, as
long as the command did not create a key that only the loading one has.
-/

namespace KeyStore

def Command.Legible (record : Request) : Prop := ∃ signature command, Command.read record = .ok (signature, command)

instance (record : Request) : Decidable (Command.Legible record) :=
  match h : Command.read record with
  | .ok (signature, command) => isTrue ⟨signature, command, h⟩
  | .error _ => isFalse fun ⟨_, _, h'⟩ => by cases h.symm.trans h'

/-- Loading the records on top of the entries `t` leaves the entries `t'`. -/
def Loads (t : Table Entry) (records : List Request) (t' : Table Entry) : Prop :=
  ∀ (db : Database) (c : Clock) (now : Int) (stats : Database.ReplayStats) (notices : List Notice),
    db.keyspace.loading = true → db.keyspace.entries = t → c.Stands now →
    let o := db.applyAll c stats records notices
    o.database.keyspace.entries = t' ∧ o.database.keyspace.loading = true ∧
      (Indexes db.keyspace.index t → Indexes o.database.keyspace.index t') ∧ o.clock.Stands now

/-- Loading the records on top of the entries `t` accepts all of them and leaves the entries `t'`. -/
structure Reloads (t : Table Entry) (records : List Request) (t' : Table Entry) : Prop where
  loads : Loads t records t'
  accepts : ∀ (db : Database) (c : Clock) (now : Int) (stats : Database.ReplayStats) (notices : List Notice),
    db.keyspace.loading = true → db.keyspace.entries = t → c.Stands now →
    (db.applyAll c stats records notices).result.skipped = stats.skipped

namespace Database

variable {db : Database} {c : Clock} {now : Int}

theorem execute_of_read_error {request : Request} {e : CommandError} (h : Command.read request = .error e)
    (db : Database) (c : Clock) (replaying : Bool) :
    db.execute c request replaying = ⟨.error e, db, Command.clockOfRefused c e, []⟩ := by
  simp only [execute, h]

theorem execute_of_read {request : Request} {signature : Command.Signature} {command : Command}
    (h : Command.read request = .ok (signature, command)) (db : Database) (c : Clock) :
    db.execute c request true =
      let a := command.run db.report request db.keyspace c
      ⟨a.result.map (·.reply), { db with keyspace := a.keyspace.takeExpired.2 }, a.clock, []⟩ := by
  simp [execute, h]

theorem applyAll_append (db : Database) (c : Clock) (stats : ReplayStats) (records more : List Request)
    (notices : List Notice) :
    db.applyAll c stats (records ++ more) notices =
      let o := db.applyAll c stats records notices
      o.database.applyAll o.clock o.result more o.notices.reverse := by
  induction records generalizing db c stats notices with
  | nil => simp [applyAll]
  | cons record records ih =>
    simp only [List.cons_append, applyAll]
    split <;> exact ih ..

theorem le_skipped_applyAll (db : Database) (c : Clock) (stats : ReplayStats) (records : List Request)
    (notices : List Notice) : stats.skipped ≤ (db.applyAll c stats records notices).result.skipped := by
  induction records generalizing db c stats notices with
  | nil => exact Nat.le_refl _
  | cons record records ih =>
    simp only [applyAll]
    split
    · exact ih _ _ { stats with applied := stats.applied + 1 } _
    · exact Nat.le_trans (Nat.le_succ _) (ih _ _ { stats with skipped := stats.skipped + 1 } _)

theorem legible_of_skipped_eq {stats : ReplayStats} {records : List Request} {notices : List Notice}
    (h : (db.applyAll c stats records notices).result.skipped = stats.skipped) :
    ∀ record ∈ records, Command.Legible record := by
  induction records generalizing db c stats notices with
  | nil => simp
  | cons record records ih =>
    simp only [applyAll] at h
    split at h
    · next reply hok =>
      refine List.forall_mem_cons.2 ⟨?_, ih h⟩
      cases hread : Command.read record with
      | error e => simp [execute, hread] at hok
      | ok p => exact ⟨p.1, p.2, hread⟩
    · next e he =>
      have hle := le_skipped_applyAll (db.execute c record true).database (db.execute c record true).clock
        { stats with skipped := stats.skipped + 1 } records (skipNotice record e :: notices)
      rw [h] at hle
      exact absurd hle (Nat.not_succ_le_self _)

end Database

namespace Loads

variable {t t' t'' : Table Entry} {records more : List Request}

theorem nil (t : Table Entry) : Loads t [] t := fun _ _ _ _ _ hload hent hc => ⟨hent, hload, id, hc⟩

theorem append (h : Loads t records t') (h' : Loads t' more t'') : Loads t (records ++ more) t'' := by
  intro db c now stats notices hload hent hc
  obtain ⟨hent', hload', hidx, hc'⟩ := h db c now stats notices hload hent hc
  rw [Database.applyAll_append]
  obtain ⟨hent'', hload'', hidx', hc''⟩ := h' _ _ now _ _ hload' hent' hc'
  exact ⟨hent'', hload'', fun hi => hidx' (hent' ▸ hidx hi), hc''⟩

/-- A record that spells a command, which may fail. -/
theorem of_run {record : Request} {signature : Command.Signature} {command : Command}
    (hread : Command.read record = .ok (signature, command))
    (h : ∀ (report : Keyspace → Bytes) (ks : Keyspace) (c : Clock) (now : Int), ks.loading = true → ks.entries = t →
      c.Stands now → ∃ evicted, ks.Turns now evicted t' (command.run report record ks c).keyspace
        (command.run report record ks c).clock) :
    Loads t [record] t' := by
  intro db c now stats notices hload hent hc
  obtain ⟨evicted, hturns⟩ := h db.report db.keyspace c now hload hent hc
  have hexec := Database.execute_of_read hread db c
  have hafter : ∀ notices stats,
      let a := command.run db.report record db.keyspace c
      let o := Database.applyAll { db with keyspace := a.keyspace.takeExpired.2 } a.clock stats [] notices
      o.database.keyspace.entries = t' ∧ o.database.keyspace.loading = true ∧
        (Indexes db.keyspace.index t → Indexes o.database.keyspace.index t') ∧ o.clock.Stands now :=
    fun _ _ => ⟨hturns.entries, hturns.loading.trans hload, fun hi => hturns.entries ▸ hturns.indexes (hent ▸ hi),
      hturns.clock⟩
  simp only [Database.applyAll, hexec]
  split <;> exact hafter _ _

/-- A record that spells a command on one key, which may fail. -/
theorem of_action {record : Request} {signature : Command.Signature} {command : Command} {key : Bytes}
    {act : Int → Action (Except CommandError Answer)} {y : Option Entry}
    (hread : Command.read record = .ok (signature, command))
    (hact : ∀ now, command.action? record now true = some (key, act now))
    (hleaves : ∀ now, (act now (t.find? key)).2 = y) : Loads t [record] (t.put key y) := by
  refine of_run hread fun report ks c now hload hent hc => ?_
  have hdoes := (ks.does_run hc report (hload ▸ hact now)).2
  rw [Keyspace.look_of_loading hload, hent, hleaves now] at hdoes
  exact ⟨ks.stale now key, hent ▸ hdoes.turns⟩

end Loads

namespace Reloads

variable {t t' t'' : Table Entry} {records more : List Request}

theorem nil (t : Table Entry) : Reloads t [] t := ⟨Loads.nil t, fun _ _ _ _ _ _ _ _ => rfl⟩

theorem append (h : Reloads t records t') (h' : Reloads t' more t'') : Reloads t (records ++ more) t'' := by
  refine ⟨h.loads.append h'.loads, fun db c now stats notices hload hent hc => ?_⟩
  obtain ⟨hent', hload', _, hc'⟩ := h.loads db c now stats notices hload hent hc
  rw [Database.applyAll_append]
  exact (h'.accepts _ _ now _ _ hload' hent' hc').trans (h.accepts db c now stats notices hload hent hc)

/-- A record that spells a command which succeeds on a keyspace that is loading. -/
theorem of_run {record : Request} {signature : Command.Signature} {command : Command}
    (hread : Command.read record = .ok (signature, command))
    (h : ∀ (report : Keyspace → Bytes) (ks : Keyspace) (c : Clock) (now : Int), ks.loading = true → ks.entries = t →
      c.Stands now → (∃ answer, (command.run report record ks c).result = .ok answer) ∧
        ∃ evicted, ks.Turns now evicted t' (command.run report record ks c).keyspace
          (command.run report record ks c).clock) :
    Reloads t [record] t' := by
  refine ⟨Loads.of_run hread fun report ks c now hload hent hc => (h report ks c now hload hent hc).2, ?_⟩
  intro db c now stats notices hload hent hc
  obtain ⟨answer, hok⟩ := (h db.report db.keyspace c now hload hent hc).1
  have hexec := Database.execute_of_read hread db c
  simp only [hok, Except.map] at hexec
  simp only [Database.applyAll, hexec]

/-- A record that spells a command on one key, which succeeds. -/
theorem of_action {record : Request} {signature : Command.Signature} {command : Command} {key : Bytes}
    {act : Int → Action (Except CommandError Answer)} {y : Option Entry}
    (hread : Command.read record = .ok (signature, command))
    (hact : ∀ now, command.action? record now true = some (key, act now))
    (hok : ∀ now, ∃ answer, act now (t.find? key) = (.ok answer, y)) :
    Reloads t [record] (t.put key y) := by
  refine of_run hread fun report ks c now hload hent hc => ?_
  obtain ⟨hres, hleaves⟩ := ks.does_run hc report (hload ▸ hact now)
  obtain ⟨answer, hans⟩ := hok now
  rw [Keyspace.look_of_loading hload, hent, hans] at hres hleaves
  exact ⟨⟨answer, hres⟩, _, hent ▸ hleaves.turns⟩

theorem deletion (t : Table Entry) {keys : List Bytes} (h : keys ≠ []) :
    Reloads t [Command.deletionRecord keys] (t.eraseAll keys) := by
  obtain ⟨signature, hread⟩ := Command.read_deletionRecord h
  refine of_run hread fun report ks c now hload hent hc => ⟨⟨_, rfl⟩, ?_⟩
  obtain ⟨evicted, hdel⟩ := Command.exists_deletes ks hc keys
  -- nothing is past its deadline while loading
  have hnone : evicted = [] := by
    refine List.eq_nil_iff_forall_not_mem.2 fun k hk => ?_
    have hnot := (hdel.turns.elapsed k hk).1
    simp [hload] at hnot
  subst hnone
  refine ⟨[], { hdel.turns with entries := ?_ }⟩
  refine Table.ext_find? fun k => ?_
  simp only [Command.run]
  rw [Table.find?_eraseAll]
  split
  · next hk => exact hdel.gone k hk
  · next hk =>
    have hk' : k ∉ (Command.deleteAll ks c keys).result := fun hmem => hk (hdel.sublist.subset hmem)
    rw [hdel.turns.entries, Table.find?_eraseAll, if_neg hk', hent]
    rfl

theorem deletions (t : Table Entry) (keys : List Bytes) :
    Reloads t (Database.expiryRecords keys) (t.eraseAll keys) := by
  induction keys generalizing t with
  | nil => exact nil t
  | cons key keys ih => exact (deletion t (List.cons_ne_nil key [])).append (ih _)

theorem flush {record : Request} {signature : Command.Signature} (hread : Command.read record = .ok (signature, .flush))
    (t : Table Entry) : Reloads t [record] ∅ := by
  refine of_run hread fun report ks c now hload hent hc => ?_
  simp only [Command.run]
  split
  · next hzero =>
    have hempty : ks.entries = ∅ := Table.ext_find? fun k => by rw [Table.size_eq_zero_iff.1 hzero k]; rfl
    exact ⟨⟨_, rfl⟩, [], { ks.turns_self hc with entries := hempty }⟩
  · exact ⟨⟨_, rfl⟩, [], { ks.turns_self hc with entries := rfl, indexes := fun _ => Indexes.empty }⟩

theorem set (t : Table Entry) (key value : Bytes) :
    Reloads t [["SET", key, value]] (t.put key (some ⟨.string value, none⟩)) := by
  obtain ⟨signature, hread⟩ := Command.read_set key value
  exact of_action hread (fun _ => rfl) fun _ => ⟨_, rfl⟩

theorem deadline {t : Table Entry} {key : Bytes} {d : Int} {e : Entry}
    (hleg : Command.Legible (Command.deadlineRecord key d)) (he : t.find? key = some e) :
    Reloads t [Command.deadlineRecord key d] (t.put key (some { e with deadline := some d })) := by
  obtain ⟨signature, command, hread⟩ := hleg
  obtain rfl := Command.eq_expireAt_of_read hread
  refine of_action hread (fun _ => rfl) fun now => ?_
  rw [he]
  exact ⟨_, rfl⟩

end Reloads

/-- When memory goes from `m` to `m'` and the log from `t` to `t'`: the log holds what memory holds, save
where memory had and has nothing and the log is unchanged. -/
def Follows (m t m' t' : Table Entry) : Prop :=
  ∀ k, t'.find? k = m'.find? k ∨ (m.find? k = none ∧ m'.find? k = none ∧ t'.find? k = t.find? k)

namespace Follows

variable {m t m' t' m'' t'' : Table Entry}

theorem refl (h : m ⊆ t) : Follows m t m t := by
  intro k
  cases hm : m.find? k with
  | none => exact Or.inr ⟨rfl, rfl, rfl⟩
  | some e => exact Or.inl (h k e hm)

theorem put (h : m ⊆ t) (key : Bytes) (y : Option Entry) : Follows m t (m.put key y) (t.put key y) := by
  intro k
  rw [Table.find?_put, Table.find?_put]
  split
  · exact Or.inl rfl
  · exact refl h k

theorem eraseAll (h : m ⊆ t) (keys : List Bytes) : Follows m t (m.eraseAll keys) (t.eraseAll keys) := by
  intro k
  rw [Table.find?_eraseAll, Table.find?_eraseAll]
  split
  · exact Or.inl rfl
  · exact refl h k

theorem empty : Follows m t ∅ ∅ := fun _ => Or.inl rfl

theorem trans (h : Follows m t m' t') (h' : Follows m' t' m'' t'') : Follows m t m'' t'' := by
  intro k
  rcases h' k with heq | ⟨hm', hm'', ht''⟩
  · exact Or.inl heq
  · rcases h k with heq | ⟨hm, _, ht'⟩
    · exact Or.inl (by rw [ht'', heq, hm', hm''])
    · exact Or.inr ⟨hm, hm'', ht''.trans ht'⟩

theorem eq (h : Follows m m m' t') : t' = m' := by
  refine Table.ext_find? fun k => ?_
  rcases h k with heq | ⟨hm, hm', ht'⟩
  · exact heq
  · rw [ht', hm, hm']

theorem subset (h : Follows m t m' t') : m' ⊆ t' := by
  intro k e he
  rcases h k with heq | ⟨_, hm', _⟩
  · rw [heq, he]
  · simp [hm'] at he

end Follows

/-- The request creates a key in memory, in a way that depends on what was there, while the log still holds
something there. -/
def Revives (request : Request) (m t m' : Table Entry) : Prop :=
  ∃ key, m.find? key = none ∧ t.find? key ≠ none ∧ m'.find? key ≠ none ∧
    ∀ signature k value ttl, Command.read request ≠ .ok (signature, .set k value ttl)

theorem not_revives_self (request : Request) (m m' : Table Entry) : ¬ Revives request m m m' := by
  rintro ⟨key, hnone, hsome, _⟩
  exact hsome hnone

def Command.Timely (records : List Request) : Prop :=
  ∀ key d, Command.deadlineRecord key d ∈ records → Command.Legible (Command.deadlineRecord key d)

theorem Command.timely_of_legible {records : List Request} (h : ∀ record ∈ records, Command.Legible record) :
    Command.Timely records := fun _ _ hmem => h _ hmem

theorem Command.timely_append {records more : List Request} :
    Command.Timely (records ++ more) ↔ Command.Timely records ∧ Command.Timely more := by
  constructor
  · intro h
    exact ⟨fun key d hmem => h key d (List.mem_append_left _ hmem),
      fun key d hmem => h key d (List.mem_append_right _ hmem)⟩
  · rintro ⟨h, h'⟩ key d hmem
    rcases List.mem_append.1 hmem with hmem | hmem
    · exact h key d hmem
    · exact h' key d hmem

theorem Command.Told.reloads {request : Request} {now : Int} {m m' t : Table Entry} {records : List Request}
    (h : Told request now m records m') (htime : Timely records) (hsub : m ⊆ t)
    (hnew : ¬ Revives request m t m') : ∃ t', Reloads t records t' ∧ Follows m t m' t' := by
  cases h with
  | nothing => exact ⟨t, Reloads.nil t, Follows.refl hsub⟩
  | flushed hread => exact ⟨∅, Reloads.flush hread t, Follows.empty⟩
  | deleted hread hne => exact ⟨_, Reloads.deletion t hne, Follows.eraseAll hsub _⟩
  | stored hread => exact ⟨_, Reloads.set t _ _, Follows.put hsub _ _⟩
  | @storedUntil _ key value ms hread =>
    have hd := Reloads.deadline (htime key (now + ms) (List.mem_cons_of_mem _ List.mem_cons_self))
      (t.find?_put_self key (some ⟨.string value, none⟩))
    rw [Table.put_put] at hd
    exact ⟨_, (Reloads.set t key value).append hd, Follows.put hsub _ _⟩
  | scheduled hread hd he =>
    exact ⟨_, Reloads.deadline (htime _ _ List.mem_cons_self) (hsub _ _ he), Follows.put hsub _ _⟩
  | @updated signature command key act hread hup hrec hcreate =>
    -- the log has at the key what memory has there
    have hsame : t.find? key = m.find? key := by
      cases hx : m.find? key with
      | some e => exact hsub key e hx
      | none =>
        obtain ⟨e, he⟩ := hcreate hx
        refine Decidable.not_not.1 fun hne => hnew ⟨key, hx, hne, by simp [hx, he], ?_⟩
        intro signature k value ttl hset
        obtain ⟨_, rfl⟩ := Prod.mk.inj (Except.ok.inj (hread.symm.trans hset))
        cases hup
    refine ⟨_, Reloads.of_action hread (fun now => action?_of_update? hup now true) (y := (act (m.find? key)).2) ?_,
      Follows.put hsub _ _⟩
    intro now
    rw [hsame]
    cases hres : (act (m.find? key)).1 with
    | error e => simp [hres, recordsOf] at hrec
    | ok answer => exact ⟨answer, Prod.ext hres rfl⟩

end KeyStore
