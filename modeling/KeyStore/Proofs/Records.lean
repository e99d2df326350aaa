import KeyStore.Proofs.ManyKeys
import KeyStore.Proofs.Reading

/-!
# What the log is told

The records of a command tell how it changes the entries, once those past their deadline are out. There
are few shapes of that (`Command.Told`), and all that is known of records follows from them.
-/

namespace KeyStore.Command

/-- The commands that their own request records. They do not look at the time. -/
def update? (request : Request) : Command → Option (Bytes × Action (Except CommandError Answer))
  | increment key delta => some (key, Action.add request delta)
  | persist key => some (key, Action.clearDeadline request)
  | edit key e => some (key, Action.edit request e)
  | remove key r => some (key, Action.remove request r)
  | _ => none

def deadline? (now : Int) : Command → Option (Bytes × Int)
  | expireIn key ms => some (key, now + ms)
  | expireAt key deadline => some (key, deadline)
  | _ => none

variable {request : Request} {now : Int} {command : Command} {key : Bytes}
  {act : Action (Except CommandError Answer)} {m m' : Table Entry} {records : List Request}

theorem action?_of_update? (h : command.update? request = some (key, act)) (now : Int) (loading : Bool) :
    command.action? request now loading = some (key, act) := by
  cases command <;> first | exact h | cases h

theorem mentions_of_update? (h : command.update? request = some (key, act)) : command.mentions = [key] := by
  cases command <;> cases h <;> rfl

/-- What the log is told by a request when it changes the entries from `m` to `m'`. -/
inductive Told (request : Request) (now : Int) (m : Table Entry) : List Request → Table Entry → Prop
  | nothing : Told request now m [] m
  | flushed {signature : Signature} (hread : read request = .ok (signature, .flush)) :
      Told request now m [request] ∅
  | deleted {signature : Signature} {command : Command} {keys : List Bytes}
      (hread : read request = .ok (signature, command)) (hne : keys ≠ [])
      (hsub : keys.Sublist command.mentions) :
      Told request now m [deletionRecord keys] (m.eraseAll keys)
  | stored {signature : Signature} {key value : Bytes}
      (hread : read request = .ok (signature, .set key value none)) :
      Told request now m [["SET", key, value]] (m.put key (some ⟨.string value, none⟩))
  | storedUntil {signature : Signature} {key value : Bytes} {ms : Int}
      (hread : read request = .ok (signature, .set key value (some ms))) :
      Told request now m [["SET", key, value], deadlineRecord key (now + ms)]
        (m.put key (some ⟨.string value, some (now + ms)⟩))
  | scheduled {signature : Signature} {command : Command} {key : Bytes} {d : Int} {e : Entry}
      (hread : read request = .ok (signature, command)) (hd : command.deadline? now = some (key, d))
      (he : m.find? key = some e) :
      Told request now m [deadlineRecord key d] (m.put key (some { e with deadline := some d }))
  | updated {signature : Signature} {command : Command} {key : Bytes} {act : Action (Except CommandError Answer)}
      (hread : read request = .ok (signature, command)) (hup : command.update? request = some (key, act))
      (hrec : recordsOf (act (m.find? key)).1 = [request])
      (hnew : m.find? key = none → ∃ e, (act none).2 = some e) :
      Told request now m [request] (m.put key (act (m.find? key)).2)

theorem records_amended_eq {k : Kind} {d : Option Int} {change : Change k.Content} :
    recordsOf (Action.amended request k d change).1 = if change.logged then [request] else [] := rfl

theorem records_update (h : command.update? request = some (key, act)) (x : Option Entry) :
    recordsOf (act x).1 = [] ∨ recordsOf (act x).1 = [request] := by
  cases command with
  | increment key delta =>
    cases h
    simp only [Action.add, Action.increment]
    split
    · exact Or.inl rfl
    · exact Or.inr rfl
  | persist key =>
    cases h
    simp only [Action.clearDeadline]
    simp only [recordsOf]
    split
    · exact Or.inr rfl
    · exact Or.inl rfl
  | edit key e =>
    cases h
    simp only [Action.edit]
    split
    · rw [records_amended_eq]
      split <;> simp
    · split
      · exact Or.inl rfl
      · rw [records_amended_eq]
        split <;> simp
  | remove key r =>
    cases h
    simp only [Action.remove]
    split
    · exact Or.inl rfl
    · split
      · exact Or.inl rfl
      · rw [records_amended_eq]
        split <;> simp
  | _ => cases h

theorem exists_of_update (h : command.update? request = some (key, act)) (hp : command.IsProper)
    (hrec : recordsOf (act none).1 = [request]) : ∃ e, (act none).2 = some e := by
  cases command with
  | increment key delta =>
    cases h
    simp only [Action.add, Action.increment] at hrec ⊢
    split at hrec
    · cases hrec
    · exact ⟨_, rfl⟩
  | persist key =>
    cases h
    cases hrec
  | edit key e =>
    cases h
    have hpush : ∀ side, e ≠ .push side [] := by
      rintro side rfl
      exact hp rfl
    have hlog : (e.apply e.kind.empty).logged = true := by
      cases hl : (e.apply e.kind.empty).logged with
      | true => rfl
      | false => simp [Action.edit, records_amended_eq, hl] at hrec
    simp [Action.edit, Action.amended, Action.stored, e.isEmpty_content_apply hpush hlog]
  | remove key r =>
    cases h
    cases hrec
  | _ => cases h

theorem deadline_of_update (h : command.update? request = some (key, act)) {e : Entry} (hnew : (act none).2 = some e) :
    e.deadline = none ∧ ∀ x y, (act (some x)).2 = some y → y.deadline = x.deadline := by
  cases command with
  | increment key delta =>
    cases h
    exact ⟨Action.deadline_of_increment hnew, fun x y hy => Action.deadline_of_increment hy⟩
  | persist key =>
    cases h
    cases hnew
  | edit key edit =>
    cases h
    refine ⟨Action.deadline_of_stored hnew, fun x y hy => ?_⟩
    simp only [Action.edit] at hy
    split at hy
    · cases hy
      rfl
    · exact Action.deadline_of_stored hy
  | remove key r =>
    cases h
    cases hnew
  | _ => cases h

theorem told_of_setDeadline {signature : Signature} (hread : read request = .ok (signature, command)) {d : Int}
    (hd : command.deadline? now = some (key, d)) (hsub : [key].Sublist command.mentions) (m : Table Entry) :
    Told request now m (recordsOf (Action.setDeadline false now key d (m.find? key)).1)
      (m.put key (Action.setDeadline false now key d (m.find? key)).2) := by
  cases hx : m.find? key with
  | none =>
    rw [show m.put key (Action.setDeadline false now key d none).2 = m from Table.put_eq_self hx]
    exact Told.nothing
  | some e =>
    simp only [Action.setDeadline]
    split
    · exact Told.deleted hread (List.cons_ne_nil _ _) hsub
    · exact Told.scheduled hread hd hx

theorem told_of_action {signature : Signature} (hread : read request = .ok (signature, command))
    (hact : command.action? request now false = some (key, act)) (hm : Full m) :
    Told request now m (recordsOf (act (m.find? key)).1) (m.put key (act (m.find? key)).2) := by
  have hsp := spelled_of_read hread
  by_cases hnil : recordsOf (act (m.find? key)).1 = []
  · have hsame := Action.snd_eq_of_records_eq_nil hact (fun e he => hm key e he) hnil
    rw [hnil, hsame, Table.put_eq_self rfl]
    exact Told.nothing
  have hupdate : command.update? request = some (key, act) →
      Told request now m (recordsOf (act (m.find? key)).1) (m.put key (act (m.find? key)).2) := by
    intro hup
    have hrec := (records_update hup (m.find? key)).resolve_left hnil
    rw [hrec]
    exact Told.updated hread hup hrec fun hx => exists_of_update hup hsp.proper (hx ▸ hrec)
  cases command with
  | ask key query =>
    cases hact
    refine absurd ?_ hnil
    simp only [Action.ask]
    cases query.answer ((m.find? key).map (·.value)) <;> rfl
  | remaining key inSeconds =>
    cases hact
    exact absurd rfl hnil
  | set key value ttl =>
    cases hact
    cases ttl with
    | none => exact Told.stored hread
    | some ms => exact Told.storedUntil hread
  | expireIn key ms =>
    cases hact
    exact told_of_setDeadline hread rfl (List.Sublist.refl _) m
  | expireAt key deadline =>
    cases hact
    exact told_of_setDeadline hread rfl (List.Sublist.refl _) m
  | increment key delta => exact hupdate hact
  | persist key => exact hupdate hact
  | edit key e => exact hupdate hact
  | remove key r => exact hupdate hact
  | _ => cases hact

/-- What any command does: some keys are found past their deadline, and the records of the command tell the
rest. -/
theorem exists_told {ks : Keyspace} {c : Clock} (hl : ks.loading = false) (hfull : Full ks.entries) (hc : c.Stands now)
    {signature : Signature} (hread : read request = .ok (signature, command)) (report : Keyspace → Bytes) :
    ∃ evicted, ks.Turns now evicted (command.run report request ks c).keyspace.entries
        (command.run report request ks c).keyspace (command.run report request ks c).clock ∧
      Told request now (ks.entries.eraseAll evicted) (recordsOf (command.run report request ks c).result)
        (command.run report request ks c).keyspace.entries := by
  cases hact : command.action? request now false with
  | some p =>
    obtain ⟨key, act⟩ := p
    obtain ⟨hres, hleaves⟩ := ks.does_run hc report (hl ▸ hact)
    have hturns := hleaves.turns
    have hlook : (ks.entries.eraseAll (ks.stale now key)).find? key = ks.look now key := by
      rw [← ks.put_look, Table.find?_put_self]
    have hfull' : Full (ks.entries.eraseAll (ks.stale now key)) := fun k e he =>
      hfull k e (Table.eraseAll_subset _ _ k e he)
    have htold := told_of_action hread hact hfull'
    have hstale : ∀ k ∈ ks.stale now key, k = key := fun k hk => (Keyspace.hasElapsed_of_mem_stale hk).1
    rw [hlook, Table.put_eraseAll _ _ _ _ hstale] at htold
    refine ⟨ks.stale now key, { hturns with entries := rfl }, ?_⟩
    rw [hres, hleaves.entries]
    exact htold
  | none =>
    have hsame : ∀ {a : After (Except CommandError Answer)}, a.keyspace = ks → a.clock.Stands now →
        recordsOf a.result = [] → ∃ evicted, ks.Turns now evicted a.keyspace.entries a.keyspace a.clock ∧
          Told request now (ks.entries.eraseAll evicted) (recordsOf a.result) a.keyspace.entries := by
      rintro ⟨result, _, c'⟩ rfl hc' hnil
      rw [hnil]
      exact ⟨[], Keyspace.turns_self _ hc', Told.nothing⟩
    cases command with
    | ping message => cases message <;> exact hsame rfl hc rfl
    | echo message => exact hsame rfl hc rfl
    | info => exact hsame rfl hc rfl
    | count => exact hsame rfl hc rfl
    | flush =>
      simp only [run]
      split
      · exact hsame rfl hc rfl
      · refine ⟨[], ?_, Told.flushed hread⟩
        exact { ks.turns_self hc with entries := rfl, indexes := fun _ => Indexes.empty }
    | exist names =>
      obtain ⟨evicted, hturns⟩ := exists_turns_countAll ks hc 0 names
      simp only [run]
      refine ⟨evicted, { hturns with entries := rfl }, ?_⟩
      rw [hturns.entries]
      exact Told.nothing
    | keys pattern => exact hsame rfl hc.next rfl
    | delete names =>
      obtain ⟨evicted, h⟩ := exists_deletes ks hc names
      simp only [run]
      refine ⟨evicted, { h.turns with entries := rfl }, ?_⟩
      rw [h.turns.entries]
      cases hres : (deleteAll ks c names).result with
      | nil => exact Told.nothing
      | cons key keys =>
        exact Told.deleted hread (List.cons_ne_nil _ _) (hres ▸ h.sublist)
    | _ => cases hact

theorem records_of_writes_eq_false (h : command.writes = false) (report : Keyspace → Bytes) (ks : Keyspace)
    (c : Clock) : recordsOf (command.run report request ks c).result = [] := by
  cases command with
  | ping message => cases message <;> rfl
  | ask key query =>
    simp only [run]
    cases query.answer (ks.get c key).result <;> rfl
  | echo message => rfl
  | info => rfl
  | count => rfl
  | exist names => rfl
  | keys pattern => rfl
  | remaining key inSeconds => rfl
  | _ => cases h

theorem Told.eq_of_nil (h : Told request now m [] m') : m' = m := by
  cases h
  rfl

theorem Told.eq_of_request_eq_nil (h : Told [] now m records m') : m' = m := by
  cases h with
  | nothing => rfl
  | flushed hread => cases hread
  | deleted hread => cases hread
  | stored hread => cases hread
  | storedUntil hread => cases hread
  | scheduled hread => cases hread
  | updated hread => cases hread

/-- A key that appears, other than by a `set`, was brought by an update. -/
theorem Told.exists_update (h : Told request now m records m') {key : Bytes} (hnone : m.find? key = none)
    (hsome : m'.find? key ≠ none)
    (hset : ∀ signature k value ttl, read request ≠ .ok (signature, .set k value ttl)) :
    ∃ signature command act e, read request = .ok (signature, command) ∧
      command.update? request = some (key, act) ∧ records = [request] ∧ (act none).2 = some e ∧
      m'.find? key = some e := by
  cases h with
  | nothing => exact absurd hnone hsome
  | flushed hread => exact absurd rfl hsome
  | deleted hread hne hsub =>
    rw [Table.find?_eraseAll, hnone, ite_self] at hsome
    exact absurd rfl hsome
  | stored hread => exact absurd hread (hset _ _ _ _)
  | storedUntil hread => exact absurd hread (hset _ _ _ _)
  | @scheduled _ _ k d x hread hd hx =>
    rw [Table.find?_put] at hsome
    split at hsome
    · next hk => simp [← hk, hnone] at hx
    · exact absurd hnone hsome
  | @updated signature command k act hread hup hrec hnew =>
    by_cases hk : key = k
    · subst hk
      obtain ⟨e, he⟩ := hnew hnone
      rw [hnone]
      exact ⟨signature, command, act, e, hread, hup, rfl, he, by rw [Table.find?_put_self, he]⟩
    · rw [Table.find?_put, if_neg hk] at hsome
      exact absurd hnone hsome

theorem Told.full (h : Told request now m records m') (hm : Full m) : Full m' := by
  have hput : ∀ (key : Bytes) (x : Option Entry), (∀ e, x = some e → e.value.isHollow = false) →
      Full (m.put key x) := by
    intro key x hx k e he
    rw [Table.find?_put] at he
    split at he
    · exact hx e he
    · exact hm k e he
  cases h with
  | nothing => exact hm
  | flushed hread => exact fun k e he => by simp at he
  | deleted hread hne hsub => exact fun k e he => hm k e (Table.eraseAll_subset _ _ k e he)
  | stored hread => exact hput _ _ (by rintro e ⟨⟩; rfl)
  | storedUntil hread => exact hput _ _ (by rintro e ⟨⟩; rfl)
  | @scheduled _ _ key d x hread hd hx =>
    refine hput _ _ ?_
    rintro e ⟨⟩
    exact hm key x hx
  | updated hread hup hrec hnew =>
    exact hput _ _ fun e he =>
      Action.isHollow_of_snd_eq_some (action?_of_update? hup now false) (fun x hx => hm _ x hx) he

end KeyStore.Command
