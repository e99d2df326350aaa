import KeyStore.Proofs.Replays

/-!
# Records that a replay skips

A keyspace that is loading accepts the records of a command if it holds the values that the command found,
whatever deadlines it has: only the record of a deadline can be one that spells no command. Skipping it
leaves the values as they are, so all the records behind it are accepted as before
(`Command.Told.skips`).
-/

namespace KeyStore

/-- The two tables hold the same values at the same keys, perhaps with other deadlines. -/
def SameValues (t m : Table Entry) : Prop := ∀ key, (t.find? key).map (·.value) = (m.find? key).map (·.value)

namespace SameValues

variable {t m : Table Entry}

theorem refl (t : Table Entry) : SameValues t t := fun _ => rfl

theorem put (h : SameValues t m) (key : Bytes) {x y : Option Entry} (hxy : x.map (·.value) = y.map (·.value)) :
    SameValues (t.put key x) (m.put key y) := by
  intro k
  rw [Table.find?_put, Table.find?_put]
  split
  · exact hxy
  · exact h k

theorem eraseAll (h : SameValues t m) (keys : List Bytes) : SameValues (t.eraseAll keys) (m.eraseAll keys) := by
  intro k
  rw [Table.find?_eraseAll, Table.find?_eraseAll]
  split
  · rfl
  · exact h k

theorem exists_find? (h : SameValues t m) {key : Bytes} {e : Entry} (he : m.find? key = some e) :
    ∃ d, t.find? key = some { e with deadline := d } := by
  have hkey := h key
  rw [he, Option.map_some] at hkey
  obtain ⟨⟨value, d⟩, ht, rfl⟩ := Option.map_eq_some_iff.1 hkey
  exact ⟨d, ht⟩

end SameValues

namespace Command

variable {request : Request} {command : Command} {key : Bytes} {act : Action (Except CommandError Answer)}

theorem value_stored (k : Kind) (d d' : Option Int) (content : k.Content) :
    (Action.stored k d content).map (·.value) = (Action.stored k d' content).map (·.value) := by
  unfold Action.stored
  split <;> rfl

theorem update_congr (h : command.update? request = some (key, act)) (e : Entry) (d : Option Int) :
    ((act (some e)).1.isOk = (act (some { e with deadline := d })).1.isOk) ∧
      (act (some e)).2.map (·.value) = (act (some { e with deadline := d })).2.map (·.value) := by
  cases command with
  | increment key delta =>
    cases h
    simp only [Action.add, Action.increment, Option.map_some]
    cases Keyspace.integer (some e.value) >>= (Keyspace.addInt · delta) <;> exact ⟨rfl, rfl⟩
  | persist key =>
    cases h
    exact ⟨rfl, rfl⟩
  | edit key edit =>
    cases h
    simp only [Action.edit]
    cases e.value.as? edit.kind with
    | none => exact ⟨rfl, rfl⟩
    | some content => exact ⟨rfl, value_stored _ _ _ _⟩
  | remove key r =>
    cases h
    simp only [Action.remove]
    cases e.value.as? r.kind with
    | none => exact ⟨rfl, rfl⟩
    | some content => exact ⟨rfl, value_stored _ _ _ _⟩
  | _ => cases h

end Command

def Command.illegible (records : List Request) : Nat := records.countP fun record => !decide (Command.Legible record)

/-- Loading the records on top of the entries `t` skips those that spell no command and no others, and leaves
the entries `t'`. -/
structure Skips (t : Table Entry) (records : List Request) (t' : Table Entry) : Prop where
  loads : Loads t records t'
  skips : ∀ (db : Database) (c : Clock) (now : Int) (stats : Database.ReplayStats) (notices : List Notice),
    db.keyspace.loading = true → db.keyspace.entries = t → c.Stands now →
    (db.applyAll c stats records notices).result.skipped = stats.skipped + Command.illegible records

theorem Reloads.legible {t t' : Table Entry} {records : List Request} (h : Reloads t records t') :
    ∀ record ∈ records, Command.Legible record := by
  let db : Database := { keyspace := { entries := t, loading := true } }
  exact Database.legible_of_skipped_eq (h.accepts db (.standing 0) 0 {} [] rfl rfl (Clock.stands_standing 0))

namespace Skips

variable {t t' t'' : Table Entry} {records more : List Request}

theorem of_reloads (h : Reloads t records t') : Skips t records t' := by
  have hnone : Command.illegible records = 0 := by
    rw [Command.illegible, List.countP_eq_zero]
    intro record hmem
    simp [h.legible record hmem]
  exact ⟨h.loads, by rw [hnone]; exact h.accepts⟩

theorem append (h : Skips t records t') (h' : Skips t' more t'') : Skips t (records ++ more) t'' := by
  refine ⟨h.loads.append h'.loads, fun db c now stats notices hload hent hc => ?_⟩
  obtain ⟨hent', hload', _, hc'⟩ := h.loads db c now stats notices hload hent hc
  have hcount : Command.illegible (records ++ more) = Command.illegible records + Command.illegible more :=
    List.countP_append
  rw [Database.applyAll_append, hcount, ← Nat.add_assoc, ← h.skips db c now stats notices hload hent hc]
  exact h'.skips _ _ now _ _ hload' hent' hc'

/-- A record that spells no command changes nothing. -/
theorem of_not_legible {record : Request} (h : ¬ Command.Legible record) (t : Table Entry) : Skips t [record] t := by
  obtain ⟨e, hread⟩ : ∃ e, Command.read record = .error e := by
    cases hread : Command.read record with
    | error e => exact ⟨e, rfl⟩
    | ok p => exact absurd ⟨p.1, p.2, hread⟩ h
  have hone : Command.illegible [record] = 1 := by simp [Command.illegible, h]
  refine ⟨fun db c now stats notices hload hent hc => ?_, fun db c now stats notices hload hent hc => ?_⟩
  · simp only [Database.applyAll, Database.execute_of_read_error hread]
    exact ⟨hent, hload, fun hi => hi, Command.stands_clockOfRefused hc e⟩
  · simp only [Database.applyAll, Database.execute_of_read_error hread, hone]

theorem exists_deadline {m : Table Entry} {key : Bytes} {e : Entry} (hsame : SameValues t m)
    (he : m.find? key = some e) (d : Int) :
    ∃ t', Skips t [Command.deadlineRecord key d] t' ∧
      SameValues t' (m.put key (some { e with deadline := some d })) := by
  obtain ⟨d', ht⟩ := hsame.exists_find? he
  by_cases hleg : Command.Legible (Command.deadlineRecord key d)
  · exact ⟨_, of_reloads (Reloads.deadline hleg ht), hsame.put key rfl⟩
  · refine ⟨t, of_not_legible hleg t, ?_⟩
    have hput := hsame.put key (x := some { e with deadline := d' }) (y := some { e with deadline := some d }) rfl
    rwa [Table.put_eq_self ht] at hput

end Skips

/-- Loading the records of a command on top of the values that the command found skips only those that spell no
command, and leaves the values that the command left. -/
theorem Command.Told.skips {request : Request} {now : Int} {m m' t : Table Entry} {records : List Request}
    (h : Told request now m records m') (hsame : SameValues t m) :
    ∃ t', Skips t records t' ∧ SameValues t' m' := by
  cases h with
  | nothing => exact ⟨t, Skips.of_reloads (Reloads.nil t), hsame⟩
  | flushed hread => exact ⟨∅, Skips.of_reloads (Reloads.flush hread t), SameValues.refl ∅⟩
  | deleted hread hne => exact ⟨_, Skips.of_reloads (Reloads.deletion t hne), hsame.eraseAll _⟩
  | stored hread => exact ⟨_, Skips.of_reloads (Reloads.set t _ _), hsame.put _ rfl⟩
  | @storedUntil _ key value ms hread =>
    have hset := hsame.put key (x := some ⟨.string value, none⟩) (y := some ⟨.string value, none⟩) rfl
    obtain ⟨t', hskips, hsame'⟩ := Skips.exists_deadline hset (Table.find?_put_self _ _ _) (now + ms)
    rw [Table.put_put] at hsame'
    exact ⟨t', (Skips.of_reloads (Reloads.set t key value)).append hskips, hsame'⟩
  | scheduled hread hd he => exact Skips.exists_deadline hsame he _
  | @updated signature command key act hread hup hrec hnew =>
    have hok : (act (m.find? key)).1.isOk = true := by
      cases hres : (act (m.find? key)).1 with
      | error e => simp [hres, recordsOf] at hrec
      | ok answer => rfl
    -- the update does to the value there what it did to the same value
    obtain ⟨hok', hvalue⟩ : (act (t.find? key)).1.isOk = true ∧
        (act (t.find? key)).2.map (·.value) = (act (m.find? key)).2.map (·.value) := by
      cases hx : m.find? key with
      | none =>
        have ht : t.find? key = none := by simpa [hx] using hsame key
        rw [ht]
        exact ⟨hx ▸ hok, rfl⟩
      | some e =>
        obtain ⟨d, ht⟩ := hsame.exists_find? hx
        obtain ⟨hsucceeds, hleaves⟩ := update_congr hup e d
        rw [ht, ← hsucceeds, ← hleaves]
        exact ⟨hx ▸ hok, rfl⟩
    refine ⟨_, Skips.of_reloads (Reloads.of_action hread (fun now => action?_of_update? hup now true)
      (y := (act (t.find? key)).2) ?_), hsame.put key hvalue⟩
    intro now
    cases hres : (act (t.find? key)).1 with
    | error e => simp [hres, Except.isOk, Except.toBool] at hok'
    | ok answer => exact ⟨answer, Prod.ext hres rfl⟩

end KeyStore
