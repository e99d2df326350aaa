import KeyStore.Proofs.Deadlines

/-!
# Operations on one key

With a standing clock an operation on one key depends on the entry that a look-up of the key finds
(`Keyspace.look`), and leaves an entry at the key or none (`Keyspace.Leaves`). What it answers and
leaves is an `Action`; `Keyspace.Does` says that an operation carries an action out.
-/

namespace KeyStore

/-- What an operation on one key answers, and the entry that it leaves, given the entry it finds. -/
abbrev Action (α : Type) := Option Entry → α × Option Entry

namespace Keyspace

/-- The entry that a look-up of the key finds. -/
def look (ks : Keyspace) (now : Int) (key : Bytes) : Option Entry :=
  if ks.loading then ks.entries.find? key else (ks.entries.find? key).filter (!·.hasElapsed now)

/-- The key, if a look-up takes its entry out. -/
def stale (ks : Keyspace) (now : Int) (key : Bytes) : List Bytes :=
  if ks.look now key = ks.entries.find? key then [] else [key]

/-- The keyspace and the clock after an operation on a key that leaves an entry there. -/
structure Leaves (ks : Keyspace) (now : Int) (key : Bytes) (entry : Option Entry) (ks' : Keyspace)
    (c' : Clock) : Prop where
  entries : ks'.entries = ks.entries.put key entry
  unlogged : ks'.unlogged = ks.unlogged ++ ks.stale now key
  expired : ks'.expired = ks.expired + (ks.stale now key).length
  loading : ks'.loading = ks.loading
  indexes : Indexes ks.index ks.entries → Indexes ks'.index ks'.entries
  clock : c'.Stands now

/-- The operation carries out the action. -/
def Does {α : Type} (ks : Keyspace) (now : Int) (key : Bytes) (act : Action α) (a : After α) : Prop :=
  a.result = (act (ks.look now key)).1 ∧ ks.Leaves now key (act (ks.look now key)).2 a.keyspace a.clock

variable {ks : Keyspace} {now : Int} {key : Bytes}

theorem look_of_loading (h : ks.loading = true) (now : Int) (key : Bytes) :
    ks.look now key = ks.entries.find? key := by
  simp [look, h]

theorem look_of_not_loading (h : ks.loading = false) (now : Int) (key : Bytes) :
    ks.look now key = (ks.visible now).find? key := by
  simp [look, h, find?_visible]

/-- A look-up takes an entry out if that is past its deadline. -/
theorem hasElapsed_of_mem_stale {k : Bytes} (h : k ∈ ks.stale now key) :
    k = key ∧ ks.loading = false ∧ ∃ e, ks.entries.find? k = some e ∧ e.hasElapsed now = true := by
  unfold stale at h
  split at h
  · simp at h
  · next hne =>
    obtain rfl := List.mem_singleton.1 h
    unfold look at hne
    split at hne
    · exact absurd rfl hne
    · next hl =>
      refine ⟨rfl, by simpa using hl, ?_⟩
      cases he : ks.entries.find? k with
      | none => simp [he] at hne
      | some e =>
        refine ⟨e, rfl, ?_⟩
        rw [he] at hne
        cases hel : e.hasElapsed now with
        | true => rfl
        | false => simp [Option.filter, hel] at hne

theorem stale_eq_nil {x : Option Entry} (hx : ks.entries.find? key = x) (hl : ks.look now key = x) :
    ks.stale now key = [] := by
  simp [stale, hx, hl]

namespace Leaves

variable {x y : Option Entry} {ks' ks'' : Keyspace} {c' c'' : Clock}

theorem find? (h : ks.Leaves now key x ks' c') : ks'.entries.find? key = x := by
  rw [h.entries, Table.find?_put_self]

theorem tick (h : ks.Leaves now key x ks' c') : ks.Leaves now key x ks' c'.next :=
  { h with clock := h.clock.next }

theorem drop {e : Entry} (h : ks.Leaves now key (some e) ks' c') :
    ks.Leaves now key none (ks'.drop key e) c' where
  entries := by rw [entries_drop, h.entries, ← Table.put_none, Table.put_put]
  unlogged := h.unlogged
  expired := h.expired
  loading := h.loading
  indexes := fun hi => (h.indexes hi).drop h.find?
  clock := h.clock

theorem keep {e : Entry} (h : ks.Leaves now key x ks' c') (he : x.bind (·.deadline) = e.deadline) :
    ks.Leaves now key (some e) (ks'.keep key e) c' where
  entries := by rw [entries_keep, h.entries, ← Table.put_some, Table.put_put]
  unlogged := h.unlogged
  expired := h.expired
  loading := h.loading
  indexes := fun hi => (h.indexes hi).keep (by rw [h.find?, he])
  clock := h.clock

theorem reschedule {e : Entry} (h : ks.Leaves now key x ks' c') (he : x.bind (·.deadline) = e.deadline)
    (d : Option Int) : ks.Leaves now key (some { e with deadline := d }) (ks'.reschedule key e d) c' where
  entries := by rw [entries_reschedule, h.entries, ← Table.put_some, Table.put_put]
  unlogged := h.unlogged
  expired := h.expired
  loading := h.loading
  indexes := fun hi => (h.indexes hi).reschedule (by rw [h.find?, he]) d
  clock := h.clock

/-- What was left is what the next look-up finds, unless it is past its deadline. -/
theorem look_eq (h : ks.Leaves now key x ks' c')
    (hx : ks.loading = false → x.filter (!·.hasElapsed now) = x) : ks'.look now key = x := by
  simp only [look]
  rw [h.loading, h.find?]
  split
  · rfl
  · next hl => exact hx (by simpa using hl)

/-- A second operation on a key finds what the first one left. -/
theorem trans (h : ks.Leaves now key x ks' c') (hx : ks.loading = false → x.filter (!·.hasElapsed now) = x)
    (h' : ks'.Leaves now key y ks'' c'') : ks.Leaves now key y ks'' c'' where
  entries := by rw [h'.entries, h.entries, Table.put_put]
  unlogged := by rw [h'.unlogged, stale_eq_nil h.find? (h.look_eq hx), h.unlogged, List.append_nil]
  expired := by rw [h'.expired, stale_eq_nil h.find? (h.look_eq hx), h.expired]; rfl
  loading := h'.loading.trans h.loading
  indexes := fun hi => h'.indexes (h.indexes hi)
  clock := h'.clock

end Leaves

theorem filter_look (ks : Keyspace) (now : Int) (key : Bytes) (h : ks.loading = false) :
    (ks.look now key).filter (!·.hasElapsed now) = ks.look now key := by
  simp [look, h]

theorem leaves_self (h : ks.look now key = ks.entries.find? key) {c : Clock} (hc : c.Stands now) :
    ks.Leaves now key (ks.look now key) ks c where
  entries := (Table.put_eq_self h.symm).symm
  unlogged := by simp [stale, h]
  expired := by simp [stale, h]
  loading := rfl
  indexes := id
  clock := hc

/-- A look-up finds the entry, takes it out if it is past its deadline, and changes nothing else. -/
theorem does_live (ks : Keyspace) {c : Clock} (hc : c.Stands now) (key : Bytes) :
    ks.Does now key (fun x => (x, x)) (ks.live c key) := by
  cases he : ks.entries.find? key with
  | none =>
    have hlook : ks.look now key = ks.entries.find? key := by simp [look, he]
    rw [live_of_find?_eq_none he]
    exact ⟨by rw [hlook, he], leaves_self hlook hc⟩
  | some e =>
    by_cases hkeep : (ks.loading || e.deadline.isNone) = true
    · -- deadlines are not enforced, or there is none
      have hlook : ks.look now key = ks.entries.find? key := by
        cases hl : ks.loading with
        | true => simp [look, hl]
        | false =>
          have hd : e.deadline = none := by simpa [hl] using hkeep
          simp [look, hl, he, Option.filter, Entry.hasElapsed, hd]
      have hlive : ks.live c key = ⟨some e, ks, c⟩ := by simp [live, he, hkeep]
      rw [hlive]
      exact ⟨by rw [hlook, he], leaves_self hlook hc⟩
    · have hl : ks.loading = false := by simp_all
      cases hel : e.hasElapsed now with
      | false =>
        have hlook : ks.look now key = ks.entries.find? key := by simp [look, hl, he, Option.filter, hel]
        have hlive : ks.live c key = ⟨some e, ks, c.next⟩ := by simp [live, he, hkeep, hc.now_eq, hel]
        rw [hlive]
        exact ⟨by rw [hlook, he], leaves_self hlook hc.next⟩
      | true =>
        have hlook : ks.look now key = none := by simp [look, hl, he, Option.filter, hel]
        have hstale : ks.stale now key = [key] := by simp [stale, hlook, he]
        have hlive : ks.live c key = ⟨none, ks.evict key e, c.next⟩ := by simp [live, he, hkeep, hc.now_eq, hel]
        rw [hlive]
        refine ⟨hlook.symm, ?_⟩
        rw [hlook]
        exact {
          entries := rfl
          unlogged := by rw [hstale]; rfl
          expired := by rw [hstale]; rfl
          loading := rfl
          indexes := fun hi => hi.drop he
          clock := hc.next }

theorem look_eq_live (ks : Keyspace) {c : Clock} (hc : c.Stands now) (key : Bytes) :
    ks.look now key = (ks.live c key).result := (ks.does_live hc key).1.symm

theorem leaves_live (ks : Keyspace) {c : Clock} (hc : c.Stands now) (key : Bytes) :
    ks.Leaves now key (ks.live c key).result (ks.live c key).keyspace (ks.live c key).clock :=
  ks.look_eq_live hc key ▸ (ks.does_live hc key).2

theorem Does.map {α β : Type} {act : Action α} {a : After α} (h : ks.Does now key act a) (f : α → β) :
    ks.Does now key (fun x => (f (act x).1, (act x).2)) ⟨f a.result, a.keyspace, a.clock⟩ :=
  ⟨congrArg f h.1, h.2⟩

end Keyspace

namespace Action

def get : Action (Option Value) := fun x => (x.map (·.value), x)

def contains : Action Bool := fun x => (x.isSome, x)

def find (k : Kind) : Action (Except CommandError (Option k.Content)) := fun x =>
  (Keyspace.expect k (x.map (·.value)), x)

def set (value : Value) (deadline : Option Int) : Action (Option Int) := fun _ =>
  (deadline, some ⟨value, deadline⟩)

def delete : Action Bool := fun x => (x.isSome, none)

def stored (k : Kind) (deadline : Option Int) (content : k.Content) : Option Entry :=
  if k.isEmpty content then none else some ⟨k.pack content, deadline⟩

def modify {α : Type} (k : Kind) (f : k.Content → k.Content × α) : Action (Except CommandError α)
  | none => (.ok (f k.empty).2, stored k none (f k.empty).1)
  | some e =>
    match e.value.as? k with
    | none => (.error .typeMismatch, some e)
    | some x => (.ok (f x).2, stored k e.deadline (f x).1)

def increment (delta : Int) : Action (Except CommandError Int) := fun x =>
  match Keyspace.integer (x.map (·.value)) >>= (Keyspace.addInt · delta) with
  | .error e => (.error e, x)
  | .ok sum => (.ok sum, some ⟨.string (Numeral.ofInt sum), x.bind (·.deadline)⟩)

def expireAt (loading : Bool) (now deadline : Int) : Action Bool
  | none => (false, none)
  | some e => (true, if !loading && deadline ≤ now then none else some { e with deadline := some deadline })

def persist : Action Bool
  | none => (false, none)
  | some e => (e.deadline.isSome, some { e with deadline := none })

def remaining (now : Int) : Action Int
  | none => (-2, none)
  | some e => (match e.deadline with | none => -1 | some d => d - now, some e)

end Action

namespace Keyspace

variable {now : Int} {c : Clock}

theorem does_get (ks : Keyspace) (hc : c.Stands now) (key : Bytes) : ks.Does now key Action.get (ks.get c key) :=
  (ks.does_live hc key).map (·.map (·.value))

theorem does_contains (ks : Keyspace) (hc : c.Stands now) (key : Bytes) :
    ks.Does now key Action.contains (ks.contains c key) :=
  (ks.does_live hc key).map (·.isSome)

theorem does_find (ks : Keyspace) (hc : c.Stands now) (k : Kind) (key : Bytes) :
    ks.Does now key (Action.find k) (ks.find c k key) :=
  (ks.does_get hc key).map (expect k)

theorem does_set (ks : Keyspace) (hc : c.Stands now) (key : Bytes) (value : Value) (ttl : Option Int) :
    ks.Does now key (Action.set value (ttl.map (now + ·))) (ks.set c key value ttl) := by
  have hl := ks.leaves_live hc key
  simp only [Does, set]
  generalize ks.live c key = a at hl ⊢
  obtain ⟨x, ks', c'⟩ := a
  have hold : x.bind (·.deadline) = (⟨value, x.bind (·.deadline)⟩ : Entry).deadline := rfl
  cases ttl with
  | none => exact ⟨rfl, hl.reschedule hold none⟩
  | some ttl =>
    have hnow : c'.now = now := hl.clock.now_eq
    simp only [Clock.read, hnow]
    exact ⟨rfl, (hl.reschedule hold (some (now + ttl))).tick⟩

theorem does_delete (ks : Keyspace) (hc : c.Stands now) (key : Bytes) :
    ks.Does now key Action.delete (ks.delete c key) := by
  have hl := ks.leaves_live hc key
  simp only [Does, delete]
  rw [ks.look_eq_live hc key]
  generalize ks.live c key = a at hl ⊢
  obtain ⟨x, ks', c'⟩ := a
  cases x with
  | none => exact ⟨rfl, hl⟩
  | some e => exact ⟨rfl, hl.drop⟩

theorem does_modify {α : Type} (ks : Keyspace) (hc : c.Stands now) (k : Kind) (key : Bytes)
    (f : k.Content → k.Content × α) : ks.Does now key (Action.modify k f) (ks.modify c k key f) := by
  have hl := ks.leaves_live hc key
  simp only [Does, modify]
  rw [ks.look_eq_live hc key]
  generalize ks.live c key = a at hl ⊢
  obtain ⟨x, ks', c'⟩ := a
  cases x with
  | none =>
    refine ⟨rfl, ?_⟩
    simp only [Action.modify, Action.stored]
    split
    · exact hl
    · exact hl.keep rfl
  | some e =>
    cases hv : e.value.as? k with
    | none =>
      simp only [Action.modify, hv]
      exact ⟨trivial, hl⟩
    | some content =>
      simp only [Action.modify, Action.stored, hv]
      refine ⟨trivial, ?_⟩
      split
      · exact hl.drop
      · exact hl.keep rfl

theorem does_increment (ks : Keyspace) (hc : c.Stands now) (key : Bytes) (delta : Int) :
    ks.Does now key (Action.increment delta) (ks.increment c key delta) := by
  have hl := ks.leaves_live hc key
  simp only [Does, increment]
  rw [ks.look_eq_live hc key]
  generalize ks.live c key = a at hl ⊢
  obtain ⟨x, ks', c'⟩ := a
  cases hsum : integer (x.map (·.value)) >>= (addInt · delta) with
  | error e =>
    simp only [Action.increment, hsum]
    exact ⟨trivial, hl⟩
  | ok sum =>
    simp only [Action.increment, hsum]
    exact ⟨trivial, hl.keep rfl⟩

theorem does_expireAt (ks : Keyspace) (hc : c.Stands now) (key : Bytes) (d : Int) :
    ks.Does now key (Action.expireAt ks.loading now d) (ks.expireAt c key d) := by
  have hl := ks.leaves_live hc key
  simp only [Does, expireAt]
  rw [ks.look_eq_live hc key]
  generalize ks.live c key = a at hl ⊢
  obtain ⟨x, ks', c'⟩ := a
  have hload : ks'.loading = ks.loading := hl.loading
  have hnow : c'.now = now := hl.clock.now_eq
  cases x with
  | none => exact ⟨rfl, hl⟩
  | some e =>
    simp only [Action.expireAt, Clock.read, hload, hnow]
    cases ks.loading with
    | true => exact ⟨rfl, hl.reschedule rfl (some d)⟩
    | false =>
      by_cases hd : d ≤ now
      · simpa [hd] using hl.drop.tick
      · simpa [hd] using (hl.reschedule rfl (some d)).tick

theorem does_persist (ks : Keyspace) (hc : c.Stands now) (key : Bytes) :
    ks.Does now key Action.persist (ks.persist c key) := by
  have hl := ks.leaves_live hc key
  simp only [Does, persist]
  rw [ks.look_eq_live hc key]
  generalize ks.live c key = a at hl ⊢
  obtain ⟨x, ks', c'⟩ := a
  cases x with
  | none => exact ⟨rfl, hl⟩
  | some e =>
    obtain ⟨value, deadline⟩ := e
    cases deadline with
    | none => exact ⟨rfl, hl⟩
    | some d => exact ⟨rfl, hl.reschedule rfl none⟩

theorem does_remaining (ks : Keyspace) (hc : c.Stands now) (key : Bytes) :
    ks.Does now key (Action.remaining now) (ks.remaining c key) := by
  have hl := ks.leaves_live hc key
  simp only [Does, remaining]
  rw [ks.look_eq_live hc key]
  generalize ks.live c key = a at hl ⊢
  obtain ⟨x, ks', c'⟩ := a
  cases x with
  | none => exact ⟨rfl, hl⟩
  | some e =>
    obtain ⟨value, deadline⟩ := e
    have hnow : c'.now = now := hl.clock.now_eq
    cases deadline with
    | none => exact ⟨rfl, hl⟩
    | some d =>
      simp only [Clock.read, hnow]
      exact ⟨rfl, hl.tick⟩

theorem does_remainingSeconds (ks : Keyspace) (hc : c.Stands now) (key : Bytes) :
    ks.Does now key (fun x => (toSeconds (Action.remaining now x).1, (Action.remaining now x).2))
      (ks.remainingSeconds c key) :=
  (ks.does_remaining hc key).map toSeconds

end Keyspace
end KeyStore
