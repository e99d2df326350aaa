import KeyStore.Command.Run
import KeyStore.Proofs.Containers
import KeyStore.Proofs.OneKey

/-!
# Commands on one key

Most commands look at one key. `Command.action?` is what such a command answers and leaves, given the
entry that it finds. What it leaves without a record is what it found, and it never leaves an empty
container.
-/

namespace KeyStore

namespace Action

variable {request : Request}

def amended (request : Request) (k : Kind) (deadline : Option Int) (change : Change k.Content) :
    Except CommandError Answer × Option Entry :=
  (.ok { reply := change.reply, records := if change.logged then [request] else [] },
    stored k deadline change.content)

def edit (request : Request) (e : Edit) : Action (Except CommandError Answer)
  | none => amended request e.kind none (e.apply e.kind.empty)
  | some x =>
    match x.value.as? e.kind with
    | none => (.error .typeMismatch, some x)
    | some content => amended request e.kind x.deadline (e.apply content)

def remove (request : Request) (r : Removal) : Action (Except CommandError Answer)
  | none => (.ok { reply := r.absent }, none)
  | some x =>
    match x.value.as? r.kind with
    | none => (.error .typeMismatch, some x)
    | some content => amended request r.kind x.deadline (r.apply content)

def ask (query : Query) : Action (Except CommandError Answer) := fun x =>
  ((query.answer (x.map (·.value))).map ({ reply := · }), x)

def remainingIn (now : Int) (inSeconds : Bool) : Action (Except CommandError Answer) := fun x =>
  let ms := (remaining now x).1
  (.ok { reply := .integer (if inSeconds then Keyspace.toSeconds ms else ms) }, (remaining now x).2)

def store (now : Int) (key value : Bytes) (ttl : Option Int) : Action (Except CommandError Answer) := fun _ =>
  let deadline := ttl.map (now + ·)
  (.ok { reply := .ok
         records := ["SET", key, value] :: (deadline.map (Command.deadlineRecord key)).toList },
    some ⟨.string value, deadline⟩)

def add (request : Request) (delta : Int) : Action (Except CommandError Answer) := fun x =>
  ((increment delta x).1.map fun sum => { reply := .integer sum, records := [request] }, (increment delta x).2)

/-- Sets a deadline, or takes the entry out if deadlines are enforced and this one has passed. -/
def setDeadline (loading : Bool) (now : Int) (key : Bytes) (deadline : Int) :
    Action (Except CommandError Answer)
  | none => (.ok { reply := .integer 0 }, none)
  | some e =>
    if !loading && deadline ≤ now
    then (.ok { reply := .integer 1, records := [Command.deletionRecord [key]] }, none)
    else (.ok { reply := .integer 1, records := [Command.deadlineRecord key deadline] },
      some { e with deadline := some deadline })

def clearDeadline (request : Request) : Action (Except CommandError Answer) := fun x =>
  (.ok { reply := .ofBool (persist x).1, records := if (persist x).1 then [request] else [] }, (persist x).2)

end Action

/-- The key and the action of a command that looks at one key. -/
def Command.action? (request : Request) (now : Int) (loading : Bool) :
    Command → Option (Bytes × Action (Except CommandError Answer))
  | ask key query => some (key, Action.ask query)
  | remaining key inSeconds => some (key, Action.remainingIn now inSeconds)
  | set key value ttl => some (key, Action.store now key value ttl)
  | increment key delta => some (key, Action.add request delta)
  | expireIn key ms => some (key, Action.setDeadline loading now key (now + ms))
  | expireAt key deadline => some (key, Action.setDeadline loading now key deadline)
  | persist key => some (key, Action.clearDeadline request)
  | edit key e => some (key, Action.edit request e)
  | remove key r => some (key, Action.remove request r)
  | ping _ | echo _ | info | count | flush | exist _ | keys _ | delete _ => none

namespace Keyspace

variable {ks : Keyspace} {now : Int} {key : Bytes} {c : Clock}

/-- The outcome of a change to one container, with its record. -/
theorem does_changed {act : Action (Except CommandError (Reply × Bool))}
    {act' : Action (Except CommandError Answer)} {a : After (Except CommandError (Reply × Bool))} {request : Request}
    (h : ks.Does now key act a)
    (heq : act' (ks.look now key) = ((act (ks.look now key)).1.map fun (reply, logged) =>
      { reply, records := if logged then [request] else [] }, (act (ks.look now key)).2)) :
    ks.Does now key act' (Command.changed request a) := by
  simp only [Does]
  rw [heq]
  refine ⟨?_, h.2⟩
  rw [← h.1]
  rfl

theorem does_runEdit (ks : Keyspace) (hc : c.Stands now) (request : Request) (key : Bytes) (e : Edit) :
    ks.Does now key (Action.edit request e) (Command.runEdit ks c request key e) := by
  refine does_changed (ks.does_modify hc e.kind key _) ?_
  cases hx : ks.look now key with
  | none => rfl
  | some x =>
    cases hv : x.value.as? e.kind with
    | none => simp [Action.edit, Action.modify, hv, Except.map]
    | some content => simp [Action.edit, Action.modify, hv, Except.map, Action.amended]

theorem does_runRemoval (ks : Keyspace) (hc : c.Stands now) (request : Request) (key : Bytes) (r : Removal) :
    ks.Does now key (Action.remove request r) (Command.runRemoval ks c request key r) := by
  have hfind := ks.does_find hc r.kind key
  simp only [Command.runRemoval]
  generalize ks.find c r.kind key = a at hfind ⊢
  obtain ⟨result, ks', c'⟩ := a
  obtain ⟨hres, hl⟩ := hfind
  simp only [Action.find] at hres hl
  cases hx : ks.look now key with
  | none =>
    rw [hx] at hres hl
    subst hres
    exact ⟨by rw [hx]; rfl, by rw [hx]; exact hl⟩
  | some x =>
    cases hv : x.value.as? r.kind with
    | none =>
      have hact : Action.remove request r (ks.look now key) = (.error .typeMismatch, some x) := by
        rw [hx]
        simp only [Action.remove, hv]
      rw [hx] at hres hl
      have hres' : result = .error .typeMismatch := by simpa [expect, hv] using hres
      subst hres'
      simp only [Does]
      rw [hact]
      exact ⟨rfl, hl⟩
    | some content =>
      have hact : Action.remove request r (ks.look now key) =
          Action.amended request r.kind x.deadline (r.apply content) := by
        rw [hx]
        simp only [Action.remove, hv]
      have hkeep := ks.filter_look now key
      rw [hx] at hres hl hkeep
      have hres' : result = .ok (some content) := by simpa [expect, hv] using hres
      subst hres'
      -- the second look-up finds what the first one found
      have hmod := ks'.does_modify hl.clock r.kind key fun x =>
        ((r.apply x).content, (r.apply x).reply, (r.apply x).logged)
      unfold Does at hmod
      rw [hl.look_eq hkeep] at hmod
      simp only [Action.modify, hv] at hmod
      simp only [Does]
      rw [hact]
      refine ⟨?_, hl.trans hkeep hmod.2⟩
      simp only [Command.changed]
      rw [hmod.1]
      rfl

theorem does_applyDeadline (ks : Keyspace) (hc : c.Stands now) (key : Bytes) (d : Int) :
    ks.Does now key (Action.setDeadline ks.loading now key d)
      (Command.always (Command.applyDeadline ks c key d)) := by
  obtain ⟨hres, hl⟩ := ks.does_expireAt hc key d
  simp only [Command.applyDeadline, Command.always]
  generalize ks.expireAt c key d = a at hres hl ⊢
  obtain ⟨result, ks', c'⟩ := a
  simp only at hres hl
  cases hx : ks.look now key with
  | none =>
    rw [hx] at hres hl
    simp only [Action.expireAt] at hres hl
    subst hres
    exact ⟨by rw [hx]; rfl, by rw [hx]; exact hl⟩
  | some e =>
    rw [hx] at hres hl
    simp only [Action.expireAt] at hres hl
    subst hres
    by_cases hd : (!ks.loading && decide (d ≤ now)) = true
    · rw [if_pos hd] at hl
      have hlook : ks'.look now key = none := hl.look_eq fun _ => rfl
      have hcon := ks'.does_contains hl.clock key
      unfold Does at hcon
      rw [hlook] at hcon
      simp only [Does]
      rw [hx]
      simp only [Action.setDeadline, if_pos hd, if_true]
      rw [hcon.1]
      exact ⟨rfl, hl.trans (fun _ => rfl) hcon.2⟩
    · rw [if_neg hd] at hl
      have hkeep : ks.loading = false →
          (some { e with deadline := some d } : Option Entry).filter (!·.hasElapsed now) =
            some { e with deadline := some d } := by
        intro hload
        have hlt : ¬ d ≤ now := by simpa [hload] using hd
        simp [Option.filter, Entry.hasElapsed, hlt]
      have hlook : ks'.look now key = some { e with deadline := some d } := hl.look_eq hkeep
      have hcon := ks'.does_contains hl.clock key
      unfold Does at hcon
      rw [hlook] at hcon
      simp only [Does]
      rw [hx]
      simp only [Action.setDeadline, if_neg hd, if_true]
      rw [hcon.1]
      exact ⟨rfl, hl.trans hkeep hcon.2⟩

/-- A command that looks at one key does nothing but its action. -/
theorem does_run (ks : Keyspace) (hc : c.Stands now) (report : Keyspace → Bytes) {request : Request}
    {command : Command} {act : Action (Except CommandError Answer)}
    (h : command.action? request now ks.loading = some (key, act)) :
    ks.Does now key act (command.run report request ks c) := by
  cases command with
  | ask key query =>
    cases h
    exact (ks.does_get hc _).map fun v => ((query.answer v).map ({ reply := · }) : Except CommandError Answer)
  | remaining key inSeconds =>
    cases h
    cases inSeconds with
    | true =>
      exact (ks.does_remainingSeconds hc _).map fun n => (.ok { reply := .integer n } : Except CommandError Answer)
    | false => exact (ks.does_remaining hc _).map fun n => (.ok { reply := .integer n } : Except CommandError Answer)
  | set key value ttl =>
    cases h
    exact (ks.does_set hc key (.string value) ttl).map fun deadline =>
      (.ok { reply := .ok
             records := ["SET", key, value] :: (deadline.map (Command.deadlineRecord key)).toList } :
        Except CommandError Answer)
  | increment key delta =>
    cases h
    exact (ks.does_increment hc _ _).map fun result =>
      (result.map fun sum => { reply := .integer sum, records := [request] } : Except CommandError Answer)
  | expireIn key ms =>
    cases h
    have hnow : c.now = now := hc.now_eq
    simp only [Command.run, Clock.read, hnow]
    exact ks.does_applyDeadline hc.next _ _
  | expireAt key deadline =>
    cases h
    exact ks.does_applyDeadline hc _ _
  | persist key =>
    cases h
    exact (ks.does_persist hc _).map fun was =>
      (.ok { reply := .ofBool was, records := if was then [request] else [] } : Except CommandError Answer)
  | edit key e =>
    cases h
    exact ks.does_runEdit hc _ _ _
  | remove key r =>
    cases h
    exact ks.does_runRemoval hc _ _ _
  | _ => simp [Command.action?] at h

end Keyspace

def Full (entries : Table Entry) : Prop :=
  ∀ key e, entries.find? key = some e → e.value.isHollow = false

/-- What holds of the keyspace between operations. -/
structure Keyspace.Sound (ks : Keyspace) : Prop where
  indexes : Indexes ks.index ks.entries
  full : Full ks.entries
  unlogged : ks.unlogged = []
  loading : ks.loading = false

theorem Keyspace.sound_empty : (∅ : Keyspace).Sound :=
  ⟨Indexes.empty, (fun _ _ h => by cases h), rfl, rfl⟩

def recordsOf : Except CommandError Answer → List Request
  | .error _ => []
  | .ok answer => answer.records

namespace Action

variable {request : Request}

theorem snd_remaining (now : Int) (x : Option Entry) : (remaining now x).2 = x := by cases x <;> rfl

theorem persist_eq_self {x : Option Entry} (h : (persist x).1 = false) : (persist x).2 = x := by
  cases x with
  | none => rfl
  | some e =>
    have hd : e.deadline = none := by simpa [persist] using h
    simp [persist, ← hd]

theorem snd_amended_of_unlogged {k : Kind} (hk : k ≠ .string) {e : Entry} {content : k.Content}
    {change : Change k.Content} (hv : e.value.as? k = some content) (hfull : e.value.isHollow = false)
    (hsame : change.content = content) : (amended request k e.deadline change).2 = some e := by
  have hpack : k.pack content = e.value := Value.pack_of_as? hv
  have hne : k.isEmpty content = false := by rw [← Value.isHollow_pack hk, hpack, hfull]
  simp [amended, stored, hsame, hne, hpack]

theorem records_amended {k : Kind} {d : Option Int} {change : Change k.Content}
    (h : recordsOf (amended request k d change).1 = []) : change.logged = false := by
  simpa [amended, recordsOf] using h

theorem snd_eq_of_records_eq_nil {now : Int} {loading : Bool} {command : Command} {key : Bytes}
    {act : Action (Except CommandError Answer)} (h : command.action? request now loading = some (key, act))
    {x : Option Entry} (hx : ∀ e, x = some e → e.value.isHollow = false) (hr : recordsOf (act x).1 = []) :
    (act x).2 = x := by
  cases command with
  | ask key query =>
    cases h
    rfl
  | remaining key inSeconds =>
    cases h
    exact snd_remaining now x
  | set key value ttl =>
    cases h
    simp [store, recordsOf] at hr
  | increment key delta =>
    cases h
    simp only [add, increment] at hr ⊢
    split at hr
    · rfl
    · simp [Except.map, recordsOf] at hr
  | expireIn key ms =>
    cases h
    cases x with
    | none => rfl
    | some e =>
      simp only [setDeadline] at hr
      split at hr <;> simp [recordsOf] at hr
  | expireAt key deadline =>
    cases h
    cases x with
    | none => rfl
    | some e =>
      simp only [setDeadline] at hr
      split at hr <;> simp [recordsOf] at hr
  | persist key =>
    cases h
    refine persist_eq_self ?_
    simpa [clearDeadline, recordsOf] using hr
  | edit key e =>
    cases h
    cases x with
    | none =>
      have hsame := e.content_apply (records_amended hr)
      simp [edit, amended, stored, hsame, Kind.isEmpty_empty]
    | some x =>
      cases hv : x.value.as? e.kind with
      | none => simp only [edit, hv]
      | some content =>
        simp only [edit, hv] at hr ⊢
        exact snd_amended_of_unlogged e.kind_ne_string hv (hx x rfl) (e.content_apply (records_amended hr))
  | remove key r =>
    cases h
    cases x with
    | none => rfl
    | some x =>
      cases hv : x.value.as? r.kind with
      | none => simp only [remove, hv]
      | some content =>
        simp only [remove, hv] at hr ⊢
        exact snd_amended_of_unlogged r.kind_ne_string hv (hx x rfl) (r.content_apply (records_amended hr))
  | _ => simp [Command.action?] at h

theorem isHollow_of_stored {k : Kind} {d : Option Int} {content : k.Content} {e : Entry}
    (h : stored k d content = some e) : e.value.isHollow = false := by
  unfold stored at h
  split at h
  · cases h
  · next hne =>
    cases h
    exact Value.isHollow_pack_of_isEmpty_eq_false (Bool.eq_false_iff.2 hne)

theorem deadline_of_stored {k : Kind} {d : Option Int} {content : k.Content} {e : Entry}
    (h : stored k d content = some e) : e.deadline = d := by
  unfold stored at h
  split at h
  · cases h
  · cases h
    rfl

theorem deadline_of_increment {delta : Int} {x : Option Entry} {e : Entry} (h : (increment delta x).2 = some e) :
    e.deadline = x.bind (·.deadline) := by
  unfold increment at h
  split at h
  · simp only at h
    rw [h]
    rfl
  · cases h
    rfl

theorem isHollow_of_setDeadline {loading : Bool} {now d : Int} {key : Bytes} {x : Option Entry}
    (hx : ∀ e, x = some e → e.value.isHollow = false) {e : Entry}
    (he : (setDeadline loading now key d x).2 = some e) : e.value.isHollow = false := by
  cases x with
  | none => simp [setDeadline] at he
  | some x =>
    simp only [setDeadline] at he
    split at he
    · cases he
    · cases he
      exact hx x rfl

theorem isHollow_of_snd_eq_some {now : Int} {loading : Bool} {command : Command} {key : Bytes}
    {act : Action (Except CommandError Answer)} (h : command.action? request now loading = some (key, act))
    {x : Option Entry} (hx : ∀ e, x = some e → e.value.isHollow = false) {e : Entry}
    (he : (act x).2 = some e) : e.value.isHollow = false := by
  cases command with
  | ask key query =>
    cases h
    exact hx e he
  | remaining key inSeconds =>
    cases h
    exact hx e (snd_remaining now x ▸ he)
  | set key value ttl =>
    cases h
    cases he
    rfl
  | increment key delta =>
    cases h
    unfold add increment at he
    split at he
    · exact hx e he
    · cases he
      rfl
  | expireIn key ms =>
    cases h
    exact isHollow_of_setDeadline hx he
  | expireAt key deadline =>
    cases h
    exact isHollow_of_setDeadline hx he
  | persist key =>
    cases h
    cases x with
    | none => simp [clearDeadline, persist] at he
    | some x =>
      cases he
      exact hx x rfl
  | edit key e =>
    cases h
    cases x with
    | none => exact isHollow_of_stored he
    | some x =>
      simp only [edit] at he
      split at he
      · exact hx _ he
      · exact isHollow_of_stored he
  | remove key r =>
    cases h
    cases x with
    | none => simp [remove] at he
    | some x =>
      simp only [remove] at he
      split at he
      · exact hx _ he
      · exact isHollow_of_stored he
  | _ => simp [Command.action?] at h

end Action
end KeyStore
