import KeyStore.Proofs.Answers

/-!
# Kinds of values

A command that works on one kind of value is refused on a key that holds another kind, before it changes or logs
anything, and no other command is refused for that. A key that stays visible holds a value of the same kind, unless
it is set (`Database.kinds_kept`).
-/

namespace KeyStore

def Command.kindOf? (name : Bytes) : Option Kind :=
  if name ∈ (["get", "incr", "decr", "incrby", "decrby"] : List Bytes) then some .string
  else if name ∈ (["lpush", "rpush", "lpop", "rpop", "llen", "lrange"] : List Bytes) then some .list
  else if name ∈ (["hset", "hget", "hgetall", "hkeys", "hvals", "hdel", "hlen", "hexists"] : List Bytes)
  then some .hash
  else if name ∈ (["sadd", "srem", "smembers", "sismember", "scard"] : List Bytes) then some .set
  else if name ∈ (["zadd", "zrem", "zscore", "zrange", "zcard", "zrank"] : List Bytes) then some .sortedSet
  else none

/-- The key that a command works on and the kind of value that it expects there. -/
def Command.subject? : Command → Option (Bytes × Kind)
  | ask key query => query.subject.map (key, ·)
  | increment key _ => some (key, .string)
  | edit key e => some (key, e.kind)
  | remove key r => some (key, r.kind)
  | _ => none

namespace Command

theorem Asks.kindOf?_eq {name : Bytes} {words : List Bytes} {query : Query} (h : Asks name words query) :
    kindOf? name = query.subject := by
  cases h <;> simp only [Query.subject] <;> decide +kernel

theorem Adds.kindOf?_eq {name : Bytes} {words : List Bytes} {delta : Int} (h : Adds name words delta) :
    kindOf? name = some .string := by
  cases h <;> decide +kernel

theorem Edits.kindOf?_eq {name : Bytes} {words : List Bytes} {e : Edit} (h : Edits name words e) :
    kindOf? name = some e.kind := by
  cases h <;> simp only [Edit.kind] <;> decide +kernel

theorem Removes.kindOf?_eq {name : Bytes} {words : List Bytes} {r : Removal} (h : Removes name words r) :
    kindOf? name = some r.kind := by
  cases h <;> simp only [Removal.kind] <;> decide +kernel

theorem subject?_of_means {name : Bytes} {operands : List Bytes} {command : Command}
    (h : Means name operands command) :
    command.subject? = (kindOf? name).bind fun k => operands.head?.map (·, k) := by
  cases h with
  | ask key h =>
    rw [h.kindOf?_eq]
    cases hs : Query.subject _ <;> simp [subject?, hs]
  | increment key h => simp [h.kindOf?_eq, subject?]
  | edit key h => simp [h.kindOf?_eq, subject?]
  | remove key h => simp [h.kindOf?_eq, subject?]
  | _ => exact (congrArg (Option.bind · _) (show kindOf? _ = none by decide +kernel)).symm

end Command

theorem Keyspace.expect_eq_error_iff {k : Kind} {v : Option Value} {e : CommandError} :
    expect k v = .error e ↔ e = .typeMismatch ∧ ∃ w, v = some w ∧ w.kind ≠ k := by
  cases v with
  | none => simp [expect]
  | some w =>
    have hnone := Value.as?_eq_none_iff (k := k) (v := w)
    cases hw : w.as? k with
    | none =>
      have hkind : w.kind ≠ k := hnone.1 hw
      simpa [expect, hw, hkind] using eq_comm
    | some x =>
      have hkind : w.kind = k := Classical.not_not.1 fun hne => by simp [hnone.2 hne] at hw
      simp [expect, hw, hkind]

theorem Query.answer_eq_error_iff {query : Query} {v : Option Value} {e : CommandError} :
    query.answer v = .error e ↔ e = .typeMismatch ∧ ∃ k w, query.subject = some k ∧ v = some w ∧ w.kind ≠ k := by
  have hmap : ∀ {k : Kind} {f : Option k.Content → Reply}, (Keyspace.expect k v).map f = .error e ↔
      e = .typeMismatch ∧ ∃ w, v = some w ∧ w.kind ≠ k := by
    intro k f
    rw [← Keyspace.expect_eq_error_iff]
    cases Keyspace.expect k v <;> simp [Except.map]
  cases query with
  | kind => simp [answer, subject]
  | get =>
    have h : answer v get = .error e ↔ e = .typeMismatch ∧ ∃ w, v = some w ∧ w.kind ≠ .string :=
      hmap (k := .string) (f := bulkOrNil)
    simp [h, subject]
  | _ => simp [answer, subject, onList, onHash, onSet, onSortedSet, hmap]

theorem Keyspace.integer_eq_typeMismatch_iff {v : Option Value} :
    integer v = .error .typeMismatch ↔ ∃ w, v = some w ∧ w.kind ≠ .string := by
  cases v with
  | none => simp [integer]
  | some w =>
    cases w with
    | string s =>
      simp only [integer, Value.kind]
      split <;> simp
    | _ => simp [integer, Value.kind]

theorem Keyspace.addInt_ne_typeMismatch (n delta : Int) : addInt n delta ≠ .error .typeMismatch := by
  unfold addInt
  split <;> simp

namespace Action

variable {request : Request} {now : Int} {loading : Bool} {command : Command} {key : Bytes}
  {act : Action (Except CommandError Answer)} {x : Option Entry}

theorem fst_add_eq_typeMismatch_iff {delta : Int} :
    (add request delta x).1 = .error .typeMismatch ↔ ∃ e, x = some e ∧ e.value.kind ≠ .string := by
  have hinteger := Keyspace.integer_eq_typeMismatch_iff (v := x.map (·.value))
  have hvalue : (∃ w, x.map (·.value) = some w ∧ w.kind ≠ .string) ↔ ∃ e, x = some e ∧ e.value.kind ≠ .string := by
    cases x <;> simp
  rw [← hvalue, ← hinteger]
  simp only [add, increment]
  cases Keyspace.integer (x.map (·.value)) with
  | error e => simp [bind, Except.bind, Except.map]
  | ok n =>
    have hsum := Keyspace.addInt_ne_typeMismatch n delta
    simp only [bind, Except.bind]
    cases hadd : Keyspace.addInt n delta with
    | error e =>
      rw [hadd] at hsum
      simpa [Except.map] using hsum
    | ok sum => simp [Except.map]

theorem fst_setDeadline_ne_error (d : Int) (e : CommandError) : (setDeadline loading now key d x).1 ≠ .error e := by
  cases x with
  | none => simp [setDeadline]
  | some entry =>
    simp only [setDeadline]
    split <;> simp

theorem fst_eq_typeMismatch_iff (hact : command.action? request now loading = some (key, act)) :
    (act x).1 = .error .typeMismatch ↔
      ∃ k e, command.subject? = some (key, k) ∧ x = some e ∧ e.value.kind ≠ k := by
  cases command with
  | ask key query =>
    cases hact
    have hmap : (ask query x).1 = .error .typeMismatch ↔ query.answer (x.map (·.value)) = .error .typeMismatch :=
      ⟨Command.map_eq_error, fun h => by simp [ask, h, Except.map]⟩
    rw [hmap, Query.answer_eq_error_iff]
    cases hs : query.subject <;> cases x <;> simp [Command.subject?, hs]
  | increment key delta =>
    cases hact
    rw [fst_add_eq_typeMismatch_iff]
    simp [Command.subject?]
  | edit key e =>
    cases hact
    cases x with
    | none => simp [edit, amended]
    | some x =>
      have hnone := Value.as?_eq_none_iff (k := e.kind) (v := x.value)
      cases hv : x.value.as? e.kind <;> simp_all [edit, amended, Command.subject?]
  | remove key r =>
    cases hact
    cases x with
    | none => simp [remove]
    | some x =>
      have hnone := Value.as?_eq_none_iff (k := r.kind) (v := x.value)
      cases hv : x.value.as? r.kind <;> simp_all [remove, amended, Command.subject?]
  | set key value ttl =>
    cases hact
    simp [store, Command.subject?]
  | remaining key inSeconds =>
    cases hact
    simp [remainingIn, Command.subject?]
  | persist key =>
    cases hact
    simp [clearDeadline, Command.subject?]
  | expireIn key ms =>
    cases hact
    simpa [Command.subject?] using fst_setDeadline_ne_error (now + ms) .typeMismatch
  | expireAt key deadline =>
    cases hact
    simpa [Command.subject?] using fst_setDeadline_ne_error deadline .typeMismatch
  | _ => cases hact

theorem eq_typeMismatch_or_eq_notAnInteger (hact : command.action? request now loading = some (key, act))
    {e : CommandError} (h : (act x).1 = .error e) : e = .typeMismatch ∨ e = .notAnInteger := by
  have hinteger : ∀ v, Keyspace.integer v = .error e → e = .typeMismatch ∨ e = .notAnInteger := by
    intro v hv
    unfold Keyspace.integer at hv
    split at hv
    · cases hv
    · split at hv <;> simp_all
    · simp_all
  have hsum : ∀ n delta, Keyspace.addInt n delta = .error e → e = .notAnInteger := by
    intro n delta hn
    unfold Keyspace.addInt at hn
    split at hn <;> simp_all
  cases command with
  | ask key query =>
    cases hact
    exact .inl (Query.answer_eq_error_iff.1 (Command.map_eq_error h)).1
  | increment key delta =>
    cases hact
    simp only [add, increment] at h
    split at h
    · next e' he' =>
      obtain rfl : e' = e := Except.error.inj (Command.map_eq_error h)
      cases hi : Keyspace.integer (x.map (·.value)) with
      | error e =>
        rw [hi] at he'
        cases he'
        exact hinteger _ hi
      | ok n =>
        rw [hi] at he'
        exact .inr (hsum n delta he')
    · simp [Except.map] at h
  | edit key change =>
    cases hact
    simp only [edit] at h
    split at h
    · simp [amended] at h
    · split at h
      · simp_all
      · simp [amended] at h
  | remove key change =>
    cases hact
    simp only [remove] at h
    split at h
    · simp at h
    · split at h
      · simp_all
      · simp [amended] at h
  | expireIn key ms =>
    cases hact
    exact absurd h (fst_setDeadline_ne_error _ e)
  | expireAt key deadline =>
    cases hact
    exact absurd h (fst_setDeadline_ne_error _ e)
  | set key value ttl =>
    cases hact
    cases h
  | remaining key inSeconds =>
    cases hact
    cases h
  | persist key =>
    cases hact
    cases h
  | _ => cases hact

theorem kind_of_stored {k : Kind} {d : Option Int} {content : k.Content} {e : Entry}
    (h : stored k d content = some e) : e.value.kind = k := by
  unfold stored at h
  split at h
  · cases h
  · cases h
    exact Value.kind_pack k content

theorem kind_of_setDeadline {d : Int} {e e' : Entry} (h : (setDeadline loading now key d (some e)).2 = some e') :
    e'.value.kind = e.value.kind := by
  simp only [setDeadline] at h
  split at h
  · cases h
  · cases h
    rfl

theorem kind_of_add {delta : Int} {e e' : Entry} (h : (add request delta (some e)).2 = some e') :
    e'.value.kind = e.value.kind := by
  simp only [add, increment] at h
  split at h
  · cases h
    rfl
  · next sum hsum =>
    cases h
    obtain ⟨n, hn, _⟩ := Command.bind_eq_ok hsum
    cases hv : e.value <;> simp_all [Keyspace.integer, Value.kind]

theorem kind_of_snd (hact : command.action? request now loading = some (key, act)) {e e' : Entry}
    (h : (act (some e)).2 = some e') (hset : ∀ value ttl, command ≠ .set key value ttl) :
    e'.value.kind = e.value.kind := by
  cases command with
  | ask key query =>
    cases hact
    cases h
    rfl
  | remaining key inSeconds =>
    cases hact
    cases h
    rfl
  | set key value ttl =>
    cases hact
    exact absurd rfl (hset value ttl)
  | increment key delta =>
    cases hact
    exact kind_of_add h
  | expireIn key ms =>
    cases hact
    exact kind_of_setDeadline h
  | expireAt key deadline =>
    cases hact
    exact kind_of_setDeadline h
  | persist key =>
    cases hact
    cases h
    rfl
  | edit key change =>
    cases hact
    simp only [edit] at h
    split at h
    · cases h
      rfl
    · next content hv => rw [kind_of_stored h, ← Value.pack_of_as? hv, Value.kind_pack]
  | remove key change =>
    cases hact
    simp only [remove] at h
    split at h
    · cases h
      rfl
    · next content hv => rw [kind_of_stored h, ← Value.pack_of_as? hv, Value.kind_pack]
  | _ => cases hact

end Action

section

variable {ks : Keyspace} {now : Int} {c : Clock} {request : Request} {command : Command}

theorem Command.exists_action_of_error {report : Keyspace → Bytes} {e : CommandError} (now : Int) (loading : Bool)
    (h : (command.run report request ks c).result = .error e) :
    ∃ key act, command.action? request now loading = some (key, act) := by
  cases command with
  | ping message => cases message <;> cases h
  | flush =>
    simp only [run] at h
    split at h <;> cases h
  | echo message => cases h
  | info => cases h
  | count => cases h
  | keys pattern => cases h
  | exist names => cases h
  | delete names => cases h
  | _ => exact ⟨_, _, rfl⟩

theorem Command.exists_action_of_subject? {key : Bytes} {k : Kind} (request : Request) (now : Int) (loading : Bool)
    (h : command.subject? = some (key, k)) : ∃ act, command.action? request now loading = some (key, act) := by
  cases command with
  | ask key' query =>
    obtain ⟨_, _, heq⟩ := Option.map_eq_some_iff.1 h
    cases heq
    exact ⟨_, rfl⟩
  | increment key' delta =>
    cases h
    exact ⟨_, rfl⟩
  | edit key' change =>
    cases h
    exact ⟨_, rfl⟩
  | remove key' change =>
    cases h
    exact ⟨_, rfl⟩
  | _ => cases h

theorem Keyspace.run_eq_typeMismatch_iff (hc : c.Stands now) (report : Keyspace → Bytes) :
    (command.run report request ks c).result = .error .typeMismatch ↔
      ∃ key k e, command.subject? = some (key, k) ∧ ks.look now key = some e ∧ e.value.kind ≠ k := by
  constructor
  · intro h
    obtain ⟨key, act, hact⟩ := Command.exists_action_of_error now ks.loading h
    obtain ⟨hres, _⟩ := ks.does_run hc report hact
    obtain ⟨k, e, hsubject, he, hne⟩ := (Action.fst_eq_typeMismatch_iff hact).1 (hres ▸ h)
    exact ⟨key, k, e, hsubject, he, hne⟩
  · rintro ⟨key, k, e, hsubject, he, hne⟩
    obtain ⟨act, hact⟩ := Command.exists_action_of_subject? request now ks.loading hsubject
    obtain ⟨hres, _⟩ := ks.does_run hc report hact
    exact hres.trans ((Action.fst_eq_typeMismatch_iff hact).2 ⟨k, e, hsubject, he, hne⟩)

end

namespace Database

variable {db : Database} {now : Int} {c : Clock} {session : Session} {request : Request} {command : Command}

/-- The reply tells that the kind is wrong only if the command was refused for that. -/
theorem run_of_typeMismatch (hc : c.Stands now) (hs : session.isAuthenticated = true)
    (h : Command.Means (Command.nameOf request) request.tail command)
    (hreply : (db.dispatch c session request).result.1 = .error CommandError.typeMismatch.message) :
    (command.run db.countCommand.report request db.keyspace c).result = .error .typeMismatch := by
  have hfailure : CommandError.persistenceFailure.message ≠ CommandError.typeMismatch.message := by decide
  have hinteger : CommandError.notAnInteger.message ≠ CommandError.typeMismatch.message := by decide
  rcases (dispatch_of_means hs h db c).1 with heq | ⟨_, heq⟩
  · rw [hreply] at heq
    cases hres : (command.run db.countCommand.report request db.keyspace c).result with
    | ok answer =>
      rw [hres] at heq
      have herror := Command.isError_run hc hres
      rw [← show Reply.error _ = answer.reply from heq] at herror
      cases herror
    | error e =>
      rw [hres] at heq
      have hmessage : e.message = CommandError.typeMismatch.message := (Reply.error.inj heq).symm
      obtain ⟨key, act, hact⟩ := Command.exists_action_of_error now db.keyspace.loading hres
      have hcause := (db.keyspace.does_run hc db.countCommand.report hact).1
      rcases Action.eq_typeMismatch_or_eq_notAnInteger hact (hcause ▸ hres) with rfl | rfl
      · rfl
      · exact absurd hmessage hinteger
  · exact absurd (Reply.error.inj (heq.symm.trans hreply)) hfailure

/-- A command that is refused for the kind changes nothing and logs nothing. -/
theorem dispatch_of_kind_ne (h : db.keyspace.Sound) (hc : c.Stands now) (hs : session.isAuthenticated = true)
    (hmeans : Command.Means (Command.nameOf request) request.tail command) {key : Bytes} {k : Kind} {e : Entry}
    (hsubject : command.subject? = some (key, k)) (he : (db.keyspace.visible now).find? key = some e)
    (hne : e.value.kind ≠ k) :
    let o := db.dispatch c session request
    o.result.1 = .error CommandError.typeMismatch.message ∧
      o.database.keyspace.entries = db.keyspace.entries ∧ o.database.journal = db.journal ∧ o.notices = [] := by
  obtain ⟨act, hact⟩ := Command.exists_action_of_subject? request now db.keyspace.loading hsubject
  have hlook : db.keyspace.look now key = some e := (Keyspace.look_of_not_loading h.loading now key).trans he
  obtain ⟨hfind, hel⟩ := Option.filter_eq_some_iff.1 (Keyspace.find?_visible db.keyspace now key ▸ he)
  have hres : (command.run db.countCommand.report request db.keyspace c).result = .error .typeMismatch :=
    (Keyspace.run_eq_typeMismatch_iff hc _).2 ⟨key, k, e, hsubject, hlook, hne⟩
  obtain ⟨hfst, hleaves⟩ := db.keyspace.does_run hc db.countCommand.report hact
  -- the key is not past its deadline, so nothing is taken out on the way
  have hstale : db.keyspace.stale now key = [] := Keyspace.stale_eq_nil hfind hlook
  have hun : (command.run db.countCommand.report request db.keyspace c).keyspace.unlogged = [] := by
    rw [hleaves.unlogged, hstale, h.unlogged]
    rfl
  have hrec : recordsOf (command.run db.countCommand.report request db.keyspace c).result = [] := by
    rw [hres]
    rfl
  have hfull : ∀ e', db.keyspace.look now key = some e' → e'.value.isHollow = false := by
    intro e' he'
    obtain rfl : e = e' := Option.some.inj (hlook.symm.trans he')
    exact h.full key e hfind
  have hsnd := Action.snd_eq_of_records_eq_nil hact hfull (hfst ▸ hrec)
  obtain ⟨hreply, hjournal, hnotices⟩ := dispatch_of_records_eq_nil hs hmeans hun hrec
  refine ⟨by rw [hreply, hres]; rfl, ?_, hjournal, hnotices⟩
  rw [(dispatch_of_means hs hmeans db c).2.2]
  exact hleaves.entries.trans (Table.put_eq_self (hfind.trans (hsnd.trans hlook).symm))

/-- A key that stays visible holds a value of the same kind, unless the request sets it. -/
theorem kind_of_dispatch (hl : db.keyspace.loading = false) (hc : c.Stands now) {key : Bytes} {e e' : Entry}
    (he : (db.keyspace.visible now).find? key = some e)
    (he' : ((db.dispatch c session request).database.keyspace.visible now).find? key = some e')
    (hset : ¬ (Command.nameOf request = "set" ∧ request.tail.head? = some key)) :
    e'.value.kind = e.value.kind := by
  obtain hsame | ⟨command, act, hs, hmeans, hact, hsnd⟩ := of_find?_visible_dispatch hl hc he'
  · rw [Option.some.inj (he.symm.trans hsame)]
  · rw [he] at hsnd
    refine Action.kind_of_snd hact hsnd ?_
    rintro value ttl rfl
    cases hact
    refine hset ?_
    generalize Command.nameOf request = name at hmeans
    generalize request.tail = operands at hmeans
    cases hmeans <;> exact ⟨rfl, rfl⟩

/-- A request that means a command on one kind of value is refused for the kind if and only if a value of another
kind is visible at its key, and then it changes nothing and logs nothing. A key that stays visible holds a value of
the same kind, unless the request sets it. -/
theorem kinds_kept (h : db.keyspace.Reachable) (hc : c.Stands now) (session : Session) (request : Request) :
    let o := db.dispatch c session request
    let before := db.keyspace.visible now
    let after := o.database.keyspace.visible now
    let mismatch := ∃ key k e, Command.kindOf? (Command.nameOf request) = some k ∧ request.tail.head? = some key ∧
      before.find? key = some e ∧ e.value.kind ≠ k
    (session.isAuthenticated = true → (∃ command, Command.Means (Command.nameOf request) request.tail command) →
      (o.result.1 = .error CommandError.typeMismatch.message ↔ mismatch) ∧
      (mismatch → o.database.keyspace.entries = db.keyspace.entries ∧ o.database.journal = db.journal ∧
        o.notices = [])) ∧
    ∀ key e e', before.find? key = some e → after.find? key = some e' →
      e'.value.kind = e.value.kind ∨ Command.nameOf request = "set" ∧ request.tail.head? = some key := by
  intro o before after mismatch
  have hsound := h.sound
  refine ⟨?_, fun key e e' he he' => Classical.or_iff_not_imp_right.2 fun hset =>
    kind_of_dispatch hsound.loading hc he he' hset⟩
  rintro hs ⟨command, hmeans⟩
  have hmismatch : mismatch ↔ ∃ key k e, command.subject? = some (key, k) ∧ before.find? key = some e ∧
      e.value.kind ≠ k := by
    simp only [mismatch, Command.subject?_of_means hmeans, Option.bind_eq_some_iff, Option.map_eq_some_iff,
      Prod.mk.injEq]
    grind
  rw [hmismatch]
  constructor
  · constructor
    · intro hreply
      obtain ⟨key, k, e, hsubject, he, hne⟩ :=
        (Keyspace.run_eq_typeMismatch_iff hc _).1 (run_of_typeMismatch hc hs hmeans hreply)
      exact ⟨key, k, e, hsubject, (Keyspace.look_of_not_loading hsound.loading now key).symm.trans he, hne⟩
    · rintro ⟨key, k, e, hsubject, he, hne⟩
      exact (dispatch_of_kind_ne hsound hc hs hmeans hsubject he hne).1
  · rintro ⟨key, k, e, hsubject, he, hne⟩
    exact (dispatch_of_kind_ne hsound hc hs hmeans hsubject he hne).2

/-- A push on a string with a deadline that has yet to come, and on the same one when the deadline has come. -/
theorem kinds_kept_of_push :
    let push : Request := ["lpush", "k", "a"]
    let db := ((fresh "log" none).course [(1000, .request (.start none) ["SET", "k", "v", "PX", "500"])]).database
    let early := db.dispatch (.standing 1499) (.start none) push
    let late := db.dispatch (.standing 1500) (.start none) push
    db.keyspace.Reachable ∧
    (early.result.1 = .error CommandError.typeMismatch.message ∧
      early.database.keyspace.entries = db.keyspace.entries ∧ early.database.journal = db.journal) ∧
    (late.result.1 = .integer 1 ∧ ∀ e, (db.keyspace.visible 1500).find? "k" = some e → e.value.kind = .list) := by
  intro push db early late
  have hreachable : db.keyspace.Reachable := .course .empty _
  have hname : Command.nameOf push = "lpush" := by decide
  have hkind : Command.kindOf? (Command.nameOf push) = some .list := by decide +kernel
  have hmeans : ∃ command, Command.Means (Command.nameOf push) push.tail command := by
    rw [hname]
    exact ⟨_, .edit "k" (.pushLeft "a" [])⟩
  obtain ⟨hearly, _⟩ := kinds_kept hreachable (Clock.stands_standing 1499) (.start none) push
  obtain ⟨hlate, _⟩ := kinds_kept hreachable (Clock.stands_standing 1500) (.start none) push
  obtain ⟨hiff, hkept⟩ := hearly rfl hmeans
  have hmismatch : (db.keyspace.visible 1499).find? "k" = some ⟨.string "v", some 1500⟩ := by decide +kernel
  have hrefused := hiff.2 ⟨"k", .list, _, hkind, rfl, hmismatch, by decide⟩
  obtain ⟨hentries, hjournal, _⟩ := hkept (hiff.1 hrefused)
  have hone : late.result.1 = .integer 1 := by decide +kernel
  refine ⟨hreachable, ⟨hrefused, hentries, hjournal⟩, hone, fun e he => Classical.not_not.1 fun hne => ?_⟩
  have herror := (hlate rfl hmeans).1.2 ⟨"k", .list, e, hkind, rfl, he, hne⟩
  exact absurd (hone.symm.trans herror) (by decide +kernel)

end Database
end KeyStore
