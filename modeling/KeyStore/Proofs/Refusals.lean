import KeyStore.Proofs.Appends
import KeyStore.Proofs.Invariants

/-!
# Requests that change nothing

A request that is refused, or whose name is not marked as writing, leaves what is visible as it was. All that it
can do is to find keys past their deadline: these are taken out in the order in which the command looks them up
(`Command.unlogged_run`), and the log is told of them and of nothing else (`Database.unchanged_of_refused`).
-/

namespace KeyStore

/-- The keys that a command looks up, one after another. -/
def Command.lookups : Command → List Bytes
  | ask key _ | remaining key _ | set key _ _ | increment key _ | expireIn key _ | expireAt key _ | persist key
  | edit key _ | remove key _ => [key]
  | exist names | delete names => names
  | ping _ | echo _ | info | count | flush | keys _ => []

def Command.isMarked (request : Request) : Bool := (signature? (nameOf request)).any (·.writes)

/-- Those of the keys whose entry is past its deadline, each once, in the order in which they come. -/
def Table.elapsedAmong (t : Table Entry) (now : Int) (keys : List Bytes) : List Bytes :=
  (keys.filter fun key => (t.find? key).any (·.hasElapsed now)).eraseDups

namespace Table

variable {t : Table Entry} {now : Int}

theorem mem_elapsedAmong {keys : List Bytes} {key : Bytes} (h : key ∈ t.elapsedAmong now keys) :
    key ∈ keys ∧ ∃ e, t.find? key = some e ∧ e.hasElapsed now = true := by
  obtain ⟨hmem, hel⟩ := List.mem_filter.1 (List.mem_eraseDups.1 h)
  exact ⟨hmem, (Option.any_eq_true _ _).1 hel⟩

theorem nodup_eraseDups (keys : List Bytes) : keys.eraseDups.Nodup := by
  induction hn : keys.length using Nat.strongRecOn generalizing keys with
  | ind n ih =>
    cases keys with
    | nil => exact List.nodup_nil
    | cons key keys =>
      have hlt : (keys.filter fun k => !k == key).length < n := by
        rw [← hn, List.length_cons]
        exact Nat.lt_succ_of_le (List.length_filter_le _ _)
      rw [List.eraseDups_cons, List.nodup_cons]
      refine ⟨fun hmem => ?_, ih _ hlt _ rfl⟩
      have hne := (List.mem_filter.1 (List.mem_eraseDups.1 hmem)).2
      simp at hne

theorem nodup_elapsedAmong (t : Table Entry) (now : Int) (keys : List Bytes) : (t.elapsedAmong now keys).Nodup :=
  nodup_eraseDups _

/-- Once the first key has been dealt with, what is left of it does not matter. -/
theorem elapsedAmong_cons (t : Table Entry) {x : Option Entry} (hx : x.any (·.hasElapsed now) = false) (key : Bytes)
    (keys : List Bytes) :
    t.elapsedAmong now (key :: keys) = t.elapsedAmong now [key] ++ (t.put key x).elapsedAmong now keys := by
  have hrest : (keys.filter fun k => ((t.put key x).find? k).any (·.hasElapsed now)) =
      (keys.filter fun k => (t.find? k).any (·.hasElapsed now)).filter fun k => !k == key := by
    rw [List.filter_filter]
    refine List.filter_congr fun k _ => ?_
    rw [find?_put]
    by_cases hk : k = key <;> simp [hk, hx]
  simp only [elapsedAmong, hrest]
  cases hkey : (t.find? key).any (·.hasElapsed now) with
  | true => simp [hkey, List.eraseDups_cons]
  | false =>
    have hsame : (keys.filter fun k => (t.find? k).any (·.hasElapsed now)).filter (fun k => !k == key) =
        keys.filter fun k => (t.find? k).any (·.hasElapsed now) := by
      refine List.filter_eq_self.2 fun k hk => ?_
      have hne : k ≠ key := by
        rintro rfl
        simp [(List.mem_filter.1 hk).2] at hkey
      simpa using hne
    rw [hsame]
    simp [hkey]

end Table

namespace Keyspace

theorem stale_eq (ks : Keyspace) (hl : ks.loading = false) (now : Int) (key : Bytes) :
    ks.stale now key = ks.entries.elapsedAmong now [key] := by
  simp only [stale, look, hl, Table.elapsedAmong]
  cases hfind : ks.entries.find? key with
  | none => simp [hfind]
  | some e => cases hel : e.hasElapsed now <;> simp [hfind, hel, Option.filter, List.eraseDups_cons]

theorem any_hasElapsed_look (ks : Keyspace) (hl : ks.loading = false) (now : Int) (key : Bytes) :
    (ks.look now key).any (·.hasElapsed now) = false := by
  simp only [look, hl]
  cases ks.entries.find? key with
  | none => rfl
  | some e => cases hel : e.hasElapsed now <;> simp [hel, Option.filter]

end Keyspace

namespace Command

open Keyspace

variable {ks : Keyspace} {now : Int} {c : Clock}

theorem unlogged_deleteAll (hl : ks.loading = false) (hc : c.Stands now) (names : List Bytes) :
    (deleteAll ks c names).keyspace.unlogged = ks.unlogged ++ ks.entries.elapsedAmong now names := by
  induction names generalizing ks c with
  | nil => exact (List.append_nil _).symm
  | cons name names ih =>
    have hleaves := (ks.does_delete hc name).2
    simp only [Action.delete] at hleaves
    simp only [deleteAll]
    rw [ih (hleaves.loading.trans hl) hleaves.clock, hleaves.unlogged, hleaves.entries, stale_eq ks hl,
      List.append_assoc, ← Table.elapsedAmong_cons ks.entries rfl]

theorem unlogged_countAll (hl : ks.loading = false) (hc : c.Stands now) (n : Nat) (names : List Bytes) :
    (countAll ks c n names).keyspace.unlogged = ks.unlogged ++ ks.entries.elapsedAmong now names := by
  induction names generalizing ks c n with
  | nil => exact (List.append_nil _).symm
  | cons name names ih =>
    have hleaves := (ks.does_contains hc name).2
    simp only [Action.contains] at hleaves
    simp only [countAll]
    rw [ih (hleaves.loading.trans hl) hleaves.clock, hleaves.unlogged, hleaves.entries, stale_eq ks hl,
      List.append_assoc, ← Table.elapsedAmong_cons ks.entries (any_hasElapsed_look ks hl now name)]

theorem lookups_of_action? {request : Request} {loading : Bool} {command : Command} {key : Bytes}
    {act : Action (Except CommandError Answer)} (h : command.action? request now loading = some (key, act)) :
    command.lookups = [key] := by
  cases command <;> first | (cases h; rfl) | cases h

/-- The keys that a command takes out because they are past their deadline, in the order of their removal. -/
theorem unlogged_run (hl : ks.loading = false) (hc : c.Stands now) (report : Keyspace → Bytes) (request : Request)
    (command : Command) :
    (command.run report request ks c).keyspace.unlogged =
      ks.unlogged ++ ks.entries.elapsedAmong now command.lookups := by
  cases hact : command.action? request now ks.loading with
  | some p =>
    obtain ⟨key, act⟩ := p
    rw [(ks.does_run hc report hact).2.unlogged, stale_eq ks hl, lookups_of_action? hact]
  | none =>
    have hsame : ks.unlogged = ks.unlogged ++ ks.entries.elapsedAmong now [] := (List.append_nil _).symm
    cases command with
    | ping message => cases message <;> exact hsame
    | flush =>
      simp only [run]
      split <;> exact hsame
    | echo message => exact hsame
    | info => exact hsame
    | count => exact hsame
    | keys pattern => exact hsame
    | exist names => exact unlogged_countAll hl hc 0 names
    | delete names => exact unlogged_deleteAll hl hc names
    | _ => cases hact

end Command

namespace Query

theorem isError_bulkOrNil (x : Option Bytes) : (bulkOrNil x).isError = false := by cases x <;> rfl

theorem isError_integerOrNil (x : Option Nat) : (integerOrNil x).isError = false := by cases x <;> rfl

theorem isError_answer {query : Query} {v : Option Value} {reply : Reply} (h : query.answer v = .ok reply) :
    reply.isError = false := by
  cases query <;>
    simp only [answer, onString, onList, onHash, onSet, onSortedSet] at h <;>
    first
    | (cases h; rfl)
    | (obtain ⟨x, _, rfl⟩ := Command.map_eq_ok h
       first | rfl | exact isError_bulkOrNil _ | exact isError_integerOrNil _)

end Query

theorem Edit.isError_reply (e : Edit) (content : e.kind.Content) : (e.apply content).reply.isError = false := by
  cases e <;> rfl

theorem Removal.isError_reply (r : Removal) (content : r.kind.Content) : (r.apply content).reply.isError = false := by
  cases r <;> rfl

namespace Action

variable {request : Request} {answer : Answer}

theorem isError_setDeadline {loading : Bool} {now d : Int} {key : Bytes} {x : Option Entry}
    (h : (setDeadline loading now key d x).1 = .ok answer) : answer.reply.isError = false := by
  cases x with
  | none =>
    cases h
    rfl
  | some e =>
    simp only [setDeadline] at h
    split at h <;> (cases h; rfl)

theorem isError_of_action {now : Int} {loading : Bool} {command : Command} {key : Bytes}
    {act : Action (Except CommandError Answer)} (hact : command.action? request now loading = some (key, act))
    {x : Option Entry} (h : (act x).1 = .ok answer) : answer.reply.isError = false := by
  cases command with
  | ask key query =>
    cases hact
    obtain ⟨reply, hreply, rfl⟩ := Command.map_eq_ok h
    exact Query.isError_answer hreply
  | remaining key inSeconds =>
    cases hact
    cases h
    rfl
  | set key value ttl =>
    cases hact
    cases h
    rfl
  | increment key delta =>
    cases hact
    obtain ⟨sum, _, rfl⟩ := Command.map_eq_ok h
    rfl
  | expireIn key ms =>
    cases hact
    exact isError_setDeadline h
  | expireAt key deadline =>
    cases hact
    exact isError_setDeadline h
  | persist key =>
    cases hact
    cases h
    rfl
  | edit key e =>
    cases hact
    simp only [edit] at h
    split at h
    · cases h
      exact e.isError_reply _
    · split at h
      · cases h
      · cases h
        exact e.isError_reply _
  | remove key r =>
    cases hact
    simp only [remove] at h
    split at h
    · cases h
      cases r <;> rfl
    · split at h
      · cases h
      · cases h
        exact r.isError_reply _
  | _ => cases hact

end Action

theorem Command.isError_run {ks : Keyspace} {c : Clock} {now : Int} (hc : c.Stands now) {report : Keyspace → Bytes}
    {request : Request} {command : Command} {answer : Answer}
    (h : (command.run report request ks c).result = .ok answer) : answer.reply.isError = false := by
  cases hact : command.action? request now ks.loading with
  | some p =>
    obtain ⟨key, act⟩ := p
    exact Action.isError_of_action hact ((ks.does_run hc report hact).1 ▸ h)
  | none =>
    cases command with
    | ping message => cases message <;> (cases h; rfl)
    | flush =>
      simp only [run] at h
      split at h <;> (cases h; rfl)
    | echo message => cases h; rfl
    | info => cases h; rfl
    | count => cases h; rfl
    | keys pattern => cases h; rfl
    | exist names => cases h; rfl
    | delete names => cases h; rfl
    | _ => cases hact

namespace Journal

/-- The journal with some records at its end, and the first bytes of one more. -/
def torn (j : Journal) (done : List Request) (record : Request) (k : Nat) : Journal :=
  { j.extended done with contents := (j.extended done).contents ++ (Frame.encode record).take k }

theorem contents_torn (j : Journal) (done rest : List Request) {record : Request} {k : Nat}
    (hk : k < (Frame.encode record).length) :
    (j.torn done record k).contents =
      j.contents ++ (bytesOf (done ++ record :: rest)).take ((bytesOf done).length + k) := by
  rw [bytesOf_append, bytesOf_cons, List.take_length_add_append, List.take_append_of_le_length (Nat.le_of_lt hk),
    ← List.append_assoc]
  rfl

theorem exists_append_of_fst {j : Journal} {record : Request} (h : (j.append record).1 = false) :
    ∃ k < (Frame.encode record).length,
      j.append record = (false, { j with contents := j.contents ++ (Frame.encode record).take k }) := by
  unfold append at h ⊢
  simp only at h ⊢
  split at h
  · cases h
  · next hdone =>
    obtain ⟨k, hk, hsent, hall⟩ := Transfer.exists_run_callsWithin (Frame.encode record)
      (j.limit.map (· - j.contents.length))
    have hne : k ≠ (Frame.encode record).length := fun heq => hdone (hall.2 heq)
    exact ⟨k, Nat.lt_of_le_of_ne hk hne, by rw [if_neg hdone, hsent]⟩

end Journal

namespace Database

/-- What a call to append leaves that fails: all of the records `done`, and of the next one the first bytes. -/
theorem exists_torn {records : List Request} {j : Journal} (h : (appendAll records j).1 = false) :
    ∃ done record rest k, records = done ++ record :: rest ∧ k < (Frame.encode record).length ∧
      (appendAll records j).2.1 = j.torn done record k := by
  induction records generalizing j with
  | nil => cases h
  | cons record records ih =>
    simp only [appendAll] at h ⊢
    cases hfst : (j.append record).1 with
    | true =>
      rw [Journal.append_of_fst hfst] at h ⊢
      obtain ⟨done, torn, rest, k, rfl, hk, hj⟩ := ih h
      exact ⟨record :: done, torn, rest, k, rfl, hk, by rw [hj, Journal.torn, Journal.extended_extended]; rfl⟩
    | false =>
      obtain ⟨k, hk, happend⟩ := Journal.exists_append_of_fst hfst
      exact ⟨[], record, records, k, rfl, hk, by rw [happend, Journal.torn, Journal.extended_nil]⟩

theorem notices_appendAll {records : List Request} {j : Journal} (h : (appendAll records j).1 = true) :
    (appendAll records j).2.2 = [] := by
  induction records generalizing j with
  | nil => rfl
  | cons record records ih =>
    simp only [appendAll] at h ⊢
    split at h
    · exact ih h
    · cases h

variable {db : Database} {records : List Request}

theorem log_of_fst (h : (db.log records).1 = true) :
    db.log records = (true, { db with journal := db.journal.map (·.extended records) }, []) := by
  refine log_of_notices_eq_nil ?_
  simp only [log] at h ⊢
  split
  · rfl
  · next j hj =>
    simp only [hj] at h
    exact notices_appendAll h

theorem exists_torn_log (h : (db.log records).1 = false) :
    ∃ done record rest k, records = done ++ record :: rest ∧ k < (Frame.encode record).length ∧
      (db.log records).2.1.journal = db.journal.map (·.torn done record k) := by
  simp only [log] at h ⊢
  split at h
  · cases h
  · next j hj =>
    obtain ⟨done, record, rest, k, hrecords, hk, htorn⟩ := exists_torn h
    exact ⟨done, record, rest, k, hrecords, hk, by simp [hj, htorn]⟩

theorem exists_log (db : Database) (records : List Request) :
    ∃ n, (db.log records).2.1.journal.map (·.contents) =
      db.journal.map (·.contents ++ (Journal.bytesOf records).take n) := by
  cases hfst : (db.log records).1 with
  | true =>
    refine ⟨(Journal.bytesOf records).length, ?_⟩
    rw [log_of_fst hfst, Option.map_map, List.take_length]
    rfl
  | false =>
    obtain ⟨done, record, rest, k, rfl, hk, htorn⟩ := exists_torn_log hfst
    refine ⟨(Journal.bytesOf done).length + k, ?_⟩
    rw [htorn, Option.map_map]
    exact congrArg (Option.map · db.journal) (funext fun j => j.contents_torn done rest hk)

variable {now : Int} {c : Clock}

/-- The keys that a request of a session finds past their deadline, in the order in which they are taken out. -/
def evicted (db : Database) (now : Int) (session : Session) (request : Request) : List Bytes :=
  match session.isAuthenticated, Command.read request with
  | true, .ok (_, command) => db.keyspace.entries.elapsedAmong now command.lookups
  | _, _ => []

/-- What a request leaves that only finds keys past their deadline. -/
structure Unchanged (db : Database) (now : Int) (evicted : List Bytes) (db' : Database) : Prop where
  visible : db'.keyspace.visible now = db.keyspace.visible now
  entries : db'.keyspace.entries = db.keyspace.entries.eraseAll evicted
  elapsed : ∀ key ∈ evicted, ∃ e, db.keyspace.entries.find? key = some e ∧ e.hasElapsed now = true
  nodup : evicted.Nodup
  /-- The log holds first bytes of the records of their deletion besides, all of them if nothing failed. -/
  log : ∃ n, db'.journal.map (·.contents) =
    db.journal.map (·.contents ++ (Journal.bytesOf (expiryRecords evicted)).take n)

theorem unchanged_self (db : Database) (now : Int) : db.Unchanged now [] db :=
  ⟨rfl, rfl, by simp, List.nodup_nil, 0, by simp⟩

theorem Unchanged.of_eq {db' db₁ db₁' : Database} {evicted : List Bytes} (h : db.Unchanged now evicted db')
    (hks : db₁.keyspace = db.keyspace) (hj : db₁.journal = db.journal) (hks' : db₁'.keyspace = db'.keyspace)
    (hj' : db₁'.journal = db'.journal) : db₁.Unchanged now evicted db₁' :=
  ⟨by rw [hks', hks]; exact h.visible, by rw [hks', hks]; exact h.entries, by rw [hks]; exact h.elapsed, h.nodup,
    by rw [hj', hj]; exact h.log⟩

theorem signature?_of_read {request : Request} {signature : Command.Signature} {command : Command}
    (h : Command.read request = .ok (signature, command)) :
    Command.signature? (Command.nameOf request) = some signature := by
  unfold Command.read at h
  simp only at h
  split at h
  · cases h
  · next s hs =>
    split at h
    · cases h
    · obtain ⟨_, _, heq⟩ := Command.map_eq_ok h
      cases heq
      exact hs

/-- A command without records has changed nothing but to take out keys past their deadline. -/
theorem unchanged_execute (h : db.keyspace.Sound) (hc : c.Stands now) {request : Request}
    {signature : Command.Signature} {command : Command} (hread : Command.read request = .ok (signature, command))
    (hnil : recordsOf (command.run db.report request db.keyspace c).result = []) :
    let o := db.execute c request false
    let evicted := db.keyspace.entries.elapsedAmong now command.lookups
    db.Unchanged now evicted o.database ∧
      (o.result ≠ .error .persistenceFailure →
        o.database.journal = db.journal.map (·.extended (expiryRecords evicted))) ∧
      (o.database.journal ≠ db.journal.map (·.extended (expiryRecords evicted)) →
        ∃ done record rest k, expiryRecords evicted = done ++ record :: rest ∧ k < (Frame.encode record).length ∧
          o.database.journal = db.journal.map (·.torn done record k)) := by
  obtain ⟨evicted, hturns, htold⟩ := Command.exists_told h.loading h.full hc hread db.report
  have hevicted : (command.run db.report request db.keyspace c).keyspace.unlogged =
      db.keyspace.entries.elapsedAmong now command.lookups := by
    rw [Command.unlogged_run h.loading hc, h.unlogged]
    rfl
  obtain rfl : evicted = db.keyspace.entries.elapsedAmong now command.lookups := by
    rw [← hevicted, hturns.unlogged, h.unlogged]
    rfl
  rw [hnil] at htold
  have hent := htold.eq_of_nil
  have helapsed : ∀ key ∈ db.keyspace.entries.elapsedAmong now command.lookups,
      ∃ e, db.keyspace.entries.find? key = some e ∧ e.hasElapsed now = true :=
    fun key hkey => (Table.mem_elapsedAmong hkey).2
  rw [execute_live hread]
  simp only [hevicted, hnil, List.append_nil]
  refine ⟨⟨?_, ?_, helapsed, Table.nodup_elapsedAmong _ _ _, exists_log _ _⟩, fun hne => ?_,
    fun hne => exists_torn_log ?_⟩
  · rw [keyspace_log, Keyspace.visible]
    simp only [Keyspace.takeExpired]
    rw [hent]
    exact Keyspace.visible_eraseAll helapsed
  · rw [keyspace_log]
    exact hent
  · split at hne
    · next hlogged => rw [log_of_fst hlogged]
    · exact absurd rfl hne
  · refine Bool.eq_false_iff.2 fun hlogged => hne ?_
    rw [log_of_fst hlogged]

theorem records_of_refused (hc : c.Stands now) {request : Request} {signature : Command.Signature} {command : Command}
    (hread : Command.read request = .ok (signature, command))
    (hrefused : Command.isMarked request = false ∨
      ((replyOf (db.execute c request false).result).isError = true ∧
        replyOf (db.execute c request false).result ≠ .error CommandError.persistenceFailure.message)) :
    recordsOf (command.run db.report request db.keyspace c).result = [] := by
  rcases hrefused with hmark | ⟨herror, hne⟩
  · have hwrites : signature.writes = false := by
      simpa [Command.isMarked, signature?_of_read hread] using hmark
    exact Command.records_of_writes_eq_false ((Command.spelled_of_read hread).writes.trans hwrites) _ _ _
  · cases hres : (command.run db.report request db.keyspace c).result with
    | error e => rfl
    | ok answer =>
      -- a command that succeeds replies no error, save that of the log
      exfalso
      rw [execute_live hread] at herror hne
      simp only [hres, Except.map] at herror hne
      split at herror
      · exact Bool.false_ne_true ((Command.isError_run hc hres).symm.trans herror)
      · next hlogged => exact hne (by simp only [hlogged]; rfl)

def Granted (session : Session) (request : Request) : Prop :=
  request ≠ [] ∧ Command.nameOf request ≠ "auth" ∧ session.isAuthenticated = true

theorem dispatch_of_granted {session : Session} {request : Request} (h : Granted session request) (db : Database)
    (c : Clock) :
    db.dispatch c session request =
      let o := db.countCommand.execute c request false
      ⟨(replyOf o.result, session), o.database, o.clock, o.notices⟩ := by
  cases request with
  | nil => exact absurd rfl h.1
  | cons name operands => simp only [dispatch, h.2.1, h.2.2, if_false, if_true]

theorem dispatch_of_not_granted {session : Session} {request : Request} (h : ¬ Granted session request) (db : Database)
    (c : Clock) :
    (db.dispatch c session request).database.keyspace = db.keyspace ∧
      (db.dispatch c session request).database.journal = db.journal := by
  cases request with
  | nil => exact ⟨rfl, rfl⟩
  | cons name operands =>
    simp only [dispatch]
    split
    · split
      · split <;> exact ⟨rfl, rfl⟩
      · exact ⟨rfl, rfl⟩
    · next hauth =>
      split
      · next hs => exact absurd ⟨List.cons_ne_nil _ _, hauth, hs⟩ h
      · exact ⟨rfl, rfl⟩

theorem evicted_of_read_error {session : Session} {request : Request} {e : CommandError}
    (h : Command.read request = .error e) (db : Database) (now : Int) : db.evicted now session request = [] := by
  cases hs : session.isAuthenticated <;> simp only [evicted, hs, h]

theorem evicted_of_not_granted {session : Session} {request : Request} (h : ¬ Granted session request) (db : Database)
    (now : Int) : db.evicted now session request = [] := by
  cases hs : session.isAuthenticated with
  | false => simp only [evicted, hs]
  | true =>
    -- no command has the empty name, or that of the attempt at a password
    have hnone : Command.signature? (Command.nameOf request) = none := by
      by_cases hauth : Command.nameOf request = "auth"
      · rw [hauth]
        decide
      · have hnil : request = [] := Classical.not_not.1 fun hne => h ⟨hne, hauth, hs⟩
        rw [hnil]
        decide
    have hread : Command.read request = .error (.unknownCommand (Command.nameOf request)) := by
      simp only [Command.read, hnone]
    exact evicted_of_read_error hread db now

/-- A request that is refused, or whose name is not marked as writing, changes nothing that is visible. It takes
out the keys it looks up that are past their deadline, and the log is told of their deletion, in that order, and
of nothing else. If the log could not be told of all of it, the reply says so, and what was appended is the first of
these records and the first bytes of the next one. -/
theorem unchanged_of_refused (h : db.keyspace.Sound) (hc : c.Stands now) (session : Session) (request : Request)
    (hrefused : Command.isMarked request = false ∨
      ((db.dispatch c session request).result.1.isError = true ∧
        (db.dispatch c session request).result.1 ≠ .error CommandError.persistenceFailure.message)) :
    let o := db.dispatch c session request
    let evicted := db.evicted now session request
    db.Unchanged now evicted o.database ∧
      (o.result.1 ≠ .error CommandError.persistenceFailure.message →
        o.database.journal = db.journal.map (·.extended (expiryRecords evicted))) ∧
      (o.database.journal ≠ db.journal.map (·.extended (expiryRecords evicted)) →
        ∃ done record rest k, expiryRecords evicted = done ++ record :: rest ∧ k < (Frame.encode record).length ∧
          o.database.journal = db.journal.map (·.torn done record k)) := by
  have hself : ∀ db' : Database, db'.keyspace = db.keyspace → db'.journal = db.journal →
      db.evicted now session request = [] →
      db.Unchanged now (db.evicted now session request) db' ∧
        db'.journal = db.journal.map (·.extended (expiryRecords (db.evicted now session request))) := by
    intro db' hks hj hnone
    rw [hnone]
    refine ⟨(unchanged_self db now).of_eq rfl rfl hks hj, ?_⟩
    rw [hj]
    cases db.journal <;> simp [expiryRecords]
  by_cases hgranted : Granted session request
  · rw [dispatch_of_granted hgranted] at hrefused ⊢
    cases hread : Command.read request with
    | error e =>
      have hsame := hself db.countCommand rfl rfl (evicted_of_read_error hread db now)
      simp only [execute, hread]
      exact ⟨hsame.1, fun _ => hsame.2, fun hne => absurd hsame.2 hne⟩
    | ok p =>
      obtain ⟨signature, command⟩ := p
      have hevicted : db.evicted now session request = db.keyspace.entries.elapsedAmong now command.lookups := by
        simp only [evicted, hgranted.2.2, hread]
      have hcount : db.countCommand.keyspace.Sound := h
      obtain ⟨hunchanged, hjournal, htorn⟩ := unchanged_execute hcount hc hread (records_of_refused hc hread hrefused)
      rw [hevicted]
      exact ⟨hunchanged.of_eq rfl rfl rfl rfl, fun hne => hjournal fun hfail => hne (congrArg replyOf hfail), htorn⟩
  · obtain ⟨hks, hj⟩ := dispatch_of_not_granted hgranted db c
    have hsame := hself _ hks hj (evicted_of_not_granted hgranted db now)
    exact ⟨hsame.1, fun _ => hsame.2, fun hne => absurd hsame.2 hne⟩

theorem unchanged_of_refused_of_exists :
    let set (now : Int) (request : Request) : Int × Event := (now, .request (.start none) request)
    let db := ((fresh "log" none).course [set 1000 ["SET", "a", "1", "PX", "100"],
      set 1000 ["SET", "b", "2", "PX", "50"], set 1000 ["SET", "c", "x"]]).database
    let full : Database :=
      { db with journal := db.journal.map fun j => { j with limit := some (j.contents.length + 25) } }
    let exist (db : Database) := db.dispatch (.standing 2000) (.start none) ["EXISTS", "b", "c", "a", "b"]
    let push := db.dispatch (.standing 2000) (.start none) ["LPUSH", "c", "y"]
    ((exist db).result.1 = .integer 1 ∧ db.Unchanged 2000 ["b", "a"] (exist db).database ∧
      (exist db).database.journal = db.journal.map (·.extended [["DEL", "b"], ["DEL", "a"]])) ∧
    (push.result.1 = .error CommandError.typeMismatch.message ∧ db.Unchanged 2000 [] push.database ∧
      push.database.journal = db.journal.map (·.extended [])) ∧
    (exist full).result.1 = .error CommandError.persistenceFailure.message ∧
      full.Unchanged 2000 ["b", "a"] (exist full).database ∧
      ∃ done record rest k, ([["DEL", "b"], ["DEL", "a"]] : List Request) = done ++ record :: rest ∧
        k < (Frame.encode record).length ∧ (exist full).database.journal = full.journal.map (·.torn done record k) := by
  intro set db full exist push
  have hsound : db.keyspace.Sound :=
    sound_dispatch (sound_dispatch (sound_dispatch Keyspace.sound_empty _ _ _) _ _ _) _ _ _
  have hfull : full.keyspace.Sound := hsound
  have hc := Clock.stands_standing 2000
  have hexist : (exist db).result.1 = .integer 1 := by decide +kernel
  have hpush : push.result.1 = .error CommandError.typeMismatch.message := by decide +kernel
  have hfailed : (exist full).result.1 = .error CommandError.persistenceFailure.message := by decide +kernel
  have hshort : (exist full).database.journal ≠ full.journal.map (·.extended (expiryRecords ["b", "a"])) := by
    decide +kernel
  have hevicted : db.evicted 2000 (.start none) ["EXISTS", "b", "c", "a", "b"] = [("b" : Bytes), ("a" : Bytes)] := by
    decide +kernel
  have hsame : full.evicted 2000 (.start none) ["EXISTS", "b", "c", "a", "b"] = [("b" : Bytes), ("a" : Bytes)] :=
    hevicted
  have hnone : db.evicted 2000 (.start none) ["LPUSH", "c", "y"] = [] := by decide +kernel
  have h₁ := unchanged_of_refused hsound hc (.start none) ["EXISTS", "b", "c", "a", "b"] (.inl (by decide))
  have h₂ := unchanged_of_refused hsound hc (.start none) ["LPUSH", "c", "y"]
    (.inr ⟨congrArg Reply.isError hpush, fun h => absurd (hpush.symm.trans h) (by decide +kernel)⟩)
  have h₃ := unchanged_of_refused hfull hc (.start none) ["EXISTS", "b", "c", "a", "b"] (.inl (by decide))
  simp only [hevicted] at h₁
  simp only [hnone] at h₂
  simp only [hsame] at h₃
  exact ⟨⟨hexist, h₁.1, h₁.2.1 fun h => absurd (hexist.symm.trans h) (by decide +kernel)⟩,
    ⟨hpush, h₂.1, h₂.2.1 fun h => absurd (hpush.symm.trans h) (by decide +kernel)⟩, hfailed, h₃.1, h₃.2.2 hshort⟩

end Database
end KeyStore
