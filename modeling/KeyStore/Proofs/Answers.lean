import KeyStore.Proofs.Meanings
import KeyStore.Proofs.Refusals

/-!
# What a request answers and leaves

A request that means a command gets the answer of that command, unless the log could not be told of it
(`Outcome.Replies`). What is visible at a key afterwards depends on the command and on what was visible at that key
before (`Command.leaves`). Other requests leave the keyspace as it is.
-/

namespace KeyStore

/-- The reply to a request is this one, or tells that the records of the request could not be appended. -/
def Outcome.Replies (o : Outcome (Reply × Session)) (reply : Reply) : Prop :=
  o.result.1 = reply ∨ o.notices ≠ [] ∧ o.result.1 = .error CommandError.persistenceFailure.message

theorem Outcome.Replies.eq {o : Outcome (Reply × Session)} {reply : Reply} (h : o.Replies reply) (hn : o.notices = []) :
    o.result.1 = reply :=
  h.resolve_right fun hfail => hfail.1 hn

def Command.leaves (request : Request) (now : Int) (command : Command) (key : Bytes) (x : Option Entry) :
    Option Entry :=
  match command.action? request now false, command with
  | some (k, act), _ => if key = k then (act x).2 else x
  | none, .flush => none
  | none, .delete names => if key ∈ names then none else x
  | none, _ => x

namespace Keyspace

variable {ks : Keyspace} {now : Int} {c : Clock}

theorem filter_find?_visible (ks : Keyspace) (now : Int) (key : Bytes) :
    ((ks.visible now).find? key).filter (!·.hasElapsed now) = (ks.visible now).find? key := by
  rw [find?_visible, Option.filter_filter]
  simp

theorem find?_visible_run (hl : ks.loading = false) (hc : c.Stands now) (report : Keyspace → Bytes) (request : Request)
    (command : Command) (key : Bytes) :
    ((command.run report request ks c).keyspace.visible now).find? key =
      (command.leaves request now key ((ks.visible now).find? key)).filter (!·.hasElapsed now) := by
  cases hact : command.action? request now false with
  | some p =>
    obtain ⟨k, act⟩ := p
    have hleaves := (ks.does_run hc report (hl ▸ hact)).2
    rw [hleaves.visible, Table.find?_put, look_of_not_loading hl]
    simp only [Command.leaves, hact]
    split
    · next hk => rw [hk]
    · rw [filter_find?_visible]
  | none =>
    have hsame : (command.leaves request now key ((ks.visible now).find? key) = (ks.visible now).find? key) →
        (command.run report request ks c).keyspace.visible now = ks.visible now →
        ((command.run report request ks c).keyspace.visible now).find? key =
          (command.leaves request now key ((ks.visible now).find? key)).filter (!·.hasElapsed now) := by
      intro hleaves hvisible
      rw [hleaves, filter_find?_visible, hvisible]
    cases command with
    | ping message => cases message <;> exact hsame rfl rfl
    | echo message => exact hsame rfl rfl
    | info => exact hsame rfl rfl
    | count => exact hsame rfl rfl
    | keys pattern => exact hsame rfl rfl
    | flush =>
      simp only [Command.run, Command.leaves, hact]
      split
      · next hzero => rw [visible_eq_empty_of_size_eq_zero hzero]; rfl
      · rfl
    | exist names =>
      refine hsame rfl ?_
      obtain ⟨evicted, hturns⟩ := Command.exists_turns_countAll ks hc 0 names
      simp only [Command.run]
      rw [visible, hturns.entries]
      exact visible_eraseAll fun k hk => (hturns.elapsed k hk).2
    | delete names =>
      obtain ⟨evicted, h⟩ := Command.exists_deletes ks hc names
      simp only [Command.run, Command.leaves, hact]
      rw [find?_visible]
      split
      · next hk => rw [h.gone key hk]
      · next hk =>
        have hresult : key ∉ (Command.deleteAll ks c names).result := fun hmem => hk (h.sublist.subset hmem)
        rw [h.turns.entries, Table.find?_eraseAll, if_neg hresult, filter_find?_visible, ← Table.find?_filter,
          visible_eraseAll fun k hk => (h.turns.elapsed k hk).2]
    | _ => cases hact

end Keyspace

namespace Database

variable {db : Database} {now : Int} {c : Clock} {session : Session} {request : Request} {command : Command}

theorem exists_means_or_not (session : Session) (request : Request) :
    (∃ command, session.isAuthenticated = true ∧ Command.Means (Command.nameOf request) request.tail command) ∨
      ∀ command, session.isAuthenticated = true → ¬ Command.Means (Command.nameOf request) request.tail command := by
  by_cases h : ∃ command, session.isAuthenticated = true ∧ Command.Means (Command.nameOf request) request.tail command
  · exact .inl h
  · exact .inr fun command hs hm => h ⟨command, hs, hm⟩

theorem granted_of_means (hs : session.isAuthenticated = true)
    (h : Command.Means (Command.nameOf request) request.tail command) : Granted session request := by
  obtain ⟨signature, hsignature, _⟩ := h.exists_form
  refine ⟨?_, ?_, hs⟩
  · rintro rfl
    cases hsignature
  · intro hauth
    rw [hauth] at hsignature
    cases hsignature

theorem dispatch_of_means (hs : session.isAuthenticated = true)
    (h : Command.Means (Command.nameOf request) request.tail command) (db : Database) (c : Clock) :
    let a := command.run db.countCommand.report request db.keyspace c
    let o := db.dispatch c session request
    o.Replies (replyOf (a.result.map (·.reply))) ∧ o.result.2 = session ∧
      o.database.keyspace = a.keyspace.takeExpired.2 := by
  obtain ⟨signature, hread⟩ := Command.read_eq_ok_iff.2 h
  rw [dispatch_of_granted (granted_of_means hs h), execute_live hread]
  refine ⟨?_, rfl, by rw [keyspace_log]; rfl⟩
  simp only [Outcome.Replies]
  split
  · exact .inl rfl
  · next hlog =>
    refine .inr ⟨fun hnil => hlog ?_, rfl⟩
    rw [log_of_notices_eq_nil hnil]

theorem log_nil (db : Database) : db.log [] = (true, db, []) := by
  obtain ⟨ks, info, journal⟩ := db
  cases journal <;> rfl

/-- Where a command finds nothing past its deadline and has no records, nothing is written to the log. -/
theorem dispatch_of_records_eq_nil (hs : session.isAuthenticated = true)
    (h : Command.Means (Command.nameOf request) request.tail command)
    (hun : (command.run db.countCommand.report request db.keyspace c).keyspace.unlogged = [])
    (hrec : recordsOf (command.run db.countCommand.report request db.keyspace c).result = []) :
    let a := command.run db.countCommand.report request db.keyspace c
    let o := db.dispatch c session request
    o.result.1 = replyOf (a.result.map (·.reply)) ∧ o.database.journal = db.journal ∧ o.notices = [] := by
  obtain ⟨signature, hread⟩ := Command.read_eq_ok_iff.2 h
  rw [dispatch_of_granted (granted_of_means hs h), execute_live hread]
  have hrec' : recordsOf (command.run db.countCommand.report request db.countCommand.keyspace c).result = [] := hrec
  have hun' : (command.run db.countCommand.report request db.countCommand.keyspace c).keyspace.unlogged = [] := hun
  simp only [hun', hrec', expiryRecords, List.map_nil, List.nil_append, log_nil]
  exact ⟨rfl, rfl, trivial⟩

theorem dispatch_of_read_eq_error (hgranted : Granted session request) {e : CommandError}
    (hread : Command.read request = .error e) (db : Database) (c : Clock) :
    (db.dispatch c session request).result = (.error e.message, session) ∧
      (db.dispatch c session request).database.keyspace = db.keyspace := by
  rw [dispatch_of_granted hgranted]
  simp only [execute, hread]
  exact ⟨rfl, rfl⟩

theorem keyspace_dispatch_of_not_means
    (h : ∀ command, session.isAuthenticated = true → ¬ Command.Means (Command.nameOf request) request.tail command)
    (db : Database) (c : Clock) : (db.dispatch c session request).database.keyspace = db.keyspace := by
  by_cases hgranted : Granted session request
  · cases hread : Command.read request with
    | error e => exact (dispatch_of_read_eq_error hgranted hread db c).2
    | ok p =>
      obtain ⟨signature, command⟩ := p
      exact absurd (Command.read_eq_ok_iff.1 ⟨signature, hread⟩) (h command hgranted.2.2)
  · exact (dispatch_of_not_granted hgranted db c).1

theorem exists_result_of_not_means
    (h : ∀ command, session.isAuthenticated = true → ¬ Command.Means (Command.nameOf request) request.tail command) :
    ∃ result : Reply × Session, (∀ db c, (Database.dispatch db c session request).result = result) ∧
      (Command.nameOf request ≠ "auth" → result.1.isError = true) := by
  by_cases hgranted : Granted session request
  · cases hread : Command.read request with
    | error e => exact ⟨_, fun db c => (dispatch_of_read_eq_error hgranted hread db c).1, fun _ => rfl⟩
    | ok p =>
      obtain ⟨signature, command⟩ := p
      exact absurd (Command.read_eq_ok_iff.1 ⟨signature, hread⟩) (h command hgranted.2.2)
  · refine ⟨(Database.dispatch {} (.standing 0) session request).result, fun db c => ?_, fun hauth => ?_⟩
    · cases request with
      | nil => rfl
      | cons name operands =>
        simp only [dispatch]
        split
        · split <;> rfl
        · next hauth =>
          split
          · next hs => exact absurd ⟨List.cons_ne_nil _ _, hauth, hs⟩ hgranted
          · rfl
    · cases request with
      | nil => rfl
      | cons name operands =>
        simp only [dispatch, if_neg hauth]
        split
        · next hs => exact absurd ⟨List.cons_ne_nil _ _, hauth, hs⟩ hgranted
        · rfl

theorem find?_visible_dispatch (hl : db.keyspace.loading = false) (hc : c.Stands now)
    (hs : session.isAuthenticated = true)
    (h : Command.Means (Command.nameOf request) request.tail command) (key : Bytes) :
    ((db.dispatch c session request).database.keyspace.visible now).find? key =
      (command.leaves request now key ((db.keyspace.visible now).find? key)).filter (!·.hasElapsed now) := by
  rw [(dispatch_of_means hs h db c).2.2]
  exact Keyspace.find?_visible_run hl hc db.countCommand.report request command key

/-- A request about one key answers and leaves there what its action does with the visible entry. -/
theorem dispatch_of_action (hl : db.keyspace.loading = false) (hc : c.Stands now) (hs : session.isAuthenticated = true)
    (h : Command.Means (Command.nameOf request) request.tail command) {key : Bytes}
    {act : Action (Except CommandError Answer)} (hact : command.action? request now false = some (key, act)) :
    let o := db.dispatch c session request
    let x := (db.keyspace.visible now).find? key
    o.Replies (replyOf ((act x).1.map (·.reply))) ∧
      (o.database.keyspace.visible now).find? key = (act x).2.filter (!·.hasElapsed now) := by
  constructor
  · have hres := (db.keyspace.does_run hc db.countCommand.report (hl ▸ hact)).1
    rw [Keyspace.look_of_not_loading hl] at hres
    rw [← hres]
    exact (dispatch_of_means hs h db c).1
  · rw [find?_visible_dispatch hl hc hs h]
    simp only [Command.leaves, hact, if_true]

theorem of_find?_visible_dispatch (hl : db.keyspace.loading = false) (hc : c.Stands now) {key : Bytes} {e : Entry}
    (he : ((db.dispatch c session request).database.keyspace.visible now).find? key = some e) :
    (db.keyspace.visible now).find? key = some e ∨
      ∃ command act, session.isAuthenticated = true ∧ Command.Means (Command.nameOf request) request.tail command ∧
        command.action? request now false = some (key, act) ∧
        (act ((db.keyspace.visible now).find? key)).2 = some e := by
  obtain ⟨command, hs, hmeans⟩ | hnone := exists_means_or_not session request
  · rw [find?_visible_dispatch hl hc hs hmeans] at he
    have hleaves := (Option.filter_eq_some_iff.1 he).1
    unfold Command.leaves at hleaves
    split at hleaves
    · next k act hact =>
      split at hleaves
      · next hk => exact .inr ⟨_, act, hs, hmeans, hk ▸ hact, hleaves⟩
      · exact .inl hleaves
    · cases hleaves
    · split at hleaves
      · cases hleaves
      · exact .inl hleaves
    · exact .inl hleaves
  · rw [keyspace_dispatch_of_not_means hnone] at he
    exact .inl he

variable {key : Bytes} {query : Query}

def valueAt (db : Database) (now : Int) (key : Bytes) : Option Value :=
  ((db.keyspace.visible now).find? key).map (·.value)

theorem result_run_ask (h : db.keyspace.Sound) (c : Clock) (report : Keyspace → Bytes) (request : Request) (key : Bytes)
    (query : Query) : ((Command.ask key query).run report request db.keyspace c).result =
      (query.answer (db.valueAt c.now key)).map ({ reply := · }) := by
  simp only [Command.run, Keyspace.get, Keyspace.result_live h.loading, valueAt, Keyspace.find?_visible]

/-- A request is answered so: the command replies this, and so does the database, unless the key was past its deadline
and the log could not be told so. -/
structure Answers (db : Database) (c : Clock) (session : Session) (request : Request) (key : Bytes) (query : Query)
    (reply : Reply) : Prop where
  command : ∀ report, ((Command.ask key query).run report request db.keyspace c).result = .ok { reply }
  replies : (db.dispatch c session request).Replies reply
  visible : db.valueAt c.now key ≠ none → (db.dispatch c session request).result.1 = reply

theorem answers_of_means (h : db.keyspace.Sound) (hs : session.isAuthenticated = true)
    (hmeans : Command.Means (Command.nameOf request) request.tail (.ask key query)) (c : Clock) {reply : Reply}
    (hanswer : query.answer (db.valueAt c.now key) = .ok reply) : db.Answers c session request key query reply := by
  have hresult : ∀ report, ((Command.ask key query).run report request db.keyspace c).result = .ok { reply } := by
    intro report
    rw [result_run_ask h, hanswer]
    rfl
  refine ⟨hresult, ?_, fun hvisible => ?_⟩
  · have hreplies := (dispatch_of_means hs hmeans db c).1
    rw [hresult] at hreplies
    exact hreplies
  · -- a key that is visible is not past its deadline, so that there is nothing to log
    have hlive : (db.keyspace.live c key).keyspace = db.keyspace := by
      obtain ⟨v, hv⟩ := Option.ne_none_iff_exists'.1 hvisible
      obtain ⟨e, he, _⟩ := Option.map_eq_some_iff.1 hv
      rw [Keyspace.find?_visible, ← Keyspace.result_live h.loading] at he
      exact Keyspace.keyspace_live_of_eq_some he
    have hunlogged :
        ((Command.ask key query).run db.countCommand.report request db.keyspace c).keyspace.unlogged = [] :=
      (congrArg (·.unlogged) hlive).trans h.unlogged
    have hrecords :
        recordsOf ((Command.ask key query).run db.countCommand.report request db.keyspace c).result = [] := by
      rw [hresult]
      rfl
    rw [(dispatch_of_records_eq_nil hs hmeans hunlogged hrecords).1, hresult]
    rfl

end Database
end KeyStore
