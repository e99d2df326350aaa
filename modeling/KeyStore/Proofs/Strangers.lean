import KeyStore.Proofs.Courses
import KeyStore.Proofs.Reads

/-!
# Clients without the password

A client that never sends the password gets the same answers whatever the database holds and whatever time it is,
and leaves nothing behind but the count of what it tried (`Connection.indistinguishable_of_stranger`). Each step of
such a connection is an exchange that is fixed before a database is looked at (`Exchange.served`).
-/

namespace KeyStore

namespace Session

theorem difference_eq_zero {s t : Bytes} (h : s.length = t.length) (d : UInt8) :
    difference d s t = 0 ↔ d = 0 ∧ s = t := by
  induction s generalizing t d with
  | nil =>
    obtain rfl := List.length_eq_zero_iff.1 h.symm
    simp [difference]
  | cons a s ih =>
    cases t with
    | nil => cases h
    | cons b t =>
      rw [difference, ih (Nat.succ.inj h), UInt8.or_eq_zero_iff, UInt8.xor_eq_zero_iff, List.cons.injEq, and_assoc]

theorem sameSecret_iff (s t : Bytes) : sameSecret s t = true ↔ s = t := by
  rw [sameSecret, Bool.and_eq_true, decide_eq_true_eq, decide_eq_true_eq]
  constructor
  · rintro ⟨hlen, hdiff⟩
    exact ((difference_eq_zero hlen 0).1 hdiff).2
  · rintro rfl
    exact ⟨rfl, (difference_eq_zero rfl 0).2 ⟨rfl, rfl⟩⟩

/-- The request is an attempt at the password that succeeds. -/
def Gives (secret : Bytes) (request : Request) : Prop :=
  Command.nameOf request = "auth" ∧ request.tail = [secret]

instance (secret : Bytes) (request : Request) : Decidable (Gives secret request) :=
  inferInstanceAs (Decidable (_ ∧ _))

/-- The session of a client that has not given the password. -/
structure Stranger (secret : Bytes) (s : Session) : Prop where
  secret_eq : s.secret = some secret
  access_ne : s.access ≠ .authenticated

variable {secret : Bytes} {s : Session}

theorem stranger_start (secret : Bytes) : Stranger secret (start (some secret)) := ⟨rfl, by simp [start]⟩

theorem Stranger.isAuthenticated (h : Stranger secret s) : s.isAuthenticated = false :=
  decide_eq_false h.access_ne

theorem Stranger.authenticate (h : Stranger secret s) {attempt : Bytes} (hne : attempt ≠ secret) :
    Stranger secret (s.authenticate attempt).2 := by
  refine ⟨(authenticate_secret s attempt).trans h.secret_eq, ?_⟩
  have hdiff : ¬ sameSecret attempt secret = true := fun hsame => hne ((sameSecret_iff _ _).1 hsame)
  simp only [Session.authenticate, h.secret_eq, if_neg hdiff]
  split
  · exact h.access_ne
  · simp only
    split
    · exact h.access_ne
    · simp

end Session

theorem Connection.requests_subset_of_waiting {k : Connection} {s : Bytes} (h : (k.serveAll s).progress = .waiting)
    (more : Bytes) :
    Incoming.requests ((k.serveAll s).connection.buffer ++ more) ⊆ Incoming.requests (s ++ more) := by
  refine of_waiting (P := fun t => Incoming.requests t ⊆ Incoming.requests (s ++ more)) h
    (fun t dialect request rest hread ht => ?_) (List.Subset.refl _)
  rw [Incoming.requests_of_request hread] at ht
  exact (List.cons_subset.1 ht).2

def Database.counted (db : Database) (commands lockouts : Nat) : Database :=
  { db with info := { db.info with commands := db.info.commands + commands, lockouts := db.info.lockouts + lockouts } }

theorem Database.commands_counted (db : Database) (n m : Nat) :
    (db.counted n m).info.commands = db.info.commands + n := rfl

theorem Database.lockouts_counted (db : Database) (n m : Nat) :
    (db.counted n m).info.lockouts = db.info.lockouts + m := rfl

theorem Database.counted_counted (db : Database) (n m n' m' : Nat) :
    (db.counted n m).counted n' m' = db.counted (n + n') (m + m') := by
  simp only [counted, Nat.add_assoc]

/-- What serving a client for a while comes to when neither the database nor the clock has a say in it. -/
structure Exchange where
  session : Session
  buffer : Bytes
  out : Bytes := []
  notices : List Notice := []
  progress : Progress
  commands : Nat := 0
  lockouts : Nat := 0

namespace Exchange

def served (e : Exchange) (db : Database) (c : Clock) : Served :=
  ⟨⟨db.counted e.commands e.lockouts, c, e.session, e.buffer⟩, e.out, e.notices, e.progress⟩

def andThen (e f : Exchange) : Exchange :=
  { f with
    out := e.out ++ f.out
    notices := e.notices ++ f.notices
    commands := e.commands + f.commands
    lockouts := e.lockouts + f.lockouts }

theorem served_andThen (e f : Exchange) (db : Database) (c : Clock) :
    (e.served db c).andThen (f.served (db.counted e.commands e.lockouts) c) = (e.andThen f).served db c := by
  simp only [served, Served.andThen, andThen, Database.counted_counted]

end Exchange

open Session Exchange

variable {secret : Bytes} {session : Session}

/-- A request that does not give the password is answered the same by every database, which counts it. -/
theorem Database.exists_dispatch_of_stranger (h : Stranger secret session) {request : Request}
    (hne : ¬ Gives secret request) :
    ∃ reply session' commands lockouts, Stranger secret session' ∧ ∀ (db : Database) (c : Clock),
      db.dispatch c session request = ⟨(reply, session'), db.counted commands lockouts, c, []⟩ := by
  cases request with
  | nil => exact ⟨_, session, 0, 0, h, fun db c => rfl⟩
  | cons name operands =>
    by_cases hauth : Command.nameOf (name :: operands) = "auth"
    · -- an attempt is counted, and once more if it locks the session
      match operands with
      | [attempt] =>
        have hwrong : attempt ≠ secret := fun hgiven => hne ⟨hauth, congrArg (fun s => [s]) hgiven⟩
        refine ⟨(session.authenticate attempt).1, (session.authenticate attempt).2, 1,
          if (session.authenticate attempt).2.isLocked then 1 else 0, h.authenticate hwrong, fun db c => ?_⟩
        simp only [dispatch, if_pos hauth]
        split <;> rfl
      | [] | _ :: _ :: _ =>
        exact ⟨_, session, 1, 0, h, fun db c => by simp only [dispatch, if_pos hauth]; rfl⟩
    · refine ⟨.error CommandError.authRequired.message, session, 1, 0, h, fun db c => ?_⟩
      simp only [dispatch, if_neg hauth, h.isAuthenticated]
      rfl

namespace Connection

theorem exists_treat_of_stranger (h : Stranger secret session) (dialect : Dialect) {request : Request}
    (hne : ¬ Gives secret request) :
    ∃ e : Exchange, Stranger secret e.session ∧ ∀ (db : Database) (c : Clock) (buffer : Bytes),
      treat ⟨db, c, session, buffer⟩ dialect request = { e with buffer }.served db c := by
  obtain ⟨reply, session', commands, lockouts, hstranger, hdispatch⟩ := Database.exists_dispatch_of_stranger h hne
  simp only [treat, answer, hdispatch]
  by_cases hempty : request.isEmpty
  · refine ⟨⟨session, [], [], [], .handled, 0, 0⟩, h, fun db c buffer => ?_⟩
    rw [if_pos hempty]
    rfl
  by_cases hquit : isQuit request
  · refine ⟨⟨session, [], dialect.goodbye, [], .closed, 0, 0⟩, h, fun db c buffer => ?_⟩
    rw [if_neg hempty, if_pos hquit]
    rfl
  by_cases hlocked : session'.isLocked
  · refine ⟨⟨session', [], dialect.render reply, [lockoutNotice], .closed, commands, lockouts⟩, hstranger,
      fun db c buffer => ?_⟩
    rw [if_neg hempty, if_neg hquit, if_pos hlocked]
    rfl
  · refine ⟨⟨session', [], dialect.render reply, [], .handled, commands, lockouts⟩, hstranger, fun db c buffer => ?_⟩
    rw [if_neg hempty, if_neg hquit, if_neg hlocked]
    rfl

theorem exists_serveAll_of_stranger {s : Bytes} (h : Stranger secret session)
    (hne : ∀ request ∈ Incoming.requests s, ¬ Gives secret request) :
    ∃ e : Exchange, Stranger secret e.session ∧ ∀ (db : Database) (c : Clock) (buffer : Bytes),
      serveAll ⟨db, c, session, buffer⟩ s = e.served db c := by
  induction s using Incoming.induction generalizing session with
  | incomplete s hread =>
    exact ⟨⟨session, s, [], [], .waiting, 0, 0⟩, h, fun db c buffer => serveAll_of_incomplete hread⟩
  | malformed s hread =>
    exact ⟨⟨session, s, protocolError, [], .closed, 0, 0⟩, h, fun db c buffer => serveAll_of_malformed hread⟩
  | request s dialect request rest hread ih =>
    rw [Incoming.requests_of_request hread, List.forall_mem_cons] at hne
    obtain ⟨e, hstranger, htreat⟩ := exists_treat_of_stranger h dialect hne.1
    by_cases hhandled : e.progress = .handled
    · obtain ⟨f, hf, hrest⟩ := ih hstranger hne.2
      refine ⟨e.andThen f, hf, fun db c buffer => ?_⟩
      rw [serveAll_of_request hread]
      simp only [htreat]
      exact (if_pos hhandled).trans ((congrArg _ (hrest _ _ _)).trans (served_andThen _ _ _ _))
    · refine ⟨{ e with buffer := rest }, hstranger, fun db c buffer => ?_⟩
      rw [serveAll_of_request hread]
      simp only [htreat]
      exact if_neg hhandled

theorem exists_receive_of_stranger {buffer bytes : Bytes} (h : Stranger secret session)
    (hne : ∀ request ∈ Incoming.requests (buffer ++ bytes), ¬ Gives secret request) :
    ∃ e : Exchange, Stranger secret e.session ∧ ∀ (db : Database) (c : Clock),
      receive ⟨db, c, session, buffer⟩ bytes = e.served db c := by
  obtain ⟨e, hstranger, hserve⟩ := exists_serveAll_of_stranger h hne
  by_cases hlarge : e.progress = .waiting ∧ requestLimit < e.buffer.length
  · refine ⟨{ e with out := e.out ++ tooLarge, progress := .closed }, hstranger, fun db c => ?_⟩
    rw [receive_eq]
    simp only [hserve]
    exact if_pos hlarge
  · refine ⟨e, hstranger, fun db c => ?_⟩
    rw [receive_eq]
    simp only [hserve]
    exact if_neg hlarge

theorem exists_serve_of_stranger {reads : List Bytes} (h : Stranger secret session) (buffer : Bytes)
    (hne : ∀ request ∈ Incoming.requests (buffer ++ reads.flatten), ¬ Gives secret request) :
    ∃ e : Exchange, Stranger secret e.session ∧ ∀ (db : Database) (c : Clock),
      serve ⟨db, c, session, buffer⟩ reads = e.served db c := by
  induction reads generalizing session buffer with
  | nil => exact ⟨⟨session, buffer, [], [], .closed, 0, 0⟩, h, fun db c => rfl⟩
  | cons bytes reads ih =>
    rw [List.flatten_cons, ← List.append_assoc] at hne
    have hfront : ∀ request ∈ Incoming.requests (buffer ++ bytes), ¬ Gives secret request := fun request hmem =>
      hne request (Incoming.requests_subset_append _ _ hmem)
    obtain ⟨e, hstranger, hreceive⟩ := exists_receive_of_stranger h hfront
    have hprogress : ∀ db c, (receive ⟨db, c, session, buffer⟩ bytes).progress = e.progress := fun db c =>
      congrArg Served.progress (hreceive db c)
    cases hp : e.progress with
    | waiting =>
      -- what waits is seen in front of any one database
      have hrest : ∀ request ∈ Incoming.requests (e.buffer ++ reads.flatten), ¬ Gives secret request := by
        have hwait := (hprogress {} (.standing 0)).trans hp
        have hall := (receive_of_waiting hwait).symm.trans (hreceive {} (.standing 0))
        rw [receive_of_waiting hwait] at hwait
        have hsub := requests_subset_of_waiting hwait reads.flatten
        rw [hall] at hsub
        exact fun request hmem => hne request (hsub hmem)
      obtain ⟨f, hf, hserve⟩ := ih hstranger e.buffer hrest
      refine ⟨e.andThen f, hf, fun db c => ?_⟩
      rw [serve_of_waiting ((hprogress db c).trans hp), hreceive, ← served_andThen]
      exact congrArg _ (hserve _ _)
    | handled => exact absurd ((hprogress {} (.standing 0)).trans hp) (progress_receive_ne _ _)
    | closed =>
      exact ⟨e, hstranger, fun db c => (serve_of_closed ((hprogress db c).trans hp) reads).trans (hreceive db c)⟩

/-- As long as no request of a client is an attempt with the configured password, in any two databases and at any
times it gets the same replies to its reads, causes the same notices, and leaves both databases as they were but for
the same numbers of requests and lockouts counted. -/
theorem indistinguishable_of_stranger (secret : Bytes) {reads : List Bytes}
    (h : ∀ request ∈ Incoming.requests reads.flatten, ¬ Gives secret request) (db₁ db₂ : Database) (c₁ c₂ : Clock) :
    let s₁ := serve ⟨db₁, c₁, .start (some secret), []⟩ reads
    let s₂ := serve ⟨db₂, c₂, .start (some secret), []⟩ reads
    (s₁.out = s₂.out ∧ s₁.notices = s₂.notices ∧ s₁.progress = s₂.progress) ∧
    (s₁.connection.session = s₂.connection.session ∧ s₁.connection.session.isAuthenticated = false) ∧
    (s₁.connection.clock = c₁ ∧ s₂.connection.clock = c₂) ∧
    ∃ commands lockouts, s₁.connection.database = db₁.counted commands lockouts ∧
      s₂.connection.database = db₂.counted commands lockouts := by
  obtain ⟨e, hstranger, hserve⟩ := exists_serve_of_stranger (stranger_start secret) [] h
  simp only [hserve]
  exact ⟨⟨rfl, rfl, rfl⟩, ⟨rfl, hstranger.isAuthenticated⟩, ⟨rfl, rfl⟩, e.commands, e.lockouts, rfl, rfl⟩

/-- A client that asks for a key, tries three passwords in both dialects and asks again; one database holds the key,
past its deadline, and the other is empty. -/
theorem indistinguishable_of_stranger_of_lockout :
    let db₁ := ((Database.fresh "log" none).dispatch (.standing 1000) (.start none)
      ["SET", "k", "v", "PX", "100"]).database
    let db₂ : Database := {}
    let reads : List Bytes := ["GET k\nau", "th x\n*2\r", "\n$4\r\nAUTH\r\n$5\r\npass \r\nINFO\nAUTH\n\nAUTH y\nGET k\n"]
    let s₁ := serve ⟨db₁, .standing 2000, .start (some "pass"), []⟩ reads
    let s₂ := serve ⟨db₂, .ticking 7 1, .start (some "pass"), []⟩ reads
    s₁.out = s₂.out ∧ s₁.connection.database = db₁.counted 6 1 ∧ s₂.connection.database = db₂.counted 6 1 := by
  intro db₁ db₂ reads s₁ s₂
  have hnone : ∀ request ∈ Incoming.requests reads.flatten, ¬ Gives "pass" request := by decide +kernel
  obtain ⟨⟨hout, _⟩, _, _, commands, lockouts, h₁, h₂⟩ :=
    indistinguishable_of_stranger "pass" hnone db₁ db₂ (.standing 2000) (.ticking 7 1)
  have hcommands : s₂.connection.database.info.commands = 6 := by decide +kernel
  have hlockouts : s₂.connection.database.info.lockouts = 1 := by decide +kernel
  have h₂ : s₂.connection.database = db₂.counted commands lockouts := h₂
  rw [h₂] at hcommands hlockouts
  rw [Database.commands_counted, show db₂.info.commands = 0 from rfl, Nat.zero_add] at hcommands
  rw [Database.lockouts_counted, show db₂.info.lockouts = 0 from rfl, Nat.zero_add] at hlockouts
  subst hcommands hlockouts
  exact ⟨hout, h₁, h₂⟩

end Connection
end KeyStore
