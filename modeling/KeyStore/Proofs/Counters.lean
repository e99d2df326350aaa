import KeyStore.Proofs.Answers
import KeyStore.Proofs.Expiry
import KeyStore.Proofs.Stored
import Mathlib.Algebra.Ring.Int.Defs
import Mathlib.Data.List.Forall2
import Mathlib.Order.Interval.Set.Basic

/-!
# Counters

Requests that add to the integer at a key, between others that leave the key alone. None is lost and none is counted
twice, in whatever order they come: the text at the key is that of the first integer with all that was accepted added
to it, and what is accepted depends on the exact sum alone (`Database.counter_exact`). That the log cannot be told of
an update changes its reply, and not what it counts (`Database.update_counts_unlogged`).
-/

namespace KeyStore

inductive Update where
  | incr
  | decr
  | incrby (amount : Bytes)
  | decrby (amount : Bytes)
  deriving DecidableEq

namespace Update

def name : Update → Bytes
  | incr => "incr"
  | decr => "decr"
  | incrby _ => "incrby"
  | decrby _ => "decrby"

def operands : Update → List Bytes
  | incr | decr => []
  | incrby amount | decrby amount => [amount]

def delta? : Update → Option Int
  | incr => some 1
  | decr => some (-1)
  | incrby amount => Numeral.readInt amount
  | decrby amount => (Numeral.readInt amount).bind fun n => if n = minInt64 then none else some (-n)

def Spells (key : Bytes) (u : Update) (request : Request) : Prop :=
  Command.nameOf request = u.name ∧ request.tail = key :: u.operands

variable {u : Update} {key : Bytes} {request : Request}

theorem means_of_delta? (h : u.Spells key request) {d : Int} (hd : u.delta? = some d) :
    Command.Means (Command.nameOf request) request.tail (.increment key d) := by
  rw [h.1, h.2]
  refine .increment key ?_
  cases u with
  | incr =>
    cases hd
    exact .one
  | decr =>
    cases hd
    exact .minusOne
  | incrby amount => exact .amount hd
  | decrby amount =>
    obtain ⟨n, hn, hd⟩ := Option.bind_eq_some_iff.1 hd
    split at hd
    · cases hd
    · next hmin =>
      cases hd
      exact .minusAmount hn hmin

theorem read_of_incrementing {name amount : Bytes} {readDelta : Bytes → Except CommandError Int}
    (hname : Command.signature? (Command.nameOf request) = some ⟨name, true, Command.incrementing readDelta⟩)
    (htail : request.tail = [key, amount]) (h : readDelta amount = .error .notAnInteger) :
    Command.read request = .error .notAnInteger := by
  have hform : Command.incrementing readDelta [key, amount] = some (.error .notAnInteger) := by
    simp only [Command.incrementing, Command.twoOperands, h, Except.map]
  simp only [Command.read, hname, htail, hform, Except.map]

theorem read_of_delta?_eq_none (h : u.Spells key request) (hd : u.delta? = none) :
    Command.read request = .error .notAnInteger := by
  obtain ⟨hname, htail⟩ := h
  cases u with
  | incr => cases hd
  | decr => cases hd
  | incrby amount =>
    refine read_of_incrementing (by rw [hname]; rfl) htail ?_
    have hnone : Numeral.readInt amount = none := hd
    simp only [Command.readInt, hnone]
  | decrby amount =>
    refine read_of_incrementing (by rw [hname]; rfl) htail ?_
    unfold Command.readDecrement Command.readInt
    cases hn : Numeral.readInt amount with
    | none => rfl
    | some n =>
      have hmin : n = minInt64 := by simpa [delta?, hn] using hd
      simp [hmin, bind, Except.bind]

/-- What is added by updates, one after another, to an integer: that with which the exact sum stays a 64-bit integer.
Where there is none, something else happens. -/
def accepted (n : Int) : List (Option Update) → List Int
  | [] => []
  | none :: updates => accepted n updates
  | some u :: updates =>
    match u.delta? with
    | none => accepted n updates
    | some d => if IsInt64 (n + d) then d :: accepted (n + d) updates else accepted n updates

variable {updates : List (Option Update)} {n d : Int}

theorem accepted_of_isInt64 (hd : u.delta? = some d) (hsum : IsInt64 (n + d)) :
    accepted n (some u :: updates) = d :: accepted (n + d) updates := by
  simp only [accepted, hd, if_pos hsum]

theorem accepted_of_not (h : ∀ d, u.delta? = some d → ¬ IsInt64 (n + d)) :
    accepted n (some u :: updates) = accepted n updates := by
  cases hd : u.delta? with
  | none => simp only [accepted, hd]
  | some d => simp only [accepted, hd, if_neg (h d hd)]

end Update

namespace Keyspace

/-- The entry that is visible at the key, whichever time of `T` it is. -/
def Shows (T : Set Int) (key : Bytes) (x : Option Entry) (ks : Keyspace) : Prop :=
  ∀ t ∈ T, (ks.visible t).find? key = x

variable {T : Set Int} {key : Bytes} {x : Option Entry} {ks ks' : Keyspace}

theorem Shows.filter_eq (h : ks.Shows T key x) {t : Int} (ht : t ∈ T) : x.filter (!·.hasElapsed t) = x := by
  rw [← h t ht]
  exact filter_find?_visible ks t key

theorem Shows.of_find? (h : ks.Shows T key x)
    (hfind : ks'.entries.find? key = ks.entries.find? key ∨ ks'.entries.find? key = x) : ks'.Shows T key x := by
  intro t ht
  rw [find?_visible]
  rcases hfind with hfind | hfind
  · rw [hfind, ← find?_visible]
    exact h t ht
  · rw [hfind]
    exact h.filter_eq ht

theorem Shows.replace (h : ks.Shows T key x) {value : Value}
    (hfind : ks'.entries.find? key = some ⟨value, x.bind (·.deadline)⟩) :
    ks'.Shows T key (some ⟨value, x.bind (·.deadline)⟩) := by
  intro t ht
  rw [find?_visible, hfind]
  have hkept := h.filter_eq ht
  cases x with
  | none => rfl
  | some e =>
    have hel : e.hasElapsed t = false := by
      cases hel : e.hasElapsed t with
      | false => rfl
      | true => simp [Option.filter, hel] at hkept
    have hel' : (⟨value, e.deadline⟩ : Entry).hasElapsed t = false := hel
    simp [Option.filter, hel']

end Keyspace

def Command.Spares (key : Bytes) : Command → Prop
  | flush => False
  | ask _ _ | remaining _ _ => True
  | command => key ∉ command.lookups

namespace Database

variable {T : Set Int} {key : Bytes} {x : Option Entry} {db : Database} {t : Int}

theorem shows_dispatch_of_spares (h : db.keyspace.Sound) (hx : db.keyspace.Shows T key x) (ht : t ∈ T)
    {session : Session} {request : Request}
    (hspares : ∀ command, session.isAuthenticated = true →
      Command.Means (Command.nameOf request) request.tail command → command.Spares key) :
    (db.dispatch (.standing t) session request).database.keyspace.Shows T key x := by
  obtain ⟨command, hs, hmeans⟩ | hnone := exists_means_or_not session request
  · have hks := (dispatch_of_means hs hmeans db (.standing t)).2.2
    have hspared := hspares command hs hmeans
    refine hx.of_find? ?_
    rw [hks]
    by_cases hkey : key ∈ command.lookups
    · -- only commands that ask about the key are left, and they leave what they find
      refine .inr ?_
      have hasks : ∃ act, command.action? request t false = some (key, act) ∧ ∀ y, (act y).2 = y := by
        cases command with
        | ask k query =>
          obtain rfl := List.mem_singleton.1 hkey
          exact ⟨_, rfl, fun _ => rfl⟩
        | remaining k inSeconds =>
          obtain rfl := List.mem_singleton.1 hkey
          exact ⟨_, rfl, Action.snd_remaining t⟩
        | flush => exact hspared.elim
        | _ => exact absurd hkey hspared
      obtain ⟨act, hact, hsame⟩ := hasks
      have hleaves := (db.keyspace.does_run (Clock.stands_standing t) db.countCommand.report (h.loading ▸ hact)).2
      have hfind := hleaves.find?
      rw [hsame, Keyspace.look_of_not_loading h.loading, hx t ht] at hfind
      exact hfind
    · refine .inl ?_
      have hne : command ≠ .flush := by
        rintro rfl
        exact hspared
      have htouches := Command.touches_run (fun _ => Set.mem_univ _) (command.storesIn_univ Set.univ)
        db.countCommand.report request db.keyspace (c := .standing t)
      rw [Command.reach_eq hne] at htouches
      exact htouches.others key hkey
  · rw [keyspace_dispatch_of_not_means hnone]
    exact hx

theorem shows_sweep (h : db.keyspace.Sound) (hx : db.keyspace.Shows T key x) {c : Clock} (hc : c.Shows T)
    (limit : Nat) : (db.sweep c limit).database.keyspace.Shows T key x := by
  have hswept := Keyspace.swept_removeExpired h.indexes c limit
  refine hx.of_find? ?_
  simp only [sweep, keyspace_log, Keyspace.takeExpired, hswept.entries, Table.find?_eraseAll]
  split
  · next hmem =>
    -- what is swept at a time of `T` was not visible
    obtain ⟨e, he, hel⟩ := hswept.elapsed key hmem
    have hnone := hx c.now hc.now
    rw [Keyspace.find?_visible, he] at hnone
    refine .inr (Eq.trans ?_ hnone)
    simp [Option.filter, hel]
  · exact .inl rfl

theorem shows_sweepFrom (h : db.keyspace.Sound) (hx : db.keyspace.Shows T key x) {c : Clock} (hc : c.Shows T)
    (batch total fuel : Nat) (notices : List Notice) :
    (db.sweepFrom c batch total fuel notices).database.keyspace.Shows T key x := by
  have hboth := sweepFrom_induction (P := fun ks => ks.Sound ∧ ks.Shows T key x)
    (fun _ c' hreading ⟨h, hx⟩ => ⟨sound_sweep h c' batch, shows_sweep h hx (hc.of_reading hreading) batch⟩)
    ⟨h, hx⟩ total fuel notices
  exact hboth.2

/-- An event at a time of `T`: a request to update the integer at the key, of a session that may give commands, or
something that leaves the key alone. -/
inductive Turn (T : Set Int) (key : Bytes) : Int × Event → Option Update → Prop
  | update {t : Int} (ht : t ∈ T) {session : Session} (hs : session.isAuthenticated = true) {u : Update}
      {request : Request} (h : u.Spells key request) : Turn T key (t, .request session request) (some u)
  | request {t : Int} (ht : t ∈ T) {session : Session} {request : Request}
      (h : ∀ command, session.isAuthenticated = true →
        Command.Means (Command.nameOf request) request.tail command → command.Spares key) :
      Turn T key (t, .request session request) none
  | sweep {t : Int} (ht : t ∈ T) (limit : Nat) : Turn T key (t, .sweep limit) none
  | cycle {t : Int} (ht : t ∈ T) (batch : Nat) : Turn T key (t, .cycle batch) none

theorem shows_happen_of_turn (h : db.keyspace.Sound) (hx : db.keyspace.Shows T key x) {event : Int × Event}
    (hturn : Turn T key event none) : (db.happen event.1 event.2).database.keyspace.Shows T key x := by
  cases hturn with
  | request ht hspares => exact shows_dispatch_of_spares h hx ht hspares
  | sweep ht limit => exact shows_sweep h hx (Clock.shows_standing ht) limit
  | cycle ht batch => exact shows_sweepFrom h hx (Clock.shows_standing ht) _ _ _ _

/-- The integer that counting at a key goes on from: zero where nothing is, or what a string denotes. -/
def Denotes (x : Option Entry) (n : Int) : Prop :=
  x = none ∧ n = 0 ∨ ∃ text deadline, x = some ⟨.string text, deadline⟩ ∧ Numeral.readInt text = some n

theorem Denotes.integer {n : Int} (h : Denotes x n) : Keyspace.integer (x.map (·.value)) = .ok n ∧ IsInt64 n := by
  obtain ⟨rfl, rfl⟩ | ⟨text, deadline, rfl, hread⟩ := h
  · exact ⟨rfl, by decide⟩
  · exact ⟨by simp only [Option.map_some, Keyspace.integer, hread], Numeral.isInt64_of_readInt hread⟩

theorem addInt_eq {n : Int} (hn : IsInt64 n) (d : Int) :
    Keyspace.addInt n d = if IsInt64 (n + d) then .ok (n + d) else .error .notAnInteger := by
  simp only [IsInt64] at hn
  unfold Keyspace.addInt
  split
  · next hout =>
    have hnot : ¬ IsInt64 (n + d) := by
      simp only [IsInt64]
      omega
    rw [if_neg hnot]
  · next hin =>
    have hsum : IsInt64 (n + d) := by
      simp only [IsInt64]
      omega
    rw [if_pos hsum]

theorem increment_of_denotes {n : Int} (hn : Denotes x n) (d : Int) : Action.increment d x =
    if IsInt64 (n + d) then (.ok (n + d), some ⟨.string (Numeral.ofInt (n + d)), x.bind (·.deadline)⟩)
    else (.error .notAnInteger, x) := by
  obtain ⟨hinteger, hword⟩ := hn.integer
  simp only [Action.increment, hinteger, bind, Except.bind, addInt_eq hword]
  by_cases hsum : IsInt64 (n + d)
  · simp only [if_pos hsum]
  · simp only [if_neg hsum]

theorem dispatch_of_delta? (h : db.keyspace.Sound) (hx : db.keyspace.Shows T key x) (ht : t ∈ T) {session : Session}
    (hs : session.isAuthenticated = true) {u : Update} {request : Request} (hspells : u.Spells key request) {d : Int}
    (hd : u.delta? = some d) :
    let o := db.dispatch (.standing t) session request
    o.Replies (replyOf ((Action.increment d x).1.map .integer)) ∧
      o.database.keyspace.entries.find? key = (Action.increment d x).2 := by
  have hact : (Command.increment key d).action? request t db.keyspace.loading = some (key, Action.add request d) := rfl
  obtain ⟨hresult, hleaves⟩ := db.keyspace.does_run (Clock.stands_standing t) db.countCommand.report hact
  rw [Keyspace.look_of_not_loading h.loading, hx t ht] at hresult hleaves
  obtain ⟨hreplies, _, hks⟩ := dispatch_of_means hs (Update.means_of_delta? hspells hd) db (.standing t)
  have hreply : (Action.add request d x).1.map Answer.reply = (Action.increment d x).1.map .integer := by
    simp only [Action.add]
    cases (Action.increment d x).1 <;> rfl
  rw [hresult, hreply] at hreplies
  exact ⟨hreplies, hks ▸ hleaves.find?⟩

/-- An update is accepted if the exact sum is a 64-bit integer, and then it replies the sum and leaves its text, with
the deadline that the key had. Otherwise it replies an error, and leaves what was there. -/
theorem dispatch_of_update (h : db.keyspace.Sound) (hx : db.keyspace.Shows T key x) {n : Int} (hn : Denotes x n)
    (ht : t ∈ T) {session : Session} (hs : session.isAuthenticated = true) {u : Update} {request : Request}
    (hspells : u.Spells key request) :
    let o := db.dispatch (.standing t) session request
    (∀ d, u.delta? = some d → IsInt64 (n + d) → o.Replies (.integer (n + d)) ∧
      o.database.keyspace.Shows T key (some ⟨.string (Numeral.ofInt (n + d)), x.bind (·.deadline)⟩)) ∧
    ((∀ d, u.delta? = some d → ¬ IsInt64 (n + d)) →
      o.Replies (.error CommandError.notAnInteger.message) ∧ o.database.keyspace.Shows T key x) := by
  constructor
  · intro d hd hsum
    obtain ⟨hreplies, hfind⟩ := dispatch_of_delta? h hx ht hs hspells hd
    rw [increment_of_denotes hn, if_pos hsum] at hreplies hfind
    exact ⟨hreplies, hx.replace hfind⟩
  · intro hnone
    cases hd : u.delta? with
    | none =>
      have hgranted : Granted session request := by
        refine ⟨?_, ?_, hs⟩
        · rintro rfl
          cases hspells.2
        · rw [hspells.1]
          cases u <;> simp only [Update.name] <;> decide
      obtain ⟨hresult, hks⟩ := dispatch_of_read_eq_error hgranted (Update.read_of_delta?_eq_none hspells hd) db
        (.standing t)
      exact ⟨.inl (congrArg Prod.fst hresult), hks ▸ hx⟩
    | some d =>
      obtain ⟨hreplies, hfind⟩ := dispatch_of_delta? h hx ht hs hspells hd
      rw [increment_of_denotes hn, if_neg (hnone d hd)] at hreplies hfind
      exact ⟨hreplies, hx.of_find? (.inr hfind)⟩

def tallied (x : Option Entry) (n : Int) (updates : List (Option Update)) : Option Entry :=
  if Update.accepted n updates = [] then x
  else some ⟨.string (Numeral.ofInt (n + (Update.accepted n updates).sum)), x.bind (·.deadline)⟩

theorem tallied_cons {n d : Int} {u : Update} (hd : u.delta? = some d) (hsum : IsInt64 (n + d))
    (updates : List (Option Update)) : tallied x n (some u :: updates) =
      tallied (some ⟨.string (Numeral.ofInt (n + d)), x.bind (·.deadline)⟩) (n + d) updates := by
  simp only [tallied, Update.accepted_of_isInt64 hd hsum, List.sum_cons, ← Int.add_assoc, Option.bind_some,
    reduceCtorEq, if_false]
  split
  · next hnil => simp [hnil]
  · rfl

theorem deadline_tallied (x : Option Entry) (n : Int) (updates : List (Option Update)) :
    (tallied x n updates).bind (·.deadline) = x.bind (·.deadline) := by
  unfold tallied
  split <;> rfl

theorem shows_course (h : db.keyspace.Sound) (hx : db.keyspace.Shows T key x) {n : Int} (hn : Denotes x n)
    {events : List (Int × Event)} {updates : List (Option Update)} (hturns : List.Forall₂ (Turn T key) events updates) :
    let db' := (db.course events).database
    db'.keyspace.Sound ∧ db'.keyspace.Shows T key (tallied x n updates) ∧
      Denotes (tallied x n updates) (n + (Update.accepted n updates).sum) := by
  induction hturns generalizing db x n with
  | nil => exact ⟨h, hx, by simpa [tallied, Update.accepted] using hn⟩
  | @cons event update events updates hturn hturns ih =>
    have hsound := sound_happen h event.1 event.2
    cases update with
    | none => exact ih hsound (shows_happen_of_turn h hx hturn) hn
    | some u =>
      cases hturn with
      | update ht hs hspells =>
        obtain ⟨haccept, hrefuse⟩ := dispatch_of_update h hx hn ht hs hspells
        by_cases hsum : ∃ d, u.delta? = some d ∧ IsInt64 (n + d)
        · obtain ⟨d, hd, hsum⟩ := hsum
          have hdenotes : Denotes (some ⟨.string (Numeral.ofInt (n + d)), x.bind (·.deadline)⟩) (n + d) :=
            .inr ⟨_, _, rfl, Numeral.readInt_ofInt hsum⟩
          rw [tallied_cons hd hsum, Update.accepted_of_isInt64 hd hsum, List.sum_cons, ← Int.add_assoc]
          exact ih hsound (haccept d hd hsum).2 hdenotes
        · have hnot : ∀ d, u.delta? = some d → ¬ IsInt64 (n + d) := fun d hd hs => hsum ⟨d, hd, hs⟩
          rw [tallied, Update.accepted_of_not hnot]
          exact ih hsound (hrefuse hnot).2 hn

/-- Requests to update the integer at a key, in any order and between any others that leave the key alone, while no
deadline of the key comes. After any of them the text at the key is that of the integer at the start and all that was
accepted since, and the deadline is the one at the start. A further update is accepted if the exact sum is a 64-bit
integer, and replies the sum. Otherwise it replies an error and leaves the text. Where the log cannot be told of a
request, the reply is that error instead. -/
theorem counter_exact (h : db.keyspace.Reachable) (hx : db.keyspace.Shows T key x) {n : Int} (hn : Denotes x n)
    {events : List (Int × Event)} {updates : List (Option Update)} (hturns : List.Forall₂ (Turn T key) events updates) :
    let db' := (db.course events).database
    let sum := n + (Update.accepted n updates).sum
    db'.keyspace.Shows T key (tallied x n updates) ∧
    (∀ t ∈ T, ∀ session u request, session.isAuthenticated = true → Update.Spells key u request →
      let o := db'.dispatch (.standing t) session request
      (∀ d, u.delta? = some d → IsInt64 (sum + d) → o.Replies (.integer (sum + d)) ∧
        o.database.keyspace.Shows T key (some ⟨.string (Numeral.ofInt (sum + d)), x.bind (·.deadline)⟩)) ∧
      ((∀ d, u.delta? = some d → ¬ IsInt64 (sum + d)) → o.Replies (.error CommandError.notAnInteger.message) ∧
        o.database.keyspace.Shows T key (tallied x n updates))) ∧
    (Update.accepted n updates ≠ [] → ∀ t ∈ T, ∀ session request, session.isAuthenticated = true →
      Command.Means (Command.nameOf request) request.tail (.ask key .get) →
      (db'.dispatch (.standing t) session request).result.1 = .bulk (Numeral.ofInt sum)) := by
  obtain ⟨hsound, hshows, hdenotes⟩ := shows_course h.sound hx hn hturns
  refine ⟨hshows, fun t ht session u request hs hspells => ?_, fun hsome t ht session request hs hmeans => ?_⟩
  · have hupdate := dispatch_of_update hsound hshows hdenotes ht hs hspells
    rw [deadline_tallied] at hupdate
    exact hupdate
  · have hvalue : (db.course events).database.valueAt t key =
        some (.string (Numeral.ofInt (n + (Update.accepted n updates).sum))) := by
      rw [valueAt, hshows t ht, tallied, if_neg hsome]
      rfl
    have hanswer : Query.get.answer ((db.course events).database.valueAt t key) =
        .ok (.bulk (Numeral.ofInt (n + (Update.accepted n updates).sum))) := by
      rw [hvalue]
      rfl
    exact (answers_of_means hsound hs hmeans (.standing t) hanswer).visible (by simp [Clock.now_standing, hvalue])

/-- Two clients and a text that is not in its shortest form, up to the greatest 64-bit integer. -/
theorem counter_exact_of_greatest :
    let a := Session.start none
    let db := ((fresh "log" none).course [(1000, .request a ["SET", "k", "007", "PX", "5000"])]).database
    let events : List (Int × Event) := [(1500, .request a ["INCRBY", "k", "9223372036854775799"]),
      (1200, .request a ["RPUSH", "q", "k"]), (1300, .request a ["incr", "k"]), (1400, .sweep 10),
      (1100, .request a ["DECRBY", "k", "-9223372036854775808"]), (1600, .request a ["Incr", "k"])]
    let db' := (db.course events).database
    (db'.dispatch (.standing 1700) a ["GET", "k"]).result.1 = .bulk "9223372036854775807" ∧
      (db'.dispatch (.standing 1700) a ["DECR", "k"]).Replies (.integer 9223372036854775806) := by
  intro a db events db'
  have h : db.keyspace.Reachable := .course .empty _
  have hx : db.keyspace.Shows (Set.Icc 1000 2000) "k" (some ⟨.string "007", some 6000⟩) := by
    rintro t ⟨_, ht⟩
    have hfind : db.keyspace.entries.find? "k" = some ⟨.string "007", some 6000⟩ := by decide +kernel
    rw [Keyspace.find?_visible, hfind]
    simp [Option.filter, Entry.hasElapsed]
    omega
  have hn : Denotes (some ⟨.string "007", some 6000⟩) 7 := .inr ⟨_, _, rfl, by decide⟩
  have hspares : ∀ command, Command.Means (Command.nameOf ["RPUSH", "q", "k"]) ["q", "k"] command →
      command.Spares "k" := by
    intro command hmeans
    obtain ⟨signature, hread⟩ := Command.read_eq_ok_iff.2 hmeans
    have hpush : Command.read ["RPUSH", "q", "k"] = .ok (⟨"rpush", true, _⟩, .edit "q" (.push .right ["k"])) := rfl
    cases hpush.symm.trans hread
    exact (by decide : ("k" : Bytes) ∉ [("q" : Bytes)])
  have hturns : List.Forall₂ (Turn (Set.Icc 1000 2000) "k") events [some (.incrby "9223372036854775799"), none,
      some .incr, none, some (.decrby "-9223372036854775808"), some .incr] := by
    refine .cons (.update (by decide) rfl ?_) (.cons (.request (by decide) fun command _ => hspares command)
      (.cons (.update (by decide) rfl ?_) (.cons (.sweep (by decide) 10) (.cons (.update (by decide) rfl ?_)
      (.cons (.update (by decide) rfl ?_) .nil))))) <;> exact ⟨by decide, rfl⟩
  obtain ⟨_, hupdate, hget⟩ := counter_exact h hx hn hturns
  have hsum : 7 + (Update.accepted 7 [some (.incrby "9223372036854775799"), none, some .incr, none,
      some (.decrby "-9223372036854775808"), some .incr]).sum = 9223372036854775807 := by decide +kernel
  rw [hsum] at hupdate hget
  have ht : (1700 : Int) ∈ Set.Icc (1000 : Int) 2000 := by decide
  refine ⟨hget (by decide +kernel) 1700 ht a ["GET", "k"] rfl (.ask "k" .get), ?_⟩
  exact ((hupdate 1700 ht a .decr ["DECR", "k"] rfl ⟨by decide, rfl⟩).1 (-1) rfl (by decide)).1

/-- An update that the log cannot be told of replies an error, and counts. -/
theorem update_counts_unlogged :
    let db := fresh "log" (some 0)
    let o := db.dispatch (.standing 1000) (.start none) ["INCR", "k"]
    (db.keyspace.visible 1000).find? "k" = none ∧ Update.incr.Spells "k" ["INCR", "k"] ∧ IsInt64 (0 + 1) ∧
      o.result.1 = .error CommandError.persistenceFailure.message ∧
      (o.database.keyspace.visible 1000).find? "k" = some ⟨.string "1", none⟩ := by
  refine ⟨by decide +kernel, ⟨by decide, rfl⟩, by decide, by decide +kernel, by decide +kernel⟩

end Database
end KeyStore
