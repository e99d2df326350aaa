import KeyStore.Proofs.Courses

/-!
# Expiry cannot be observed

Entries past their deadline may still be there or not. No request can tell, save those that count
entries: on keyspaces in which the same is visible a request is answered the same and leaves the same
visible. So sweeps can come at any time.
-/

namespace KeyStore

/-- A request that counts entries, also those past their deadline. -/
def Command.counts (request : Request) : Bool :=
  match read request with
  | .ok (_, .count) | .ok (_, .info) => true
  | _ => false

def Event.isBlind : Event → Bool
  | .request _ r => !Command.counts r
  | .sweep _ | .cycle _ => true

def Event.isRequest : Event → Bool
  | .request .. => true
  | .sweep _ | .cycle _ => false

/-- The times of the events do not go backwards, from a start to a stop. -/
def Event.Forward (start stop : Int) : List (Int × Event) → Prop
  | [] => start ≤ stop
  | (now, _) :: events => start ≤ now ∧ Forward now stop events

theorem Event.Forward.le {start stop : Int} {events : List (Int × Event)} (h : Event.Forward start stop events) :
    start ≤ stop := by
  induction events generalizing start with
  | nil => exact h
  | cons x events ih => exact Int.le_trans h.1 (ih h.2)

namespace Keyspace

theorem Sound.drop {ks : Keyspace} (h : ks.Sound) {key : Bytes} {e : Entry}
    (he : ks.entries.find? key = some e) : (ks.drop key e).Sound :=
  ⟨h.indexes.drop he, fun k x hx => h.full k x (Table.eraseAll_subset ks.entries [key] k x hx), h.unlogged, h.loading⟩

theorem visible_drop {ks : Keyspace} {now : Int} {key : Bytes} {e : Entry} (he : ks.entries.find? key = some e)
    (hel : e.hasElapsed now = true) : (ks.drop key e).visible now = ks.visible now := by
  have hkeys : ∀ k ∈ [key], ∃ x, ks.entries.find? k = some x ∧ x.hasElapsed now = true :=
    List.forall_mem_singleton.2 ⟨e, he, hel⟩
  exact visible_eraseAll hkeys

end Keyspace

namespace Database

open Keyspace

variable {db db₁ db₂ : Database} {now : Int}

theorem visible_happen (h : db.keyspace.Sound) (now : Int) {event : Event} (hevent : event.isRequest = false) :
    (db.happen now event).database.keyspace.visible now = db.keyspace.visible now := by
  obtain ⟨evicted, own, hsteps, _⟩ := exists_steps h now event
  have hnil : event.request? = [] := by cases event <;> first | rfl | cases hevent
  have htold := hsteps.told
  rw [hnil] at htold
  rw [visible, htold.eq_of_request_eq_nil]
  exact visible_eraseAll hsteps.elapsed

theorem execute_of_alike (h : Alike now db₁.keyspace db₂.keyspace) {c : Clock} (hc : c.Stands now) {request : Request}
    (hcounts : Command.counts request = false) (hn₁ : (db₁.execute c request false).notices = [])
    (hn₂ : (db₂.execute c request false).notices = []) :
    (db₁.execute c request false).result = (db₂.execute c request false).result ∧
      (db₁.execute c request false).database.keyspace.visible now =
        (db₂.execute c request false).database.keyspace.visible now := by
  cases hread : Command.read request with
  | error e =>
    simp only [execute, hread]
    exact ⟨trivial, h.visible⟩
  | ok p =>
    obtain ⟨signature, command⟩ := p
    have hcount : command ≠ .count := by
      rintro rfl
      simp [Command.counts, hread] at hcounts
    have hinfo : command ≠ .info := by
      rintro rfl
      simp [Command.counts, hread] at hcounts
    obtain ⟨hres, halike⟩ := h.run hc hc db₁.report db₂.report request hinfo hcount
    rw [execute_live hread] at hn₁ hn₂ ⊢
    rw [execute_live hread]
    simp only at hn₁ hn₂ ⊢
    rw [keyspace_log, keyspace_log, log_of_notices_eq_nil hn₁, log_of_notices_eq_nil hn₂]
    exact ⟨hres, halike.visible⟩

theorem happen_of_visible_eq (heq : db₁.keyspace.visible now = db₂.keyspace.visible now) (h₁ : db₁.keyspace.Sound)
    (h₂ : db₂.keyspace.Sound) (session : Session) {request : Request} (hcounts : Command.counts request = false)
    (hn₁ : (db₁.happen now (.request session request)).notices = [])
    (hn₂ : (db₂.happen now (.request session request)).notices = []) :
    (db₁.happen now (.request session request)).result = (db₂.happen now (.request session request)).result ∧
      (db₁.happen now (.request session request)).database.keyspace.visible now =
        (db₂.happen now (.request session request)).database.keyspace.visible now := by
  have halike : Alike now db₁.countCommand.keyspace db₂.countCommand.keyspace := ⟨h₁.loading, h₂.loading, heq⟩
  have hc := Clock.stands_standing now
  cases request with
  | nil => exact ⟨rfl, heq⟩
  | cons name operands =>
    simp only [happen, dispatch] at hn₁ hn₂ ⊢
    by_cases hauth : Command.nameOf (name :: operands) = "auth"
    · simp only [hauth, if_true]
      split
      · exact ⟨rfl, by split <;> exact heq⟩
      · exact ⟨rfl, heq⟩
    · simp only [hauth, if_false] at hn₁ hn₂ ⊢
      cases hs : session.isAuthenticated with
      | false => exact ⟨rfl, heq⟩
      | true =>
        simp only [hs, if_true] at hn₁ hn₂ ⊢
        obtain ⟨hres, hvisible⟩ := execute_of_alike halike hc hcounts hn₁ hn₂
        exact ⟨by rw [hres], hvisible⟩

theorem sound_happen (h : db.keyspace.Sound) (now : Int) (event : Event) :
    (db.happen now event).database.keyspace.Sound := by
  obtain ⟨_, _, hsteps, _⟩ := exists_steps h now event
  exact hsteps.sound

theorem result_happen_of_not_request (db : Database) (now : Int) {event : Event} (h : event.isRequest = false) :
    (db.happen now event).result = none := by
  cases event <;> first | rfl | cases h

theorem course_of_no_requests {events : List (Int × Event)} {start stop : Int} (h : db.keyspace.Sound)
    (hf : Event.Forward start stop events) (hnone : events.filter (·.2.isRequest) = []) :
    (db.course events).replies = [] ∧
      (db.course events).database.keyspace.visible stop = db.keyspace.visible stop := by
  induction events generalizing db start with
  | nil => exact ⟨rfl, rfl⟩
  | cons x events ih =>
    obtain ⟨now, event⟩ := x
    have hreq : event.isRequest = false := by
      by_cases hreq : event.isRequest = true
      · simp [hreq] at hnone
      · exact Bool.eq_false_iff.2 hreq
    obtain ⟨hreplies, hvisible⟩ := ih (sound_happen h now event) hf.2 (by simpa [hreq] using hnone)
    have hsame := visible_later hf.2.le (visible_happen h now hreq)
    simp only [course, result_happen_of_not_request db now hreq, hreplies]
    exact ⟨rfl, hvisible.trans hsame⟩

/-- What comes before the first request of a course changes nothing that is visible, and gives no replies. -/
theorem course_of_first_request {events requests : List (Int × Event)} {start stop now : Int} {event : Event}
    (h : db.keyspace.Sound) (hf : Event.Forward start stop events)
    (hfirst : events.filter (·.2.isRequest) = (now, event) :: requests) :
    ∃ (db' : Database) (more : List (Int × Event)) (notices : List Notice),
      db'.keyspace.Sound ∧ db'.keyspace.visible now = db.keyspace.visible now ∧
      start ≤ now ∧ Event.Forward now stop more ∧ more.filter (·.2.isRequest) = requests ∧
      db.course events =
        { db'.course ((now, event) :: more) with
          notices := notices ++ (db'.course ((now, event) :: more)).notices } := by
  induction events generalizing db start with
  | nil => cases hfirst
  | cons x events ih =>
    obtain ⟨time, e⟩ := x
    by_cases hreq : e.isRequest = true
    · simp only [List.filter_cons, hreq, if_true] at hfirst
      obtain ⟨hx, hrest⟩ := List.cons.inj hfirst
      obtain ⟨rfl, rfl⟩ := Prod.mk.inj hx
      exact ⟨db, events, [], h, rfl, hf.1, hf.2, hrest, rfl⟩
    · have hreq' : e.isRequest = false := Bool.eq_false_iff.2 hreq
      obtain ⟨db', more, notices, h', hvisible, hle, hf', hmore, hcourse⟩ :=
        ih (sound_happen h time e) hf.2 (by simpa [hreq'] using hfirst)
      have hsame := visible_later hle (visible_happen h time hreq')
      refine ⟨db', more, (db.happen time e).notices ++ notices, h', hvisible.trans hsame, Int.le_trans hf.1 hle, hf',
        hmore, ?_⟩
      rw [course, hcourse, result_happen_of_not_request db time hreq', List.append_assoc]
      rfl

theorem course_of_visible_eq {events₁ events₂ requests : List (Int × Event)} {start stop : Int}
    (heq : db₁.keyspace.visible start = db₂.keyspace.visible start) (h₁ : db₁.keyspace.Sound) (h₂ : db₂.keyspace.Sound)
    (hf₁ : Event.Forward start stop events₁) (hf₂ : Event.Forward start stop events₂)
    (hreq₁ : events₁.filter (·.2.isRequest) = requests) (hreq₂ : events₂.filter (·.2.isRequest) = requests)
    (hblind : ∀ x ∈ requests, x.2.isBlind = true) (hn₁ : (db₁.course events₁).notices = [])
    (hn₂ : (db₂.course events₂).notices = []) :
    (db₁.course events₁).replies = (db₂.course events₂).replies ∧
      (db₁.course events₁).database.keyspace.visible stop = (db₂.course events₂).database.keyspace.visible stop := by
  induction requests generalizing db₁ db₂ start events₁ events₂ with
  | nil =>
    obtain ⟨hreplies₁, hvisible₁⟩ := course_of_no_requests h₁ hf₁ hreq₁
    obtain ⟨hreplies₂, hvisible₂⟩ := course_of_no_requests h₂ hf₂ hreq₂
    rw [hreplies₁, hreplies₂, hvisible₁, hvisible₂]
    exact ⟨rfl, visible_later hf₁.le heq⟩
  | cons x requests ih =>
    obtain ⟨now, event⟩ := x
    obtain ⟨db₁', more₁, notices₁, h₁', hvisible₁, hle, hf₁', hmore₁, hcourse₁⟩ := course_of_first_request h₁ hf₁ hreq₁
    obtain ⟨db₂', more₂, notices₂, h₂', hvisible₂, _, hf₂', hmore₂, hcourse₂⟩ := course_of_first_request h₂ hf₂ hreq₂
    obtain ⟨hblind', hrest⟩ := List.forall_mem_cons.1 hblind
    rw [hcourse₁] at hn₁ ⊢
    rw [hcourse₂] at hn₂ ⊢
    obtain ⟨hfirst₁, hafter₁⟩ := List.append_eq_nil_iff.1 (List.append_eq_nil_iff.1 hn₁).2
    obtain ⟨hfirst₂, hafter₂⟩ := List.append_eq_nil_iff.1 (List.append_eq_nil_iff.1 hn₂).2
    have heq' : db₁'.keyspace.visible now = db₂'.keyspace.visible now := by
      rw [hvisible₁, hvisible₂]
      exact visible_later hle heq
    cases event with
    | request session request =>
      obtain ⟨hres, hvisible⟩ := happen_of_visible_eq heq' h₁' h₂' session (by simpa [Event.isBlind] using hblind')
        hfirst₁ hfirst₂
      obtain ⟨hreplies, hstop⟩ := ih hvisible (sound_happen h₁' now _) (sound_happen h₂' now _) hf₁' hf₂' hmore₁ hmore₂
        hrest hafter₁ hafter₂
      simp only [course]
      rw [hres, hreplies]
      exact ⟨rfl, hstop⟩
    | sweep limit => exact absurd (hreq₁ ▸ List.mem_cons_self) (by simp [Event.isRequest])
    | cycle batch => exact absurd (hreq₁ ▸ List.mem_cons_self) (by simp [Event.isRequest])

/-- Entries past their deadline cannot be told from absent ones, by requests that do not count entries and
are appended. One request gives the same reply on sound keyspaces in which the same is visible, and leaves
the same visible. Under a clock that does not go backwards, courses with the same requests give the same
replies and leave the same visible, wherever there are sweeps and cycles in them. And taking a key past its
deadline out beforehand makes no difference to any course. -/
theorem expiry_unobservable :
    (∀ (db₁ db₂ : Database) (now : Int) (session : Session) (request : Request),
      db₁.keyspace.Sound → db₂.keyspace.Sound → db₁.keyspace.visible now = db₂.keyspace.visible now →
      Command.counts request = false → (db₁.happen now (.request session request)).notices = [] →
      (db₂.happen now (.request session request)).notices = [] →
      (db₁.happen now (.request session request)).result = (db₂.happen now (.request session request)).result ∧
        (db₁.happen now (.request session request)).database.keyspace.visible now =
          (db₂.happen now (.request session request)).database.keyspace.visible now) ∧
    (∀ (db₁ db₂ : Database) (start stop : Int) (events₁ events₂ : List (Int × Event)),
      db₁.keyspace.Sound → db₂.keyspace.Sound → db₁.keyspace.visible start = db₂.keyspace.visible start →
      Event.Forward start stop events₁ → Event.Forward start stop events₂ →
      events₁.filter (·.2.isRequest) = events₂.filter (·.2.isRequest) → (∀ x ∈ events₁, x.2.isBlind = true) →
      (db₁.course events₁).notices = [] → (db₂.course events₂).notices = [] →
      (db₁.course events₁).replies = (db₂.course events₂).replies ∧
        (db₁.course events₁).database.keyspace.visible stop =
          (db₂.course events₂).database.keyspace.visible stop) ∧
    (∀ (db : Database) (key : Bytes) (e : Entry) (start stop : Int) (events : List (Int × Event)),
      db.keyspace.Sound → db.keyspace.entries.find? key = some e → e.hasElapsed start = true →
      Event.Forward start stop events → (∀ x ∈ events, x.2.isBlind = true) → (db.course events).notices = [] →
      (course { db with keyspace := db.keyspace.drop key e } events).notices = [] →
      (db.course events).replies = (course { db with keyspace := db.keyspace.drop key e } events).replies ∧
        (db.course events).database.keyspace.visible stop =
          (course { db with keyspace := db.keyspace.drop key e } events).database.keyspace.visible stop) := by
  have hcourses : ∀ (db₁ db₂ : Database) (start stop : Int) (events₁ events₂ : List (Int × Event)),
      db₁.keyspace.Sound → db₂.keyspace.Sound → db₁.keyspace.visible start = db₂.keyspace.visible start →
      Event.Forward start stop events₁ → Event.Forward start stop events₂ →
      events₁.filter (·.2.isRequest) = events₂.filter (·.2.isRequest) → (∀ x ∈ events₁, x.2.isBlind = true) →
      (db₁.course events₁).notices = [] → (db₂.course events₂).notices = [] →
      (db₁.course events₁).replies = (db₂.course events₂).replies ∧
        (db₁.course events₁).database.keyspace.visible stop =
          (db₂.course events₂).database.keyspace.visible stop := by
    intro db₁ db₂ start stop events₁ events₂ h₁ h₂ heq hf₁ hf₂ hsame hblind hn₁ hn₂
    exact course_of_visible_eq heq h₁ h₂ hf₁ hf₂ rfl hsame.symm (fun x hx => hblind x (List.mem_filter.1 hx).1)
      hn₁ hn₂
  refine ⟨?_, hcourses, ?_⟩
  · intro db₁ db₂ now session request h₁ h₂ heq hcounts hn₁ hn₂
    exact happen_of_visible_eq heq h₁ h₂ session hcounts hn₁ hn₂
  · intro db key e start stop events h he hel hf hblind hn hn'
    have hdrop : (db.keyspace.drop key e).Sound := h.drop he
    have hvisible : db.keyspace.visible start = (db.keyspace.drop key e).visible start :=
      (visible_drop he hel).symm
    exact hcourses db { db with keyspace := db.keyspace.drop key e } start stop events events h hdrop hvisible hf hf
      rfl hblind hn hn'

theorem expiry_unobservable_of_set :
    let set : Event := .request (.start none) ["SET", "k", "v", "PX", "5"]
    let append : Event := .request (.start none) ["RPUSH", "k", "a"]
    (((fresh "log" none).happen 1000 set).database.happen 2000 append).result =
        ((fresh "log" none).happen 2000 append).result ∧
      ((fresh "log" none).course [(1000, set), (1500, .sweep 8), (2000, append), (2000, .cycle 1)]).replies =
        ((fresh "log" none).course [(1000, set), (2000, append)]).replies ∧
      (((fresh "log" none).happen 1000 set).database.course [(2000, append)]).replies =
        (course { ((fresh "log" none).happen 1000 set).database with
          keyspace := ((fresh "log" none).happen 1000 set).database.keyspace.drop "k" ⟨.string "v", some 1005⟩ }
          [(2000, append)]).replies := by
  intro set append
  have hsound : ((fresh "log" none).happen 1000 set).database.keyspace.Sound :=
    sound_happen Keyspace.sound_empty 1000 set
  refine ⟨?_, ?_, ?_⟩
  · exact (expiry_unobservable.1 _ _ 2000 (.start none) ["RPUSH", "k", "a"] hsound Keyspace.sound_empty
      (by decide +kernel) (by decide +kernel) (by decide +kernel) (by decide +kernel)).1
  · exact (expiry_unobservable.2.1 (fresh "log" none) (fresh "log" none) 0 3000 _ _ Keyspace.sound_empty
      Keyspace.sound_empty rfl (by simp [Event.Forward]) (by simp [Event.Forward]) (by decide) (by decide +kernel)
      (by decide +kernel) (by decide +kernel)).1
  · exact (expiry_unobservable.2.2 _ "k" ⟨.string "v", some 1005⟩ 2000 2000 [(2000, append)] hsound
      (by decide +kernel) (by decide) (by simp [Event.Forward]) (by decide +kernel) (by decide +kernel)
      (by decide +kernel)).1

end Database
end KeyStore
