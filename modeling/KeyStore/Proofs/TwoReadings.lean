import KeyStore.Proofs.Families

/-!
# Commands that look at the time twice

A look-up reads the clock if the key has a deadline. A pop looks its key up once to see whether it is there and once to
take the item, and the time that a key has left is counted from a reading behind that of the look-up. So the deadline
may come between two readings of one command. Then a pop takes an item from an empty list, and does so only then
(`Database.overdraws_iff_lapses`); and the time left is told as a negative number, which may be one that stands for
something else (`Database.sentinels_iff`).
-/

namespace KeyStore

namespace Keyspace

variable {ks : Keyspace} {c : Clock} {key : Bytes} {e : Entry} {d : Int}

theorem live_of_deadline_eq_none (he : ks.entries.find? key = some e) (hd : e.deadline = none) (c : Clock) :
    ks.live c key = ⟨some e, ks, c⟩ := by
  simp [live, he, hd]

theorem live_of_le (hl : ks.loading = false) (he : ks.entries.find? key = some e) (hd : e.deadline = some d)
    (hle : d ≤ c.now) : ks.live c key = ⟨none, ks.evict key e, c.next⟩ := by
  simp [live, he, hd, hl, Entry.hasElapsed, hle]

theorem live_of_lt (hl : ks.loading = false) (he : ks.entries.find? key = some e) (hd : e.deadline = some d)
    (hlt : c.now < d) : ks.live c key = ⟨some e, ks, c.next⟩ := by
  simp [live, he, hd, hl, Entry.hasElapsed, Int.not_le.2 hlt]

theorem live_of_now_eq {c' : Clock} (h : c'.now = c.now) (ks : Keyspace) (key : Bytes) :
    (ks.live c' key).result = (ks.live c key).result ∧ (ks.live c' key).keyspace = (ks.live c key).keyspace := by
  simp only [live, h]
  split
  · exact ⟨rfl, rfl⟩
  · split
    · exact ⟨rfl, rfl⟩
    · split <;> exact ⟨rfl, rfl⟩

/-- A key with a list whose deadline comes after the next reading of the clock, and not after the one behind it. -/
def Lapses (ks : Keyspace) (c : Clock) (key : Bytes) : Prop :=
  ∃ items d, ks.entries.find? key = some ⟨.list items, some d⟩ ∧ c.now < d ∧ d ≤ c.next.now

end Keyspace

inductive Pops (side : Side) : Option Entry → Reply → Prop
  | absent : Pops side none .nil
  | other {e : Entry} (h : e.value.kind ≠ .list) : Pops side (some e) (.error CommandError.typeMismatch.message)
  | item {items rest : List Bytes} {d : Option Int} {item : Bytes} (h : side.pop? items = some (item, rest)) :
      Pops side (some ⟨.list items, d⟩) (.bulk item)

namespace Command

variable {ks : Keyspace} {c : Clock} {key : Bytes} {e : Entry} {items : List Bytes} {request : Request} {side : Side}

theorem run_pop_of_live_eq_none (h : (ks.live c key).result = none) (request : Request) (side : Side) :
    poppedFrom ks c key = none ∧
      runRemoval ks c request key (.pop side) =
        ⟨.ok { reply := .nil }, (ks.live c key).keyspace, (ks.live c key).clock⟩ := by
  simp only [poppedFrom, runRemoval, Keyspace.find, Keyspace.get, h, Option.map_none, Keyspace.expect]
  exact ⟨trivial, rfl⟩

theorem run_pop_of_kind_ne (h : (ks.live c key).result = some e) (hk : e.value.kind ≠ .list) (request : Request)
    (side : Side) :
    poppedFrom ks c key = none ∧
      runRemoval ks c request key (.pop side) =
        ⟨.error .typeMismatch, (ks.live c key).keyspace, (ks.live c key).clock⟩ := by
  have hnone : e.value.as? .list = none := Value.as?_eq_none_iff.2 hk
  simp only [poppedFrom, runRemoval, Removal.kind, Keyspace.find, Keyspace.get, h, Option.map_some, Keyspace.expect,
    hnone]
  exact ⟨trivial, trivial⟩

/-- A pop that finds a list and, at the second look-up, finds it again. -/
theorem run_pop_of_found (hv : e.value = .list items) {c₁ c₂ : Clock} (h₁ : ks.live c key = ⟨some e, ks, c₁⟩)
    (h₂ : ks.live c₁ key = ⟨some e, ks, c₂⟩) (request : Request) (side : Side) :
    poppedFrom ks c key = some items ∧
      runRemoval ks c request key (.pop side) =
        let (item, rest) := Removal.popped side items
        ⟨.ok { reply := .bulk item, records := [request] },
          if rest.isEmpty then ks.drop key e else ks.keep key { e with value := .list rest }, c₂⟩ := by
  have has : e.value.as? .list = some items := by rw [hv]; rfl
  constructor
  · simp only [poppedFrom, Keyspace.find, Keyspace.get, h₁, h₂, Option.map_some, Keyspace.expect, has, Option.getD_some]
  · simp only [runRemoval, Removal.kind, Keyspace.find, Keyspace.get, h₁, Option.map_some, Keyspace.expect, has,
      changed, Keyspace.modify, h₂, Except.map]
    rfl

/-- A pop that finds a list and, at the second look-up, finds nothing. -/
theorem run_pop_of_lost (hv : e.value = .list items) {ks' : Keyspace} {c₁ c₂ : Clock}
    (h₁ : ks.live c key = ⟨some e, ks, c₁⟩) (h₂ : ks.live c₁ key = ⟨none, ks', c₂⟩) (request : Request) (side : Side) :
    poppedFrom ks c key = some [] ∧
      (runRemoval ks c request key (.pop side)).result =
        .ok { reply := .bulk (Removal.popped side []).1, records := [request] } := by
  have has : e.value.as? .list = some items := by rw [hv]; rfl
  constructor
  · simp only [poppedFrom, Keyspace.find, Keyspace.get, h₁, h₂, Option.map_some, Option.map_none, Keyspace.expect, has,
      Option.getD_none]
  · simp only [runRemoval, Removal.kind, Keyspace.find, Keyspace.get, h₁, Option.map_some, Keyspace.expect, has,
      changed, Keyspace.modify, h₂, Except.map]
    rfl

inductive PopCourse (ks : Keyspace) (c : Clock) (key : Bytes) : Prop
  | absent (h : (ks.live c key).result = none)
  | other {e : Entry} (h : (ks.live c key).result = some e) (hk : e.value.kind ≠ .list)
  | found {e : Entry} {items : List Bytes} {c₁ c₂ : Clock} (hv : e.value = .list items) (hne : items ≠ [])
      (h₁ : ks.live c key = ⟨some e, ks, c₁⟩) (h₂ : ks.live c₁ key = ⟨some e, ks, c₂⟩)
  | lost {e : Entry} {items : List Bytes} {ks' : Keyspace} {c₁ c₂ : Clock} (hv : e.value = .list items)
      (hlapses : ks.Lapses c key) (h₁ : ks.live c key = ⟨some e, ks, c₁⟩) (h₂ : ks.live c₁ key = ⟨none, ks', c₂⟩)

theorem popCourse (h : ks.Sound) (c : Clock) (key : Bytes) : PopCourse ks c key := by
  cases hres : (ks.live c key).result with
  | none => exact .absent hres
  | some e =>
    obtain ⟨v, deadline⟩ := e
    cases v with
    | list items =>
      have hfind := hres
      rw [Keyspace.result_live h.loading, Option.filter_eq_some_iff] at hfind
      obtain ⟨he, hstays⟩ := hfind
      have hne : items ≠ [] := by
        rintro rfl
        cases h.full key _ he
      cases deadline with
      | none =>
        have hlive := Keyspace.live_of_deadline_eq_none he rfl c
        exact .found rfl hne hlive hlive
      | some d =>
        have hlt : c.now < d := by simpa [Entry.hasElapsed] using hstays
        have hlive := Keyspace.live_of_lt h.loading he rfl hlt
        by_cases hle : d ≤ c.next.now
        · exact .lost rfl ⟨items, d, he, hlt, hle⟩ hlive (Keyspace.live_of_le h.loading he rfl hle)
        · exact .found rfl hne hlive (Keyspace.live_of_lt h.loading he rfl (Int.not_le.1 hle))
    | string s => exact .other hres (by simp [Value.kind])
    | hash fields => exact .other hres (by simp [Value.kind])
    | set members => exact .other hres (by simp [Value.kind])
    | sortedSet members => exact .other hres (by simp [Value.kind])

theorem live_of_lapses (hl : ks.loading = false) (h : ks.Lapses c key) :
    ∃ e items ks', e.value = .list items ∧ ks.live c key = ⟨some e, ks, c.next⟩ ∧
      ks.live c.next key = ⟨none, ks', c.next.next⟩ := by
  obtain ⟨items, d, he, hlt, hle⟩ := h
  exact ⟨_, items, _, rfl, Keyspace.live_of_lt hl he rfl hlt, Keyspace.live_of_le hl he rfl hle⟩

theorem poppedFrom_eq_nil_iff (h : ks.Sound) (c : Clock) (key : Bytes) :
    poppedFrom ks c key = some [] ↔ ks.Lapses c key := by
  constructor
  · intro hnil
    cases popCourse h c key with
    | absent hres => cases (run_pop_of_live_eq_none hres [] .left).1.symm.trans hnil
    | other hres hk => cases (run_pop_of_kind_ne hres hk [] .left).1.symm.trans hnil
    | found hv hne h₁ h₂ => exact absurd (Option.some.inj ((run_pop_of_found hv h₁ h₂ [] .left).1.symm.trans hnil)) hne
    | lost _ hlapses => exact hlapses
  · intro hlapses
    obtain ⟨e, items, ks', hv, h₁, h₂⟩ := live_of_lapses h.loading hlapses
    exact (run_pop_of_lost hv h₁ h₂ [] .left).1

theorem result_run_pop (h : ks.Sound) (c : Clock) (key : Bytes) (request : Request) (side : Side)
    (hitems : poppedFrom ks c key = some items) :
    (runRemoval ks c request key (.pop side)).result =
      .ok { reply := .bulk (Removal.popped side items).1, records := [request] } := by
  cases popCourse h c key with
  | absent hres => cases (run_pop_of_live_eq_none hres request side).1.symm.trans hitems
  | other hres hk => cases (run_pop_of_kind_ne hres hk request side).1.symm.trans hitems
  | found hv _ h₁ h₂ =>
    obtain ⟨hfrom, hrun⟩ := run_pop_of_found hv h₁ h₂ request side
    cases hfrom.symm.trans hitems
    rw [hrun]
  | lost hv _ h₁ h₂ =>
    obtain ⟨hfrom, hresult⟩ := run_pop_of_lost hv h₁ h₂ request side
    cases hfrom.symm.trans hitems
    exact hresult

theorem run_pop_of_now_eq (h : ks.Sound) {c c' : Clock} (hnow : c'.now = c.now) (hc : ¬ ks.Lapses c key)
    (hc' : ¬ ks.Lapses c' key) (request : Request) (side : Side) :
    (runRemoval ks c' request key (.pop side)).result = (runRemoval ks c request key (.pop side)).result ∧
      (runRemoval ks c' request key (.pop side)).keyspace = (runRemoval ks c request key (.pop side)).keyspace := by
  obtain ⟨hresult, hkeyspace⟩ := Keyspace.live_of_now_eq hnow ks key
  cases popCourse h c key with
  | absent hres =>
    rw [(run_pop_of_live_eq_none hres request side).2, (run_pop_of_live_eq_none (hresult.trans hres) request side).2]
    exact ⟨rfl, hkeyspace⟩
  | other hres hk =>
    rw [(run_pop_of_kind_ne hres hk request side).2, (run_pop_of_kind_ne (hresult.trans hres) hk request side).2]
    exact ⟨rfl, hkeyspace⟩
  | lost _ hlapses => exact absurd hlapses hc
  | @found e items c₁ c₂ hv hne h₁ h₂ =>
    have hres' : (ks.live c' key).result = some e := hresult.trans (congrArg (·.result) h₁)
    cases popCourse h c' key with
    | absent hnone => cases hnone.symm.trans hres'
    | other hother hk =>
      cases hother.symm.trans hres'
      exact absurd (congrArg Value.kind hv) hk
    | lost _ hlapses => exact absurd hlapses hc'
    | found hv' _ h₁' h₂' =>
      cases (congrArg (·.result) h₁').symm.trans hres'
      cases hv.symm.trans hv'
      rw [(run_pop_of_found hv h₁ h₂ request side).2, (run_pop_of_found hv h₁' h₂' request side).2]
      exact ⟨rfl, rfl⟩

end Command

theorem pops_remove {side : Side} {x : Option Entry} (hfull : ∀ e, x = some e → e.value.isHollow = false)
    (request : Request) : Pops side x (Database.replyOf ((Action.remove request (.pop side) x).1.map (·.reply))) := by
  cases x with
  | none => exact .absent
  | some e =>
    obtain ⟨v, d⟩ := e
    cases v with
    | list items =>
      have hne : items ≠ [] := by
        rintro rfl
        cases hfull _ rfl
      exact .item (Call.pop?_of_ne_nil side hne)
    | string s => exact .other (by simp [Value.kind])
    | hash fields => exact .other (by simp [Value.kind])
    | set members => exact .other (by simp [Value.kind])
    | sortedSet members => exact .other (by simp [Value.kind])

namespace Database

variable {db : Database} {c : Clock} {session : Session} {request : Request} {key : Bytes} {side : Side}

theorem dispatch_of_run_eq (hs : session.isAuthenticated = true) {command : Command}
    (hm : Command.Means (Command.nameOf request) request.tail command) {c c' : Clock}
    (hrun : ∀ report, (command.run report request db.keyspace c).result =
        (command.run report request db.keyspace c').result ∧
      (command.run report request db.keyspace c).keyspace = (command.run report request db.keyspace c').keyspace) :
    let o := db.dispatch c session request
    let o' := db.dispatch c' session request
    o.result = o'.result ∧ o.database = o'.database ∧ o.notices = o'.notices := by
  obtain ⟨signature, hread⟩ := Command.read_eq_ok_iff.2 hm
  obtain ⟨hresult, hkeyspace⟩ := hrun db.countCommand.report
  have hcount : db.countCommand.keyspace = db.keyspace := rfl
  simp only [dispatch_of_granted (granted_of_means hs hm), execute_live hread, hcount, hresult, hkeyspace]
  exact ⟨trivial, trivial, trivial⟩

theorem overdraws_eq_true_iff (hs : session.isAuthenticated = true)
    (hm : Command.Means (Command.nameOf request) request.tail (.remove key (.pop side))) (db : Database) (c : Clock) :
    db.overdraws c session request = true ↔ Command.poppedFrom db.keyspace c key = some [] := by
  obtain ⟨signature, hread⟩ := Command.read_eq_ok_iff.2 hm
  simp only [overdraws, hread, hs, Bool.true_and, beq_iff_eq]

/-- A request to pop an item of a key takes it from the list that its second look-up leaves it with. This list is empty
if the key holds a list whose deadline comes after the first reading of the clock and not after the second one, and in
no other case. In all other cases the reply is that of the entry which is visible at the first reading: nil if there is
none, an error if it holds no list, and otherwise the item at that end of it; and everything is as if the clock had
stood since then. -/
theorem overdraws_iff_lapses (h : db.keyspace.Sound) (hs : session.isAuthenticated = true)
    (hm : Command.Means (Command.nameOf request) request.tail (.remove key (.pop side))) (c : Clock) :
    let o := db.dispatch c session request
    let still := db.dispatch (.standing c.now) session request
    (∀ items report, Command.poppedFrom db.keyspace c key = some items →
      ((Command.remove key (.pop side)).run report request db.keyspace c).result =
        .ok { reply := .bulk (Removal.popped side items).1, records := [request] }) ∧
    (db.overdraws c session request = true ↔ Command.poppedFrom db.keyspace c key = some []) ∧
    (Command.poppedFrom db.keyspace c key = some [] ↔
      ∃ items d, db.keyspace.entries.find? key = some ⟨.list items, some d⟩ ∧ c.now < d ∧ d ≤ c.next.now) ∧
    (Command.poppedFrom db.keyspace c key ≠ some [] →
      (∃ reply, Pops side ((db.keyspace.visible c.now).find? key) reply ∧ o.Replies reply) ∧
        o.result = still.result ∧ o.database = still.database ∧ o.notices = still.notices) := by
  intro o still
  refine ⟨fun items _ hitems => Command.result_run_pop h c key request side hitems, overdraws_eq_true_iff hs hm db c,
    Command.poppedFrom_eq_nil_iff h c key, fun hdraws => ?_⟩
  have hlapses : ¬ db.keyspace.Lapses c key := fun hlapses => hdraws ((Command.poppedFrom_eq_nil_iff h c key).2 hlapses)
  -- a clock that stands has no two readings for a deadline to come between
  have hstands : ¬ db.keyspace.Lapses (.standing c.now) key := by
    rintro ⟨items, d, -, hlt, hle⟩
    exact Int.not_le.2 hlt hle
  have hsame : o.result = still.result ∧ o.database = still.database ∧ o.notices = still.notices :=
    dispatch_of_run_eq hs hm fun _ =>
      Command.run_pop_of_now_eq h (Clock.now_standing c.now).symm hstands hlapses request side
  refine ⟨?_, hsame⟩
  have hact : (Command.remove key (.pop side)).action? request c.now false =
      some (key, Action.remove request (.pop side)) := rfl
  obtain ⟨hreplies, -⟩ := dispatch_of_action h.loading (Clock.stands_standing c.now) hs hm hact
  have hfull : ∀ e, (db.keyspace.visible c.now).find? key = some e → e.value.isHollow = false := by
    intro e he
    rw [Keyspace.find?_visible] at he
    exact h.full key e (Option.filter_eq_some_iff.1 he).1
  refine ⟨_, pops_remove hfull request, ?_⟩
  rw [Outcome.Replies, hsame.1, hsame.2.2]
  exact hreplies

/-- A list whose deadline is 1003, popped when the clock shows 1002 and then 1003, and when it shows 1001 and then
1002. -/
theorem overdraws_iff_lapses_of_pop :
    let push : Int × Event := (1000, .request (.start none) ["RPUSH", "k", "a"])
    let expire : Int × Event := (1001, .request (.start none) ["PEXPIREAT", "k", "1003"])
    let db := ((fresh "log" none).course [push, expire]).database
    let session := Session.start none
    let pop : Request := ["LPOP", "k"]
    (db.keyspace.Sound ∧ session.isAuthenticated = true ∧
        Command.Means (Command.nameOf pop) pop.tail (.remove "k" (.pop .left))) ∧
      Command.poppedFrom db.keyspace (.ticking 1002 1) "k" = some [] ∧
      db.overdraws (.ticking 1002 1) session pop = true ∧
      Command.poppedFrom db.keyspace (.ticking 1001 1) "k" ≠ some [] ∧
      (db.dispatch (.ticking 1001 1) session pop).Replies (.bulk "a") := by
  intro push expire db session pop
  have hsound : db.keyspace.Sound := (Keyspace.Reachable.course .empty _).sound
  have hs : session.isAuthenticated = true := rfl
  have hmeans : Command.Means (Command.nameOf pop) pop.tail (.remove "k" (.pop .left)) := .remove "k" .popLeft
  have hentry : db.keyspace.entries.find? "k" = some ⟨.list ["a"], some 1003⟩ := by decide +kernel
  have hvisible : (db.keyspace.visible 1001).find? "k" = some ⟨.list ["a"], some 1003⟩ := by decide +kernel
  -- the course is not to be run again from here on
  clear_value db
  obtain ⟨-, hoverdraws, hlapses, -⟩ := overdraws_iff_lapses hsound hs hmeans (.ticking 1002 1)
  obtain ⟨-, -, hlapses', hproper⟩ := overdraws_iff_lapses hsound hs hmeans (.ticking 1001 1)
  have hnil := hlapses.2 ⟨["a"], 1003, hentry, by decide, by decide⟩
  have hne : Command.poppedFrom db.keyspace (.ticking 1001 1) "k" ≠ some [] := by
    intro hnil'
    obtain ⟨items, d, he, hlt, hle⟩ := hlapses'.1 hnil'
    cases hentry.symm.trans he
    exact absurd hle (by decide)
  obtain ⟨⟨reply, hpops, hreplies⟩, -⟩ := hproper hne
  have hnow : (Clock.ticking 1001 1).now = 1001 := rfl
  rw [hnow, hvisible] at hpops
  refine ⟨⟨hsound, hs, hmeans⟩, hnil, hoverdraws.2 hnil, hne, ?_⟩
  cases hpops with
  | other hk => exact absurd rfl hk
  | item hpop =>
    cases hpop
    exact hreplies

end Database

def Clock.last (c : Clock) : Int := c.reading (c.taken - 1)

@[simp] theorem Clock.last_next (c : Clock) : c.next.last = c.now := rfl

/-- The milliseconds that an entry is told to have left, when its key is looked up at one time and the difference is
taken to another. -/
def timeTold (x : Option Entry) (first second : Int) : Int :=
  match x.map (·.deadline) with
  | none => -2
  | some none => -1
  | some (some d) => if d ≤ first then -2 else d - second

section

variable {e : Entry} {d first second : Int}

theorem timeTold_of_deadline_eq_none (hd : e.deadline = none) : timeTold (some e) first second = -1 := by
  simp [timeTold, hd]

theorem timeTold_of_le (hd : e.deadline = some d) (hle : d ≤ first) : timeTold (some e) first second = -2 := by
  simp [timeTold, hd, hle]

theorem timeTold_of_lt (hd : e.deadline = some d) (hlt : first < d) :
    timeTold (some e) first second = d - second := by
  simp [timeTold, hd, Int.not_le.2 hlt]

end

/-- What is told of an entry is not to be mistaken: -2 says that there is none or that its deadline has come at the last
reading, -1 says that it has no deadline, and all else is the time that is left. -/
structure Sentinels (x : Option Entry) (last n : Int) : Prop where
  gone : n = -2 → ∀ e, x = some e → ∃ d, e.deadline = some d ∧ d ≤ last
  forever : n = -1 → ∃ e, x = some e ∧ e.deadline = none
  left : n ≠ -2 → n ≠ -1 → 0 ≤ n

theorem sentinels_none (last : Int) : Sentinels none last (-2) :=
  ⟨fun _ _ he => (nomatch he), fun h => absurd h (by decide), fun h => absurd rfl h⟩

theorem sentinels_of_deadline_eq_none {e : Entry} (hd : e.deadline = none) (last : Int) :
    Sentinels (some e) last (-1) :=
  ⟨fun h => absurd h (by decide), fun _ => ⟨e, rfl, hd⟩, fun _ h => absurd rfl h⟩

theorem sentinels_of_deadline_iff {e : Entry} {d : Int} (hd : e.deadline = some d) (last n : Int) :
    Sentinels (some e) last n ↔ n = -2 ∧ d ≤ last ∨ 0 ≤ n := by
  constructor
  · intro h
    by_cases hgone : n = -2
    · obtain ⟨d', hd', hle⟩ := h.gone hgone e rfl
      cases hd.symm.trans hd'
      exact .inl ⟨hgone, hle⟩
    · refine .inr (h.left hgone fun hforever => ?_)
      obtain ⟨e', he', hnone⟩ := h.forever hforever
      cases he'
      cases hd.symm.trans hnone
  · rintro (⟨rfl, hle⟩ | hn)
    · refine ⟨fun _ e' he' => ?_, fun h => absurd h (by decide), fun h => absurd rfl h⟩
      cases he'
      exact ⟨d, hd, hle⟩
    · exact ⟨fun h => by omega, fun h => by omega, fun _ _ => hn⟩

namespace Keyspace

variable {ks : Keyspace} {c : Clock} {key : Bytes} {ms : Int}

theorem toSeconds_of_neg (h : ms < 0) : toSeconds ms = ms := if_pos h

theorem toSeconds_spec (h : 0 ≤ ms) :
    0 ≤ toSeconds ms ∧ 1000 * toSeconds ms - 500 ≤ ms ∧ ms < 1000 * toSeconds ms + 500 := by
  simp only [toSeconds, if_neg (Int.not_lt.2 h)]
  omega

theorem result_remaining (hl : ks.loading = false) (c : Clock) (key : Bytes) :
    (ks.remaining c key).result = timeTold (ks.entries.find? key) c.now c.next.now := by
  cases he : ks.entries.find? key with
  | none => simp [remaining, live_of_find?_eq_none he, timeTold]
  | some e =>
    cases hd : e.deadline with
    | none => simp [remaining, live_of_deadline_eq_none he hd, hd, timeTold_of_deadline_eq_none hd]
    | some d =>
      by_cases hle : d ≤ c.now
      · simp [remaining, live_of_le hl he hd hle, timeTold_of_le hd hle]
      · have hlt := Int.not_le.1 hle
        simp [remaining, live_of_lt hl he hd hlt, hd, timeTold_of_lt hd hlt, Clock.read]

theorem last_remaining (hl : ks.loading = false) (c : Clock) {e : Entry} {d : Int}
    (he : ks.entries.find? key = some e) (hd : e.deadline = some d) :
    (ks.remaining c key).clock.last = if d ≤ c.now then c.now else c.next.now := by
  by_cases hle : d ≤ c.now
  · simp [remaining, live_of_le hl he hd hle, hle]
  · simp [remaining, live_of_lt hl he hd (Int.not_le.1 hle), hd, hle, Clock.read]

end Keyspace

namespace Database

variable {db : Database} {c : Clock} {session : Session} {request : Request} {key : Bytes} {inSeconds : Bool}

def timeIn (inSeconds : Bool) (ms : Int) : Int := if inSeconds then Keyspace.toSeconds ms else ms

theorem timeIn_of_neg {ms : Int} (h : ms < 0) (inSeconds : Bool) : timeIn inSeconds ms = ms := by
  cases inSeconds with
  | false => rfl
  | true => exact Keyspace.toSeconds_of_neg h

theorem timeIn_nonneg {ms : Int} (h : 0 ≤ ms) (inSeconds : Bool) : 0 ≤ timeIn inSeconds ms := by
  cases inSeconds with
  | false => exact h
  | true => exact (Keyspace.toSeconds_spec h).1

theorem sentinels_left_iff {e : Entry} {d second : Int} (hd : e.deadline = some d) (inSeconds : Bool) :
    Sentinels (some e) second (timeIn inSeconds (d - second)) ↔ ¬ (d < second ∧ d ≠ second - 2) := by
  rw [sentinels_of_deadline_iff hd]
  by_cases hlt : d < second
  · rw [timeIn_of_neg (by omega)]
    omega
  · have hn := timeIn_nonneg (Int.sub_nonneg.2 (Int.not_lt.1 hlt)) inSeconds
    omega

/-- What is told of the time left is not to be mistaken, unless the deadline comes between the readings, and then only
if the difference is that which stands for a key that is gone. -/
theorem sentinels_remaining_iff {ks : Keyspace} (hl : ks.loading = false) (c : Clock) (key : Bytes) (inSeconds : Bool) :
    Sentinels (ks.entries.find? key) (ks.remaining c key).clock.last
        (timeIn inSeconds (timeTold (ks.entries.find? key) c.now c.next.now)) ↔
      ¬ ∃ e d, ks.entries.find? key = some e ∧ e.deadline = some d ∧ c.now < d ∧ d < c.next.now ∧
        d ≠ c.next.now - 2 := by
  cases he : ks.entries.find? key with
  | none =>
    have hn : timeIn inSeconds (timeTold none c.now c.next.now) = -2 :=
      timeIn_of_neg (by decide : (-2 : Int) < 0) inSeconds
    rw [hn]
    exact ⟨fun _ ⟨e, d, he', _⟩ => (nomatch he'), fun _ => sentinels_none _⟩
  | some e =>
    cases hd : e.deadline with
    | none =>
      rw [timeTold_of_deadline_eq_none hd, timeIn_of_neg (by decide)]
      refine ⟨fun _ ⟨e', d, he', hd', _⟩ => ?_, fun _ => sentinels_of_deadline_eq_none hd _⟩
      cases he'
      cases hd.symm.trans hd'
    | some d =>
      rw [Keyspace.last_remaining hl c he hd]
      by_cases hle : d ≤ c.now
      · rw [timeTold_of_le hd hle, timeIn_of_neg (by decide), if_pos hle]
        refine ⟨fun _ ⟨e', d', he', hd', hlt, _⟩ => ?_, fun _ => (sentinels_of_deadline_iff hd _ _).2 (.inl ⟨rfl, hle⟩)⟩
        cases he'
        cases hd.symm.trans hd'
        exact Int.not_le.2 hlt hle
      · have hlt := Int.not_le.1 hle
        rw [timeTold_of_lt hd hlt, if_neg hle, sentinels_left_iff hd]
        refine not_congr ⟨fun hbad => ⟨e, d, rfl, hd, hlt, hbad⟩, fun ⟨e', d', he', hd', _, hbad⟩ => ?_⟩
        cases he'
        cases hd.symm.trans hd'
        exact hbad

theorem run_remaining (ks : Keyspace) (c : Clock) (report : Keyspace → Bytes) (request : Request) (key : Bytes)
    (inSeconds : Bool) :
    (Command.remaining key inSeconds).run report request ks c =
      ⟨.ok { reply := .integer (timeIn inSeconds (ks.remaining c key).result) }, (ks.remaining c key).keyspace,
        (ks.remaining c key).clock⟩ := by
  cases inSeconds <;> rfl

theorem clock_dispatch_of_means (hs : session.isAuthenticated = true) {command : Command}
    (hm : Command.Means (Command.nameOf request) request.tail command) (db : Database) (c : Clock) :
    (db.dispatch c session request).clock = (command.run db.countCommand.report request db.keyspace c).clock := by
  obtain ⟨signature, hread⟩ := Command.read_eq_ok_iff.2 hm
  rw [dispatch_of_granted (granted_of_means hs hm), execute_live hread]
  rfl

/-- A request for the time that a key has left, in milliseconds or seconds, is told -2 if there is no key or its
deadline had come at the first reading, -1 if it has no deadline, and otherwise the difference to the second reading.
This is not to be mistaken unless the deadline came between the readings: then the difference is negative, and says that
the key is gone only if it is just -2. When the clock stands it cannot be mistaken, and a key that is there has a
positive number of milliseconds left, and as many seconds as these are to the nearest, halves up. -/
theorem sentinels_iff (h : db.keyspace.Sound) (hs : session.isAuthenticated = true)
    (hm : Command.Means (Command.nameOf request) request.tail (.remaining key inSeconds)) (c : Clock) :
    let o := db.dispatch c session request
    let x := db.keyspace.entries.find? key
    let n := timeIn inSeconds (timeTold x c.now c.next.now)
    o.Replies (.integer n) ∧
    (Sentinels x o.clock.last n ↔
      ¬ ∃ e d, x = some e ∧ e.deadline = some d ∧ c.now < d ∧ d < c.next.now ∧ d ≠ c.next.now - 2) ∧
    ∀ now, c.Stands now → Sentinels x o.clock.last n ∧
      ∀ e d, x = some e → e.deadline = some d → now < d →
        (inSeconds = false → n = d - now ∧ 0 < n) ∧
        (inSeconds = true → 0 ≤ n ∧ 1000 * n - 500 ≤ d - now ∧ d - now < 1000 * n + 500) := by
  intro o x n
  have hreplies : o.Replies (.integer n) := by
    have hmeans := (dispatch_of_means hs hm db c).1
    rw [run_remaining, Keyspace.result_remaining h.loading] at hmeans
    exact hmeans
  have hclock : o.clock = (db.keyspace.remaining c key).clock := by
    rw [clock_dispatch_of_means hs hm, run_remaining]
  have hiff := sentinels_remaining_iff h.loading c key inSeconds
  rw [← hclock] at hiff
  refine ⟨hreplies, hiff, fun now hnow => ⟨?_, fun e d he hd hlt => ?_⟩⟩
  · refine hiff.2 ?_
    rintro ⟨e, d, -, -, hlt, hlt', -⟩
    rw [hnow.now_eq] at hlt
    rw [hnow.next.now_eq] at hlt'
    omega
  · have hn : n = timeIn inSeconds (d - now) := by
      simp only [n, hnow.now_eq, hnow.next.now_eq, he, timeTold_of_lt hd hlt]
    rw [hn]
    refine ⟨?_, ?_⟩
    · rintro rfl
      exact ⟨rfl, Int.sub_pos_of_lt hlt⟩
    · rintro rfl
      exact Keyspace.toSeconds_spec (by omega)

/-- A key whose deadline is 1003, asked about when the clock shows 1002 and then 1004, and when it stands at 1002. -/
theorem sentinels_iff_of_pttl :
    let set : Int × Event := (1000, .request (.start none) ["SET", "k", "v", "PX", "3"])
    let db := ((fresh "log" none).course [set]).database
    let session := Session.start none
    let pttl : Request := ["PTTL", "k"]
    let entry : Option Entry := some ⟨.string "v", some 1003⟩
    let o := db.dispatch (.ticking 1002 2) session pttl
    let still := db.dispatch (.standing 1002) session pttl
    (db.keyspace.Sound ∧ session.isAuthenticated = true ∧
        Command.Means (Command.nameOf pttl) pttl.tail (.remaining "k" false) ∧
        db.keyspace.entries.find? "k" = entry) ∧
      (o.Replies (.integer (-1)) ∧ ¬ Sentinels entry o.clock.last (-1)) ∧
      still.Replies (.integer 1) ∧ Sentinels entry still.clock.last 1 := by
  intro set db session pttl entry o still
  have hsound : db.keyspace.Sound := (Keyspace.Reachable.course .empty _).sound
  have hs : session.isAuthenticated = true := rfl
  have hmeans : Command.Means (Command.nameOf pttl) pttl.tail (.remaining "k" false) := .remaining "k"
  have hentry : db.keyspace.entries.find? "k" = entry := by decide +kernel
  obtain ⟨hreplies, hiff, -⟩ := sentinels_iff hsound hs hmeans (.ticking 1002 2)
  obtain ⟨hreplies', -, hstands⟩ := sentinels_iff hsound hs hmeans (.standing 1002)
  rw [hentry] at hreplies hiff hreplies' hstands
  have hmistaken : ¬ Sentinels entry o.clock.last (-1) := fun hok =>
    hiff.1 hok ⟨⟨.string "v", some 1003⟩, 1003, rfl, rfl, by decide, by decide, by decide⟩
  exact ⟨⟨hsound, hs, hmeans, hentry⟩, ⟨hreplies, hmistaken⟩, hreplies',
    (hstands 1002 (Clock.stands_standing 1002)).1⟩

end Database
end KeyStore
