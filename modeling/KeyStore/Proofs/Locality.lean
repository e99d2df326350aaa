import KeyStore.Proofs.Answers

/-!
# Requests that name different keys

A request names its first operand, or all of them if it deletes or counts keys. Save those that are about the whole
keyspace, requests read and change the entries of the keys that they name and no others (`Database.find?_dispatch`,
`Keyspace.Agree.dispatch`). So two requests that name different keys can be given in either order
(`Database.disjoint_requests_commute`).
-/

namespace KeyStore

namespace Command

def overAll : List Bytes := ["keys", "dbsize", "info", "flushdb"]

def named (request : Request) : List Bytes :=
  if nameOf request ∈ (["del", "exists"] : List Bytes) then request.tail
  else if nameOf request ∈ (["ping", "echo"] : List Bytes) then []
  else request.tail.take 1

/-- Whether a command is about the keys that it looks up and nothing else. -/
def isLocal : Command → Bool
  | info | count | flush | keys _ => false
  | _ => true

theorem isLocal_of_means {name : Bytes} {operands : List Bytes} {command : Command}
    (h : Means name operands command) (hname : name ∉ overAll) : command.isLocal = true := by
  cases h with
  | info => exact absurd (by decide) hname
  | infoOn => exact absurd (by decide) hname
  | count => exact absurd (by decide) hname
  | flush => exact absurd (by decide) hname
  | keys => exact absurd (by decide) hname
  | _ => rfl

theorem named_eq_take {request : Request}
    (h : nameOf request ∉ (["del", "exists", "ping", "echo"] : List Bytes)) : named request = request.tail.take 1 := by
  simp only [List.mem_cons, List.not_mem_nil, or_false, not_or] at h
  simp [named, h]

theorem lookups_subset_named {request : Request} {command : Command}
    (h : Means (nameOf request) request.tail command) : command.lookups ⊆ named request := by
  have htake : ∀ {key : Bytes} {words : List Bytes}, request.tail = key :: words →
      nameOf request ∉ (["del", "exists", "ping", "echo"] : List Bytes) → [key] ⊆ named request := by
    intro key words htail hname
    rw [named_eq_take hname, htail]
    exact List.Subset.refl _
  have hall : nameOf request ∈ (["del", "exists"] : List Bytes) → named request = request.tail :=
    fun hname => if_pos hname
  generalize hname : nameOf request = name at h htake hall
  generalize htail : request.tail = operands at h htake hall
  cases h with
  | ping => exact List.nil_subset _
  | pingWith => exact List.nil_subset _
  | echo => exact List.nil_subset _
  | info => exact List.nil_subset _
  | infoOn => exact List.nil_subset _
  | count => exact List.nil_subset _
  | flush => exact List.nil_subset _
  | keys => exact List.nil_subset _
  | exist key more => exact (hall (by decide)).symm ▸ List.Subset.refl _
  | delete key more => exact (hall (by decide)).symm ▸ List.Subset.refl _
  | ask key h => exact htake rfl (by cases h <;> decide)
  | increment key h => exact htake rfl (by cases h <;> decide)
  | edit key h => exact htake rfl (by cases h <;> decide)
  | remove key h => exact htake rfl (by cases h <;> decide)
  | _ => exact htake rfl (by decide)

end Command

namespace Keyspace

variable {ks ks' : Keyspace} {now : Int} {c c' : Clock} {key k : Bytes}

theorem Leaves.find?_of_ne {x : Option Entry} (h : ks.Leaves now key x ks' c') (hk : k ≠ key) :
    ks'.entries.find? k = ks.entries.find? k := by
  rw [h.entries, Table.find?_put, if_neg hk]

theorem find?_deleteAll (hc : c.Stands now) {names : List Bytes} (hk : k ∉ names) :
    (Command.deleteAll ks c names).keyspace.entries.find? k = ks.entries.find? k := by
  induction names generalizing ks c with
  | nil => rfl
  | cons name names ih =>
    obtain ⟨hne, hnames⟩ := not_or.1 fun h => hk (List.mem_cons.2 h)
    have hleaves := (ks.does_delete hc name).2
    exact (ih hleaves.clock hnames).trans (hleaves.find?_of_ne hne)

theorem find?_countAll (hc : c.Stands now) {names : List Bytes} (hk : k ∉ names) (n : Nat) :
    (Command.countAll ks c n names).keyspace.entries.find? k = ks.entries.find? k := by
  induction names generalizing ks c n with
  | nil => rfl
  | cons name names ih =>
    obtain ⟨hne, hnames⟩ := not_or.1 fun h => hk (List.mem_cons.2 h)
    have hleaves := (ks.does_contains hc name).2
    exact (ih hleaves.clock hnames _).trans (hleaves.find?_of_ne hne)

theorem find?_run (hc : c.Stands now) (report : Keyspace → Bytes) (request : Request) {command : Command}
    (hlocal : command.isLocal = true) (hk : k ∉ command.lookups) :
    (command.run report request ks c).keyspace.entries.find? k = ks.entries.find? k := by
  cases hact : command.action? request now ks.loading with
  | some p =>
    obtain ⟨key, act⟩ := p
    rw [Command.lookups_of_action? hact] at hk
    exact (ks.does_run hc report hact).2.find?_of_ne (List.ne_of_not_mem_cons hk)
  | none =>
    cases command with
    | ping message => cases message <;> rfl
    | echo message => rfl
    | exist names => exact find?_countAll hc hk 0
    | delete names => exact find?_deleteAll hc hk
    | info => cases hlocal
    | count => cases hlocal
    | flush => cases hlocal
    | keys pattern => cases hlocal
    | _ => cases hact

/-- Two keyspaces that enforce deadlines and have the same entries at some keys. -/
structure Agree (keys : List Bytes) (ks₁ ks₂ : Keyspace) : Prop where
  loading₁ : ks₁.loading = false
  loading₂ : ks₂.loading = false
  find?_eq : ∀ key ∈ keys, ks₁.entries.find? key = ks₂.entries.find? key

namespace Agree

variable {keys : List Bytes} {ks₁ ks₂ : Keyspace} {c₁ c₂ : Clock}

theorem look (h : Agree keys ks₁ ks₂) (hkey : key ∈ keys) : ks₁.look now key = ks₂.look now key := by
  simp only [Keyspace.look, h.loading₁, h.loading₂, h.find?_eq key hkey]

theorem does {α : Type} {act : Action α} {a₁ a₂ : After α} (h : Agree keys ks₁ ks₂) (hkey : key ∈ keys)
    (h₁ : ks₁.Does now key act a₁) (h₂ : ks₂.Does now key act a₂) :
    a₁.result = a₂.result ∧ Agree keys a₁.keyspace a₂.keyspace := by
  have hlook : ks₁.look now key = ks₂.look now key := h.look hkey
  refine ⟨by rw [h₁.1, h₂.1, hlook], h₁.2.loading.trans h.loading₁, h₂.2.loading.trans h.loading₂, fun k hk => ?_⟩
  rw [h₁.2.entries, h₂.2.entries, hlook, Table.find?_put, Table.find?_put, h.find?_eq k hk]

theorem deleteAll (h : Agree keys ks₁ ks₂) (h₁ : c₁.Stands now) (h₂ : c₂.Stands now) (names : List Bytes)
    (hnames : names ⊆ keys) :
    (Command.deleteAll ks₁ c₁ names).result = (Command.deleteAll ks₂ c₂ names).result ∧
      Agree keys (Command.deleteAll ks₁ c₁ names).keyspace (Command.deleteAll ks₂ c₂ names).keyspace := by
  induction names generalizing ks₁ ks₂ c₁ c₂ with
  | nil => exact ⟨rfl, h⟩
  | cons name names ih =>
    obtain ⟨hname, hnames⟩ := List.cons_subset.1 hnames
    have hd₁ := ks₁.does_delete h₁ name
    have hd₂ := ks₂.does_delete h₂ name
    obtain ⟨hres, hagree⟩ := h.does hname hd₁ hd₂
    obtain ⟨hrest, hafter⟩ := ih hagree hd₁.2.clock hd₂.2.clock hnames
    refine ⟨?_, hafter⟩
    simp only [Command.deleteAll]
    rw [hres, hrest]

theorem countAll (h : Agree keys ks₁ ks₂) (h₁ : c₁.Stands now) (h₂ : c₂.Stands now) (n : Nat) (names : List Bytes)
    (hnames : names ⊆ keys) :
    (Command.countAll ks₁ c₁ n names).result = (Command.countAll ks₂ c₂ n names).result ∧
      Agree keys (Command.countAll ks₁ c₁ n names).keyspace (Command.countAll ks₂ c₂ n names).keyspace := by
  induction names generalizing ks₁ ks₂ c₁ c₂ n with
  | nil => exact ⟨rfl, h⟩
  | cons name names ih =>
    obtain ⟨hname, hnames⟩ := List.cons_subset.1 hnames
    have hd₁ := ks₁.does_contains h₁ name
    have hd₂ := ks₂.does_contains h₂ name
    obtain ⟨hres, hagree⟩ := h.does hname hd₁ hd₂
    simp only [Command.countAll]
    rw [hres]
    exact ih hagree hd₁.2.clock hd₂.2.clock _ hnames

theorem run (h : Agree keys ks₁ ks₂) (h₁ : c₁.Stands now) (h₂ : c₂.Stands now) (report₁ report₂ : Keyspace → Bytes)
    (request : Request) {command : Command} (hlocal : command.isLocal = true) (hkeys : command.lookups ⊆ keys) :
    (command.run report₁ request ks₁ c₁).result.map (·.reply) =
        (command.run report₂ request ks₂ c₂).result.map (·.reply) ∧
      Agree keys (command.run report₁ request ks₁ c₁).keyspace (command.run report₂ request ks₂ c₂).keyspace := by
  cases hact : command.action? request now false with
  | some p =>
    obtain ⟨key, act⟩ := p
    have hkey : key ∈ keys := hkeys (by simp [Command.lookups_of_action? hact])
    obtain ⟨hres, hagree⟩ := h.does hkey (ks₁.does_run h₁ report₁ (h.loading₁ ▸ hact))
      (ks₂.does_run h₂ report₂ (h.loading₂ ▸ hact))
    exact ⟨by rw [hres], hagree⟩
  | none =>
    cases command with
    | ping message => cases message <;> exact ⟨rfl, h⟩
    | echo message => exact ⟨rfl, h⟩
    | exist names =>
      obtain ⟨hres, hagree⟩ := h.countAll h₁ h₂ 0 names hkeys
      simp only [Command.run]
      exact ⟨by rw [hres], hagree⟩
    | delete names =>
      obtain ⟨hres, hagree⟩ := h.deleteAll h₁ h₂ names hkeys
      simp only [Command.run]
      exact ⟨by rw [hres], hagree⟩
    | info => cases hlocal
    | count => cases hlocal
    | flush => cases hlocal
    | keys pattern => cases hlocal
    | _ => cases hact

end Agree
end Keyspace

namespace Database

open Keyspace

variable {db db₁ db₂ : Database} {now : Int} {c c₁ c₂ : Clock} {session : Session} {request : Request}

theorem find?_dispatch (hc : c.Stands now) (session : Session) (hname : Command.nameOf request ∉ Command.overAll)
    {key : Bytes} (hkey : key ∉ Command.named request) :
    (db.dispatch c session request).database.keyspace.entries.find? key = db.keyspace.entries.find? key := by
  obtain ⟨command, hs, hmeans⟩ | hnone := exists_means_or_not session request
  · have hlookups : key ∉ command.lookups := fun h => hkey (Command.lookups_subset_named hmeans h)
    rw [(dispatch_of_means hs hmeans db c).2.2]
    exact find?_run hc _ request (Command.isLocal_of_means hmeans hname) hlookups
  · rw [keyspace_dispatch_of_not_means hnone]

end Database

theorem Keyspace.Agree.dispatch {db₁ db₂ : Database} {now : Int} {c₁ c₂ : Clock} {request : Request}
    (h : Agree (Command.named request) db₁.keyspace db₂.keyspace) (h₁ : c₁.Stands now) (h₂ : c₂.Stands now)
    (session : Session) (hname : Command.nameOf request ∉ Command.overAll) :
    let o₁ := db₁.dispatch c₁ session request
    let o₂ := db₂.dispatch c₂ session request
    (o₁.notices = [] → o₂.notices = [] → o₁.result = o₂.result) ∧
      Agree (Command.named request) o₁.database.keyspace o₂.database.keyspace := by
  obtain ⟨command, hs, hmeans⟩ | hnone := Database.exists_means_or_not session request
  · obtain ⟨hreply₁, hsession₁, hks₁⟩ := Database.dispatch_of_means hs hmeans db₁ c₁
    obtain ⟨hreply₂, hsession₂, hks₂⟩ := Database.dispatch_of_means hs hmeans db₂ c₂
    obtain ⟨hres, hagree⟩ := h.run h₁ h₂ db₁.countCommand.report db₂.countCommand.report request
      (Command.isLocal_of_means hmeans hname) (Command.lookups_subset_named hmeans)
    refine ⟨fun hn₁ hn₂ => Prod.ext ?_ (hsession₁.trans hsession₂.symm), ?_⟩
    · rw [hreply₁.eq hn₁, hreply₂.eq hn₂, hres]
    · rw [hks₁, hks₂]
      exact ⟨hagree.loading₁, hagree.loading₂, hagree.find?_eq⟩
  · obtain ⟨result, hresult, _⟩ := Database.exists_result_of_not_means hnone
    refine ⟨fun _ _ => (hresult db₁ c₁).trans (hresult db₂ c₂).symm, ?_⟩
    rw [Database.keyspace_dispatch_of_not_means hnone, Database.keyspace_dispatch_of_not_means hnone]
    exact h

namespace Database

open Keyspace

variable {db : Database} {now : Int} {s₁ s₂ : Session} {r₁ r₂ : Request}

/-- After a request, one that names other keys is answered as before it, and leaves the same at the keys it names. -/
theorem dispatch_after (hl : db.keyspace.loading = false)
    (hl₁ : (db.dispatch (.standing now) s₁ r₁).database.keyspace.loading = false)
    (h₁ : Command.nameOf r₁ ∉ Command.overAll) (h₂ : Command.nameOf r₂ ∉ Command.overAll)
    (hdisjoint : ∀ key ∈ Command.named r₁, key ∉ Command.named r₂) :
    let o := db.dispatch (.standing now) s₂ r₂
    let o' := (db.dispatch (.standing now) s₁ r₁).database.dispatch (.standing now) s₂ r₂
    (o.notices = [] → o'.notices = [] → o.result = o'.result) ∧
      ∀ key ∈ Command.named r₂, o.database.keyspace.entries.find? key = o'.database.keyspace.entries.find? key := by
  have hc := Clock.stands_standing now
  have hagree : Agree (Command.named r₂) db.keyspace (db.dispatch (.standing now) s₁ r₁).database.keyspace :=
    ⟨hl, hl₁, fun key hkey => (find?_dispatch hc s₁ h₁ fun hmem => hdisjoint key hmem hkey).symm⟩
  obtain ⟨hresult, hafter⟩ := hagree.dispatch hc hc s₂ h₂
  exact ⟨hresult, hafter.find?_eq⟩

/-- Two requests that name different keys, neither of them about the whole keyspace, leave the same entries in either
order, and are answered alike if all records are appended. Neither of them changes the entry of a key that it does
not name. -/
theorem disjoint_requests_commute (h : db.keyspace.Reachable) (now : Int) (s₁ s₂ : Session)
    (h₁ : Command.nameOf r₁ ∉ Command.overAll) (h₂ : Command.nameOf r₂ ∉ Command.overAll)
    (hdisjoint : ∀ key ∈ Command.named r₁, key ∉ Command.named r₂) :
    let forth := db.course [(now, .request s₁ r₁), (now, .request s₂ r₂)]
    let back := db.course [(now, .request s₂ r₂), (now, .request s₁ r₁)]
    forth.database.keyspace.entries = back.database.keyspace.entries ∧
    (forth.notices = [] → back.notices = [] → forth.replies = back.replies.reverse) ∧
    ∀ c : Clock, c.Stands now → ∀ key,
      (key ∉ Command.named r₁ →
        (db.dispatch c s₁ r₁).database.keyspace.entries.find? key = db.keyspace.entries.find? key) ∧
      (key ∉ Command.named r₂ →
        (db.dispatch c s₂ r₂).database.keyspace.entries.find? key = db.keyspace.entries.find? key) := by
  intro forth back
  have hc := Clock.stands_standing now
  have hsound := h.sound
  obtain ⟨hresult₂, hentries₂⟩ := dispatch_after hsound.loading (sound_dispatch hsound (.standing now) s₁ r₁).loading
    h₁ h₂ hdisjoint
  obtain ⟨hresult₁, hentries₁⟩ := dispatch_after hsound.loading (sound_dispatch hsound (.standing now) s₂ r₂).loading
    h₂ h₁ fun key hkey hmem => hdisjoint key hmem hkey
  refine ⟨Table.ext_find? fun key => ?_, fun hforth hback => ?_, fun c hc key =>
    ⟨find?_dispatch hc s₁ h₁, find?_dispatch hc s₂ h₂⟩⟩
  · change ((db.dispatch _ s₁ r₁).database.dispatch _ s₂ r₂).database.keyspace.entries.find? key =
      ((db.dispatch _ s₂ r₂).database.dispatch _ s₁ r₁).database.keyspace.entries.find? key
    -- the later request of each course leaves at a key of the earlier one what that one left
    by_cases hkey₁ : key ∈ Command.named r₁
    · rw [find?_dispatch hc s₂ h₂ (hdisjoint key hkey₁)]
      exact hentries₁ key hkey₁
    · rw [find?_dispatch hc s₁ h₁ hkey₁]
      by_cases hkey₂ : key ∈ Command.named r₂
      · exact (hentries₂ key hkey₂).symm
      · rw [find?_dispatch hc s₂ h₂ hkey₂, find?_dispatch hc s₁ h₁ hkey₁, find?_dispatch hc s₂ h₂ hkey₂]
  · simp only [forth, back, course, happen, List.append_nil, List.append_eq_nil_iff] at hforth hback ⊢
    rw [← hresult₂ hback.1 hforth.2, ← hresult₁ hforth.1 hback.2]
    rfl

/-- Counting two keys, one past its deadline, and a push on a third one, in either order. -/
theorem disjoint_requests_commute_of_exists :
    let count : Request := ["EXISTS", "a", "b"]
    let push : Request := ["RPUSH", "l", "x"]
    let db := ((fresh "log" none).course [(1000, .request (.start none) ["SET", "a", "1", "PX", "500"]),
      (1000, .request (.start none) ["SET", "b", "2"])]).database
    let forth := db.course [(1500, .request (.start none) count), (1500, .request (.start none) push)]
    let back := db.course [(1500, .request (.start none) push), (1500, .request (.start none) count)]
    db.keyspace.Reachable ∧ Command.nameOf count ∉ Command.overAll ∧ Command.nameOf push ∉ Command.overAll ∧
    (∀ key ∈ Command.named count, key ∉ Command.named push) ∧ forth.notices = [] ∧ back.notices = [] ∧
    back.replies.map (·.1) = [.integer 1, .integer 1] ∧ forth.replies = back.replies.reverse ∧
    forth.database.keyspace.entries = back.database.keyspace.entries ∧
    (db.dispatch (.standing 1500) (.start none) count).database.keyspace.entries.find? "l" =
      db.keyspace.entries.find? "l" := by
  intro count push db forth back
  have hreachable : db.keyspace.Reachable := .course .empty _
  have hcount : Command.nameOf count ∉ Command.overAll := by decide
  have hpush : Command.nameOf push ∉ Command.overAll := by decide
  have hdisjoint : ∀ key ∈ Command.named count, key ∉ Command.named push := by decide
  have hforth : forth.notices = [] := by decide +kernel
  have hback : back.notices = [] := by decide +kernel
  have hreplies : back.replies.map (·.1) = [.integer 1, .integer 1] := by decide +kernel
  obtain ⟨hentries, hreversed, hkept⟩ :=
    disjoint_requests_commute hreachable 1500 (.start none) (.start none) hcount hpush hdisjoint
  have hother := (hkept (.standing 1500) (Clock.stands_standing 1500) "l").1 (by decide)
  refine ⟨hreachable, hcount, hpush, hdisjoint, hforth, hback, hreplies, hreversed hforth hback, ?_, hother⟩
  simp only [forth, back, hentries]

end Database
end KeyStore
