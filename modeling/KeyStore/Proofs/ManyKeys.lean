import KeyStore.Proofs.Actions

/-!
# Commands on many keys

Any command leaves some entries, and has taken out some that were past their deadline
(`Keyspace.Turns`). Deleting keys takes out those that were there; counting them takes out nothing
else. Two keyspaces with the same visible entries give the same answers.
-/

namespace KeyStore

namespace Keyspace

variable {ks ks' ks'' : Keyspace} {now : Int} {c c' c'' : Clock} {keys more : List Bytes} {t u : Table Entry}

/-- The keyspace and the clock after `keys` were found past their deadline, with the entries `t` left. -/
structure Turns (ks : Keyspace) (now : Int) (keys : List Bytes) (t : Table Entry) (ks' : Keyspace)
    (c' : Clock) : Prop where
  entries : ks'.entries = t
  unlogged : ks'.unlogged = ks.unlogged ++ keys
  expired : ks'.expired = ks.expired + keys.length
  loading : ks'.loading = ks.loading
  indexes : Indexes ks.index ks.entries → Indexes ks'.index ks'.entries
  clock : c'.Stands now
  elapsed : ∀ key ∈ keys, ks.loading = false ∧ ∃ e, ks.entries.find? key = some e ∧ e.hasElapsed now = true

theorem turns_self (ks : Keyspace) (hc : c.Stands now) : ks.Turns now [] ks.entries ks c where
  entries := rfl
  unlogged := (List.append_nil _).symm
  expired := rfl
  loading := rfl
  indexes := id
  clock := hc
  elapsed := by simp

theorem Leaves.turns {key : Bytes} {x : Option Entry} (h : ks.Leaves now key x ks' c') :
    ks.Turns now (ks.stale now key) (ks.entries.put key x) ks' c' where
  entries := h.entries
  unlogged := h.unlogged
  expired := h.expired
  loading := h.loading
  indexes := h.indexes
  clock := h.clock
  elapsed := fun _ hk => (hasElapsed_of_mem_stale hk).2

/-- One operation after another, if the first one added nothing. -/
theorem Turns.trans (h : ks.Turns now keys t ks' c') (hsub : t ⊆ ks.entries)
    (h' : ks'.Turns now more u ks'' c'') : ks.Turns now (keys ++ more) u ks'' c'' where
  entries := h'.entries
  unlogged := by rw [h'.unlogged, h.unlogged, List.append_assoc]
  expired := by rw [h'.expired, h.expired, List.length_append, Nat.add_assoc]
  loading := h'.loading.trans h.loading
  indexes := fun hi => h'.indexes (h.indexes hi)
  clock := h'.clock
  elapsed := by
    intro key hkey
    rcases List.mem_append.1 hkey with hkey | hkey
    · exact h.elapsed key hkey
    · obtain ⟨hload, e, he, hel⟩ := h'.elapsed key hkey
      exact ⟨h.loading ▸ hload, e, hsub key e (h.entries ▸ he), hel⟩

theorem put_look (ks : Keyspace) (now : Int) (key : Bytes) :
    ks.entries.put key (ks.look now key) = ks.entries.eraseAll (ks.stale now key) := by
  simp only [stale]
  split
  · next h => exact Table.put_eq_self h.symm
  · next h =>
    have hnone : ks.look now key = none := by
      simp only [look] at h ⊢
      split
      · next hl => exact absurd (if_pos hl) h
      · next hl =>
        rw [if_neg hl] at h
        cases he : ks.entries.find? key with
        | none => rfl
        | some e =>
          cases hel : e.hasElapsed now with
          | true => simp [Option.filter, hel]
          | false => simp [he, Option.filter, hel] at h
    rw [hnone]
    rfl

end Keyspace

namespace Command

open Keyspace

variable {ks : Keyspace} {now : Int} {c : Clock}

/-- What deleting keys does: those it gives were there, the others were not or past their deadline. -/
structure Deletes (ks : Keyspace) (now : Int) (names : List Bytes) (evicted : List Bytes)
    (a : After (List Bytes)) : Prop where
  turns : ks.Turns now evicted ((ks.entries.eraseAll evicted).eraseAll a.result) a.keyspace a.clock
  sublist : a.result.Sublist names
  gone : ∀ key ∈ names, a.keyspace.entries.find? key = none

theorem exists_deletes (ks : Keyspace) (hc : c.Stands now) (names : List Bytes) :
    ∃ evicted, Deletes ks now names evicted (deleteAll ks c names) := by
  induction names generalizing ks c with
  | nil => exact ⟨[], ks.turns_self hc, List.Sublist.refl _, by simp⟩
  | cons name names ih =>
    obtain ⟨hres, hl⟩ := ks.does_delete hc name
    simp only [Action.delete] at hres hl
    obtain ⟨evicted, h⟩ := ih (ks.delete c name).keyspace hl.clock
    have hent : (ks.delete c name).keyspace.entries = ks.entries.erase name := hl.entries
    have hgone : ∀ k, (deleteAll ks c (name :: names)).keyspace.entries.find? k =
        if k ∈ evicted ∨ k ∈ (deleteAll (ks.delete c name).keyspace (ks.delete c name).clock names).result
        then none else if k = name then none else ks.entries.find? k := by
      intro k
      simp only [deleteAll]
      rw [h.turns.entries, Table.find?_eraseAll, Table.find?_eraseAll, hent, Table.find?_erase]
      grind
    -- the key is among those given, those evicted, or was not there
    have hname : name ∈ (deleteAll ks c (name :: names)).result ∨ name ∈ ks.stale now name ∨
        ks.entries.find? name = none := by
      simp only [deleteAll, hres]
      cases hlook : ks.look now name with
      | some e => simp
      | none =>
        refine Or.inr ?_
        simp only [stale]
        split
        · next heq => exact Or.inr (heq ▸ hlook)
        · exact Or.inl (List.mem_singleton.2 rfl)
    have hstale : ∀ k ∈ ks.stale now name, k = name := fun k hk => (hasElapsed_of_mem_stale hk).1
    have hsub : ks.entries.put name none ⊆ ks.entries := Table.eraseAll_subset ks.entries [name]
    refine ⟨ks.stale now name ++ evicted, ?_, ?_, ?_⟩
    · have hturns := hl.turns.trans hsub h.turns
      have heq : (deleteAll ks c (name :: names)).keyspace.entries =
          (ks.entries.eraseAll (ks.stale now name ++ evicted)).eraseAll
            (deleteAll ks c (name :: names)).result := by
        refine Table.ext_find? fun k => ?_
        rw [hgone, Table.find?_eraseAll, Table.find?_eraseAll]
        simp only [deleteAll, List.mem_append] at hname ⊢
        split <;> grind
      exact { hturns with entries := heq }
    · simp only [deleteAll]
      split
      · exact h.sublist.cons_cons name
      · exact h.sublist.cons name
    · intro k hk
      rw [hgone]
      rcases List.mem_cons.1 hk with rfl | hk
      · simp
      · have hnone := h.gone k hk
        rw [h.turns.entries, Table.find?_eraseAll, Table.find?_eraseAll, hent, Table.find?_erase] at hnone
        grind

theorem exists_turns_countAll (ks : Keyspace) (hc : c.Stands now) (n : Nat) (names : List Bytes) :
    ∃ evicted, ks.Turns now evicted (ks.entries.eraseAll evicted) (countAll ks c n names).keyspace
      (countAll ks c n names).clock := by
  induction names generalizing ks c n with
  | nil => exact ⟨[], ks.turns_self hc⟩
  | cons name names ih =>
    have hl := (ks.does_contains hc name).2
    simp only [Action.contains] at hl
    have hturns := hl.turns
    rw [put_look] at hturns
    obtain ⟨evicted, h⟩ := ih (ks.contains c name).keyspace hl.clock (if (ks.contains c name).result then n + 1 else n)
    refine ⟨ks.stale now name ++ evicted, ?_⟩
    have hboth := hturns.trans (Table.eraseAll_subset _ _) h
    rw [hturns.entries, ← Table.eraseAll_append] at hboth
    exact hboth

end Command

namespace Keyspace

/-- Two keyspaces in which the same can be seen. -/
structure Alike (now : Int) (ks₁ ks₂ : Keyspace) : Prop where
  loading₁ : ks₁.loading = false
  loading₂ : ks₂.loading = false
  visible : ks₁.visible now = ks₂.visible now

variable {ks ks' ks₁ ks₂ : Keyspace} {now : Int} {c c' c₁ c₂ : Clock} {key : Bytes}

theorem Alike.look (h : Alike now ks₁ ks₂) (key : Bytes) : ks₁.look now key = ks₂.look now key := by
  rw [look_of_not_loading h.loading₁, look_of_not_loading h.loading₂, h.visible]

theorem filter_put (t : Table Entry) (key : Bytes) (x : Option Entry) (p : Entry → Bool) :
    (t.put key x).filter p = (t.filter p).put key (x.filter p) := by
  refine Table.ext_find? fun k => ?_
  rw [Table.find?_filter, Table.find?_put, Table.find?_put, Table.find?_filter]
  split <;> rfl

theorem Leaves.visible {x : Option Entry} (h : ks.Leaves now key x ks' c') :
    ks'.visible now = (ks.visible now).put key (x.filter (!·.hasElapsed now)) := by
  rw [Keyspace.visible, h.entries, filter_put]
  rfl

theorem Alike.does {α : Type} {act : Action α} {a₁ a₂ : After α} (h : Alike now ks₁ ks₂)
    (h₁ : ks₁.Does now key act a₁) (h₂ : ks₂.Does now key act a₂) :
    a₁.result = a₂.result ∧ Alike now a₁.keyspace a₂.keyspace := by
  have hlook := h.look key
  refine ⟨by rw [h₁.1, h₂.1, hlook], ?_, ?_, ?_⟩
  · rw [h₁.2.loading, h.loading₁]
  · rw [h₂.2.loading, h.loading₂]
  · rw [h₁.2.visible, h₂.2.visible, h.visible, hlook]

theorem Alike.deleteAll (h : Alike now ks₁ ks₂) (h₁ : c₁.Stands now) (h₂ : c₂.Stands now) (names : List Bytes) :
    (Command.deleteAll ks₁ c₁ names).result = (Command.deleteAll ks₂ c₂ names).result ∧
      Alike now (Command.deleteAll ks₁ c₁ names).keyspace (Command.deleteAll ks₂ c₂ names).keyspace := by
  induction names generalizing ks₁ ks₂ c₁ c₂ with
  | nil => exact ⟨rfl, h⟩
  | cons name names ih =>
    have hd₁ := ks₁.does_delete h₁ name
    have hd₂ := ks₂.does_delete h₂ name
    obtain ⟨hres, halike⟩ := h.does hd₁ hd₂
    obtain ⟨hrest, hafter⟩ := ih halike hd₁.2.clock hd₂.2.clock
    refine ⟨?_, hafter⟩
    simp only [Command.deleteAll]
    rw [hres, hrest]

theorem Alike.countAll (h : Alike now ks₁ ks₂) (h₁ : c₁.Stands now) (h₂ : c₂.Stands now) (n : Nat)
    (names : List Bytes) :
    (Command.countAll ks₁ c₁ n names).result = (Command.countAll ks₂ c₂ n names).result ∧
      Alike now (Command.countAll ks₁ c₁ n names).keyspace (Command.countAll ks₂ c₂ n names).keyspace := by
  induction names generalizing ks₁ ks₂ c₁ c₂ n with
  | nil => exact ⟨rfl, h⟩
  | cons name names ih =>
    have hd₁ := ks₁.does_contains h₁ name
    have hd₂ := ks₂.does_contains h₂ name
    obtain ⟨hres, halike⟩ := h.does hd₁ hd₂
    simp only [Command.countAll]
    rw [hres]
    exact ih halike hd₁.2.clock hd₂.2.clock _

theorem visible_eq_empty_of_size_eq_zero (h : ks.size = 0) (now : Int) : ks.visible now = ∅ := by
  refine Table.ext_find? fun k => ?_
  rw [find?_visible, Table.size_eq_zero_iff.1 h k]
  rfl

theorem visible_clear (ks : Keyspace) (now : Int) : ks.clear.visible now = ∅ := rfl

theorem keysMatching_eq (ks : Keyspace) (c : Clock) (pattern : Bytes) :
    (ks.keysMatching c pattern).result =
      ((ks.visible c.now).entries.filter fun x => selects pattern x.1).map (·.1) := by
  simp only [keysMatching, Clock.read, visible, Table.filter, List.filter_filter]
  refine congrArg _ (List.filter_congr fun x _ => ?_)
  rw [Bool.and_comm]

/-- Where a command looks the keyspace up through its keys, it answers the same on keyspaces that look
alike, and leaves them so. -/
theorem Alike.run (h : Alike now ks₁ ks₂) (h₁ : c₁.Stands now) (h₂ : c₂.Stands now)
    (report₁ report₂ : Keyspace → Bytes) (request : Request) {command : Command} (hinfo : command ≠ .info)
    (hcount : command ≠ .count) :
    (command.run report₁ request ks₁ c₁).result.map (·.reply) =
        (command.run report₂ request ks₂ c₂).result.map (·.reply) ∧
      Alike now (command.run report₁ request ks₁ c₁).keyspace (command.run report₂ request ks₂ c₂).keyspace := by
  cases hact : command.action? request now false with
  | some p =>
    obtain ⟨key, act⟩ := p
    obtain ⟨hres, halike⟩ := h.does (ks₁.does_run h₁ report₁ (h.loading₁ ▸ hact))
      (ks₂.does_run h₂ report₂ (h.loading₂ ▸ hact))
    exact ⟨by rw [hres], halike⟩
  | none =>
    cases command with
    | ping message => cases message <;> exact ⟨rfl, h⟩
    | echo message => exact ⟨rfl, h⟩
    | info => exact absurd rfl hinfo
    | count => exact absurd rfl hcount
    | flush =>
      simp only [Command.run]
      split <;> split
      · exact ⟨rfl, h⟩
      · next hzero _ =>
        refine ⟨rfl, h.loading₁, h.loading₂, ?_⟩
        rw [visible_clear, visible_eq_empty_of_size_eq_zero hzero]
      · next hzero =>
        refine ⟨rfl, h.loading₁, h.loading₂, ?_⟩
        rw [visible_clear, visible_eq_empty_of_size_eq_zero hzero]
      · exact ⟨rfl, h.loading₁, h.loading₂, rfl⟩
    | exist names =>
      obtain ⟨hres, halike⟩ := h.countAll h₁ h₂ 0 names
      simp only [Command.run]
      exact ⟨by rw [hres], halike⟩
    | keys pattern =>
      simp only [Command.run]
      refine ⟨?_, h⟩
      rw [keysMatching_eq, keysMatching_eq, h₁.now_eq, h₂.now_eq, h.visible]
    | delete names =>
      obtain ⟨hres, halike⟩ := h.deleteAll h₁ h₂ names
      simp only [Command.run]
      exact ⟨by rw [hres], halike⟩
    | _ => simp [Command.action?] at hact

end Keyspace
end KeyStore
