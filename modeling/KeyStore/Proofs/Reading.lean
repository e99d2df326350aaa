import KeyStore.Command.Run
import KeyStore.Proofs.Numerals

/-!
# What requests spell

The command that a request spells writes if its signature says so, mentions operands of the request
only, and has its durations within the limit (`Command.Spelled`). So it is for each form of operands,
and with that for the whole table of commands.
-/

namespace KeyStore.Command

def writes : Command → Bool
  | flush | set .. | delete _ | increment .. | expireIn .. | expireAt .. | persist _ | edit .. | remove .. => true
  | ping _ | echo _ | info | count | ask .. | exist _ | keys _ | remaining .. => false

def mentions : Command → List Bytes
  | set key value _ => [key, value]
  | delete names | exist names => names
  | ask key _ | remaining key _ | increment key _ | expireIn key _ | expireAt key _ | persist key | edit key _
  | remove key _ => [key]
  | ping _ | echo _ | info | count | flush | keys _ => []

def WithinLimit (ms : Int) : Prop := -durationLimit ≤ ms ∧ ms ≤ durationLimit

/-- What reading makes sure of. -/
def IsProper : Command → Prop
  | set _ _ (some ms) => 0 < ms ∧ WithinLimit ms
  | expireIn _ ms => WithinLimit ms
  | expireAt _ deadline => WithinLimit deadline
  | edit _ (.push _ items) => items ≠ []
  | _ => True

/-- The command fits the operands that it was read from. -/
structure Spelled (writing : Bool) (operands : List Bytes) (command : Command) : Prop where
  writes : command.writes = writing
  mentions : command.mentions.Sublist operands
  proper : command.IsProper

theorem bind_eq_ok {α β : Type} {a : Except CommandError α} {f : α → Except CommandError β} {y : β}
    (h : a >>= f = .ok y) : ∃ x, a = .ok x ∧ f x = .ok y := by
  cases a with
  | error e => cases h
  | ok x => exact ⟨x, rfl, h⟩

theorem map_eq_ok {α β : Type} {a : Except CommandError α} {f : α → β} {y : β} (h : a.map f = .ok y) :
    ∃ x, a = .ok x ∧ f x = y := by
  cases a with
  | error e => cases h
  | ok x => exact ⟨x, rfl, Except.ok.inj h⟩

theorem map_eq_error {α β : Type} {a : Except CommandError α} {f : α → β} {e : CommandError}
    (h : a.map f = .error e) : a = .error e := by
  cases a with
  | error e' => exact congrArg Except.error (Except.error.inj h)
  | ok x => cases h

theorem bind_eq_error {α β : Type} {a : Except CommandError α} {f : α → Except CommandError β}
    (h : a >>= f = .error e) : a = .error e ∨ ∃ x, a = .ok x ∧ f x = .error e := by
  cases a with
  | error e' => exact .inl (congrArg Except.error (Except.error.inj h))
  | ok x => exact .inr ⟨x, rfl, h⟩

theorem withinLimit_of_readDuration {name : Bytes} {amount unit ms : Int} (hunit : 0 < unit)
    (h : readDuration name amount unit = .ok ms) : WithinLimit ms ∧ ms = amount * unit := by
  unfold readDuration at h
  split at h
  · cases h
  · next hlim =>
    cases h
    have hle : amount ≤ durationLimit / unit := by omega
    have hge : -amount ≤ durationLimit / unit := by omega
    have hmul := (Int.le_ediv_iff_mul_le hunit).1 hle
    have hneg := (Int.le_ediv_iff_mul_le hunit).1 hge
    rw [Int.neg_mul] at hneg
    exact ⟨⟨by omega, hmul⟩, rfl⟩

theorem withinLimit_of_readTtl {option amount : Bytes} {ms : Int} (h : readTtl option amount = .ok ms) :
    0 < ms ∧ WithinLimit ms := by
  obtain ⟨n, _, hn⟩ := bind_eq_ok h
  split at hn
  · cases hn
  · split at hn
    · obtain ⟨hlim, rfl⟩ := withinLimit_of_readDuration (by decide) hn
      exact ⟨by omega, hlim⟩
    · split at hn
      · obtain ⟨hlim, rfl⟩ := withinLimit_of_readDuration (by decide) hn
        exact ⟨by omega, hlim⟩
      · cases hn

def Form.Spells (form : Form) (p : List Bytes → Command → Prop) : Prop :=
  ∀ operands command, form operands = some (.ok command) → p operands command

variable {p : List Bytes → Command → Prop}

theorem spells_noOperand {command : Command} (h : p [] command) : (noOperand command).Spells p := by
  intro operands command' heq
  unfold noOperand at heq
  split at heq
  · cases heq
    exact h
  · cases heq

theorem spells_oneOperand {f : Bytes → Command} (h : ∀ a, p [a] (f a)) : (oneOperand f).Spells p := by
  intro operands command heq
  unfold oneOperand at heq
  split at heq
  · cases heq
    exact h _
  · cases heq

theorem spells_twoOperands {f : Bytes → Bytes → Except CommandError Command}
    (h : ∀ a b command, f a b = .ok command → p [a, b] command) : (twoOperands f).Spells p := by
  intro operands command heq
  unfold twoOperands at heq
  split at heq
  · exact h _ _ _ (Option.some.inj heq)
  · cases heq

theorem spells_keyAndSome {f : Bytes → List Bytes → Command}
    (h : ∀ key a rest, p (key :: a :: rest) (f key (a :: rest))) : (keyAndSome f).Spells p := by
  intro operands command heq
  unfold keyAndSome at heq
  split at heq
  · cases heq
    exact h _ _ _
  · cases heq

theorem spells_someOperands {f : List Bytes → Command} (h : ∀ operands, p operands (f operands)) :
    (someOperands f).Spells p := by
  intro operands command heq
  unfold someOperands at heq
  split at heq
  · cases heq
    exact h _
  · cases heq

theorem spells_keyAndPairs {f : Bytes → List (Bytes × Bytes) → Except CommandError Command}
    (h : ∀ key rest fields command, f key fields = .ok command → p (key :: rest) command) :
    (keyAndPairs f).Spells p := by
  intro operands command heq
  unfold keyAndPairs at heq
  split at heq
  · obtain ⟨fields, _, hf⟩ := Option.map_eq_some_iff.1 heq
    exact h _ _ _ _ hf
  · cases heq

theorem spelled_key {writing : Bool} {key : Bytes} {rest : List Bytes} {command : Command}
    (hw : command.writes = writing) (hk : command.mentions = [key]) (hp : command.IsProper) :
    Spelled writing (key :: rest) command :=
  ⟨hw, hk ▸ (List.nil_sublist rest).cons_cons key, hp⟩

theorem spells_asking (query : Query) : (asking query).Spells (Spelled false) :=
  spells_oneOperand fun _ => spelled_key rfl rfl trivial

theorem spells_askingOf (query : Bytes → Query) : (askingOf query).Spells (Spelled false) := by
  refine spells_twoOperands fun key a command h => ?_
  cases h
  exact spelled_key rfl rfl trivial

theorem spells_incrementing (read : Bytes → Except CommandError Int) : (incrementing read).Spells (Spelled true) := by
  refine spells_twoOperands fun key amount command h => ?_
  obtain ⟨delta, _, rfl⟩ := map_eq_ok h
  exact spelled_key rfl rfl trivial

theorem spells_timed (name : Bytes) {unit : Int} (hunit : 0 < unit) {f : Bytes → Int → Command}
    (h : ∀ key ms, WithinLimit ms → Spelled true [key] (f key ms)) :
    (timed name unit f).Spells (Spelled true) := by
  refine spells_twoOperands fun key amount command heq => ?_
  obtain ⟨n, _, hn⟩ := bind_eq_ok heq
  obtain ⟨ms, hms, rfl⟩ := map_eq_ok hn
  have hsp := h key ms (withinLimit_of_readDuration hunit hms).1
  exact { hsp with mentions := hsp.mentions.trans ((List.nil_sublist _).cons_cons key) }

theorem spells_setForm : setForm.Spells (Spelled true) := by
  intro operands command heq
  unfold setForm at heq
  split at heq
  · cases heq
    exact ⟨rfl, List.Sublist.refl _, trivial⟩
  · cases heq
  · obtain ⟨ms, hms, rfl⟩ := map_eq_ok (Option.some.inj heq)
    exact ⟨rfl, ((List.nil_sublist _).cons_cons _).cons_cons _, withinLimit_of_readTtl hms⟩
  · cases heq

theorem spelled_ask_of_map {a : Except CommandError Query} {key : Bytes} {rest : List Bytes} {command : Command}
    (h : a.map (Command.ask key) = .ok command) : Spelled false (key :: rest) command := by
  obtain ⟨query, _, rfl⟩ := map_eq_ok h
  exact spelled_key rfl rfl trivial

theorem spells_listRangeForm : listRangeForm.Spells (Spelled false) := by
  intro operands command heq
  unfold listRangeForm at heq
  split at heq
  · exact spelled_ask_of_map (Option.some.inj heq)
  · cases heq

theorem spells_rankedForm : rankedForm.Spells (Spelled false) := by
  intro operands command heq
  unfold rankedForm at heq
  split at heq
  · exact spelled_ask_of_map (Option.some.inj heq)
  · have h := Option.some.inj heq
    split at h
    · exact spelled_ask_of_map h
    · cases h
  · cases heq

theorem spells_pingForm : pingForm.Spells (Spelled false) := by
  intro operands command heq
  unfold pingForm at heq
  split at heq
  · cases heq
    exact ⟨rfl, List.nil_sublist _, trivial⟩
  · cases heq
    exact ⟨rfl, List.nil_sublist _, trivial⟩
  · cases heq

theorem spells_infoForm : infoForm.Spells (Spelled false) := by
  intro operands command heq
  unfold infoForm at heq
  split at heq
  · cases heq
    exact ⟨rfl, List.nil_sublist _, trivial⟩
  · cases heq
    exact ⟨rfl, List.nil_sublist _, trivial⟩
  · cases heq

theorem spells_hset : (keyAndPairs fun key fields => .ok (.edit key (.setFields fields))).Spells (Spelled true) := by
  refine spells_keyAndPairs fun key rest fields command h => ?_
  cases h
  exact spelled_key rfl rfl trivial

theorem spells_zadd :
    (keyAndPairs fun key members => (readScores members).map fun members =>
      .edit key (.rankMembers members)).Spells (Spelled true) := by
  refine spells_keyAndPairs fun key rest fields command h => ?_
  obtain ⟨members, _, rfl⟩ := map_eq_ok h
  exact spelled_key rfl rfl trivial

/-- Every form of the table reads commands that fit their operands and the signature. -/
theorem spells_of_mem_table : ∀ s ∈ table, s.form.Spells (Spelled s.writes) := by
  have hkey : ∀ {writing : Bool} {f : Bytes → Command}, (∀ key, (f key).writes = writing) →
      (∀ key, (f key).mentions = [key]) → (∀ key, (f key).IsProper) → (oneOperand f).Spells (Spelled writing) :=
    fun hw hm hp => spells_oneOperand fun key => spelled_key (hw key) (hm key) (hp key)
  have hsome : ∀ {f : Bytes → List Bytes → Command}, (∀ key rest, (f key rest).writes = true) →
      (∀ key rest, (f key rest).mentions = [key]) → (∀ key a rest, (f key (a :: rest)).IsProper) →
      (keyAndSome f).Spells (Spelled true) :=
    fun hw hm hp => spells_keyAndSome fun key a rest => spelled_key (hw key _) (hm key _) (hp key a rest)
  simp only [table, List.forall_mem_cons, List.not_mem_nil, false_implies, implies_true, and_true]
  exact ⟨spells_pingForm,
    spells_oneOperand fun _ => ⟨rfl, List.nil_sublist _, trivial⟩,
    spells_infoForm,
    spells_noOperand ⟨rfl, List.nil_sublist _, trivial⟩,
    spells_noOperand ⟨rfl, List.nil_sublist _, trivial⟩,
    spells_asking _,
    spells_setForm,
    spells_someOperands fun _ => ⟨rfl, List.Sublist.refl _, trivial⟩,
    spells_someOperands fun _ => ⟨rfl, List.Sublist.refl _, trivial⟩,
    spells_oneOperand fun _ => ⟨rfl, List.nil_sublist _, trivial⟩,
    spells_asking _,
    hkey (fun _ => rfl) (fun _ => rfl) fun _ => trivial,
    hkey (fun _ => rfl) (fun _ => rfl) fun _ => trivial,
    spells_incrementing _,
    spells_incrementing _,
    spells_timed _ (by decide) fun _ _ h => spelled_key rfl rfl h,
    spells_timed _ (by decide) fun _ _ h => spelled_key rfl rfl h,
    spells_timed _ (by decide) fun _ _ h => spelled_key rfl rfl h,
    hkey (fun _ => rfl) (fun _ => rfl) fun _ => trivial,
    hkey (fun _ => rfl) (fun _ => rfl) fun _ => trivial,
    hkey (fun _ => rfl) (fun _ => rfl) fun _ => trivial,
    hsome (fun _ _ => rfl) (fun _ _ => rfl) fun _ => List.cons_ne_nil,
    hsome (fun _ _ => rfl) (fun _ _ => rfl) fun _ => List.cons_ne_nil,
    hkey (fun _ => rfl) (fun _ => rfl) fun _ => trivial,
    hkey (fun _ => rfl) (fun _ => rfl) fun _ => trivial,
    spells_asking _,
    spells_listRangeForm,
    spells_hset,
    spells_askingOf _,
    spells_asking _,
    spells_asking _,
    spells_asking _,
    hsome (fun _ _ => rfl) (fun _ _ => rfl) fun _ _ _ => trivial,
    spells_asking _,
    spells_askingOf _,
    hsome (fun _ _ => rfl) (fun _ _ => rfl) fun _ _ _ => trivial,
    hsome (fun _ _ => rfl) (fun _ _ => rfl) fun _ _ _ => trivial,
    spells_asking _,
    spells_askingOf _,
    spells_asking _,
    spells_zadd,
    hsome (fun _ _ => rfl) (fun _ _ => rfl) fun _ _ _ => trivial,
    spells_askingOf _,
    spells_rankedForm,
    spells_asking _,
    spells_askingOf _⟩

/-- The command that a request spells fits its operands. -/
theorem spelled_of_read {request : Request} {signature : Signature} {command : Command}
    (h : read request = .ok (signature, command)) : Spelled signature.writes request.tail command := by
  unfold read at h
  simp only at h
  split at h
  · cases h
  · next s hs =>
    split at h
    · cases h
    · next result hform =>
      obtain ⟨command', rfl, heq⟩ := map_eq_ok h
      cases heq
      exact spells_of_mem_table _ (List.mem_of_find?_eq_some hs) _ _ hform

theorem read_deletionRecord {keys : List Bytes} (h : keys ≠ []) :
    ∃ signature, read (deletionRecord keys) = .ok (signature, .delete keys) := by
  cases keys with
  | nil => exact absurd rfl h
  | cons key keys => exact ⟨_, rfl⟩

theorem read_set (key value : Bytes) : ∃ signature, read ["SET", key, value] = .ok (signature, .set key value none) :=
  ⟨_, rfl⟩

theorem read_deadlineRecord (key : Bytes) (d : Int) :
    read (deadlineRecord key d) = (readInt (Numeral.ofInt d) >>= fun amount =>
      (readDuration "pexpireat" amount 1).map (Command.expireAt key)).map
        (⟨"pexpireat", true, timed "pexpireat" 1 .expireAt⟩, ·) := rfl

/-- A deadline record that is accepted spells its deadline. -/
theorem eq_expireAt_of_read {key : Bytes} {d : Int} {signature : Signature} {command : Command}
    (h : read (deadlineRecord key d) = .ok (signature, command)) : command = .expireAt key d := by
  rw [read_deadlineRecord] at h
  obtain ⟨command', hc, heq⟩ := map_eq_ok h
  obtain ⟨n, hn, hc⟩ := bind_eq_ok hc
  obtain ⟨ms, hms, rfl⟩ := map_eq_ok hc
  obtain ⟨_, rfl⟩ := withinLimit_of_readDuration (by decide) hms
  cases heq
  unfold readInt at hn
  split at hn
  · cases hn
  · next m hm =>
    obtain rfl := Except.ok.inj hn
    rw [Int.mul_one, Numeral.eq_of_readInt_ofInt hm]

end KeyStore.Command
