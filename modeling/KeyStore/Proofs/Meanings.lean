import KeyStore.Proofs.Reading

/-!
# What requests mean

The grammar of requests: a name, and operands that are the key and some words behind it. It says without the table of
commands which command a name and operands mean (`Command.Means`), and it is what the table reads
(`Command.read_eq_ok_iff`).
-/

namespace KeyStore.Command

inductive Asks : Bytes → List Bytes → Query → Prop
  | get : Asks "get" [] .get
  | kind : Asks "type" [] .kind
  | listLength : Asks "llen" [] .listLength
  | listRange {a b : Bytes} {start stop : Int} (ha : Numeral.readInt a = some start)
      (hb : Numeral.readInt b = some stop) : Asks "lrange" [a, b] (.listRange start stop)
  | field (name : Bytes) : Asks "hget" [name] (.field name)
  | fields : Asks "hgetall" [] .fields
  | fieldNames : Asks "hkeys" [] .fieldNames
  | fieldValues : Asks "hvals" [] .fieldValues
  | fieldCount : Asks "hlen" [] .fieldCount
  | hasField (name : Bytes) : Asks "hexists" [name] (.hasField name)
  | members : Asks "smembers" [] .members
  | hasMember (member : Bytes) : Asks "sismember" [member] (.hasMember member)
  | memberCount : Asks "scard" [] .memberCount
  | score (member : Bytes) : Asks "zscore" [member] (.score member)
  | ranked {a b : Bytes} {start stop : Int} (ha : Numeral.readInt a = some start)
      (hb : Numeral.readInt b = some stop) : Asks "zrange" [a, b] (.ranked start stop false)
  | rankedWithScores {a b option : Bytes} {start stop : Int} (ho : option.upper = "WITHSCORES")
      (ha : Numeral.readInt a = some start) (hb : Numeral.readInt b = some stop) :
      Asks "zrange" [a, b, option] (.ranked start stop true)
  | rankedCount : Asks "zcard" [] .rankedCount
  | rank (member : Bytes) : Asks "zrank" [member] (.rank member)

inductive Adds : Bytes → List Bytes → Int → Prop
  | one : Adds "incr" [] 1
  | minusOne : Adds "decr" [] (-1)
  | amount {amount : Bytes} {n : Int} (hn : Numeral.readInt amount = some n) : Adds "incrby" [amount] n
  | minusAmount {amount : Bytes} {n : Int} (hn : Numeral.readInt amount = some n) (hmin : n ≠ minInt64) :
      Adds "decrby" [amount] (-n)

def unpaired (pairs : List (Bytes × Bytes)) : List Bytes := pairs.flatMap fun (a, b) => [a, b]

inductive Edits : Bytes → List Bytes → Edit → Prop
  | pushLeft (item : Bytes) (more : List Bytes) : Edits "lpush" (item :: more) (.push .left (item :: more))
  | pushRight (item : Bytes) (more : List Bytes) : Edits "rpush" (item :: more) (.push .right (item :: more))
  | setFields (field : Bytes × Bytes) (more : List (Bytes × Bytes)) :
      Edits "hset" (unpaired (field :: more)) (.setFields (field :: more))
  | addMembers (member : Bytes) (more : List Bytes) : Edits "sadd" (member :: more) (.addMembers (member :: more))
  | rankMembers {member : Bytes × Bytes} {more : List (Bytes × Bytes)} {ranked : List (Score × Bytes)}
      (h : readScores (member :: more) = .ok ranked) : Edits "zadd" (unpaired (member :: more)) (.rankMembers ranked)

inductive Removes : Bytes → List Bytes → Removal → Prop
  | popLeft : Removes "lpop" [] (.pop .left)
  | popRight : Removes "rpop" [] (.pop .right)
  | fields (name : Bytes) (more : List Bytes) : Removes "hdel" (name :: more) (.fields (name :: more))
  | members (member : Bytes) (more : List Bytes) : Removes "srem" (member :: more) (.members (member :: more))
  | ranked (member : Bytes) (more : List Bytes) : Removes "zrem" (member :: more) (.ranked (member :: more))

/-- An amount of a unit of so many milliseconds is within the limit. -/
def Affordable (unit amount : Int) : Prop := -(durationLimit / unit) ≤ amount ∧ amount ≤ durationLimit / unit

instance (unit amount : Int) : Decidable (Affordable unit amount) := inferInstanceAs (Decidable (_ ∧ _))

/-- The command that a name in lower case and operands mean. -/
inductive Means : Bytes → List Bytes → Command → Prop
  | ping : Means "ping" [] (.ping none)
  | pingWith (message : Bytes) : Means "ping" [message] (.ping (some message))
  | echo (message : Bytes) : Means "echo" [message] (.echo message)
  | info : Means "info" [] .info
  | infoOn (part : Bytes) : Means "info" [part] .info
  | count : Means "dbsize" [] .count
  | flush : Means "flushdb" [] .flush
  | keys (pattern : Bytes) : Means "keys" [pattern] (.keys pattern)
  | exist (key : Bytes) (more : List Bytes) : Means "exists" (key :: more) (.exist (key :: more))
  | delete (key : Bytes) (more : List Bytes) : Means "del" (key :: more) (.delete (key :: more))
  | remainingSeconds (key : Bytes) : Means "ttl" [key] (.remaining key true)
  | remaining (key : Bytes) : Means "pttl" [key] (.remaining key false)
  | set (key value : Bytes) : Means "set" [key, value] (.set key value none)
  | setSeconds {key value option amount : Bytes} {n : Int} (ho : option.upper = "EX")
      (hn : Numeral.readInt amount = some n) (hpos : 0 < n) (hlim : Affordable 1000 n) :
      Means "set" [key, value, option, amount] (.set key value (some (n * 1000)))
  | setMilliseconds {key value option amount : Bytes} {n : Int} (ho : option.upper = "PX")
      (hn : Numeral.readInt amount = some n) (hpos : 0 < n) (hlim : Affordable 1 n) :
      Means "set" [key, value, option, amount] (.set key value (some n))
  | expireIn {key amount : Bytes} {n : Int} (hn : Numeral.readInt amount = some n) (hlim : Affordable 1000 n) :
      Means "expire" [key, amount] (.expireIn key (n * 1000))
  | expireAtSecond {key amount : Bytes} {n : Int} (hn : Numeral.readInt amount = some n) (hlim : Affordable 1000 n) :
      Means "expireat" [key, amount] (.expireAt key (n * 1000))
  | expireAt {key amount : Bytes} {n : Int} (hn : Numeral.readInt amount = some n) (hlim : Affordable 1 n) :
      Means "pexpireat" [key, amount] (.expireAt key n)
  | persist (key : Bytes) : Means "persist" [key] (.persist key)
  | ask {name : Bytes} {words : List Bytes} {query : Query} (key : Bytes) (h : Asks name words query) :
      Means name (key :: words) (.ask key query)
  | increment {name : Bytes} {words : List Bytes} {delta : Int} (key : Bytes) (h : Adds name words delta) :
      Means name (key :: words) (.increment key delta)
  | edit {name : Bytes} {words : List Bytes} {e : Edit} (key : Bytes) (h : Edits name words e) :
      Means name (key :: words) (.edit key e)
  | remove {name : Bytes} {words : List Bytes} {r : Removal} (key : Bytes) (h : Removes name words r) :
      Means name (key :: words) (.remove key r)

theorem pairsFrom_unpaired (fields done : List (Bytes × Bytes)) :
    pairsFrom done (unpaired fields) = some (done.reverse ++ fields) := by
  induction fields generalizing done with
  | nil => simp [unpaired, pairsFrom]
  | cons field fields ih =>
    have h := ih (field :: done)
    simpa [unpaired, pairsFrom] using h

theorem pairs_unpaired (fields : List (Bytes × Bytes)) : pairs (unpaired fields) = some fields :=
  pairsFrom_unpaired fields []

theorem eq_of_pairsFrom {done fields : List (Bytes × Bytes)} {operands : List Bytes}
    (h : pairsFrom done operands = some fields) : ∃ more, fields = done.reverse ++ more ∧ operands = unpaired more := by
  fun_induction pairsFrom done operands with
  | case1 done => exact ⟨[], by simpa using h.symm, rfl⟩
  | case2 => cases h
  | case3 done a b rest ih =>
    obtain ⟨more, rfl, rfl⟩ := ih h
    exact ⟨(a, b) :: more, by simp, rfl⟩

theorem unpaired_of_pairs {fields : List (Bytes × Bytes)} {operands : List Bytes} (h : pairs operands = some fields) :
    operands = unpaired fields := by
  obtain ⟨more, rfl, rfl⟩ := eq_of_pairsFrom h
  rfl

theorem readInt_eq_ok_iff {s : Bytes} {n : Int} : readInt s = .ok n ↔ Numeral.readInt s = some n := by
  unfold readInt
  split <;> simp_all

theorem readDuration_eq_ok_iff {name : Bytes} {amount unit ms : Int} :
    readDuration name amount unit = .ok ms ↔ Affordable unit amount ∧ ms = amount * unit := by
  unfold readDuration Affordable
  split <;> simp <;> omega

theorem readDecrement_eq_ok_iff {s : Bytes} {n : Int} :
    readDecrement s = .ok n ↔ ∃ m, Numeral.readInt s = some m ∧ m ≠ minInt64 ∧ n = -m := by
  constructor
  · intro h
    obtain ⟨m, hm, hn⟩ := bind_eq_ok h
    split at hn
    · cases hn
    · next hmin => exact ⟨m, readInt_eq_ok_iff.1 hm, hmin, (Except.ok.inj hn).symm⟩
  · rintro ⟨m, hm, hmin, rfl⟩
    simp [readDecrement, readInt_eq_ok_iff.2 hm, bind, Except.bind, hmin]

theorem readRange_eq_ok_iff {a b : Bytes} {f : Int → Int → Query} {query : Query} :
    readRange a b f = .ok query ↔
      ∃ start stop, Numeral.readInt a = some start ∧ Numeral.readInt b = some stop ∧ query = f start stop := by
  constructor
  · intro h
    obtain ⟨start, ha, h⟩ := bind_eq_ok h
    obtain ⟨stop, hb, h⟩ := bind_eq_ok h
    exact ⟨start, stop, readInt_eq_ok_iff.1 ha, readInt_eq_ok_iff.1 hb, (Except.ok.inj h).symm⟩
  · rintro ⟨start, stop, ha, hb, rfl⟩
    simp [readRange, readInt_eq_ok_iff.2 ha, readInt_eq_ok_iff.2 hb, bind, Except.bind]

theorem readTtl_eq_ok_iff {option amount : Bytes} {ms : Int} :
    readTtl option amount = .ok ms ↔ ∃ n, Numeral.readInt amount = some n ∧ 0 < n ∧
      (option.upper = "EX" ∧ Affordable 1000 n ∧ ms = n * 1000 ∨
        option.upper = "PX" ∧ Affordable 1 n ∧ ms = n) := by
  constructor
  · intro h
    obtain ⟨n, hn, h⟩ := bind_eq_ok h
    refine ⟨n, readInt_eq_ok_iff.1 hn, ?_⟩
    split at h
    · cases h
    · next hpos =>
      refine ⟨by omega, ?_⟩
      split at h
      · next ho => exact .inl ⟨ho, readDuration_eq_ok_iff.1 h⟩
      · split at h
        · next ho =>
          obtain ⟨hlim, rfl⟩ := readDuration_eq_ok_iff.1 h
          exact .inr ⟨ho, hlim, Int.mul_one n⟩
        · cases h
  · rintro ⟨n, hn, hpos, h⟩
    have hle : ¬ n ≤ 0 := by omega
    simp only [readTtl, readInt_eq_ok_iff.2 hn, bind, Except.bind, hle, if_false]
    rcases h with ⟨ho, hlim, rfl⟩ | ⟨ho, hlim, rfl⟩
    · rw [if_pos ho]
      exact readDuration_eq_ok_iff.2 ⟨hlim, rfl⟩
    · have hne : ¬ option.upper = "EX" := by
        rw [ho]
        decide
      rw [if_neg hne, if_pos ho]
      exact readDuration_eq_ok_iff.2 ⟨hlim, (Int.mul_one ms).symm⟩

theorem timed_eq_ok {name amount : Bytes} {unit n ms : Int} {f : Bytes → Int → Command} (key : Bytes)
    (hn : Numeral.readInt amount = some n) (hlim : Affordable unit n) (hms : n * unit = ms) :
    timed name unit f [key, amount] = some (.ok (f key ms)) := by
  simp [timed, twoOperands, readInt_eq_ok_iff.2 hn, readDuration_eq_ok_iff.2 ⟨hlim, hms.symm⟩, bind, Except.bind,
    Except.map]

theorem Asks.exists_form {name : Bytes} {words : List Bytes} {query : Query} (h : Asks name words query) (key : Bytes) :
    ∃ signature, signature? name = some signature ∧ signature.form (key :: words) = some (.ok (.ask key query)) := by
  cases h with
  | listRange ha hb =>
    have hrange := readRange_eq_ok_iff (f := Query.listRange) |>.2 ⟨_, _, ha, hb, rfl⟩
    exact ⟨_, rfl, by simp [listRangeForm, hrange, Except.map]⟩
  | ranked ha hb =>
    have hrange := readRange_eq_ok_iff (f := fun a b => Query.ranked a b false) |>.2 ⟨_, _, ha, hb, rfl⟩
    exact ⟨_, rfl, by simp [rankedForm, hrange, Except.map]⟩
  | rankedWithScores ho ha hb =>
    have hrange := readRange_eq_ok_iff (f := fun a b => Query.ranked a b true) |>.2 ⟨_, _, ha, hb, rfl⟩
    exact ⟨_, rfl, by simp [rankedForm, ho, hrange, Except.map]⟩
  | _ => exact ⟨_, rfl, rfl⟩

theorem Adds.exists_form {name : Bytes} {words : List Bytes} {delta : Int} (h : Adds name words delta) (key : Bytes) :
    ∃ signature, signature? name = some signature ∧
      signature.form (key :: words) = some (.ok (.increment key delta)) := by
  cases h with
  | one => exact ⟨_, rfl, rfl⟩
  | minusOne => exact ⟨_, rfl, rfl⟩
  | amount hn => exact ⟨_, rfl, by simp [incrementing, twoOperands, readInt_eq_ok_iff.2 hn, Except.map]⟩
  | minusAmount hn hmin =>
    have hread := readDecrement_eq_ok_iff.2 ⟨_, hn, hmin, rfl⟩
    exact ⟨_, rfl, by simp [incrementing, twoOperands, hread, Except.map]⟩

theorem keyAndPairs_unpaired (f : Bytes → List (Bytes × Bytes) → Except CommandError Command) (key : Bytes)
    (field : Bytes × Bytes) (more : List (Bytes × Bytes)) :
    keyAndPairs f (key :: unpaired (field :: more)) = some (f key (field :: more)) := by
  have h : pairs (field.1 :: field.2 :: unpaired more) = some (field :: more) := pairs_unpaired (field :: more)
  change keyAndPairs f (key :: field.1 :: field.2 :: unpaired more) = _
  simp [keyAndPairs, h]

theorem Edits.exists_form {name : Bytes} {words : List Bytes} {e : Edit} (h : Edits name words e) (key : Bytes) :
    ∃ signature, signature? name = some signature ∧ signature.form (key :: words) = some (.ok (.edit key e)) := by
  cases h with
  | setFields field more => exact ⟨_, rfl, by simp only [keyAndPairs_unpaired]⟩
  | rankMembers h => exact ⟨_, rfl, by simp only [keyAndPairs_unpaired, h, Except.map]⟩
  | _ => exact ⟨_, rfl, rfl⟩

theorem Removes.exists_form {name : Bytes} {words : List Bytes} {r : Removal} (h : Removes name words r) (key : Bytes) :
    ∃ signature, signature? name = some signature ∧ signature.form (key :: words) = some (.ok (.remove key r)) := by
  cases h <;> exact ⟨_, rfl, rfl⟩

theorem Means.exists_form {name : Bytes} {operands : List Bytes} {command : Command} (h : Means name operands command) :
    ∃ signature, signature? name = some signature ∧ signature.form operands = some (.ok command) := by
  cases h with
  | setSeconds ho hn hpos hlim =>
    have httl := readTtl_eq_ok_iff.2 ⟨_, hn, hpos, .inl ⟨ho, hlim, rfl⟩⟩
    exact ⟨_, rfl, by simp [setForm, httl, Except.map]⟩
  | setMilliseconds ho hn hpos hlim =>
    have httl := readTtl_eq_ok_iff.2 ⟨_, hn, hpos, .inr ⟨ho, hlim, rfl⟩⟩
    exact ⟨_, rfl, by simp [setForm, httl, Except.map]⟩
  | expireIn hn hlim => exact ⟨_, rfl, timed_eq_ok _ hn hlim rfl⟩
  | expireAtSecond hn hlim => exact ⟨_, rfl, timed_eq_ok _ hn hlim rfl⟩
  | expireAt hn hlim => exact ⟨_, rfl, timed_eq_ok _ hn hlim (Int.mul_one _)⟩
  | ask key h => exact h.exists_form key
  | increment key h => exact h.exists_form key
  | edit key h => exact h.exists_form key
  | remove key h => exact h.exists_form key
  | _ => exact ⟨_, rfl, rfl⟩

theorem spells_asking_means {name : Bytes} {query : Query} (h : Asks name [] query) :
    (asking query).Spells (Means name) :=
  spells_oneOperand fun key => .ask key h

theorem spells_askingOf_means {name : Bytes} {query : Bytes → Query} (h : ∀ a, Asks name [a] (query a)) :
    (askingOf query).Spells (Means name) := by
  refine spells_twoOperands fun key a command heq => ?_
  cases heq
  exact .ask key (h a)

theorem spells_timed_means {name : Bytes} {unit : Int} {f : Bytes → Int → Command}
    (h : ∀ key amount n, Numeral.readInt amount = some n → Affordable unit n →
      Means name [key, amount] (f key (n * unit))) : (timed name unit f).Spells (Means name) := by
  refine spells_twoOperands fun key amount command heq => ?_
  obtain ⟨n, hn, heq⟩ := bind_eq_ok heq
  obtain ⟨ms, hms, rfl⟩ := map_eq_ok heq
  obtain ⟨hlim, rfl⟩ := readDuration_eq_ok_iff.1 hms
  exact h key amount n (readInt_eq_ok_iff.1 hn) hlim

theorem spells_someOperands_means {name : Bytes} {f : List Bytes → Command}
    (h : ∀ a rest, Means name (a :: rest) (f (a :: rest))) : (someOperands f).Spells (Means name) := by
  intro operands command heq
  unfold someOperands at heq
  split at heq
  · cases heq
    exact h _ _
  · cases heq

theorem spells_keyAndPairs_means {name : Bytes} {f : Bytes → List (Bytes × Bytes) → Except CommandError Command}
    (h : ∀ key field more command, f key (field :: more) = .ok command →
      Means name (key :: unpaired (field :: more)) command) : (keyAndPairs f).Spells (Means name) := by
  intro operands command heq
  unfold keyAndPairs at heq
  split at heq
  · obtain ⟨fields, hfields, hf⟩ := Option.map_eq_some_iff.1 heq
    have hwords := unpaired_of_pairs hfields
    rw [hwords]
    cases fields with
    | nil => cases hwords
    | cons field more => exact h _ field more command hf
  · cases heq

theorem spells_setForm_means : setForm.Spells (Means "set") := by
  intro operands command heq
  unfold setForm at heq
  split at heq
  · cases heq
    exact .set _ _
  · cases heq
  · obtain ⟨ms, hms, rfl⟩ := map_eq_ok (Option.some.inj heq)
    obtain ⟨n, hn, hpos, ⟨ho, hlim, rfl⟩ | ⟨ho, hlim, rfl⟩⟩ := readTtl_eq_ok_iff.1 hms
    · exact .setSeconds ho hn hpos hlim
    · exact .setMilliseconds ho hn hpos hlim
  · cases heq

theorem spells_incrementing_means {name : Bytes} {read : Bytes → Except CommandError Int}
    (h : ∀ amount delta, read amount = .ok delta → Adds name [amount] delta) :
    (incrementing read).Spells (Means name) := by
  refine spells_twoOperands fun key amount command heq => ?_
  obtain ⟨delta, hdelta, rfl⟩ := map_eq_ok heq
  exact .increment key (h amount delta hdelta)

theorem spells_pingForm_means : pingForm.Spells (Means "ping") := by
  intro operands command heq
  unfold pingForm at heq
  split at heq
  · cases heq
    exact .ping
  · cases heq
    exact .pingWith _
  · cases heq

theorem spells_infoForm_means : infoForm.Spells (Means "info") := by
  intro operands command heq
  unfold infoForm at heq
  split at heq
  · cases heq
    exact .info
  · cases heq
    exact .infoOn _
  · cases heq

theorem spells_listRangeForm_means : listRangeForm.Spells (Means "lrange") := by
  intro operands command heq
  unfold listRangeForm at heq
  split at heq
  · obtain ⟨query, hquery, rfl⟩ := map_eq_ok (Option.some.inj heq)
    obtain ⟨start, stop, ha, hb, rfl⟩ := readRange_eq_ok_iff.1 hquery
    exact .ask _ (.listRange ha hb)
  · cases heq

theorem spells_rankedForm_means : rankedForm.Spells (Means "zrange") := by
  intro operands command heq
  unfold rankedForm at heq
  split at heq
  · obtain ⟨query, hquery, rfl⟩ := map_eq_ok (Option.some.inj heq)
    obtain ⟨start, stop, ha, hb, rfl⟩ := readRange_eq_ok_iff.1 hquery
    exact .ask _ (.ranked ha hb)
  · have h := Option.some.inj heq
    split at h
    · next ho =>
      obtain ⟨query, hquery, rfl⟩ := map_eq_ok h
      obtain ⟨start, stop, ha, hb, rfl⟩ := readRange_eq_ok_iff.1 hquery
      exact .ask _ (.rankedWithScores ho ha hb)
    · cases h
  · cases heq

/-- Every form of the table reads what its name and the operands mean. -/
theorem spells_means_of_mem_table : ∀ s ∈ table, s.form.Spells (Means s.name) := by
  have hedit : ∀ {name : Bytes} {e : List Bytes → Edit}, (∀ a rest, Edits name (a :: rest) (e (a :: rest))) →
      (keyAndSome fun key items => .edit key (e items)).Spells (Means name) :=
    fun h => spells_keyAndSome fun key a rest => .edit key (h a rest)
  have hremove : ∀ {name : Bytes} {r : List Bytes → Removal}, (∀ a rest, Removes name (a :: rest) (r (a :: rest))) →
      (keyAndSome fun key items => .remove key (r items)).Spells (Means name) :=
    fun h => spells_keyAndSome fun key a rest => .remove key (h a rest)
  simp only [table, List.forall_mem_cons, List.not_mem_nil, false_implies, implies_true, and_true]
  exact ⟨spells_pingForm_means,
    spells_oneOperand .echo,
    spells_infoForm_means,
    spells_noOperand .count,
    spells_noOperand .flush,
    spells_asking_means .get,
    spells_setForm_means,
    spells_someOperands_means .delete,
    spells_someOperands_means .exist,
    spells_oneOperand .keys,
    spells_asking_means .kind,
    spells_oneOperand fun key => .increment key .one,
    spells_oneOperand fun key => .increment key .minusOne,
    spells_incrementing_means fun _ _ h => .amount (readInt_eq_ok_iff.1 h),
    spells_incrementing_means fun _ _ h => by
      obtain ⟨n, hn, hmin, rfl⟩ := readDecrement_eq_ok_iff.1 h
      exact .minusAmount hn hmin,
    spells_timed_means fun _ _ _ hn hlim => .expireIn hn hlim,
    spells_timed_means fun _ _ _ hn hlim => .expireAtSecond hn hlim,
    spells_timed_means fun _ _ n hn hlim => (Int.mul_one n).symm ▸ .expireAt hn hlim,
    spells_oneOperand .remainingSeconds,
    spells_oneOperand .remaining,
    spells_oneOperand .persist,
    hedit .pushLeft,
    hedit .pushRight,
    spells_oneOperand fun key => .remove key .popLeft,
    spells_oneOperand fun key => .remove key .popRight,
    spells_asking_means .listLength,
    spells_listRangeForm_means,
    spells_keyAndPairs_means fun key field more command h => by
      cases h
      exact .edit key (.setFields field more),
    spells_askingOf_means .field,
    spells_asking_means .fields,
    spells_asking_means .fieldNames,
    spells_asking_means .fieldValues,
    hremove .fields,
    spells_asking_means .fieldCount,
    spells_askingOf_means .hasField,
    hedit .addMembers,
    hremove .members,
    spells_asking_means .members,
    spells_askingOf_means .hasMember,
    spells_asking_means .memberCount,
    spells_keyAndPairs_means fun key member more command h => by
      obtain ⟨ranked, hranked, rfl⟩ := map_eq_ok h
      exact .edit key (.rankMembers hranked),
    hremove .ranked,
    spells_askingOf_means .score,
    spells_rankedForm_means,
    spells_asking_means .rankedCount,
    spells_askingOf_means .rank⟩

/-- The table reads requests as what they mean, and refuses all others. -/
theorem read_eq_ok_iff {request : Request} {command : Command} :
    (∃ signature, read request = .ok (signature, command)) ↔ Means (nameOf request) request.tail command := by
  constructor
  · rintro ⟨signature, h⟩
    unfold read at h
    simp only at h
    split at h
    · cases h
    · next s hs =>
      split at h
      · cases h
      · next result hform =>
        obtain ⟨command', rfl, heq⟩ := map_eq_ok h
        cases heq
        have hname : signature.name = nameOf request := by simpa using List.find?_some hs
        exact hname ▸ spells_means_of_mem_table signature (List.mem_of_find?_eq_some hs) _ _ hform
  · intro h
    obtain ⟨signature, hs, hform⟩ := h.exists_form
    refine ⟨signature, ?_⟩
    simp only [read, hs, hform]
    rfl

end KeyStore.Command
