import KeyStore.Proofs.Courses
import KeyStore.Proofs.Grammar
import KeyStore.Proofs.Partitions
import KeyStore.Proofs.Reading
import KeyStore.Proofs.Reads

/-!
# Replies to requests in frames

A client that sends frames gets a reply to each request that is handled. All replies are well-formed but for one: an
unknown name is quoted as it was sent, so it can bring the end of a line into the text of the error
(`Database.oneLine_dispatch_iff`). Just then the client does not read back what it was sent
(`Connection.decodes_serve_iff`).
-/

namespace KeyStore

namespace Bytes

theorem untilNul_append {s : Bytes} (h : (0 : UInt8) ∉ s) (t : Bytes) : untilNul (s ++ t) = s ++ untilNul t := by
  refine List.takeWhile_append_of_pos fun b hb => ?_
  have hne : b ≠ 0 := fun hzero => h (hzero ▸ hb)
  simpa using hne

theorem not_mem_untilNul {s : Bytes} {b : UInt8} (h : b ∉ s) : b ∉ untilNul s :=
  fun hb => h ((List.takeWhile_sublist _).subset hb)

end Bytes

namespace CommandError

def quoted : CommandError → Bytes
  | unknownCommand name | wrongArgumentCount name | invalidExpireTime name => name
  | _ => []

theorem isLine_quoting {front : Bytes} (h : (13 : UInt8) ∉ front) (hnul : (0 : UInt8) ∉ front) (name : Bytes) :
    (Bytes.untilNul (front ++ name ++ "'")).IsLine ↔ name.untilNul.IsLine := by
  rw [List.append_assoc, Bytes.untilNul_append hnul, Bytes.isLine_append_left h]
  simp only [Bytes.untilNul, List.takeWhile_append]
  split
  · next hwhole =>
    have hname : name.takeWhile (· != 0) = name := List.IsPrefix.eq_of_length (List.takeWhile_prefix _) hwhole
    rw [hname]
    exact Bytes.isLine_append_right (by decide) (by decide)
  · rfl

theorem isLine_message_iff (e : CommandError) : e.message.IsLine ↔ e.quoted.untilNul.IsLine := by
  have hnumber : ∀ n : Int, (13 : UInt8) ∉ Numeral.ofInt n := fun n =>
    Numeral.not_mem_ofInt (by decide) (by decide) n
  have hplain : ∀ {s : Bytes}, (13 : UInt8) ∉ s → (s.untilNul.IsLine ↔ Bytes.IsLine []) := fun h =>
    iff_of_true (Bytes.isLine_of_not_mem (Bytes.not_mem_untilNul h)) (by decide)
  cases e with
  | unknownCommand name => exact isLine_quoting (by decide) (by decide) name
  | wrongArgumentCount name => exact isLine_quoting (by decide) (by decide) name
  | invalidExpireTime name => exact isLine_quoting (by decide) (by decide) name
  | invalidPassword failures limit =>
    refine hplain ?_
    simp only [wording, List.mem_append, hnumber, or_false]
    decide
  | tooManyAttempts failures limit =>
    refine hplain ?_
    simp only [wording, List.mem_append, hnumber, or_false]
    decide
  | _ => exact hplain (by decide +kernel)

/-- A cause that quotes no name in which there is a carriage return. -/
def IsPlain (e : CommandError) : Prop := (13 : UInt8) ∉ e.quoted

instance (e : CommandError) : Decidable e.IsPlain := inferInstanceAs (Decidable (¬ _))

theorem IsPlain.isLine {e : CommandError} (h : e.IsPlain) : e.message.IsLine :=
  e.isLine_message_iff.2 (Bytes.isLine_of_not_mem (Bytes.not_mem_untilNul h))

end CommandError

namespace Command

open CommandError

variable {e : CommandError}

theorem isPlain_of_readInt {s : Bytes} (h : readInt s = .error e) : e.IsPlain := by
  unfold readInt at h
  split at h
  · cases h
    decide
  · cases h

theorem isPlain_of_readDecrement {s : Bytes} (h : readDecrement s = .error e) : e.IsPlain := by
  rcases bind_eq_error h with h | ⟨n, -, h⟩
  · exact isPlain_of_readInt h
  · split at h
    · cases h
      decide
    · cases h

theorem isPlain_of_readDuration {name : Bytes} (hname : (13 : UInt8) ∉ name) {amount unit : Int}
    (h : readDuration name amount unit = .error e) : e.IsPlain := by
  unfold readDuration at h
  split at h
  · cases h
    exact hname
  · cases h

theorem isPlain_of_readTtl {option amount : Bytes} (h : readTtl option amount = .error e) : e.IsPlain := by
  rcases bind_eq_error h with h | ⟨n, -, h⟩
  · exact isPlain_of_readInt h
  · split at h
    · cases h
      decide
    · split at h
      · exact isPlain_of_readDuration (by decide) h
      · split at h
        · exact isPlain_of_readDuration (by decide) h
        · cases h
          decide

theorem isPlain_of_readRange {start stop : Bytes} {f : Int → Int → Query} (h : readRange start stop f = .error e) :
    e.IsPlain := by
  rcases bind_eq_error h with h | ⟨n, -, h⟩
  · exact isPlain_of_readInt h
  · rcases bind_eq_error h with h | ⟨m, -, h⟩
    · exact isPlain_of_readInt h
    · cases h

theorem isPlain_of_readScores {members : List (Bytes × Bytes)} (h : readScores members = .error e) : e.IsPlain := by
  induction members with
  | nil => cases h
  | cons x members ih =>
    simp only [readScores, List.mapM_cons] at h ih
    rcases bind_eq_error h with h | ⟨y, -, h⟩
    · have hscore := map_eq_error h
      unfold readScore at hscore
      split at hscore
      · cases hscore
        decide
      · cases hscore
    · rcases bind_eq_error h with h | ⟨ys, -, h⟩
      · exact ih h
      · cases h

def Form.IsPlain (form : Form) : Prop := ∀ operands e, form operands = some (.error e) → e.IsPlain

theorem isPlain_noOperand (command : Command) : (noOperand command).IsPlain := by
  intro operands e h
  unfold noOperand at h
  split at h <;> cases h

theorem isPlain_oneOperand (f : Bytes → Command) : (oneOperand f).IsPlain := by
  intro operands e h
  unfold oneOperand at h
  split at h <;> cases h

theorem isPlain_twoOperands {f : Bytes → Bytes → Except CommandError Command}
    (hf : ∀ a b e, f a b = .error e → e.IsPlain) : (twoOperands f).IsPlain := by
  intro operands e h
  unfold twoOperands at h
  split at h
  · exact hf _ _ e (Option.some.inj h)
  · cases h

theorem isPlain_keyAndSome (f : Bytes → List Bytes → Command) : (keyAndSome f).IsPlain := by
  intro operands e h
  unfold keyAndSome at h
  split at h <;> cases h

theorem isPlain_someOperands (f : List Bytes → Command) : (someOperands f).IsPlain := by
  intro operands e h
  unfold someOperands at h
  split at h <;> cases h

theorem isPlain_keyAndPairs {f : Bytes → List (Bytes × Bytes) → Except CommandError Command}
    (hf : ∀ key fields e, f key fields = .error e → e.IsPlain) : (keyAndPairs f).IsPlain := by
  intro operands e h
  unfold keyAndPairs at h
  split at h
  · obtain ⟨fields, -, hfields⟩ := Option.map_eq_some_iff.1 h
    exact hf _ fields e hfields
  · cases h

theorem isPlain_pingForm : pingForm.IsPlain := by
  intro operands e h
  unfold pingForm at h
  split at h <;> cases h

theorem isPlain_infoForm : infoForm.IsPlain := by
  intro operands e h
  unfold infoForm at h
  split at h <;> cases h

theorem isPlain_setForm : setForm.IsPlain := by
  intro operands e h
  unfold setForm at h
  split at h
  · cases h
  · cases h
    decide
  · exact isPlain_of_readTtl (map_eq_error (Option.some.inj h))
  · cases h

theorem isPlain_listRangeForm : listRangeForm.IsPlain := by
  intro operands e h
  unfold listRangeForm at h
  split at h
  · exact isPlain_of_readRange (map_eq_error (Option.some.inj h))
  · cases h

theorem isPlain_rankedForm : rankedForm.IsPlain := by
  intro operands e h
  unfold rankedForm at h
  split at h
  · exact isPlain_of_readRange (map_eq_error (Option.some.inj h))
  · have h := Option.some.inj h
    split at h
    · exact isPlain_of_readRange (map_eq_error h)
    · cases h
      decide
  · cases h

theorem isPlain_askingOf (query : Bytes → Query) : (askingOf query).IsPlain :=
  isPlain_twoOperands fun _ _ _ h => by cases h

theorem isPlain_incrementing {read : Bytes → Except CommandError Int} (hread : ∀ s e, read s = .error e → e.IsPlain) :
    (incrementing read).IsPlain := isPlain_twoOperands fun _ _ e h => hread _ e (map_eq_error h)

theorem isPlain_timed {name : Bytes} (hname : (13 : UInt8) ∉ name) (unit : Int) (f : Bytes → Int → Command) :
    (timed name unit f).IsPlain := by
  refine isPlain_twoOperands fun key amount e h => ?_
  rcases bind_eq_error h with h | ⟨n, -, h⟩
  · exact isPlain_of_readInt h
  · exact isPlain_of_readDuration hname (map_eq_error h)

theorem isPlain_of_mem_table : ∀ s ∈ table, s.form.IsPlain := by
  have hset : (keyAndPairs fun key fields => .ok (.edit key (.setFields fields))).IsPlain :=
    isPlain_keyAndPairs fun _ _ _ h => by cases h
  have hrank : (keyAndPairs fun key members => (readScores members).map fun members =>
      .edit key (.rankMembers members)).IsPlain :=
    isPlain_keyAndPairs fun _ _ _ h => isPlain_of_readScores (map_eq_error h)
  have hint : (incrementing readInt).IsPlain := isPlain_incrementing fun _ _ h => isPlain_of_readInt h
  have hdecrement : (incrementing readDecrement).IsPlain := isPlain_incrementing fun _ _ h => isPlain_of_readDecrement h
  simp only [table, List.forall_mem_cons, List.not_mem_nil, false_implies, implies_true, and_true, asking]
  -- every command has one of the forms above
  and_intros
  all_goals first
    | exact isPlain_oneOperand _
    | exact isPlain_keyAndSome _
    | exact isPlain_askingOf _
    | exact isPlain_someOperands _
    | exact isPlain_noOperand _
    | exact isPlain_timed (by decide) _ _
    | assumption
    | exact isPlain_pingForm
    | exact isPlain_infoForm
    | exact isPlain_setForm
    | exact isPlain_listRangeForm
    | exact isPlain_rankedForm

theorem not_mem_name_of_mem_table : ∀ s ∈ table, (13 : UInt8) ∉ s.name := by decide +kernel

/-- A request is refused for a plain cause, unless there is no command of its name. -/
theorem isPlain_of_read_error {request : Request} (h : read request = .error e) :
    e = .unknownCommand (nameOf request) ∧ signature? (nameOf request) = none ∨
      e.IsPlain ∧ (13 : UInt8) ∉ nameOf request := by
  unfold read at h
  simp only at h
  split at h
  · next hnone =>
    cases h
    exact .inl ⟨rfl, hnone⟩
  · next s hs =>
    have hmem := List.mem_of_find?_eq_some hs
    have hname : s.name = nameOf request := by simpa using List.find?_some hs
    have hplain : (13 : UInt8) ∉ nameOf request := hname ▸ not_mem_name_of_mem_table s hmem
    refine .inr ⟨?_, hplain⟩
    split at h
    · cases h
      exact hplain
    · next hform =>
      have herror := map_eq_error h
      exact isPlain_of_mem_table s hmem _ e (herror ▸ hform)

theorem not_mem_of_read_ok {request : Request} {signature : Signature} {command : Command}
    (h : read request = .ok (signature, command)) : (13 : UInt8) ∉ nameOf request := by
  unfold read at h
  simp only at h
  split at h
  · cases h
  · next s hs =>
    have hname : s.name = nameOf request := by simpa using List.find?_some hs
    exact hname ▸ not_mem_name_of_mem_table s (List.mem_of_find?_eq_some hs)

end Command

/-- What comes of a request is a reply of which no text has the end of a line, or a plain cause. -/
def WellFormed : Except CommandError Reply → Prop
  | .ok reply => reply.OneLine
  | .error e => e.IsPlain

theorem Keyspace.wellFormed_expect {k : Kind} {v : Option Value} {f : Option k.Content → Reply}
    (hf : ∀ x, (f x).OneLine) : WellFormed ((expect k v).map f) := by
  unfold expect
  split
  · exact hf none
  · split
    · exact (by decide : CommandError.typeMismatch.IsPlain)
    · exact hf _

namespace Query

theorem oneLine_bulkOrNil (x : Option Bytes) : (bulkOrNil x).OneLine := by cases x <;> trivial

theorem oneLine_integerOrNil (x : Option Nat) : (integerOrNil x).OneLine := by cases x <;> trivial

theorem isLine_kindName (v : Option Value) : (kindName v).IsLine := by
  cases v with
  | none => decide
  | some v =>
    have hname : ∀ k : Kind, k.name.IsLine := by
      intro k
      cases k <;> decide
    exact hname v.kind

theorem wellFormed_answer (query : Query) (v : Option Value) : WellFormed (query.answer v) := by
  cases query with
  | kind => exact isLine_kindName v
  | get => exact Keyspace.wellFormed_expect (k := .string) oneLine_bulkOrNil
  | field name => exact Keyspace.wellFormed_expect fun _ => oneLine_bulkOrNil _
  | score member => exact Keyspace.wellFormed_expect fun _ => oneLine_bulkOrNil _
  | rank member => exact Keyspace.wellFormed_expect fun _ => oneLine_integerOrNil _
  | _ => exact Keyspace.wellFormed_expect fun _ => trivial

end Query

namespace Command

variable {ks : Keyspace} {c : Clock} {request : Request}

theorem wellFormed_changed {k : Kind} {key : Bytes} {f : k.Content → k.Content × Reply × Bool}
    (hf : ∀ x, (f x).2.1.OneLine) : WellFormed ((changed request (ks.modify c k key f)).result.map (·.reply)) := by
  simp only [changed, Keyspace.modify]
  split
  · exact hf _
  · next e _ =>
    cases e.value.as? k with
    | none => exact (by decide : CommandError.typeMismatch.IsPlain)
    | some x => exact hf x

theorem wellFormed_runEdit (key : Bytes) (e : Edit) :
    WellFormed ((runEdit ks c request key e).result.map (·.reply)) :=
  wellFormed_changed fun x => by cases e <;> trivial

theorem wellFormed_runRemoval (key : Bytes) (r : Removal) :
    WellFormed ((runRemoval ks c request key r).result.map (·.reply)) := by
  simp only [runRemoval]
  split
  · next e he =>
    have hfind : WellFormed ((ks.find c r.kind key).result.map fun _ => Reply.nil) :=
      Keyspace.wellFormed_expect fun _ => trivial
    rw [he] at hfind
    exact hfind
  · cases r <;> trivial
  · exact wellFormed_changed fun x => by cases r <;> trivial

/-- The error of a sum that there is not is plain. -/
theorem wellFormed_increment (ks : Keyspace) (c : Clock) (key : Bytes) (delta : Int) :
    WellFormed ((ks.increment c key delta).result.map fun sum => .integer sum) := by
  have hinteger : ∀ v e, Keyspace.integer v = .error e → e.IsPlain := by
    intro v e h
    unfold Keyspace.integer at h
    split at h
    · cases h
    · split at h <;> cases h
      decide
    · cases h
      decide
  simp only [Keyspace.increment]
  split
  · next e he =>
    rcases bind_eq_error he with h | ⟨n, -, h⟩
    · exact hinteger _ e h
    · unfold Keyspace.addInt at h
      split at h <;> cases h
      exact (by decide : CommandError.notAnInteger.IsPlain)
  · trivial

theorem wellFormed_run (report : Keyspace → Bytes) (command : Command) :
    WellFormed ((command.run report request ks c).result.map (·.reply)) := by
  cases command with
  | ping message => cases message <;> first | exact (by decide : Bytes.IsLine "PONG") | trivial
  | flush =>
    simp only [run]
    split <;> exact (by decide : Bytes.IsLine "OK")
  | set key value ttl => exact (by decide : Bytes.IsLine "OK")
  | ask key query =>
    have hanswer := query.wellFormed_answer (ks.get c key).result
    simp only [run]
    cases hres : query.answer (ks.get c key).result with
    | error e =>
      rw [hres] at hanswer
      exact hanswer
    | ok reply =>
      rw [hres] at hanswer
      exact hanswer
  | increment key delta =>
    have hsum := wellFormed_increment ks c key delta
    simp only [run]
    cases hres : (ks.increment c key delta).result with
    | error e =>
      rw [hres] at hsum
      exact hsum
    | ok sum => trivial
  | expireIn key ms =>
    simp only [run, always, applyDeadline]
    split <;> trivial
  | expireAt key deadline =>
    simp only [run, always, applyDeadline]
    split <;> trivial
  | edit key e => exact wellFormed_runEdit key e
  | remove key r => exact wellFormed_runRemoval key r
  | _ => trivial

end Command

theorem CommandError.IsPlain.oneLine {e : CommandError} (h : e.IsPlain) : (Reply.error e.message).OneLine := h.isLine

theorem Session.oneLine_authenticate (s : Session) (attempt : Bytes) : (s.authenticate attempt).1.OneLine := by
  unfold authenticate
  split
  · exact CommandError.IsPlain.oneLine (by decide)
  · split
    · exact CommandError.IsPlain.oneLine List.not_mem_nil
    · split
      · exact (by decide : Reply.ok.OneLine)
      · simp only [refusal]
        split <;> exact CommandError.IsPlain.oneLine List.not_mem_nil

namespace Database

/-- The request is let through, and there is the end of a line in its name before the first NUL byte. -/
def Forges (session : Session) (request : Request) : Prop :=
  session.isAuthenticated = true ∧ ¬ (Command.nameOf request).untilNul.IsLine

instance (session : Session) (request : Request) : Decidable (Forges session request) :=
  inferInstanceAs (Decidable (_ ∧ _))

theorem not_forges_of_not_mem {session : Session} {request : Request} (h : (13 : UInt8) ∉ Command.nameOf request) :
    ¬ Forges session request :=
  fun hforges => hforges.2 (Bytes.isLine_of_not_mem (Bytes.not_mem_untilNul h))

theorem wellFormed_execute {db : Database} {c : Clock} {request : Request} {signature : Command.Signature}
    {command : Command} (h : Command.read request = .ok (signature, command)) :
    WellFormed (db.execute c request false).result := by
  rw [execute_live h]
  simp only
  split
  · exact Command.wellFormed_run db.report command
  · exact (by decide : CommandError.persistenceFailure.IsPlain)

/-- What the database says to a request that it runs is well-formed, but for the quoted name of a command that there
is not. -/
theorem oneLine_execute_iff (db : Database) (c : Clock) (request : Request) :
    (replyOf (db.execute c request false).result).OneLine ↔ (Command.nameOf request).untilNul.IsLine := by
  have hline : (13 : UInt8) ∉ Command.nameOf request → (Command.nameOf request).untilNul.IsLine :=
    fun h => Bytes.isLine_of_not_mem (Bytes.not_mem_untilNul h)
  cases hread : Command.read request with
  | error e =>
    simp only [execute, hread]
    rcases Command.isPlain_of_read_error hread with ⟨rfl, -⟩ | ⟨hplain, hname⟩
    · exact CommandError.isLine_message_iff (.unknownCommand _)
    · exact iff_of_true hplain.oneLine (hline hname)
  | ok p =>
    have hwell : WellFormed (db.execute c request false).result := wellFormed_execute hread
    refine iff_of_true ?_ (hline (Command.not_mem_of_read_ok hread))
    cases hres : (db.execute c request false).result with
    | ok reply =>
      rw [hres] at hwell
      exact hwell
    | error e =>
      rw [hres] at hwell
      exact hwell.oneLine

/-- A session runs a request only once it has the password, and then its reply is that of the database. -/
theorem oneLine_dispatch_iff (db : Database) (c : Clock) (session : Session) {request : Request} (hne : request ≠ []) :
    (db.dispatch c session request).result.1.OneLine ↔ ¬ Forges session request := by
  obtain ⟨name, operands, rfl⟩ := List.exists_cons_of_ne_nil hne
  by_cases hauth : Command.nameOf (name :: operands) = "auth"
  · have hname : (13 : UInt8) ∉ Command.nameOf (name :: operands) := by
      rw [hauth]
      decide
    refine iff_of_true ?_ (not_forges_of_not_mem hname)
    simp only [dispatch, if_pos hauth]
    split
    · exact session.oneLine_authenticate _
    · exact CommandError.IsPlain.oneLine (by decide)
  · simp only [dispatch, if_neg hauth, Forges]
    cases hs : session.isAuthenticated with
    | false => exact iff_of_true (CommandError.IsPlain.oneLine (by decide)) fun hforges => Bool.false_ne_true hforges.1
    | true =>
      simp only [if_true, true_and, Classical.not_not]
      exact oneLine_execute_iff db.countCommand c (name :: operands)

end Database

namespace Connection

structure Answered where
  session : Session
  request : Request
  reply : Reply

def replyTo (k : Connection) (request : Request) : Reply :=
  if isQuit request then .ok else (k.database.dispatch k.clock k.session request).result.1

/-- Those of the requests that are answered, one after another: all up to one that ends the connection. -/
def answered (k : Connection) : List Request → List Answered
  | [] => []
  | request :: rest =>
    let s := k.treat .frame request
    ⟨k.session, request, k.replyTo request⟩ :: if s.progress = .handled then answered s.connection rest else []

def overflow : Reply := .error "request too large"

variable {k : Connection} {request : Request}

theorem out_treat (k : Connection) (hne : request ≠ []) :
    (k.treat .frame request).out = (k.replyTo request).toFrame := by
  simp only [treat, replyTo, List.isEmpty_iff, hne, if_false]
  split
  · rfl
  · simp only [answer]
    split <;> rfl

theorem not_mem_of_isQuit (h : isQuit request = true) : (13 : UInt8) ∉ Command.nameOf request := by
  unfold isQuit at h
  split at h
  · next name =>
    have hname : name.lower = "quit" ∨ name.lower = "exit" := by simpa using h
    have hof : Command.nameOf [name] = name.lower := rfl
    rcases hname with hname | hname <;> (rw [hof, hname]; decide)
  · cases h

theorem oneLine_replyTo_iff (k : Connection) (hne : request ≠ []) :
    (k.replyTo request).OneLine ↔ ¬ Database.Forges k.session request := by
  unfold replyTo
  split
  · next hquit => exact iff_of_true (by decide) (Database.not_forges_of_not_mem (not_mem_of_isQuit hquit))
  · exact Database.oneLine_dispatch_iff _ _ _ hne

theorem oneLine_answered_iff {requests : List Request} (h : ∀ request ∈ requests, request ≠ []) :
    ∀ a ∈ k.answered requests, a.reply.OneLine ↔ ¬ Database.Forges a.session a.request := by
  induction requests generalizing k with
  | nil => simp [answered]
  | cons request requests ih =>
    obtain ⟨hne, hrest⟩ := List.forall_mem_cons.1 h
    simp only [answered, List.forall_mem_cons]
    refine ⟨k.oneLine_replyTo_iff hne, ?_⟩
    split
    · exact ih hrest
    · simp

/-- The requests that are answered are the first ones. -/
theorem requests_answered (k : Connection) (requests : List Request) :
    (k.answered requests).map (·.request) <+: requests := by
  induction requests generalizing k with
  | nil => exact List.prefix_rfl
  | cons request requests ih =>
    simp only [answered, List.map_cons, List.prefix_cons_inj]
    split
    · exact ih _
    · exact List.nil_prefix

theorem answered_withBuffer (k : Connection) (buffer : Bytes) (requests : List Request) :
    { k with buffer }.answered requests = k.answered requests := by
  induction requests generalizing k with
  | nil => rfl
  | cons request requests ih =>
    have hrest := ih (k.treat .frame request).connection
    simp only [answered, treat_withBuffer, Served.withBuffer, hrest]
    rfl

/-- Of frames that have arrived up to a place, requests are answered until one ends the connection, or the rest is the
beginning of the next one. -/
theorem exists_serveAll_of_parted {s more : Bytes} {frames : List (Bytes × List Bytes)}
    (h : Frame.Parted (s ++ more) frames []) (hfull : ∀ f ∈ frames, f.2 ≠ []) :
    let t := k.serveAll s
    ∃ front : List Answered, t.out = (front.map (·.reply)).flatMap Reply.toFrame ∧
      (t.progress = .closed ∧ k.answered (frames.map (·.2)) = front ∨
        t.progress = .waiting ∧ ∃ pending, Frame.Parted (t.connection.buffer ++ more) pending [] ∧
          (∀ f ∈ pending, f.2 ≠ []) ∧
          k.answered (frames.map (·.2)) = front ++ t.connection.answered (pending.map (·.2))) := by
  induction k, s using serveAll_induction generalizing frames with
  | incomplete k s hread =>
    simp only [serveAll_of_incomplete hread]
    exact ⟨[], rfl, .inr ⟨trivial, frames, h, hfull, (answered_withBuffer k s _).symm⟩⟩
  | malformed k s hread => exact absurd (Incoming.read_of_malformed hread more) (Incoming.read_parted_ne_malformed h)
  | handled k s dialect request rest hread ht ih =>
    obtain ⟨first, frames, rfl, rfl, hrest⟩ := Incoming.exists_of_read_parted h (Incoming.read_more hread more)
    obtain ⟨hne, hfull⟩ := List.forall_mem_cons.1 hfull
    obtain ⟨front, hout, hend⟩ := ih hrest hfull
    simp only [serveAll_of_handled hread ht, Served.andThen, List.map_cons, answered, ht, if_true]
    refine ⟨⟨k.session, request, k.replyTo request⟩ :: front, ?_, ?_⟩
    · rw [hout, k.out_treat hne]
      rfl
    · rcases hend with ⟨hclosed, hall⟩ | ⟨hwait, pending, hpending, hfull, hall⟩
      · exact .inl ⟨hclosed, by rw [hall]⟩
      · exact .inr ⟨hwait, pending, hpending, hfull, by rw [hall]; rfl⟩
  | closed k s dialect request rest hread ht =>
    obtain ⟨first, frames, rfl, rfl, hrest⟩ := Incoming.exists_of_read_parted h (Incoming.read_more hread more)
    have hne := (List.forall_mem_cons.1 hfull).1
    simp only [serveAll_of_closed hread ht, List.map_cons, answered, ht]
    exact ⟨[⟨k.session, request, k.replyTo request⟩], by simpa [Served.withBuffer] using k.out_treat hne,
      .inl ⟨ht, rfl⟩⟩

/-- All the answers to a stream are given; or those before one whose request grew too large, and that is said in its
place. -/
inductive Given (stream : Bytes) : (all given : List Answered) → (ending : List Reply) → Prop
  | all (given : List Answered) : Given stream given given []
  | cut (hlarge : ¬ Incoming.Fits requestLimit stream) (given : List Answered) (a : Answered) (behind : List Answered) :
    Given stream (given ++ a :: behind) given [overflow]

namespace Given

variable {stream stream' : Bytes} {all given : List Answered} {ending : List Reply}

theorem behind (front : List Answered) (h : Given stream all given ending)
    (hfits : Incoming.Fits requestLimit stream' → Incoming.Fits requestLimit stream) :
    Given stream' (front ++ all) (front ++ given) ending := by
  cases h with
  | all given => exact .all _
  | cut hlarge given a behind =>
    rw [← List.append_assoc]
    exact .cut (mt hfits hlarge) _ a behind

theorem isPrefix (h : Given stream all given ending) : given <+: all := by
  cases h with
  | all given => exact List.prefix_rfl
  | cut hlarge given a behind => exact List.prefix_append given _

theorem oneLine_ending (h : Given stream all given ending) : ∀ reply ∈ ending, reply.OneLine := by
  cases h with
  | all given => exact List.forall_mem_nil _
  | cut hlarge given a behind => exact List.forall_mem_singleton.2 (by decide)

theorem eq_of_fits (h : Given stream all given ending) (hfits : Incoming.Fits requestLimit stream) :
    given = all ∧ ending = [] := by
  cases h with
  | all given => exact ⟨rfl, rfl⟩
  | cut hlarge given a behind => exact absurd hfits hlarge

end Given

theorem eq_nil_of_incomplete {s : Bytes} {frames : List (Bytes × List Bytes)} (h : Frame.Parted s frames [])
    (hread : Incoming.read s = .incomplete) : frames = [] := by
  induction h using Frame.Parted.induction with
  | nil _ => rfl
  | cons front items rest frames hfront _ _ => simp [Incoming.read_of_frame hfront] at hread

theorem receive_of_large {bytes : Bytes} (hwait : (k.serveAll (k.buffer ++ bytes)).progress = .waiting)
    (hlarge : requestLimit < (k.serveAll (k.buffer ++ bytes)).connection.buffer.length) :
    k.receive bytes =
      { k.serveAll (k.buffer ++ bytes) with
        out := (k.serveAll (k.buffer ++ bytes)).out ++ overflow.toFrame, progress := .closed } := by
  rw [receive_eq]
  exact if_pos ⟨hwait, hlarge⟩

/-- One read of frames: the connection ends with what is given, or the answers to the rest are still to be given. -/
theorem exists_receive_of_parted {bytes more : Bytes} {frames : List (Bytes × List Bytes)}
    (h : Frame.Parted (k.buffer ++ bytes ++ more) frames []) (hfull : ∀ f ∈ frames, f.2 ≠ []) :
    let t := k.receive bytes
    ∃ (front : List Answered) (ending : List Reply), t.out = (front.map (·.reply) ++ ending).flatMap Reply.toFrame ∧
      (t.progress = .closed ∧
          Given (k.buffer ++ bytes ++ more) (k.answered (frames.map (·.2))) front ending ∨
        t.progress = .waiting ∧ ending = [] ∧ ∃ pending, Frame.Parted (t.connection.buffer ++ more) pending [] ∧
          (∀ f ∈ pending, f.2 ≠ []) ∧
          k.answered (frames.map (·.2)) = front ++ t.connection.answered (pending.map (·.2))) := by
  obtain ⟨front, hout, hend⟩ := k.exists_serveAll_of_parted h hfull
  rcases hend with ⟨hclosed, hall⟩ | ⟨hwait, pending, hpending, hrest, hall⟩
  · have hreceive : k.receive bytes = k.serveAll (k.buffer ++ bytes) := by
      rw [receive_eq]
      exact if_neg (by simp [hclosed])
    rw [hreceive, hall]
    exact ⟨front, [], by simpa using hout, .inl ⟨hclosed, .all front⟩⟩
  · by_cases hlarge : requestLimit < (k.serveAll (k.buffer ++ bytes)).connection.buffer.length
    · -- it is the first of those that are pending that is too large
      obtain ⟨f, behind, rfl⟩ : ∃ f behind, pending = f :: behind := by
        refine List.exists_cons_of_ne_nil fun hnil => ?_
        have hbuffer := (List.append_eq_nil_iff.1 (hnil ▸ hpending.joined)).1
        simp [hbuffer] at hlarge
      rw [receive_of_large hwait hlarge, hall]
      refine ⟨front, [overflow], ?_, .inl ⟨rfl, .cut (not_fits_of_large hwait hlarge more) front _ _⟩⟩
      rw [List.flatMap_append, ← hout]
      rfl
    · have hreceive : k.receive bytes = k.serveAll (k.buffer ++ bytes) := by
        rw [receive_eq]
        exact if_neg fun hboth => hlarge hboth.2
      rw [hreceive]
      exact ⟨front, [], by simpa using hout, .inr ⟨hwait, rfl, pending, hpending, hrest, hall⟩⟩

/-- What is written back to frames that arrive in reads is the replies to their requests. If one of them grows too
large before it is complete, that is said in place of its answer, and is the last thing said. -/
theorem exists_serve_of_parted {reads : List Bytes} {frames : List (Bytes × List Bytes)}
    (hread : Incoming.read k.buffer = .incomplete) (h : Frame.Parted (k.buffer ++ reads.flatten) frames [])
    (hfull : ∀ f ∈ frames, f.2 ≠ []) :
    ∃ (given : List Answered) (ending : List Reply),
      (k.serve reads).out = (given.map (·.reply) ++ ending).flatMap Reply.toFrame ∧
      Given (k.buffer ++ reads.flatten) (k.answered (frames.map (·.2))) given ending := by
  induction reads generalizing k frames with
  | nil =>
    rw [List.flatten_nil, List.append_nil] at h
    obtain rfl := eq_nil_of_incomplete h hread
    exact ⟨[], [], rfl, .all []⟩
  | cons bytes reads ih =>
    rw [List.flatten_cons, ← List.append_assoc] at h ⊢
    obtain ⟨front, ending, hout, hend⟩ := exists_receive_of_parted h hfull
    rcases hend with ⟨hclosed, hgiven⟩ | ⟨hwait, rfl, pending, hpending, hrest, hall⟩
    · rw [serve_of_closed hclosed]
      exact ⟨front, ending, hout, hgiven⟩
    · have hreceive := receive_of_waiting hwait
      have hserved : (k.serveAll (k.buffer ++ bytes)).progress = .waiting := hreceive ▸ hwait
      have hincomplete := (serveAll_of_waiting hserved).1
      rw [← hreceive] at hincomplete
      obtain ⟨given, ending, hmore, hgiven⟩ := ih hincomplete hpending hrest
      rw [serve_of_waiting hwait, hall]
      refine ⟨front ++ given, ending, by simp [Served.andThen, hout, hmore], hgiven.behind front fun hfits => ?_⟩
      rw [hreceive]
      exact of_waiting hserved (fun _ _ _ _ hread hs => hs.of_request hread) hfits

/-- Frames with items arrive in any reads. What is written back is the replies to their requests, one to each, in
order, up to the request that ends the connection or grows too large. The client reads just these replies back if and
only if no request forges one, and a reply is a single one to the client if and only if its request does not. -/
theorem decodes_serve_iff (db : Database) (c : Clock) (session : Session) {reads : List Bytes}
    {frames : List (Bytes × List Bytes)} (h : Frame.Parted reads.flatten frames []) (hfull : ∀ f ∈ frames, f.2 ≠ []) :
    let k : Connection := ⟨db, c, session, []⟩
    ∃ (given : List Answered) (ending : List Reply),
      (k.serve reads).out = (given.map (·.reply) ++ ending).flatMap Reply.toFrame ∧
      Given reads.flatten (k.answered (frames.map (·.2))) given ending ∧
      given.map (·.request) <+: frames.map (·.2) ∧
      (Reply.Decodes (k.serve reads).out ((given.map (·.reply) ++ ending).map Reply.received) ↔
        ∀ a ∈ given, ¬ Database.Forges a.session a.request) ∧
      ∀ a ∈ given, (∃ one, Reply.Decodes a.reply.toFrame [one]) ↔ ¬ Database.Forges a.session a.request := by
  intro k
  obtain ⟨given, ending, hout, hgiven⟩ := exists_serve_of_parted (k := k) Incoming.read_nil h hfull
  have hline : ∀ a ∈ given, a.reply.OneLine ↔ ¬ Database.Forges a.session a.request := fun a ha =>
    k.oneLine_answered_iff (List.forall_mem_map.2 hfull) a (hgiven.isPrefix.subset ha)
  refine ⟨given, ending, hout, hgiven, ?_, ?_, fun a ha => Reply.decodes_toFrame_iff.trans (hline a ha)⟩
  · exact (hgiven.isPrefix.map _).trans (k.requests_answered _)
  · rw [hout, Reply.decodes_flatMap_iff, List.forall_mem_append, List.forall_mem_map]
    exact (and_iff_left hgiven.oneLine_ending).trans (forall₂_congr hline)

/-- A client that asks for a command with the end of a line in its name is told of two replies; what it has echoed, it
reads back whatever it is. -/
theorem decodes_serve_iff_of_forged :
    let k : Connection := ⟨{}, .standing 1000, .start none, []⟩
    let forging : List Bytes := ["*1\r\n$8\r\nfoo\r", "\n+OK\r\n"]
    let echoing : List Bytes := ["*2\r\n$4\r\nECHO\r\n$9\r\nfoo'\r\n", "+OK\r\n"]
    (¬ Reply.Decodes (k.serve forging).out [.error "ERR unknown command 'foo\r\n+ok'"] ∧
        Reply.Decodes (k.serve forging).out [.error "ERR unknown command 'foo", .status "ok'"]) ∧
      Reply.Decodes (k.serve echoing).out [.bulk "foo'\r\n+OK"] := by
  intro k forging echoing
  have hforging : Frame.Parted forging.flatten [(forging.flatten, ["foo\r\n+OK"])] [] :=
    ⟨by decide, by decide +kernel, Frame.incomplete_nil⟩
  have hechoing : Frame.Parted echoing.flatten [(echoing.flatten, ["ECHO", "foo'\r\n+OK"])] [] :=
    ⟨by decide, by decide +kernel, Frame.incomplete_nil⟩
  refine ⟨⟨?_, ?_⟩, ?_⟩
  · obtain ⟨given, ending, -, hgiven, -, hall, -⟩ :=
      decodes_serve_iff k.database k.clock k.session hforging (by decide)
    obtain ⟨rfl, rfl⟩ := hgiven.eq_of_fits (Incoming.fits_of_length_le (by decide))
    exact fun hread => absurd (hall.1 hread) (by decide +kernel)
  · decide +kernel
  · obtain ⟨given, ending, -, hgiven, -, hall, -⟩ :=
      decodes_serve_iff k.database k.clock k.session hechoing (by decide)
    obtain ⟨rfl, rfl⟩ := hgiven.eq_of_fits (Incoming.fits_of_length_le (by decide))
    exact hall.2 (by decide +kernel)

end Connection
end KeyStore
