import KeyStore.Config
import Mathlib.Data.List.Induction

/-!
# Settings after directives

A directive names a setting, and is accepted if its value is one that the setting takes (`Setting.read`). It then
changes this setting and no other (`Config.change_name`, `Config.get_apply`). So after any directives, refused ones
among them, each setting is what the last accepted directive of its name says (`Config.get_absorb`), and all are in range
(`Config.InRange.absorb`).
-/

namespace KeyStore

inductive Setting where
  | bind
  | port
  | maxClients
  | timeout
  | requirePass
  | appendOnly
  | appendFileName
  | dir
  | syncPolicy
  | hz
  | sweepBatch
  | logLevel
  deriving DecidableEq

namespace Setting

def name : Setting → Bytes
  | bind => "bind"
  | port => "port"
  | maxClients => "maxclients"
  | timeout => "timeout"
  | requirePass => "requirepass"
  | appendOnly => "appendonly"
  | appendFileName => "appendfilename"
  | dir => "dir"
  | syncPolicy => "appendfsync"
  | hz => "hz"
  | sweepBatch => "sweep-batch"
  | logLevel => "loglevel"

abbrev Value : Setting → Type
  | bind | requirePass | appendFileName | dir | logLevel => Bytes
  | port | maxClients | timeout | hz | sweepBatch => Nat
  | appendOnly => Bool
  | syncPolicy => SyncPolicy

def number (low high : Nat) (text : Bytes) : Option Nat :=
  ((Numeral.readInt text).filter fun n => (low : Int) ≤ n && n ≤ high).map Int.toNat

def word {α : Type} (words : List (Bytes × α)) (text : Bytes) : Option α := words.lookup text.lower

def read : (s : Setting) → Bytes → Option s.Value
  | bind | requirePass | appendFileName | dir => some
  | port => number 0 65535
  | maxClients => number 1 2147483647
  | timeout => number 0 2147483647
  | appendOnly => word [("yes", true), ("true", true), ("1", true), ("no", false), ("false", false), ("0", false)]
  | syncPolicy => word [("always", .always), ("everysec", .everySecond), ("no", .never)]
  | hz => number 1 500
  | sweepBatch => number 1 1000000
  | logLevel => word [("error", "error"), ("warn", "warn"), ("info", "info"), ("debug", "debug")]

def refusal (s : Setting) (text : Bytes) : ConfigError :=
  if s = appendOnly then .notYesOrNo s.name text else .invalidValue s.name text

def orRefuse {α : Type} (e : ConfigError) : Option α → Except ConfigError α
  | some x => .ok x
  | none => .error e

/-- The value that a text gives the setting, or what is said of the text. -/
def take (s : Setting) (text : Bytes) : Except ConfigError s.Value := orRefuse (s.refusal text) (s.read text)

def Ranges : (s : Setting) → s.Value → Prop
  | bind, _ | requirePass, _ | appendFileName, _ | dir, _ | appendOnly, _ | syncPolicy, _ => True
  | port, (n : Nat) => n ≤ 65535
  | maxClients, (n : Nat) => 1 ≤ n ∧ n ≤ 2147483647
  | timeout, (n : Nat) => n ≤ 2147483647
  | hz, (n : Nat) => 1 ≤ n ∧ n ≤ 500
  | sweepBatch, (n : Nat) => 1 ≤ n ∧ n ≤ 1000000
  | logLevel, (level : Bytes) => level ∈ (["error", "warn", "info", "debug"] : List Bytes)

theorem bounds_of_number {low high n : Nat} {text : Bytes} (h : number low high text = some n) :
    low ≤ n ∧ n ≤ high := by
  obtain ⟨m, hm, rfl⟩ := Option.map_eq_some_iff.1 h
  obtain ⟨-, hbounds⟩ := Option.filter_eq_some_iff.1 hm
  simp only [Bool.and_eq_true, decide_eq_true_eq] at hbounds
  omega

theorem mem_of_word {α : Type} {words : List (Bytes × α)} {text : Bytes} {x : α} (h : word words text = some x) :
    x ∈ words.map (·.2) := by
  obtain ⟨before, after, rfl, -⟩ := List.lookup_eq_some_iff.1 h
  simp

theorem ranges_of_read {s : Setting} {text : Bytes} {x : s.Value} (h : s.read text = some x) : s.Ranges x := by
  cases s with
  | port => exact (bounds_of_number h).2
  | timeout => exact (bounds_of_number h).2
  | maxClients => exact bounds_of_number h
  | hz => exact bounds_of_number h
  | sweepBatch => exact bounds_of_number h
  | logLevel => exact mem_of_word h
  | _ => exact trivial

/-- What a directive gives the setting: a value, if it is of its name and accepted. -/
def told (s : Setting) (d : Bytes × Bytes) : Option s.Value := if d.1.lower = s.name then s.read d.2 else none

/-- What the last one of the directives gives it that gives it anything. -/
def lastTold (s : Setting) (directives : List (Bytes × Bytes)) : Option s.Value := directives.reverse.findSome? s.told

theorem lastTold_concat (s : Setting) (directives : List (Bytes × Bytes)) (d : Bytes × Bytes) :
    s.lastTold (directives ++ [d]) = (s.told d).or (s.lastTold directives) := by
  rw [lastTold, List.reverse_append, List.reverse_singleton, List.singleton_append, List.findSome?_cons]
  cases s.told d <;> rfl

def get (c : Config) : (s : Setting) → s.Value
  | bind => c.bind
  | port => c.port
  | maxClients => c.maxClients
  | timeout => c.timeout
  | requirePass => c.requirePass
  | appendOnly => c.appendOnly
  | appendFileName => c.appendFileName
  | dir => c.dir
  | syncPolicy => c.syncPolicy
  | hz => c.hz
  | sweepBatch => c.sweepBatch
  | logLevel => c.logLevel

def set (c : Config) : (s : Setting) → s.Value → Config
  | bind, (x : Bytes) => { c with bind := x }
  | port, (n : Nat) => { c with port := n }
  | maxClients, (n : Nat) => { c with maxClients := n }
  | timeout, (n : Nat) => { c with timeout := n }
  | requirePass, (x : Bytes) => { c with requirePass := x }
  | appendOnly, (b : Bool) => { c with appendOnly := b }
  | appendFileName, (x : Bytes) => { c with appendFileName := x }
  | dir, (x : Bytes) => { c with dir := x }
  | syncPolicy, (p : SyncPolicy) => { c with syncPolicy := p }
  | hz, (n : Nat) => { c with hz := n }
  | sweepBatch, (n : Nat) => { c with sweepBatch := n }
  | logLevel, (x : Bytes) => { c with logLevel := x }

variable {c : Config} {s t : Setting}

@[simp] theorem get_set (c : Config) (s : Setting) (x : s.Value) : get (set c s x) s = x := by
  cases s <;> rfl

theorem get_set_of_ne (h : t ≠ s) (c : Config) (x : s.Value) : get (set c s x) t = get c t := by
  cases s <;> cases t <;> first | rfl | exact absurd rfl h

@[simp] theorem directives_set (c : Config) (s : Setting) (x : s.Value) : (set c s x).directives = c.directives := by
  cases s <;> rfl

theorem name_injective : Function.Injective name := by
  intro s t h
  cases s <;> cases t <;> first | rfl | exact absurd h (by decide)

end Setting

namespace Config

open Setting

variable {c : Config} {s : Setting} {name value : Bytes}

theorem readNumber_eq (name value : Bytes) (low high : Nat) :
    readNumber name value low high = orRefuse (.invalidValue name value) (number low high value) := by
  unfold readNumber number
  cases Numeral.readInt value with
  | none => rfl
  | some n =>
    simp only [Option.filter, Bool.and_eq_true, decide_eq_true_eq]
    split <;> rfl

theorem readBool_eq (value : Bytes) : readBool Setting.appendOnly.name value = Setting.appendOnly.take value := by
  simp only [readBool, take, Setting.read, word, List.lookup_cons, List.lookup_nil, Setting.name, refusal, if_true]
  grind [orRefuse]

theorem readSyncPolicy_eq (value : Bytes) :
    readSyncPolicy Setting.syncPolicy.name value = Setting.syncPolicy.take value := by
  simp only [readSyncPolicy, take, Setting.read, word, List.lookup_cons, List.lookup_nil, Setting.name, refusal]
  grind [orRefuse]

theorem readLevel_eq (value : Bytes) : readLevel Setting.logLevel.name value = Setting.logLevel.take value := by
  simp only [readLevel, take, Setting.read, word, List.lookup_cons, List.lookup_nil, Setting.name, refusal,
    Level.named?]
  grind [orRefuse]

theorem change_name (c : Config) (s : Setting) (value : Bytes) :
    c.change s.name value = (s.take value).map (s.set c) := by
  cases s with
  | bind => rfl
  | requirePass => rfl
  | appendFileName => rfl
  | dir => rfl
  | port => exact congrArg (Except.map _) (readNumber_eq _ value 0 65535)
  | maxClients => exact congrArg (Except.map _) (readNumber_eq _ value 1 2147483647)
  | timeout => exact congrArg (Except.map _) (readNumber_eq _ value 0 2147483647)
  | hz => exact congrArg (Except.map _) (readNumber_eq _ value 1 500)
  | sweepBatch => exact congrArg (Except.map _) (readNumber_eq _ value 1 1000000)
  | appendOnly => exact congrArg (Except.map _) (readBool_eq value)
  | syncPolicy => exact congrArg (Except.map _) (readSyncPolicy_eq value)
  | logLevel => exact congrArg (Except.map _) (readLevel_eq value)

theorem change_of_unknown (h : ∀ s : Setting, name ≠ s.name) (c : Config) (value : Bytes) :
    c.change name value = .ok c := by
  unfold change
  exact (if_neg (h .port)).trans <| (if_neg (h .bind)).trans <| (if_neg (h .maxClients)).trans <|
    (if_neg (h .timeout)).trans <| (if_neg (h .requirePass)).trans <| (if_neg (h .appendOnly)).trans <|
    (if_neg (h .appendFileName)).trans <| (if_neg (h .dir)).trans <| (if_neg (h .syncPolicy)).trans <|
    (if_neg (h .hz)).trans <| (if_neg (h .sweepBatch)).trans (if_neg (h .logLevel))

theorem apply_name (c : Config) {name : Bytes} (h : name.lower = s.name) (value : Bytes) :
    c.apply name value =
      let c := { c with directives := c.directives.insert name.lower value }
      match s.read value with
      | some x => (s.set c x, none)
      | none => (c, some (s.refusal value)) := by
  simp only [apply, h, change_name, take]
  cases s.read value <;> rfl

theorem apply_of_unknown (c : Config) {name : Bytes} (h : ∀ s : Setting, name.lower ≠ s.name) (value : Bytes) :
    c.apply name value = ({ c with directives := c.directives.insert name.lower value }, none) := by
  simp only [apply, change_of_unknown h]

/-- A directive is remembered. It sets what it says, or is refused for its value, or names no setting. -/
theorem apply_cases (c : Config) (name value : Bytes) :
    let kept := { c with directives := c.directives.insert name.lower value }
    (∃ (s : Setting) (x : s.Value), name.lower = s.name ∧ s.read value = some x ∧
      c.apply name value = (s.set kept x, none)) ∨
    (∃ s : Setting, name.lower = s.name ∧ s.read value = none ∧
      c.apply name value = (kept, some (s.refusal value))) ∨
    ((∀ s : Setting, name.lower ≠ s.name) ∧ c.apply name value = (kept, none)) := by
  by_cases hname : ∃ s : Setting, name.lower = s.name
  · obtain ⟨s, hs⟩ := hname
    have happly := apply_name c hs value
    cases hread : s.read value with
    | some x => exact .inl ⟨s, x, hs, hread, by rw [happly, hread]⟩
    | none => exact .inr (.inl ⟨s, hs, hread, by rw [happly, hread]⟩)
  · have hne : ∀ s : Setting, name.lower ≠ s.name := fun s hs => hname ⟨s, hs⟩
    exact .inr (.inr ⟨hne, apply_of_unknown c hne value⟩)

theorem snd_apply_eq_none_iff (c : Config) (name value : Bytes) :
    (c.apply name value).2 = none ↔ ∀ s : Setting, name.lower = s.name → (s.read value).isSome := by
  obtain ⟨s, x, hs, hread, h⟩ | ⟨s, hs, hread, h⟩ | ⟨hne, h⟩ := c.apply_cases name value <;> rw [h]
  · refine iff_of_true rfl fun t ht => ?_
    obtain rfl : s = t := name_injective (hs.symm.trans ht)
    rw [hread]
    rfl
  · refine iff_of_false nofun fun hall => ?_
    have hsome := hall s hs
    rw [hread] at hsome
    cases hsome
  · exact iff_of_true rfl fun s hs => absurd hs (hne s)

theorem apply_of_refused {e : ConfigError} (h : (c.apply name value).2 = some e) :
    (c.apply name value).1 = { c with directives := c.directives.insert name.lower value } := by
  obtain ⟨s, x, -, -, heq⟩ | ⟨s, -, -, heq⟩ | ⟨-, heq⟩ := c.apply_cases name value <;> rw [heq] at h ⊢
  cases h

theorem get_apply (c : Config) (d : Bytes × Bytes) (s : Setting) :
    s.get (c.apply d.1 d.2).1 = (s.told d).getD (s.get c) := by
  have hkept : ∀ x, s.get { c with directives := x } = s.get c := fun x => by cases s <;> rfl
  obtain ⟨t, x, ht, hread, h⟩ | ⟨t, ht, hread, h⟩ | ⟨hne, h⟩ := c.apply_cases d.1 d.2 <;> rw [h, told]
  · by_cases hst : s = t
    · subst hst
      rw [if_pos ht, hread]
      exact get_set _ s x
    · have hne : d.1.lower ≠ s.name := fun hs => hst (name_injective (hs.symm.trans ht))
      rw [if_neg hne]
      exact (get_set_of_ne hst _ x).trans (hkept _)
  · split
    · next hs =>
      obtain rfl : s = t := name_injective (hs.symm.trans ht)
      rw [hread]
      exact hkept _
    · exact hkept _
  · rw [if_neg (hne s)]
    exact hkept _

theorem directives_apply (c : Config) (name value : Bytes) :
    (c.apply name value).1.directives = c.directives.insert name.lower value := by
  obtain ⟨s, x, -, -, h⟩ | ⟨s, -, -, h⟩ | ⟨-, h⟩ := c.apply_cases name value <;> rw [h]
  exact directives_set _ s x

/-- The settings after directives, each of which is applied whatever came of those before it. -/
def absorb (c : Config) (directives : List (Bytes × Bytes)) : Config :=
  directives.foldl (fun c d => (c.apply d.1 d.2).1) c

theorem absorb_cons (c : Config) (d : Bytes × Bytes) (directives : List (Bytes × Bytes)) :
    c.absorb (d :: directives) = (c.apply d.1 d.2).1.absorb directives := rfl

theorem absorb_append (c : Config) (directives more : List (Bytes × Bytes)) :
    c.absorb (directives ++ more) = (c.absorb directives).absorb more := List.foldl_append

theorem absorb_concat (c : Config) (directives : List (Bytes × Bytes)) (d : Bytes × Bytes) :
    c.absorb (directives ++ [d]) = ((c.absorb directives).apply d.1 d.2).1 := absorb_append c directives [d]

/-- A setting is what the last accepted directive of its name says, or as it was. -/
theorem get_absorb (c : Config) (directives : List (Bytes × Bytes)) (s : Setting) :
    s.get (c.absorb directives) = (s.lastTold directives).getD (s.get c) := by
  induction directives using List.reverseRecOn with
  | nil => rfl
  | append_singleton directives d ih =>
    rw [absorb_concat, get_apply, ih, lastTold_concat]
    cases s.told d <;> rfl

/-- What is remembered of a name is the value that it was given last, accepted or not. -/
theorem find?_directives_absorb (c : Config) (directives : List (Bytes × Bytes)) (name : Bytes) :
    (c.absorb directives).directives.find? name =
      ((directives.reverse.find? (·.1.lower = name)).map (·.2)).or (c.directives.find? name) := by
  induction directives using List.reverseRecOn with
  | nil => rfl
  | append_singleton directives d ih =>
    rw [absorb_concat, directives_apply, Table.find?_insert, ih, List.reverse_append, List.reverse_singleton,
      List.singleton_append, List.find?_cons]
    by_cases hname : d.1.lower = name
    · simp [hname]
    · simp [hname, Ne.symm hname]

/-- What is said of a directive that is refused. -/
def refusal? (d : Bytes × Bytes) : Option ConfigError := (({} : Config).apply d.1 d.2).2

theorem snd_apply (c : Config) (d : Bytes × Bytes) : (c.apply d.1 d.2).2 = refusal? d := by
  rw [refusal?]
  by_cases hname : ∃ s : Setting, d.1.lower = s.name
  · obtain ⟨s, hs⟩ := hname
    rw [apply_name c hs, apply_name {} hs]
    cases s.read d.2 <;> rfl
  · have hne : ∀ s : Setting, d.1.lower ≠ s.name := fun s hs => hname ⟨s, hs⟩
    rw [apply_of_unknown c hne, apply_of_unknown {} hne]

def unlessRefused {α : Type} (x : α) : Option ConfigError → Except ConfigError α
  | none => .ok x
  | some e => .error e

/-- Directives give the settings after all of them, unless one is refused: then the first of these. -/
theorem applyAll_eq (c : Config) (directives : List (Bytes × Bytes)) :
    c.applyAll directives = unlessRefused (c.absorb directives) (directives.findSome? refusal?) := by
  induction directives generalizing c with
  | nil => rfl
  | cons d directives ih =>
    rw [applyAll, List.findSome?_cons, ← snd_apply c d, absorb_cons]
    cases c.apply d.1 d.2 with
    | mk c' refused =>
      cases refused with
      | some e => rfl
      | none => exact ih c'

/-- Every setting is one of its values. -/
def InRange (c : Config) : Prop := ∀ s : Setting, s.Ranges (s.get c)

theorem inRange_default : InRange {} := by
  intro s
  cases s <;> simp only [Ranges] <;> decide

theorem InRange.apply (h : c.InRange) (d : Bytes × Bytes) : (c.apply d.1 d.2).1.InRange := by
  intro s
  rw [get_apply, told]
  split
  · cases hread : s.read d.2 with
    | none => exact h s
    | some x => exact ranges_of_read hread
  · exact h s

theorem InRange.absorb (h : c.InRange) (directives : List (Bytes × Bytes)) : (c.absorb directives).InRange := by
  induction directives generalizing c with
  | nil => exact h
  | cons d directives ih => exact ih (h.apply d)

end Config
end KeyStore
