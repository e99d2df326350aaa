import KeyStore.CommandLine
import KeyStore.Proofs.Directives

/-!
# Flags and files of directives

The lines of a file are applied as their directives are, up to the first that is refused (`Config.ofFile_eq`). Arguments
are flags one behind another, up to one that is none (`CommandLine.Spells`), and what they ask for depends on the last
file that is named, the directives among them and whether help is asked for, in whatever order these three come
(`CommandLine.configure_of_spells`). So the settings are what the last accepted directive of their name says, among
those of the file and then those of the command line (`CommandLine.last_directive_wins`).
-/

namespace KeyStore

namespace Config

def directivesIn (text : Bytes) : List (Bytes × Bytes) := (lines text).filterMap directive?

/-- The first refusal in lines, the first of which has the number `n`. -/
def refusalFrom (path : Bytes) (n : Nat) (text : List Bytes) : Option ConfigError :=
  (text.zipIdx n).findSome? fun x => ((directive? x.1).bind refusal?).map (.inFile path x.2)

theorem refusalFrom_cons (path : Bytes) (n : Nat) (line : Bytes) (text : List Bytes) :
    refusalFrom path n (line :: text) =
      (((directive? line).bind refusal?).map (.inFile path n)).or (refusalFrom path (n + 1) text) := by
  rw [refusalFrom, List.zipIdx_cons, List.findSome?_cons]
  cases (directive? line).bind refusal? <;> rfl

theorem applyLines_eq (c : Config) (path : Bytes) (n : Nat) (text : List Bytes) :
    c.applyLines path n text = unlessRefused (c.absorb (text.filterMap directive?)) (refusalFrom path n text) := by
  induction text generalizing c n with
  | nil => rfl
  | cons line text ih =>
    rw [applyLines, refusalFrom_cons]
    cases hline : directive? line with
    | none =>
      rw [List.filterMap_cons_none hline]
      exact ih c (n + 1)
    | some d =>
      rw [Option.bind_some, List.filterMap_cons_some hline, ← snd_apply c d, absorb_cons]
      dsimp only
      cases c.apply d.1 d.2 with
      | mk c' refused =>
        cases refused with
        | some e => rfl
        | none => exact ih c' (n + 1)

def fileDirectives (path : Bytes) (contents : Option Bytes) : List (Bytes × Bytes) :=
  if path = [] then [] else directivesIn (contents.getD [])

def fileRefusal (path : Bytes) (contents : Option Bytes) : Option ConfigError :=
  if path = [] then none
  else
    match contents with
    | none => some (.cannotOpen path)
    | some text => refusalFrom path 1 (lines text)

theorem ofFile_eq (path : Bytes) (contents : Option Bytes) :
    ofFile path contents =
      unlessRefused (({} : Config).absorb (fileDirectives path contents)) (fileRefusal path contents) := by
  cases path with
  | nil => rfl
  | cons b path =>
    cases contents with
    | none => rfl
    | some text => exact applyLines_eq {} (b :: path) 1 (lines text)

end Config

/-- A flag: a wish for help in its long or short form, a file of directives, or a directive. -/
inductive Flag where
  | help (short : Bool)
  | config (path : Bytes)
  | directive (name value : Bytes)
  deriving DecidableEq

namespace Flag

def arguments : Flag → List Bytes
  | help short => [if short then "-h" else "--help"]
  | config path => ["--config", path]
  | directive name value => ["--" ++ name, value]

def IsProper : Flag → Prop
  | directive name _ => name ≠ "config" ∧ name ≠ "help"
  | _ => True

def isHelp : Flag → Bool
  | help _ => true
  | _ => false

def path? : Flag → Option Bytes
  | config path => some path
  | _ => none

def directive? : Flag → Option (Bytes × Bytes)
  | directive name value => some (name, value)
  | _ => none

end Flag

namespace CommandLine

open Config

variable {flags : List Flag} {rest : List Bytes}

def lastPath (flags : List Flag) : Bytes := (flags.reverse.findSome? Flag.path?).getD []

def overrides (flags : List Flag) : List (Bytes × Bytes) := flags.filterMap Flag.directive?

def fault? : List Bytes → Option ConfigError
  | [] => none
  | [argument] => some (if argument.take 2 = "--" then .missingValue argument else .unexpectedArgument argument)
  | argument :: _ :: _ => some (.unexpectedArgument argument)

theorem fault?_eq_none_iff : fault? rest = none ↔ rest = [] := by
  match rest with
  | [] => exact iff_of_true rfl rfl
  | [argument] => exact iff_of_false (by simp [fault?]) (List.cons_ne_nil _ _)
  | argument :: value :: rest => exact iff_of_false (by simp [fault?]) (List.cons_ne_nil _ _)

/-- Arguments that do not begin with a flag: none, or one that looks like none, or a last one that looks like a flag
with a value. -/
def IsStuck : List Bytes → Prop
  | [] => True
  | [argument] => isHelp argument = false
  | argument :: _ :: _ => isHelp argument = false ∧ argument.take 2 ≠ "--"

/-- The arguments, each up to its first NUL byte, are the flags and then others that do not begin with a flag. -/
structure Spells (arguments : List Bytes) (flags : List Flag) (rest : List Bytes) : Prop where
  eq : arguments.map Bytes.untilNul = flags.flatMap Flag.arguments ++ rest
  proper : ∀ flag ∈ flags, flag.IsProper
  stuck : IsStuck rest

def note (l : CommandLine) : Flag → CommandLine
  | .help _ => { l with help := true }
  | .config path => { l with configPath := path }
  | .directive name value => { l with directives := (name, value) :: l.directives }

theorem readFrom_flag {flag : Flag} (h : flag.IsProper) (l : CommandLine) (more : List Bytes) :
    l.readFrom (flag.arguments ++ more) = (l.note flag).readFrom more := by
  cases flag with
  | help short =>
    have hhelp : isHelp (if short then "-h" else "--help" : Bytes) = true := by cases short <;> decide
    cases more with
    | nil => simp only [Flag.arguments, List.singleton_append, readFrom, hhelp, if_true, note]
    | cons argument more => simp only [Flag.arguments, List.singleton_append, readFrom, hhelp, if_true, note]
  | config path => rfl
  | directive name value =>
    obtain ⟨hconfig, hhelp⟩ := h
    have hne : ∀ other : Bytes, name ≠ other → "--" ++ name ≠ "--" ++ other :=
      fun other hother heq => hother (List.append_cancel_left heq)
    have hhelp' : isHelp ("--" ++ name) = false := by
      simp only [CommandLine.isHelp, Bool.or_eq_false_iff, decide_eq_false_iff_not]
      exact ⟨hne "help" hhelp, fun heq => by cases heq⟩
    have hconfig' : "--" ++ name ≠ ("--config" : Bytes) := hne "config" hconfig
    have htake : ("--" ++ name : Bytes).take 2 = "--" := rfl
    simp only [Flag.arguments, List.cons_append, List.nil_append, readFrom, hhelp', htake, hconfig', if_false, note]
    rfl

theorem readFrom_of_isStuck (h : IsStuck rest) (l : CommandLine) :
    l.readFrom rest = (if rest = [] then { l with directives := l.directives.reverse } else l, fault? rest) := by
  match rest, h with
  | [], _ => rfl
  | [argument], h =>
    have hhelp : CommandLine.isHelp argument = false := h
    simp only [readFrom, hhelp, fault?, Bool.false_eq_true, if_false, List.cons_ne_nil]
    split <;> rfl
  | argument :: value :: rest, ⟨hhelp, hflag⟩ =>
    simp only [readFrom, hhelp, if_pos hflag, fault?]
    rfl

theorem readFrom_flags (h : ∀ flag ∈ flags, flag.IsProper) (l : CommandLine) (more : List Bytes) :
    l.readFrom (flags.flatMap Flag.arguments ++ more) = (flags.foldl note l).readFrom more := by
  induction flags generalizing l with
  | nil => rfl
  | cons flag flags ih =>
    obtain ⟨hflag, hflags⟩ := List.forall_mem_cons.1 h
    rw [List.flatMap_cons, List.append_assoc, readFrom_flag hflag, ih hflags, List.foldl_cons]

theorem foldl_note (flags : List Flag) :
    flags.foldl note {} = ⟨flags.any Flag.isHelp, lastPath flags, (overrides flags).reverse⟩ := by
  induction flags using List.reverseRecOn with
  | nil => rfl
  | append_singleton flags flag ih =>
    rw [List.foldl_append, ih]
    cases flag <;>
      simp [note, overrides, lastPath, Flag.isHelp, Flag.path?, Flag.directive?, List.findSome?_cons]

/-- Flags ask for the directives of the file named last and then for those among them, unless one is refused. Where
other arguments follow them, they are refused. -/
theorem configure_of_spells {arguments : List Bytes} (h : Spells arguments flags rest) (open? : Bytes → Option Bytes) :
    let path := lastPath flags
    configure arguments open? =
      unlessRefused
        (({} : Config).absorb (fileDirectives path (open? path) ++ overrides flags), flags.any Flag.isHelp)
        ((fault? rest).or ((fileRefusal path (open? path)).or ((overrides flags).findSome? refusal?))) := by
  intro path
  rw [configure, read, h.eq, readFrom_flags h.proper, foldl_note, readFrom_of_isStuck h.stuck]
  cases hfault : fault? rest with
  | some e => rfl
  | none =>
    simp only [if_pos (fault?_eq_none_iff.1 hfault), List.reverse_reverse, settings, ofFile_eq]
    cases fileRefusal path (open? path) with
    | some e => rfl
    | none =>
      simp only [unlessRefused, applyAll_eq, ← absorb_append]
      cases (overrides flags).findSome? refusal? <;> rfl

theorem exists_help {argument : Bytes} (h : isHelp argument = true) :
    ∃ short, (Flag.help short).arguments = [argument] := by
  simp only [isHelp, Bool.or_eq_true, decide_eq_true_eq] at h
  rcases h with rfl | rfl
  · exact ⟨false, rfl⟩
  · exact ⟨true, rfl⟩

theorem exists_flag {argument : Bytes} (hhelp : isHelp argument = false) (h : argument.take 2 = "--") (value : Bytes) :
    ∃ flag : Flag, flag.IsProper ∧ flag.arguments = [argument, value] := by
  obtain ⟨name, rfl⟩ : ∃ name, argument = "--" ++ name := ⟨argument.drop 2, by rw [← h, List.take_append_drop]⟩
  by_cases hconfig : name = "config"
  · exact ⟨.config value, trivial, by rw [hconfig]; rfl⟩
  · refine ⟨.directive name value, ⟨hconfig, ?_⟩, rfl⟩
    rintro rfl
    exact absurd hhelp (by decide)

theorem exists_flags : ∀ arguments : List Bytes, ∃ (flags : List Flag) (rest : List Bytes),
    arguments = flags.flatMap Flag.arguments ++ rest ∧ (∀ flag ∈ flags, flag.IsProper) ∧ IsStuck rest
  | [] => ⟨[], [], rfl, by simp, trivial⟩
  | [argument] => by
    cases hhelp : isHelp argument with
    | false => exact ⟨[], [argument], rfl, by simp, hhelp⟩
    | true =>
      obtain ⟨short, hshort⟩ := exists_help hhelp
      exact ⟨[.help short], [], by simp [hshort], by simp [Flag.IsProper], trivial⟩
  | argument :: value :: more => by
    cases hhelp : isHelp argument with
    | true =>
      obtain ⟨short, hshort⟩ := exists_help hhelp
      obtain ⟨flags, rest, heq, hproper, hstuck⟩ := exists_flags (value :: more)
      refine ⟨.help short :: flags, rest, ?_, List.forall_mem_cons.2 ⟨trivial, hproper⟩, hstuck⟩
      rw [List.flatMap_cons, List.append_assoc, ← heq, hshort]
      rfl
    | false =>
      by_cases hflag : argument.take 2 = "--"
      · obtain ⟨flag, hflag, harguments⟩ := exists_flag hhelp hflag value
        obtain ⟨flags, rest, heq, hproper, hstuck⟩ := exists_flags more
        refine ⟨flag :: flags, rest, ?_, List.forall_mem_cons.2 ⟨hflag, hproper⟩, hstuck⟩
        rw [List.flatMap_cons, List.append_assoc, ← heq, harguments]
        rfl
      · exact ⟨[], argument :: value :: more, rfl, by simp, hhelp, hflag⟩

theorem exists_spells (arguments : List Bytes) : ∃ flags rest, Spells arguments flags rest := by
  obtain ⟨flags, rest, heq, hproper, hstuck⟩ := exists_flags (arguments.map Bytes.untilNul)
  exact ⟨flags, rest, heq, hproper, hstuck⟩

/-- After any directives, refused ones among them, each setting is what the last accepted one of its name gives it,
whatever the case of the name, or its default; all settings are in range, so that a second can be divided by the number
of sweeps. A directive is accepted if the setting that it names, if it names one, takes its value, and a refused one
changes no setting. Any arguments are flags and then others that are refused, if there are any. The flags ask for the
directives of the file named last and then for those among them, in order, unless one is refused; where the file is
named makes no difference. -/
theorem last_directive_wins :
    (∀ directives : List (Bytes × Bytes),
      let c := ({} : Config).absorb directives
      (∀ s : Setting, s.get c = (s.lastTold directives).getD (s.get {})) ∧
        (∀ name, c.directives.find? name = (directives.reverse.find? (·.1.lower = name)).map (·.2)) ∧
        c.InRange ∧ 0 < 1000 / c.hz) ∧
    (∀ (c : Config) (name value : Bytes),
      ((c.apply name value).2 = none ↔ ∀ s : Setting, name.lower = s.name → (s.read value).isSome) ∧
        ((c.apply name value).2 ≠ none → ∀ s : Setting, s.get (c.apply name value).1 = s.get c)) ∧
    (∀ arguments, ∃ flags rest, Spells arguments flags rest) ∧
    ∀ arguments flags rest, Spells arguments flags rest → ∀ open? : Bytes → Option Bytes,
      let path := lastPath flags
      configure arguments open? =
          unlessRefused
            (({} : Config).absorb (fileDirectives path (open? path) ++ overrides flags), flags.any Flag.isHelp)
            ((fault? rest).or ((fileRefusal path (open? path)).or ((overrides flags).findSome? refusal?))) ∧
        ∀ arguments' flags', Spells arguments' flags' rest → lastPath flags' = lastPath flags →
          overrides flags' = overrides flags → flags'.any Flag.isHelp = flags.any Flag.isHelp →
          configure arguments' open? = configure arguments open? := by
  refine ⟨fun directives => ?_, fun c name value => ?_, exists_spells, fun arguments flags rest h open? => ?_⟩
  · have hrange := inRange_default.absorb directives
    have hhz : 1 ≤ (({} : Config).absorb directives).hz ∧ (({} : Config).absorb directives).hz ≤ 500 := hrange .hz
    refine ⟨get_absorb {} directives, fun name => ?_, hrange, Nat.div_pos (by omega) hhz.1⟩
    rw [find?_directives_absorb]
    exact Option.or_none
  · refine ⟨snd_apply_eq_none_iff c name value, fun hrefused s => ?_⟩
    obtain ⟨e, he⟩ := Option.ne_none_iff_exists'.1 hrefused
    rw [apply_of_refused he]
    cases s <;> rfl
  · refine ⟨configure_of_spells h open?, fun arguments' flags' h' hpath hoverrides hhelp => ?_⟩
    rw [configure_of_spells h open?, configure_of_spells h' open?, hpath, hoverrides, hhelp]

/-- A file named between two flags; among directives, one that is refused and one that is not known. -/
theorem last_directive_wins_of_file :
    let directives : List (Bytes × Bytes) := [("PORT", "7000"), ("port", "70000"), ("LogLevel", "DEBUG"), ("save", "9")]
    let c := ({} : Config).absorb directives
    let refused := ({} : Config).apply "port" "70000"
    let arguments : List Bytes := ["--port", "6500", "--config", "f", "--HZ", "20"]
    let first : List Bytes := ["--config", "f", "--port", "6500", "--HZ", "20"]
    let flags : List Flag := [.directive "port" "6500", .config "f", .directive "HZ" "20"]
    let open? : Bytes → Option Bytes := fun _ => some "port 6400\nrequirepass x # all\n"
    (c.port = 7000 ∧ c.logLevel = "debug" ∧ c.directives.find? "port" = some ("70000" : Bytes) ∧ 0 < 1000 / c.hz) ∧
      (refused.2 ≠ none ∧ ∀ s : Setting, s.get refused.1 = s.get {}) ∧
      Spells arguments flags [] ∧
      configure arguments open? =
        .ok (({} : Config).absorb [("port", "6400"), ("requirepass", "x"), ("port", "6500"), ("HZ", "20")], false) ∧
      configure first open? = configure arguments open? := by
  intro directives c refused arguments first flags open?
  obtain ⟨hsettings, happly, -, hflags⟩ := last_directive_wins
  obtain ⟨hget, hfind, -, hhz⟩ := hsettings directives
  have hrefused : refused.2 ≠ none := by decide +kernel
  have hspells : Spells arguments flags [] := ⟨rfl, by simp [flags, Flag.IsProper]; decide, trivial⟩
  have hspells' : Spells first [.config "f", .directive "port" "6500", .directive "HZ" "20"] [] :=
    ⟨rfl, by simp [Flag.IsProper]; decide, trivial⟩
  obtain ⟨hconfigure, hplace⟩ := hflags arguments flags [] hspells open?
  refine ⟨⟨(hget .port).trans (by decide +kernel), (hget .logLevel).trans (by decide +kernel), ?_, hhz⟩,
    ⟨hrefused, (happly {} "port" "70000").2 hrefused⟩, hspells, hconfigure.trans (by decide +kernel),
    hplace first _ hspells' rfl rfl rfl⟩
  rw [hfind]
  decide +kernel

end CommandLine
end KeyStore
