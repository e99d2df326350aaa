import KeyStore.Proofs.Dialects
import KeyStore.Proofs.Flags
import KeyStore.Proofs.Patterns
import Mathlib.Data.List.ReduceOption
import Mathlib.Data.List.TakeWhile
import Mathlib.Tactic.MkIffOfInductiveProp

/-!
# Directives in a file and on the command line

A line of a file writes a directive, with white space around its name and its value and perhaps a comment at the end, or
none (`Config.Writes`), and that is what is read of it (`Config.directive?_of_writes`). The directives that the lines of
a file write give the same settings as flags of them, in the same order, or the same one of them is refused; the file
tells its line besides (`Config.file_agrees_with_flags`).
-/

namespace KeyStore

namespace Bytes

variable {s front back : Bytes}

def IsTrimmed (s : Bytes) : Prop := (∀ b ∈ s.head?, isSpace b = false) ∧ ∀ b ∈ s.getLast?, isSpace b = false

instance (s : Bytes) : Decidable (IsTrimmed s) := inferInstanceAs (Decidable (_ ∧ _))

theorem isTrimmed_append {t : Bytes} (hs : IsTrimmed s) (ht : IsTrimmed t) (hsne : s ≠ []) (htne : t ≠ [])
    (gap : Bytes) : IsTrimmed (s ++ (gap ++ t)) := by
  refine ⟨?_, ?_⟩
  · rw [List.head?_append_of_ne_nil _ hsne]
    exact hs.1
  · rw [← List.append_assoc, List.getLast?_append_of_ne_nil _ htne]
    exact ht.2

theorem isTrimmed_nil : IsTrimmed [] := ⟨nofun, nofun⟩

theorem IsWord.isTrimmed (h : IsWord s) : IsTrimmed s :=
  ⟨fun b hb => h.2 b (List.mem_of_head? hb), fun b hb => h.2 b (List.mem_of_getLast? hb)⟩

theorem trim_append (hfront : ∀ b ∈ front, isSpace b = true) (h : IsTrimmed s) (hback : ∀ b ∈ back, isSpace b = true) :
    trim (front ++ (s ++ back)) = s := by
  have hback' : ∀ b ∈ back.reverse, isSpace b = true := fun b hb => hback b (List.mem_reverse.1 hb)
  have hlast : ∀ b, s.reverse.head? = some b → isSpace b = false := fun b hb => h.2 b (by rwa [← List.head?_reverse])
  cases s with
  | nil =>
    have hall : ∀ b ∈ front ++ back, isSpace b = true := List.forall_mem_append.2 ⟨hfront, hback⟩
    have hnone := (takeWhile_append_of_stop (t := []) hall nofun).2
    rw [List.append_nil] at hnone
    rw [trim, List.nil_append, hnone]
    rfl
  | cons b s =>
    have hhead : ∀ c, (b :: s ++ back).head? = some c → isSpace c = false := h.1
    rw [trim, (takeWhile_append_of_stop hfront hhead).2, List.reverse_append,
      (takeWhile_append_of_stop hback' hlast).2, List.reverse_reverse]

end Bytes

namespace Config

open Bytes

variable {entry : Option (Bytes × Bytes)} {line name value body comment text : Bytes}

def IsComment (s : Bytes) : Prop := (∀ b ∈ s.head?, b = 35) ∧ (10 : UInt8) ∉ s

instance (s : Bytes) : Decidable (IsComment s) := inferInstanceAs (Decidable (_ ∧ _))

/-- The name can be given to a directive both in a file and as a flag: it is a word without NUL byte and number sign,
and not the name of another flag. -/
@[mk_iff] structure IsName (name : Bytes) : Prop where
  isWord : IsWord name
  no_nul : (0 : UInt8) ∉ name
  no_sign : (35 : UInt8) ∉ name
  ne_config : name ≠ "config"
  ne_help : name ≠ "help"

instance (name : Bytes) : Decidable (IsName name) := decidable_of_iff' _ (isName_iff name)

/-- The value can be given both in a file and to a flag: it is on one line, without NUL byte and number sign, and has no
white space at its ends. -/
@[mk_iff] structure IsValue (value : Bytes) : Prop where
  isTrimmed : IsTrimmed value
  no_feed : (10 : UInt8) ∉ value
  no_nul : (0 : UInt8) ∉ value
  no_sign : (35 : UInt8) ∉ value

instance (value : Bytes) : Decidable (IsValue value) := decidable_of_iff' _ (isValue_iff value)

/-- The line writes this directive, or none. There may be white space at its ends and a comment, and there is some
between the name and the value, unless this is empty. -/
inductive Writes : Option (Bytes × Bytes) → Bytes → Prop
  | none (blank comment : Bytes) (hblank : IsBlank blank) (hcomment : IsComment comment) :
    Writes none (blank ++ comment)
  | some {name value : Bytes} (hname : IsName name) (hvalue : IsValue value) (front gap back comment : Bytes)
    (hfront : IsBlank front) (hgap : IsBlank gap) (hne : value ≠ [] → gap ≠ []) (hback : IsBlank back)
    (hcomment : IsComment comment) :
    Writes (some (name, value)) (front ++ (name ++ (gap ++ (value ++ back))) ++ comment)

theorem not_mem_of_writes (h : Writes entry line) : (10 : UInt8) ∉ line := by
  cases h with
  | none blank comment hblank hcomment => simp [not_mem_of_isBlank hblank, hcomment.2]
  | some hname hvalue front gap back comment hfront hgap hne hback hcomment =>
    simp [not_mem_of_isBlank hfront, not_mem_of_isWord hname.isWord, not_mem_of_isBlank hgap, hvalue.no_feed,
      not_mem_of_isBlank hback, hcomment.2]

theorem takeWhile_append_comment (hbody : (35 : UInt8) ∉ body) (hcomment : IsComment comment) :
    (body ++ comment).takeWhile (· != 35) = body := by
  have hall : ∀ b ∈ body, (b != 35) = true := fun b hb => bne_iff_ne.2 fun h => hbody (h ▸ hb)
  have hstop : ∀ b, comment.head? = some b → (b != 35) = false := fun b hb => by simp [hcomment.1 b hb]
  exact (takeWhile_append_of_stop hall hstop).1

/-- Without the white space around it, a directive is its name and what is behind it: nothing, or white space and the
value. -/
theorem exists_trim_eq {front gap back : Bytes} (hname : IsName name) (hvalue : IsValue value) (hfront : IsBlank front)
    (hgap : IsBlank gap) (hne : value ≠ [] → gap ≠ []) (hback : IsBlank back) :
    ∃ behind, trim (front ++ (name ++ (gap ++ (value ++ back)))) = name ++ behind ∧
      (∀ b, behind.head? = some b → isSpace b = true) ∧ trim behind = value := by
  have hspace : ∀ {s : Bytes}, IsBlank s → ∀ b ∈ s, isSpace b = true := fun hs b hb => (hs b hb).1
  by_cases hempty : value = []
  · -- all the white space behind the name is taken off with the end
    refine ⟨[], ?_, nofun, hempty.symm⟩
    have hbehind : ∀ b ∈ gap ++ back, isSpace b = true := List.forall_mem_append.2 ⟨hspace hgap, hspace hback⟩
    rw [hempty, List.nil_append, trim_append (hspace hfront) hname.isWord.isTrimmed hbehind, List.append_nil]
  · refine ⟨gap ++ value, ?_, fun b hb => ?_, ?_⟩
    · have htrimmed := isTrimmed_append hname.isWord.isTrimmed hvalue.isTrimmed hname.isWord.1 hempty gap
      have htrim := trim_append (hspace hfront) htrimmed (hspace hback)
      simpa only [List.append_assoc] using htrim
    · rw [List.head?_append_of_ne_nil _ (hne hempty)] at hb
      exact hspace hgap b (List.mem_of_head? hb)
    · simpa using trim_append (hspace hgap) hvalue.isTrimmed (List.forall_mem_nil _)

theorem directive?_of_writes (h : Writes entry line) : directive? line = entry := by
  cases h with
  | none blank comment hblank hcomment =>
    have htext : trim blank = [] := by
      simpa using trim_append (s := []) (fun b hb => (hblank b hb).1) isTrimmed_nil (List.forall_mem_nil _)
    have hsign : (35 : UInt8) ∉ blank := not_mem_of_isBlank_of_isSpace hblank rfl
    rw [directive?, takeWhile_append_comment hsign hcomment, htext]
    rfl
  | @some name value hname hvalue front gap back comment hfront hgap hne hback hcomment =>
    have hblank : ∀ {s : Bytes}, IsBlank s → (35 : UInt8) ∉ s := fun hs => not_mem_of_isBlank_of_isSpace hs rfl
    have hsign : (35 : UInt8) ∉ front ++ (name ++ (gap ++ (value ++ back))) := by
      simp [hblank hfront, hname.no_sign, hblank hgap, hvalue.no_sign, hblank hback]
    obtain ⟨behind, htrim, hstop, hvalue'⟩ := exists_trim_eq hname hvalue hfront hgap hne hback
    have hword : ∀ b ∈ name, (!isSpace b) = true := fun b hb => by simp [hname.isWord.2 b hb]
    obtain ⟨hname', hbehind⟩ := takeWhile_append_of_stop (t := behind) hword fun b hb => by simp [hstop b hb]
    have htext : (name ++ behind).isEmpty = false := by simp [hname.isWord.1]
    rw [directive?, takeWhile_append_comment hsign hcomment, htrim, htext, if_neg Bool.false_ne_true, hname', hbehind,
      hvalue']

/-- The text is these lines, each with a line feed behind it, or without one behind the last. -/
inductive IsText : List Bytes → Bytes → Prop
  | nil : IsText [] []
  | last (line : Bytes) : IsText [line] line
  | cons (line : Bytes) {lines : List Bytes} {text : Bytes} (h : IsText lines text) :
    IsText (line :: lines) (line ++ 10 :: text)

theorem linesFrom_eq (done : List Bytes) (line s : Bytes) :
    linesFrom done line s = done.reverse ++ linesFrom [] line s := by
  induction s generalizing done line with
  | nil => cases line <;> simp [linesFrom]
  | cons b s ih =>
    simp only [linesFrom]
    split
    · rw [ih, ih [line.reverse]]
      simp
    · exact ih done _

theorem linesFrom_append (h : (10 : UInt8) ∉ line) (front s : Bytes) :
    linesFrom [] front (line ++ s) = linesFrom [] (line.reverse ++ front) s := by
  induction line generalizing front with
  | nil => rfl
  | cons b line ih =>
    obtain ⟨hb, hline⟩ := List.ne_and_not_mem_of_not_mem_cons h
    rw [List.cons_append, linesFrom, if_neg hb.symm, ih hline]
    simp

theorem lines_append (h : (10 : UInt8) ∉ line) (s : Bytes) : lines (line ++ 10 :: s) = line :: lines s := by
  rw [lines, linesFrom_append h, linesFrom, if_pos rfl, linesFrom_eq]
  simp [lines]

theorem lines_of_not_mem (h : (10 : UInt8) ∉ line) : lines line = if line = [] then [] else [line] := by
  have hlines := linesFrom_append h [] []
  rw [List.append_nil, List.append_nil] at hlines
  rw [lines, hlines]
  cases line <;> simp [linesFrom]

theorem applyLines_of_isText {ls : List Bytes} (h : IsText ls text) (hls : ∀ line ∈ ls, (10 : UInt8) ∉ line)
    (c : Config) (path : Bytes) (n : Nat) : c.applyLines path n (lines text) = c.applyLines path n ls := by
  induction h generalizing c n with
  | nil => rfl
  | last line =>
    rw [lines_of_not_mem (hls line (List.mem_singleton_self line))]
    split
    · next hempty =>
      subst hempty
      rfl
    · rfl
  | cons line h ih =>
    obtain ⟨hline, hls⟩ := List.forall_mem_cons.1 hls
    rw [lines_append hline]
    simp only [applyLines, ih hls]

variable {c : Config} {entries : List (Option (Bytes × Bytes))} {ls : List Bytes}

/-- Of directives, some of which are left out, the one behind the first `k` is refused, and it is the first that is. -/
def RefusedAt (c : Config) (entries : List (Option (Bytes × Bytes))) (k : Nat) (e : ConfigError) : Prop :=
  ∃ d c', entries[k]? = some (some d) ∧ c.applyAll (entries.take k).reduceOption = .ok c' ∧
    (c'.apply d.1 d.2).2 = some e

theorem RefusedAt.cons_none {k : Nat} {e : ConfigError} (h : RefusedAt c entries k e) :
    RefusedAt c (none :: entries) (k + 1) e := h

theorem RefusedAt.cons_some {k : Nat} {e : ConfigError} {d : Bytes × Bytes} {c' : Config}
    (hd : c.apply d.1 d.2 = (c', none)) (h : RefusedAt c' entries k e) : RefusedAt c (some d :: entries) (k + 1) e := by
  obtain ⟨d', c'', hentry, hbefore, hrefused⟩ := h
  refine ⟨d', c'', hentry, ?_, hrefused⟩
  rw [List.take_succ_cons, List.reduceOption_cons_of_some, applyAll, hd]
  exact hbefore

/-- Lines are applied as the directives that they write, up to the first that is refused. -/
theorem applyLines_of_writes (h : List.Forall₂ Writes entries ls) (c : Config) (path : Bytes) (n : Nat) :
    (∃ c', c.applyAll entries.reduceOption = .ok c' ∧ c.applyLines path n ls = .ok c') ∨
    ∃ k e, RefusedAt c entries k e ∧ c.applyAll entries.reduceOption = .error e ∧
      c.applyLines path n ls = .error (.inFile path (n + k) e) := by
  induction h generalizing c n with
  | nil => exact .inl ⟨c, rfl, rfl⟩
  | @cons entry line entries ls hline hlines ih =>
    have hread := directive?_of_writes hline
    cases entry with
    | none =>
      rw [applyLines, hread, List.reduceOption_cons_of_none]
      obtain hok | ⟨k, e, hk, hall, hls⟩ := ih c (n + 1)
      · exact .inl hok
      · exact .inr ⟨k + 1, e, hk.cons_none, hall, by rw [hls, Nat.add_right_comm, Nat.add_assoc]⟩
    | some d =>
      obtain ⟨name, value⟩ := d
      rw [List.reduceOption_cons_of_some]
      cases hd : c.apply name value with
      | mk c' refused =>
        cases refused with
        | some e =>
          refine .inr ⟨0, e, ⟨(name, value), c, rfl, rfl, by rw [hd]⟩, ?_, ?_⟩
          · simp only [applyAll, hd]
          · simp only [applyLines, hread, hd, Nat.add_zero]
        | none =>
          simp only [applyAll, applyLines, hread, hd]
          obtain hok | ⟨k, e, hk, hall, hls⟩ := ih c' (n + 1)
          · exact .inl hok
          · exact .inr ⟨k + 1, e, hk.cons_some hd, hall, by rw [hls, Nat.add_right_comm, Nat.add_assoc]⟩

theorem not_mem_of_mem (h : List.Forall₂ Writes entries ls) : ∀ line ∈ ls, (10 : UInt8) ∉ line := by
  induction h with
  | nil => exact List.forall_mem_nil _
  | cons hline hlines ih => exact List.forall_mem_cons.2 ⟨not_mem_of_writes hline, ih⟩

theorem isName_and_isValue_of_mem (h : List.Forall₂ Writes entries ls) :
    ∀ d ∈ entries.reduceOption, IsName d.1 ∧ IsValue d.2 := by
  induction h with
  | nil => exact List.forall_mem_nil _
  | cons hline hlines ih =>
    cases hline with
    | none => exact ih
    | some hname hvalue => exact List.forall_mem_cons.2 ⟨⟨hname, hvalue⟩, ih⟩

end Config

namespace CommandLine

open Config

variable {pairs : List (Bytes × Bytes)}

def flagsOf (pairs : List (Bytes × Bytes)) : List Bytes := pairs.flatMap fun (name, value) => ["--" ++ name, value]

theorem spells_flagsOf (h : ∀ d ∈ pairs, IsName d.1 ∧ IsValue d.2) :
    Spells (flagsOf pairs) (pairs.map fun d => .directive d.1 d.2) [] := by
  refine ⟨?_, ?_, trivial⟩
  · rw [List.append_nil, List.flatMap_map, flagsOf, List.map_flatMap]
    refine List.flatMap_congr fun d hd => ?_
    obtain ⟨hname, hvalue⟩ := h d hd
    have hflag : (0 : UInt8) ∉ "--" ++ d.1 := List.not_mem_append (by decide) hname.no_nul
    simp only [List.map_cons, List.map_nil, Bytes.untilNul_eq_self hflag, Bytes.untilNul_eq_self hvalue.no_nul,
      Flag.arguments]
  · intro flag hflag
    obtain ⟨d, hd, rfl⟩ := List.mem_map.1 hflag
    exact ⟨(h d hd).1.ne_config, (h d hd).1.ne_help⟩

theorem configure_flagsOf (h : ∀ d ∈ pairs, IsName d.1 ∧ IsValue d.2) (open? : Bytes → Option Bytes) :
    configure (flagsOf pairs) open? = (({} : Config).applyAll pairs).map (·, false) := by
  have hpath : lastPath (pairs.map fun d => .directive d.1 d.2) = [] := by
    have hnone : (pairs.map fun d => Flag.directive d.1 d.2).reverse.findSome? Flag.path? = none := by
      rw [List.findSome?_eq_none_iff]
      intro flag hflag
      obtain ⟨d, -, rfl⟩ := List.mem_map.1 (List.mem_reverse.1 hflag)
      rfl
    rw [lastPath, hnone]
    rfl
  have hoverrides : overrides (pairs.map fun d => .directive d.1 d.2) = pairs := by
    simp [overrides, Flag.directive?, Function.comp_def]
  have hhelp : (pairs.map fun d => Flag.directive d.1 d.2).any Flag.isHelp = false := by
    simp [Flag.isHelp]
  rw [configure_of_spells (spells_flagsOf h), applyAll_eq, hpath, hoverrides, hhelp]
  cases pairs.findSome? refusal? <;> rfl

end CommandLine

namespace ConfigError

theorem not_mem_message (e : ConfigError) : (0 : UInt8) ∉ e.message := by
  have huntil : ∀ s : Bytes, (0 : UInt8) ∉ s.untilNul := fun s hmem => by
    have hne := List.mem_takeWhile_imp hmem
    cases hne
  cases e <;> exact huntil _

theorem message_inFile {path : Bytes} (h : (0 : UInt8) ∉ path) (n : Nat) (e : ConfigError) :
    (inFile path n e).message = path ++ ":" ++ Numeral.ofNat n ++ ": " ++ e.message := by
  have hnumber : (0 : UInt8) ∉ Numeral.ofNat n := Numeral.not_mem_ofNat rfl
  have hsigns : (0 : UInt8) ∉ (":" : Bytes) ∧ (0 : UInt8) ∉ (": " : Bytes) := by decide
  exact Bytes.untilNul_eq_self (by simp [h, hnumber, hsigns, e.not_mem_message])

end ConfigError

namespace Config

open CommandLine (configure flagsOf)

variable {entries : List (Option (Bytes × Bytes))} {ls : List Bytes}

/-- The directives that the lines of a file write, and flags of them in the same order, give the same settings, with all
that is remembered of them. Or the same one is the first that is refused, and the same is said of it, of the file behind
the path and the number of the line. -/
theorem file_agrees_with_flags (hlines : List.Forall₂ Writes entries ls) {text : Bytes} (htext : IsText ls text)
    {path : Bytes} (hpath : path ≠ []) (open? : Bytes → Option Bytes) :
    (∃ c, applyAll {} entries.reduceOption = .ok c ∧ ofFile path (some text) = .ok c ∧
      configure (flagsOf entries.reduceOption) open? = .ok (c, false)) ∨
    ∃ k e, RefusedAt {} entries k e ∧ ofFile path (some text) = .error (.inFile path (k + 1) e) ∧
      configure (flagsOf entries.reduceOption) open? = .error e ∧
      ((0 : UInt8) ∉ path → (ConfigError.inFile path (k + 1) e).message =
        path ++ ":" ++ Numeral.ofNat (k + 1) ++ ": " ++ e.message) := by
  have hempty : ¬ path.isEmpty = true := by simpa using hpath
  rw [CommandLine.configure_flagsOf (isName_and_isValue_of_mem hlines), ofFile, if_neg hempty,
    applyLines_of_isText htext (not_mem_of_mem hlines)]
  obtain ⟨c, hall, hfile⟩ | ⟨k, e, hk, hall, hfile⟩ := applyLines_of_writes hlines {} path 1
  · exact .inl ⟨c, hall, hfile, by rw [hall]; rfl⟩
  · refine .inr ⟨k, e, hk, ?_, by rw [hall]; rfl, fun hnul => ConfigError.message_inFile hnul _ _⟩
    rw [hfile, Nat.add_comm]

/-- A carriage return at the end of a line, a comment, an empty value with a comment right behind the white space, and
in the fourth line a number that is too great. -/
theorem file_agrees_with_flags_of_refused :
    let entries : List (Option (Bytes × Bytes)) :=
      [some ("Port", "7000"), none, some ("requirepass", ""), some ("HZ", "501")]
    let lines : List Bytes := ["\tPort  7000\r", " # port 1", "requirepass\x0b#x", "HZ 501"]
    let text : Bytes := "\tPort  7000\r\n # port 1\nrequirepass\x0b#x\nHZ 501"
    let refusal : ConfigError := .invalidValue "hz" "501"
    List.Forall₂ Writes entries lines ∧ IsText lines text ∧
      ofFile "f" (some text) = .error (.inFile "f" 4 refusal) ∧
      (ConfigError.inFile "f" 4 refusal).message = "f:4: invalid value '501' for 'hz'" ∧
      configure ["--Port", "7000", "--requirepass", "", "--HZ", "501"] (fun _ => none) = .error refusal := by
  intro entries lines text refusal
  have hport : Writes (some ("Port", "7000")) "\tPort  7000\r" :=
    .some (by decide +kernel) (by decide +kernel) "\t" "  " "\r" [] (by decide +kernel) (by decide +kernel)
      (by decide +kernel) (by decide +kernel) (by decide +kernel)
  have hcomment : Writes none " # port 1" := .none " " "# port 1" (by decide +kernel) (by decide +kernel)
  have hpass : Writes (some ("requirepass", "")) "requirepass\x0b#x" :=
    .some (by decide +kernel) (by decide +kernel) [] "\x0b" [] "#x" (by decide +kernel) (by decide +kernel)
      (by decide +kernel) (by decide +kernel) (by decide +kernel)
  have hhz : Writes (some ("HZ", "501")) "HZ 501" :=
    .some (by decide +kernel) (by decide +kernel) [] " " [] [] (by decide +kernel) (by decide +kernel)
      (by decide +kernel) (by decide +kernel) (by decide +kernel)
  have hlines : List.Forall₂ Writes entries lines := .cons hport (.cons hcomment (.cons hpass (.cons hhz .nil)))
  have htext : IsText lines text := .cons _ (.cons _ (.cons _ (.last _)))
  have hfile : ofFile "f" (some text) = .error (.inFile "f" 4 refusal) := by decide +kernel
  obtain ⟨c, -, hok, -⟩ | ⟨k, e, -, hrefused, hflags, hmessage⟩ :=
    file_agrees_with_flags hlines htext (by decide : ("f" : Bytes) ≠ []) fun _ => none
  · rw [hfile] at hok
    cases hok
  · rw [hfile] at hrefused
    cases hrefused
    exact ⟨hlines, htext, hfile, (hmessage (by decide +kernel)).trans (by decide +kernel), hflags⟩

end Config
end KeyStore
