import KeyStore.Proofs.Answers
import KeyStore.Proofs.Conversations
import KeyStore.Proofs.Domains

/-!
# Keys that match a pattern

A pattern that is plain bytes and then a star matches what starts with the bytes (`Glob.isMatch_concat_star`), and it
does so for keys as they are, though matching sees them only up to their first NUL byte. Listing the keys that match
gives each live one once, in ascending order, in whatever order the entries are gone through, and changes nothing
(`Keyspace.keysMatching_exact`).
-/

namespace KeyStore

namespace Glob

/-- A byte that stands for itself in a pattern: no NUL byte, star, question mark, opening bracket or backslash. -/
def IsPlain (b : UInt8) : Prop := b ∉ ([0, 42, 63, 91, 92] : List UInt8)

instance (b : UInt8) : Decidable (IsPlain b) := inferInstanceAs (Decidable (¬ _))

variable {b : UInt8} {front : Bytes}

theorem IsPlain.ne_zero (h : IsPlain b) : b ≠ 0 := by
  rintro rfl
  exact h (by decide)

theorem segment_cons (h : IsPlain b) (pattern : Bytes) (x : UInt8) (s : Bytes) :
    segment (x :: s) (b :: pattern) = if b = x then segment s pattern else .failed := by
  simp only [IsPlain, List.mem_cons, List.not_mem_nil, or_false, not_or] at h
  obtain ⟨-, hstar, hmark, hopen, hescape⟩ := h
  rw [segment] <;> simp_all

theorem segment_nil (h : IsPlain b) (pattern : Bytes) : segment [] (b :: pattern) = .failed := by
  rw [segment]
  rintro rfl
  exact h (by decide)

theorem segment_append (h : ∀ b ∈ front, IsPlain b) (pattern s : Bytes) :
    segment s (front ++ pattern) = if front <+: s then segment (s.drop front.length) pattern else .failed := by
  induction front generalizing s with
  | nil => simp
  | cons b front ih =>
    obtain ⟨hb, hfront⟩ := List.forall_mem_cons.1 h
    cases s with
    | nil => simp [segment_nil hb]
    | cons x s =>
      rw [List.cons_append, segment_cons hb, ih hfront]
      by_cases hx : b = x
      · simp [hx]
      · simp [hx, List.cons_prefix_cons]

theorem segment_star (pattern s : Bytes) : segment s (42 :: pattern) = .star pattern s := by
  cases s <;> rfl

theorem finish_star (n : Nat) (s : Bytes) : finish (n + 1) (.star [] s) = true := by
  simp [finish, skipStars]

theorem isMatch_concat_star (h : ∀ b ∈ front, IsPlain b) (s : Bytes) :
    isMatch (front ++ [42]) s = true ↔ front <+: s := by
  rw [isMatch, segment_append h, List.length_append, segment_star]
  by_cases hfront : front <+: s
  · simp [hfront, finish_star]
  · simp [hfront, finish]

end Glob

namespace Bytes

variable {front : Bytes}

theorem untilNul_eq_self (h : (0 : UInt8) ∉ front) : front.untilNul = front := by
  simpa [untilNul] using untilNul_append h []

theorem prefix_untilNul_iff (h : (0 : UInt8) ∉ front) (s : Bytes) : front <+: s.untilNul ↔ front <+: s := by
  constructor
  · exact fun hfront => hfront.trans (List.takeWhile_prefix _)
  · rintro ⟨t, rfl⟩
    rw [untilNul_append h]
    exact List.prefix_append front _

end Bytes

namespace Keyspace

variable {ks : Keyspace} {now : Int} {front key : Bytes}

theorem selects_concat_star (h : ∀ b ∈ front, Glob.IsPlain b) (key : Bytes) :
    selects (front ++ [42]) key = true ↔ front <+: key := by
  have hnul : (0 : UInt8) ∉ front := fun hmem => (h 0 hmem).ne_zero rfl
  have hpattern : (0 : UInt8) ∉ front ++ [42] := by simp [hnul]
  rw [selects, Bytes.untilNul_eq_self hpattern, Bool.or_eq_true, Glob.isMatch_concat_star h,
    Bytes.prefix_untilNul_iff hnul, beq_iff_eq]
  constructor
  · rintro (hall | hfront)
    · -- no bytes in front of the star
      have hnil : front = [] := by simpa using hall
      exact hnil ▸ List.nil_prefix
    · exact hfront
  · exact .inr

def IsLive (ks : Keyspace) (now : Int) (key : Bytes) : Prop :=
  ∃ e, ks.entries.find? key = some e ∧ ∀ d, e.deadline = some d → now < d

/-- The keys are the live ones that have a property, each once and in ascending order. -/
structure Lists (ks : Keyspace) (now : Int) (p : Bytes → Prop) (keys : List Bytes) : Prop where
  ascending : keys.Pairwise (· < ·)
  mem_iff : ∀ key, key ∈ keys ↔ ks.IsLive now key ∧ p key

def matchesIn (now : Int) (pattern : Bytes) (entries : List (Bytes × Entry)) : List Bytes :=
  (entries.filter fun (key, e) => !e.hasElapsed now && selects pattern key).map (·.1)

theorem result_keysMatching (ks : Keyspace) (c : Clock) (pattern : Bytes) :
    (ks.keysMatching c pattern).result = matchesIn c.now pattern ks.entries.entries := rfl

theorem isLive_iff (ks : Keyspace) (now : Int) (key : Bytes) :
    ks.IsLive now key ↔ ∃ e, (key, e) ∈ ks.entries.entries ∧ e.hasElapsed now = false := by
  simp only [IsLive, Table.find?_eq_some_iff, ← Bool.not_eq_true, Entry.hasElapsed_eq_true_iff, not_exists, not_and,
    Int.not_le]

theorem lists_keysMatching (ks : Keyspace) (c : Clock) (pattern : Bytes) :
    ks.Lists c.now (fun key => selects pattern key = true) (ks.keysMatching c pattern).result where
  ascending := (ks.entries.pairwise_keys).sublist (List.filter_sublist.map _)
  mem_iff key := by
    rw [result_keysMatching, isLive_iff, matchesIn, List.mem_map]
    constructor
    · rintro ⟨x, hx, rfl⟩
      obtain ⟨hmem, hlive, hselects⟩ : x ∈ ks.entries.entries ∧ _ ∧ _ := by simpa using hx
      exact ⟨⟨x.2, hmem, hlive⟩, hselects⟩
    · rintro ⟨⟨e, hmem, hlive⟩, hselects⟩
      exact ⟨(key, e), by simp [hmem, hlive, hselects], rfl⟩

theorem Lists.congr {p q : Bytes → Prop} {keys : List Bytes} (h : ks.Lists now p keys) (hpq : ∀ key, p key ↔ q key) :
    ks.Lists now q keys :=
  ⟨h.ascending, fun key => by rw [h.mem_iff, hpq]⟩

theorem keysMatching_sublist (ks : Keyspace) (c : Clock) (pattern : Bytes) :
    (ks.keysMatching c pattern).result.Sublist (ks.keysMatching c [42]).result := by
  have hstar : ∀ key, selects [42] key = true := fun _ => rfl
  refine (List.monotone_filter_right _ fun x hx => ?_).map _
  rw [Bool.and_eq_true] at hx ⊢
  exact ⟨hx.1, hstar x.1⟩

/-- It does not matter in which order the entries are gone through if the keys are sorted at the end. -/
theorem mergeSort_matchesIn (c : Clock) (pattern : Bytes) {entries : List (Bytes × Entry)}
    (h : entries.Perm ks.entries.entries) :
    (matchesIn c.now pattern entries).mergeSort = (ks.keysMatching c pattern).result := by
  have hperm : (matchesIn c.now pattern entries).mergeSort.Perm (ks.keysMatching c pattern).result :=
    (List.mergeSort_perm _ _).trans ((h.filter _).map _)
  have hsorted : (ks.keysMatching c pattern).result.Pairwise (· ≤ ·) :=
    (ks.lists_keysMatching c pattern).ascending.imp List.le_of_lt
  exact hperm.eq_of_pairwise' (List.pairwise_mergeSort' (· ≤ ·) _) hsorted

end Keyspace

/-- A request for keys is answered with those that match, and only counted. -/
theorem Database.dispatch_keys {db : Database} (h : db.keyspace.unlogged = []) {session : Session}
    (hs : session.isAuthenticated = true) {name : Bytes} (hname : name.lower = "keys") (c : Clock) (pattern : Bytes) :
    db.dispatch c session [name, pattern] =
      ⟨(.array (db.keyspace.keysMatching c pattern).result, session), db.countCommand, c.next, []⟩ := by
  have hmeans : Command.Means (Command.nameOf [name, pattern]) [pattern] (.keys pattern) := by
    have hof : Command.nameOf [name, pattern] = "keys" := hname
    exact hof ▸ .keys pattern
  obtain ⟨signature, hread⟩ := Command.read_eq_ok_iff.2 hmeans
  have hun : db.countCommand.keyspace.unlogged = [] := h
  have htake : db.countCommand.keyspace.takeExpired.2 = db.countCommand.keyspace := by
    rw [Keyspace.takeExpired, ← hun]
  rw [dispatch_of_granted (granted_of_means hs hmeans), execute_live hread]
  simp only [Command.run, Keyspace.keysMatching, Clock.read, hun, htake, expiryRecords, recordsOf, List.map_nil,
    List.nil_append, log_nil]
  rfl

namespace Keyspace

/-- A star lists the live keys; a star behind plain bytes lists those of them that start with the bytes; and any pattern
lists those that it selects, a part of the live ones. The keys are listed in ascending order, in whatever order the
entries are gone through before they are sorted, and listing them changes nothing: a request for it is counted and has
no other effect. -/
theorem keysMatching_exact (ks : Keyspace) (c : Clock) :
    ks.Lists c.now (fun _ => True) (ks.keysMatching c [42]).result ∧
      (∀ front, (∀ b ∈ front, Glob.IsPlain b) →
        ks.Lists c.now (front <+: ·) (ks.keysMatching c (front ++ [42])).result) ∧
      ∀ pattern,
        ks.Lists c.now (fun key => selects pattern key = true) (ks.keysMatching c pattern).result ∧
        (ks.keysMatching c pattern).result.Sublist (ks.keysMatching c [42]).result ∧
        (∀ entries, entries.Perm ks.entries.entries →
          (matchesIn c.now pattern entries).mergeSort = (ks.keysMatching c pattern).result) ∧
        (ks.keysMatching c pattern).keyspace = ks ∧ (ks.keysMatching c pattern).clock = c.next ∧
        ∀ (db : Database) (session : Session) (name : Bytes), db.keyspace = ks → ks.unlogged = [] →
          session.isAuthenticated = true → name.lower = "keys" →
            db.dispatch c session [name, pattern] =
              ⟨(.array (ks.keysMatching c pattern).result, session), db.countCommand, c.next, []⟩ := by
  refine ⟨(ks.lists_keysMatching c [42]).congr fun key => iff_true_intro rfl, fun front hfront => ?_, fun pattern => ?_⟩
  · exact (ks.lists_keysMatching c _).congr (selects_concat_star hfront)
  · refine ⟨ks.lists_keysMatching c pattern, ks.keysMatching_sublist c pattern,
      fun entries hperm => mergeSort_matchesIn c pattern hperm, rfl, rfl, ?_⟩
    rintro db session name rfl hun hs hname
    exact Database.dispatch_keys hun hs hname c pattern

/-- Keys with a NUL byte, a slash and a byte above 127 behind a prefix, one whose deadline has just come, and one that
starts with a dot. -/
theorem keysMatching_exact_of_users :
    let user : Bytes := "user:"
    let keys : List (Bytes × Option Int) :=
      [(user ++ [255], none), (user ++ "/a", some 1001), (user ++ "b", some 1000), (user ++ [49, 0, 50], none),
        (".user:", none)]
    let ks : Keyspace := { entries := keys.foldl (fun t x => t.insert x.1 ⟨.string "v", x.2⟩) ∅ }
    let found := (ks.keysMatching (.standing 1000) (user ++ [42])).result
    (∀ b ∈ user, Glob.IsPlain b) ∧ ks.Lists 1000 (user <+: ·) found ∧
      found = [user ++ "/a", user ++ [49, 0, 50], user ++ [255]] ∧
      (matchesIn 1000 (user ++ [42]) ks.entries.entries.reverse).mergeSort = found ∧
      Database.dispatch { keyspace := ks } (.standing 1000) (.start none) ["Keys", user ++ [42]] =
        ⟨(.array found, .start none), Database.countCommand { keyspace := ks }, (Clock.standing 1000).next, []⟩ := by
  intro user keys ks found
  have hplain : ∀ b ∈ user, Glob.IsPlain b := by decide +kernel
  obtain ⟨-, hfront, hall⟩ := ks.keysMatching_exact (.standing 1000)
  obtain ⟨-, -, hsort, -, -, hdispatch⟩ := hall (user ++ [42])
  exact ⟨hplain, hfront user hplain, by decide +kernel, hsort _ (List.reverse_perm _),
    hdispatch _ _ "Keys" rfl rfl (by decide) (by decide)⟩

end Keyspace
end KeyStore
