import KeyStore.Proofs.Strangers
import Mathlib.Data.List.DropRight
import Mathlib.Data.List.Infix

/-!
# Attempts at the password

What a session has come to is told by all the attempts that were made in it (`Session.afterAll_start`): three wrong
ones in a row lock it, whatever stands before and behind them, and as long as there are none, the attempts since the
last right one are its failures. An attempt is answered by what it makes of the session (`Session.history_exact`).
-/

namespace KeyStore.Session

def afterAll (s : Session) (tried : List Bytes) : Session :=
  tried.foldl (fun s attempt => (s.authenticate attempt).2) s

/-- Three of the attempts, one right behind another, were wrong. -/
def ThriceWrong (secret : Bytes) (tried : List Bytes) : Prop :=
  ∃ run, run <:+: tried ∧ run.length = attemptLimit ∧ ∀ attempt ∈ run, attempt ≠ secret

/-- The number of wrong attempts since the last right one. -/
def wrongSince (secret : Bytes) (tried : List Bytes) : Nat := (tried.rtakeWhile (· != secret)).length

def refusalText (failures : Nat) : Bytes :=
  Bytes.ofString "invalid password (" ++ Numeral.ofNat failures ++ Bytes.ofString "/3)" ++
    if failures < 3 then [] else Bytes.ofString ", too many failed attempts, closing connection"

variable {secret attempt : Bytes} {tried : List Bytes}

@[simp] theorem wrongSince_nil (secret : Bytes) : wrongSince secret [] = 0 := rfl

theorem wrongSince_concat (secret : Bytes) (tried : List Bytes) (attempt : Bytes) :
    wrongSince secret (tried ++ [attempt]) = if attempt = secret then 0 else wrongSince secret tried + 1 := by
  by_cases h : attempt = secret <;> simp [wrongSince, h]

/-- So many attempts at the end were wrong if so many were since the last right one. -/
theorem exists_suffix_iff {n : Nat} :
    (∃ run, run <:+ tried ∧ run.length = n ∧ ∀ attempt ∈ run, attempt ≠ secret) ↔ n ≤ wrongSince secret tried := by
  constructor
  · rintro ⟨run, ⟨front, rfl⟩, rfl, hwrong⟩
    have hrun : ∀ attempt ∈ run.reverse, (attempt != secret) = true := by simpa using hwrong
    rw [wrongSince, List.rtakeWhile, List.reverse_append, List.takeWhile_append_of_pos hrun]
    simp
  · intro h
    have hwrong : ∀ attempt ∈ tried.rtakeWhile (· != secret), attempt ≠ secret := fun attempt hmem => by
      simpa using List.mem_rtakeWhile_imp hmem
    have hlast := List.drop_suffix (wrongSince secret tried - n) (tried.rtakeWhile (· != secret))
    refine ⟨_, hlast.trans (List.rtakeWhile_suffix _ _), ?_, fun attempt hmem => hwrong attempt (hlast.subset hmem)⟩
    rw [List.length_drop]
    exact Nat.sub_sub_self h

theorem thriceWrong_concat :
    ThriceWrong secret (tried ++ [attempt]) ↔
      ThriceWrong secret tried ∨ attemptLimit ≤ wrongSince secret (tried ++ [attempt]) := by
  simp only [← exists_suffix_iff, ThriceWrong, List.infix_concat_iff, or_and_right, exists_or]
  exact or_comm

theorem not_thriceWrong_nil (secret : Bytes) : ¬ ThriceWrong secret [] := by
  rintro ⟨run, hrun, hlength, -⟩
  rw [List.infix_nil.1 hrun] at hlength
  cases hlength

theorem ThriceWrong.append (h : ThriceWrong secret tried) (more : List Bytes) : ThriceWrong secret (tried ++ more) := by
  obtain ⟨run, hrun, hlength, hwrong⟩ := h
  exact ⟨run, hrun.trans (List.prefix_append tried more).isInfix, hlength, hwrong⟩

theorem wrongSince_lt (h : ¬ ThriceWrong secret tried) : wrongSince secret tried < attemptLimit := by
  refine Nat.lt_of_not_le fun hle => h ?_
  obtain ⟨run, hrun, hrest⟩ := exists_suffix_iff.2 hle
  exact ⟨run, hrun.isInfix, hrest⟩

/-- Whether there are three is told by looking at three from each place on. -/
instance (secret : Bytes) (tried : List Bytes) : Decidable (ThriceWrong secret tried) :=
  decidable_of_iff
    (∃ back ∈ tried.tails, (back.take attemptLimit).length = attemptLimit ∧
      ∀ attempt ∈ back.take attemptLimit, attempt ≠ secret) <| by
    constructor
    · rintro ⟨back, hback, hthree⟩
      have hback := (List.mem_tails _ _).1 hback
      exact ⟨_, (List.take_prefix attemptLimit back).isInfix.trans hback.isInfix, hthree⟩
    · rintro ⟨run, ⟨front, back, rfl⟩, hlength, hwrong⟩
      refine ⟨run ++ back, (List.mem_tails _ _).2 ⟨front, (List.append_assoc ..).symm⟩, ?_⟩
      rw [← hlength, List.take_left]
      exact ⟨rfl, hwrong⟩

theorem authenticate_of_right {s : Session} (hsecret : s.secret = some secret) (hopen : s.access ≠ .locked) :
    s.authenticate secret = (.ok, { s with access := .authenticated, failures := 0 }) := by
  simp only [authenticate, hsecret, if_neg hopen, if_pos ((sameSecret_iff secret secret).2 rfl)]

theorem authenticate_of_wrong {s : Session} (hsecret : s.secret = some secret) (hopen : s.access ≠ .locked)
    (hwrong : attempt ≠ secret) :
    s.authenticate attempt = (refusal (s.failures + 1), { s with
      failures := s.failures + 1
      access := if s.failures + 1 < attemptLimit then s.access else .locked }) := by
  simp only [authenticate, hsecret, if_neg hopen, if_neg (mt (sameSecret_iff attempt secret).1 hwrong)]

theorem authenticate_of_locked {s : Session} (hsecret : s.secret = some secret) (hlocked : s.access = .locked)
    (hfailures : s.failures = attemptLimit) (attempt : Bytes) :
    s.authenticate attempt = (refusal attemptLimit, s) := by
  simp [authenticate, hsecret, hlocked, hfailures, refusal]

/-- The session as its attempts tell it. -/
def told (secret : Bytes) (tried : List Bytes) : Session where
  secret := some secret
  access := if ThriceWrong secret tried then .locked
    else if secret ∈ tried then .authenticated else .unauthenticated
  failures := if ThriceWrong secret tried then attemptLimit else wrongSince secret tried

theorem told_of_thriceWrong (h : ThriceWrong secret tried) :
    told secret tried = ⟨some secret, .locked, attemptLimit⟩ := by
  rw [told, if_pos h, if_pos h]

theorem told_of_not_thriceWrong (h : ¬ ThriceWrong secret tried) :
    told secret tried =
      ⟨some secret, if secret ∈ tried then .authenticated else .unauthenticated, wrongSince secret tried⟩ := by
  rw [told, if_neg h, if_neg h]

theorem access_told_eq_locked_iff : (told secret tried).access = .locked ↔ ThriceWrong secret tried := by
  by_cases h : ThriceWrong secret tried
  · simp [told, h]
  · simp only [told_of_not_thriceWrong h, h, iff_false]
    split <;> simp

/-- One more attempt: its answer, and that the session is told by all of them. -/
theorem authenticate_told (secret : Bytes) (tried : List Bytes) (attempt : Bytes) :
    (told secret tried).authenticate attempt =
      (if attempt = secret ∧ ¬ ThriceWrong secret tried then .ok
        else refusal (told secret (tried ++ [attempt])).failures,
        told secret (tried ++ [attempt])) := by
  by_cases hlocked : ThriceWrong secret tried
  · rw [told_of_thriceWrong hlocked, told_of_thriceWrong (hlocked.append [attempt]), if_neg fun h => h.2 hlocked]
    exact authenticate_of_locked rfl rfl rfl attempt
  · have hopen : (told secret tried).access ≠ .locked := mt access_told_eq_locked_iff.1 hlocked
    by_cases hright : attempt = secret
    · subst hright
      have hnone : ¬ ThriceWrong attempt (tried ++ [attempt]) := by
        simp [thriceWrong_concat, hlocked, wrongSince_concat, attemptLimit]
      rw [authenticate_of_right rfl hopen, if_pos ⟨rfl, hlocked⟩, told_of_not_thriceWrong hnone]
      simp [told, wrongSince_concat]
    · -- one more is wrong, and it is the third in a row or not
      have hsince : wrongSince secret (tried ++ [attempt]) = wrongSince secret tried + 1 := by
        rw [wrongSince_concat, if_neg hright]
      have hlt := wrongSince_lt hlocked
      have hrefused : ¬ (attempt = secret ∧ ¬ ThriceWrong secret tried) := fun h => hright h.1
      rw [authenticate_of_wrong rfl hopen hright, if_neg hrefused, told_of_not_thriceWrong hlocked]
      by_cases hthird : wrongSince secret tried + 1 < attemptLimit
      · have hnone : ¬ ThriceWrong secret (tried ++ [attempt]) := by
          rw [thriceWrong_concat, hsince]
          exact not_or.2 ⟨hlocked, Nat.not_le_of_lt hthird⟩
        simp [told_of_not_thriceWrong hnone, hsince, hthird, Ne.symm hright]
      · have hthrice : ThriceWrong secret (tried ++ [attempt]) := by
          rw [thriceWrong_concat, hsince]
          exact .inr (Nat.le_of_not_lt hthird)
        have hthree : wrongSince secret tried + 1 = attemptLimit := by omega
        simp [told_of_thriceWrong hthrice, hthree]

theorem afterAll_start (secret : Bytes) (tried : List Bytes) :
    (start (some secret)).afterAll tried = told secret tried := by
  induction tried using List.reverseRecOn with
  | nil => simp [afterAll, start, told, not_thriceWrong_nil]
  | append_singleton tried attempt ih =>
    rw [afterAll, List.foldl_concat]
    exact congrArg Prod.snd ((congrArg (·.authenticate attempt) ih).trans (authenticate_told secret tried attempt))

theorem afterAll_start_none (tried : List Bytes) : (start none).afterAll tried = start none := by
  induction tried with
  | nil => rfl
  | cons attempt tried ih => exact ih

theorem refusal_eq : ∀ n ≤ attemptLimit, refusal n = .error (refusalText n) := by decide +kernel

theorem refusal_ne_ok (n : Nat) : refusal n ≠ .ok := nofun

theorem failures_told_le (secret : Bytes) (tried : List Bytes) : (told secret tried).failures ≤ attemptLimit := by
  simp only [told]
  split
  · exact Nat.le_refl _
  · next h => exact Nat.le_of_lt (wrongSince_lt h)

/-- For every password and every sequence of attempts on a fresh session: the session is locked if and only if three
attempts in a row were wrong, and more attempts do not change that; otherwise it is authenticated if and only if one
was right. It counts three failures when locked and otherwise those since the last right attempt, fewer than three. An
attempt is right if it is the password, byte for byte. The next attempt is answered `OK` if and only if it is right and
the session is not locked, and otherwise with an error that tells the failures by then. Without a password the session
stays authenticated without failures, and every attempt is an error. -/
theorem history_exact (secret : Bytes) (tried : List Bytes) :
    let s := (start (some secret)).afterAll tried
    (s.access = .locked ↔ ThriceWrong secret tried) ∧
    (ThriceWrong secret tried →
      s.failures = 3 ∧ ∀ more, (start (some secret)).afterAll (tried ++ more) = s) ∧
    (¬ ThriceWrong secret tried →
      (s.access = .authenticated ↔ secret ∈ tried) ∧ (s.access = .unauthenticated ↔ secret ∉ tried) ∧
        s.failures = wrongSince secret tried ∧ s.failures < 3) ∧
    (∀ attempt,
      (sameSecret attempt secret = true ↔ attempt = secret) ∧
      ((s.authenticate attempt).1 = .ok ↔ attempt = secret ∧ s.access ≠ .locked) ∧
      ((s.authenticate attempt).1 ≠ .ok →
        (s.authenticate attempt).1 = .error (refusalText (s.authenticate attempt).2.failures))) ∧
    let o := (start none).afterAll tried
    (o.access = .authenticated ∧ o.failures = 0) ∧ ∀ attempt, (o.authenticate attempt).1.isError = true := by
  intro s
  have hs : s = told secret tried := afterAll_start secret tried
  refine ⟨?_, fun hthrice => ⟨?_, fun more => ?_⟩, fun hnone => ?_, fun attempt => ⟨sameSecret_iff _ _, ?_, ?_⟩, ?_⟩
  · rw [hs]
    exact access_told_eq_locked_iff
  · rw [hs, told_of_thriceWrong hthrice]
    rfl
  · rw [hs, afterAll_start, told_of_thriceWrong hthrice, told_of_thriceWrong (hthrice.append more)]
  · rw [hs, told_of_not_thriceWrong hnone]
    refine ⟨?_, ?_, rfl, wrongSince_lt hnone⟩ <;> by_cases hmem : secret ∈ tried <;> simp [hmem]
  · rw [hs, authenticate_told, ne_eq, access_told_eq_locked_iff]
    split
    · next hok => exact iff_of_true rfl hok
    · next hno => exact iff_of_false (refusal_ne_ok _) hno
  · rw [hs, authenticate_told]
    split
    · exact fun hne => absurd rfl hne
    · exact fun _ => refusal_eq _ (failures_told_le _ _)
  · rw [afterAll_start_none]
    exact ⟨⟨rfl, rfl⟩, fun attempt => rfl⟩

/-- Two wrong attempts, the right one and a wrong one; then two more, the last of them the password and one byte, and
the right one comes too late. -/
theorem history_exact_of_late :
    let tried : List Bytes := ["a", "b", "pw", "c"]
    let late : List Bytes := ["d", "pwd", "pw"]
    let s := (start (some "pw")).afterAll tried
    (s.access = .authenticated ∧ s.failures = 1) ∧ (s.authenticate "d").1 = .error "invalid password (2/3)" ∧
      ((start (some "pw")).afterAll (tried ++ late)).access = .locked := by
  intro tried late s
  obtain ⟨-, -, hopen, hanswer, -⟩ := history_exact "pw" tried
  obtain ⟨hin, -, hfailures, -⟩ := hopen (by decide +kernel)
  obtain ⟨-, -, herror⟩ := hanswer "d"
  refine ⟨⟨hin.2 (by decide), hfailures.trans (by decide +kernel)⟩, ?_, ?_⟩
  · exact (herror (by decide +kernel)).trans (by decide +kernel)
  · exact (history_exact "pw" (tried ++ late)).1.2 (by decide +kernel)

end KeyStore.Session
