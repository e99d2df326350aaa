import KeyStore.Proofs.Verdicts
import Mathlib.Data.Nat.Count
import Mathlib.Data.Set.Card
import Mathlib.Data.Stream.Init

/-!
# Transfers, whatever the calls do

As long as no call refuses, the bytes handed over are as many from the front as the calls took (`Transfer.run_append`).
Each call that goes on takes a byte or is interrupted, so a transfer that is not interrupted for ever comes to an end
(`Transfer.exists_end`). A loop that goes by places offers a device the bytes behind those that it has and nothing else,
and hands over the same (`Transfer.runAt_eq`).
-/

namespace KeyStore

namespace WriteCall

def taken : WriteCall → Nat
  | took n => n
  | _ => 0

def Refuses (call : WriteCall) : Prop := call = .failed ∨ call = .took 0

instance (call : WriteCall) : Decidable call.Refuses := inferInstanceAs (Decidable (_ ∨ _))

theorem one_le_of_not_refuses (call : WriteCall) (h : ¬ call.Refuses) :
    1 ≤ call.taken + if call = .interrupted then 1 else 0 := by
  match call with
  | .took 0 => exact absurd (.inr rfl) h
  | .took (n + 1) => simp [taken]
  | .interrupted => simp
  | .failed => exact absurd (.inl rfl) h

theorem taken_of_refuses {call : WriteCall} (h : call.Refuses) : call.taken = 0 := by
  rcases h with rfl | rfl <;> rfl

end WriteCall

namespace Transfer

variable {s : Bytes} {calls more : List WriteCall} {call : WriteCall} {n : Nat}

def taken (calls : List WriteCall) : Nat := (calls.map WriteCall.taken).sum

@[simp] theorem taken_nil : taken [] = 0 := rfl

@[simp] theorem taken_cons (call : WriteCall) (calls : List WriteCall) :
    taken (call :: calls) = call.taken + taken calls := List.sum_cons

@[simp] theorem taken_concat (calls : List WriteCall) (call : WriteCall) :
    taken (calls ++ [call]) = taken calls + call.taken := by
  simp [taken]

theorem run_append (h : ∀ call ∈ calls, ¬ call.Refuses) (s : Bytes) (more : List WriteCall) :
    run s (calls ++ more) =
      ⟨s.take (taken calls) ++ (run (s.drop (taken calls)) more).sent, (run (s.drop (taken calls)) more).outcome⟩ := by
  induction calls generalizing s with
  | nil => simp
  | cons call calls ih =>
    obtain ⟨hcall, hcalls⟩ := List.forall_mem_cons.1 h
    cases s with
    | nil => simp
    | cons b s =>
      match call with
      | .took 0 => exact absurd (.inr rfl) hcall
      | .took (n + 1) =>
        have hdrop : (b :: s).drop (n + 1 + taken calls) = (s.drop n).drop (taken calls) := by
          rw [List.drop_drop, Nat.add_right_comm, List.drop_succ_cons]
        have htake : (b :: s).take (n + 1 + taken calls) = b :: (s.take n ++ (s.drop n).take (taken calls)) := by
          rw [Nat.add_right_comm, List.take_succ_cons, List.take_add]
        simp only [List.cons_append, run, ih hcalls, taken_cons, WriteCall.taken, hdrop, htake, List.append_assoc]
      | .interrupted => simp only [List.cons_append, run, ih hcalls, taken_cons, WriteCall.taken, Nat.zero_add]
      | .failed => exact absurd (.inl rfl) hcall

/-- A transfer goes on behind these calls: none refuses, and they leave something. -/
structure Goes (s : Bytes) (calls : List WriteCall) : Prop where
  not_refuses : ∀ call ∈ calls, ¬ call.Refuses
  taken_lt : taken calls < s.length

theorem Goes.run_eq (h : Goes s calls) : run s calls = ⟨s.take (taken calls), .pending⟩ := by
  have happend := run_append h.not_refuses s []
  rwa [List.append_nil, List.drop_eq_getElem_cons h.taken_lt, run, List.append_nil] at happend

theorem Goes.run_concat_of_refuses (h : Goes s calls) (hcall : call.Refuses) :
    run s (calls ++ [call]) = ⟨s.take (taken calls), .refused⟩ := by
  rw [run_append h.not_refuses, List.drop_eq_getElem_cons h.taken_lt]
  rcases hcall with rfl | rfl <;> simp [run]

theorem run_of_le (h : ∀ call ∈ calls, ¬ call.Refuses) (hle : s.length ≤ taken calls) :
    run s calls = ⟨s, .complete⟩ := by
  have happend := run_append h s []
  rwa [List.append_nil, List.drop_eq_nil_of_le hle, run_nil, List.append_nil, List.take_of_length_le hle] at happend

/-- Behind calls with which it goes on, a call ends a transfer if it refuses or takes the rest. -/
theorem Goes.concat_cases (h : Goes s calls) (call : WriteCall) :
    Goes s (calls ++ [call]) ∨
    (call.Refuses ∧ run s (calls ++ [call]) = ⟨s.take (taken calls), .refused⟩) ∨
    (¬ call.Refuses ∧ s.length ≤ taken (calls ++ [call]) ∧ run s (calls ++ [call]) = ⟨s, .complete⟩) := by
  by_cases hcall : call.Refuses
  · exact .inr (.inl ⟨hcall, h.run_concat_of_refuses hcall⟩)
  · have hcalls : ∀ c ∈ calls ++ [call], ¬ c.Refuses :=
      List.forall_mem_append.2 ⟨h.not_refuses, List.forall_mem_singleton.2 hcall⟩
    by_cases hlt : taken (calls ++ [call]) < s.length
    · exact .inl ⟨hcalls, hlt⟩
    · have hle := Nat.le_of_not_lt hlt
      exact .inr (.inr ⟨hcall, hle, run_of_le hcalls hle⟩)

theorem run_append_of_ended (h : (run s calls).outcome ≠ .pending) (more : List WriteCall) :
    run s (calls ++ more) = run s calls := by
  induction calls generalizing s with
  | nil =>
    cases s with
    | nil => simp
    | cons b s => exact absurd rfl h
  | cons call calls ih =>
    cases s with
    | nil => simp
    | cons b s =>
      match call with
      | .took 0 => rfl
      | .took (n + 1) => simp only [List.cons_append, run, ih h]
      | .interrupted => exact ih h
      | .failed => rfl

section Endless

variable {calls : Stream' WriteCall}

theorem le_taken_add_count (h : ∀ call ∈ calls.take n, ¬ call.Refuses) :
    n ≤ taken (calls.take n) + Nat.count (calls.get · = .interrupted) n := by
  induction n with
  | zero => exact Nat.zero_le _
  | succ n ih =>
    rw [Stream'.take_succ'] at h ⊢
    obtain ⟨hcalls, hcall⟩ := List.forall_mem_append.1 h
    have hone := (calls.get n).one_le_of_not_refuses (hcall _ (List.mem_singleton_self _))
    have hle := ih hcalls
    rw [taken_concat, Nat.count_succ]
    omega

theorem not_goes_of_finite (s : Bytes) (hfinite : {i | calls.get i = .interrupted}.Finite) :
    ¬ Goes s (calls.take (s.length + {i | calls.get i = .interrupted}.ncard)) := by
  intro hgoes
  have hle := le_taken_add_count hgoes.not_refuses
  have hcount := Nat.count_le_card hfinite (s.length + {i | calls.get i = .interrupted}.ncard)
  rw [← Set.ncard_eq_toFinset_card _ hfinite] at hcount
  have hlt := hgoes.taken_lt
  omega

theorem exists_end (s : Bytes) (hfinite : {i | calls.get i = .interrupted}.Finite) :
    ∃ n ≤ s.length + {i | calls.get i = .interrupted}.ncard,
      ¬ Goes s (calls.take n) ∧ ∀ m < n, Goes s (calls.take m) := by
  classical
  have hends : ∃ n, ¬ Goes s (calls.take n) := ⟨_, not_goes_of_finite s hfinite⟩
  refine ⟨Nat.find hends, Nat.find_min' hends (not_goes_of_finite s hfinite), Nat.find_spec hends, fun m hm => ?_⟩
  exact not_not.1 (Nat.find_min hends hm)

/-- At its end a transfer is complete, or the last call has refused. -/
theorem run_of_end (hend : ¬ Goes s (calls.take n)) (hgoes : ∀ m < n, Goes s (calls.take m)) :
    ((∀ k, n = k + 1 → ¬ (calls.get k).Refuses) ∧ s.length ≤ taken (calls.take n) ∧
      run s (calls.take n) = ⟨s, .complete⟩) ∨
    ∃ k, n = k + 1 ∧ (calls.get k).Refuses ∧ taken (calls.take n) < s.length ∧
      run s (calls.take n) = ⟨s.take (taken (calls.take n)), .refused⟩ := by
  cases n with
  | zero =>
    have hempty : s.length ≤ 0 := Nat.le_of_not_lt fun hlt => hend ⟨by simp, hlt⟩
    exact .inl ⟨nofun, hempty, run_of_le (by simp) hempty⟩
  | succ k =>
    have hbefore := hgoes k (Nat.lt_succ_self k)
    rw [Stream'.take_succ'] at hend ⊢
    obtain hmore | ⟨hcall, hrun⟩ | ⟨hcall, hle, hrun⟩ := hbefore.concat_cases (calls.get k)
    · exact absurd hmore hend
    · have htaken : taken (calls.take k ++ [calls.get k]) = taken (calls.take k) := by
        rw [taken_concat, WriteCall.taken_of_refuses hcall, Nat.add_zero]
      rw [htaken]
      exact .inr ⟨k, rfl, hcall, hbefore.taken_lt, hrun⟩
    · refine .inl ⟨fun k' hk' => ?_, hle, hrun⟩
      obtain rfl : k = k' := Nat.succ.inj hk'
      exact hcall

theorem run_take_of_ended (h : (run s (calls.take n)).outcome ≠ .pending) {m : Nat} (hm : m ≥ n) :
    run s (calls.take m) = run s (calls.take n) := by
  obtain ⟨more, hmore⟩ : calls.take n <+: calls.take m := Stream'.take_prefix_take_left _ _ _ hm
  rw [← hmore, run_append_of_ended h]

end Endless

/-- The calls, of which the first is offered so many bytes, take no more than they are offered, which is what those
before them left. No call is offered nothing, and none is made behind one that refuses. -/
def Obeys : Nat → List WriteCall → Prop
  | offered, call :: calls =>
    0 < offered → call.taken ≤ offered ∧ (¬ call.Refuses → Obeys (offered - call.taken) calls)
  | _, [] => True

theorem Obeys.of_append {offered : Nat} (h : Obeys offered (calls ++ more))
    (hcalls : ∀ call ∈ calls, ¬ call.Refuses) (hlt : taken calls < offered) :
    Obeys (offered - taken calls) more := by
  induction calls generalizing offered with
  | nil => exact h
  | cons call calls ih =>
    obtain ⟨hcall, hcalls⟩ := List.forall_mem_cons.1 hcalls
    rw [taken_cons] at hlt
    have hrest := (h (by omega)).2 hcall
    rw [taken_cons, ← Nat.sub_sub]
    exact ih hrest hcalls (by omega)

theorem Goes.taken_le (h : Goes s calls) (hobeys : Obeys s.length (calls ++ [call])) :
    taken (calls ++ [call]) ≤ s.length := by
  have hlt := h.taken_lt
  have hle := (hobeys.of_append h.not_refuses hlt (by omega)).1
  rw [taken_concat]
  omega

theorem taken_le_of_end {calls : Stream' WriteCall} (hobeys : ∀ m, Obeys s.length (calls.take m))
    (hgoes : ∀ m < n, Goes s (calls.take m)) : taken (calls.take n) ≤ s.length := by
  cases n with
  | zero => exact Nat.zero_le _
  | succ k =>
    have hobeys' := hobeys (k + 1)
    rw [Stream'.take_succ'] at hobeys' ⊢
    exact (hgoes k (Nat.lt_succ_self k)).taken_le hobeys'

/-- The loop by places. A device, which holds some bytes, is offered the bytes from a place up to their end, and the
place moves on by what it takes. There is no value if what is offered lies outside, or a call takes more than that. -/
def runAt (s : Bytes) (place : Nat) (held : Bytes) (calls : List WriteCall) : Option Transfer :=
  if s.length ≤ place then return ⟨held, .complete⟩
  else
    match calls with
    | [] => return ⟨held, .pending⟩
    | .failed :: _ => return ⟨held, .refused⟩
    | .interrupted :: calls => runAt s place held calls
    | .took 0 :: _ => return ⟨held, .refused⟩
    | .took (n + 1) :: calls => do
      let offered ← Frame.slice? s place s.length
      if offered.length < n + 1 then none
      else runAt s (Frame.addWords place (n + 1)) (held ++ offered.take (n + 1)) calls

variable {place : Nat}

theorem runAt_of_le (h : s.length ≤ place) (held : Bytes) (calls : List WriteCall) :
    runAt s place held calls = some ⟨held, .complete⟩ := by
  rw [runAt.eq_def, if_pos h]
  rfl

theorem runAt_took (hs : s.length < UInt64.size) (hplace : place < s.length) (hn : n + 1 ≤ s.length - place)
    (held : Bytes) (calls : List WriteCall) :
    runAt s place held (.took (n + 1) :: calls) =
      runAt s (place + (n + 1)) (held ++ (s.drop place).take (n + 1)) calls := by
  have hword : Frame.addWords place (n + 1) = place + (n + 1) :=
    Frame.addWords_eq (Nat.lt_of_le_of_lt (by omega : place + (n + 1) ≤ s.length) hs)
  have hslice : Frame.slice? s place s.length = some (s.drop place) := by
    rw [Frame.slice?, if_pos ⟨Nat.le_of_lt hplace, Nat.le_refl _⟩, ← List.length_drop, List.take_length]
  rw [runAt.eq_def, if_neg (Nat.not_le_of_lt hplace)]
  simp only [hslice, hword, Option.bind_eq_bind, Option.bind_some]
  exact if_neg (by rw [List.length_drop]; omega)

theorem runAt_eq (hs : s.length < UInt64.size) (hplace : place ≤ s.length) (hobeys : Obeys (s.length - place) calls)
    (held : Bytes) :
    runAt s place held calls = some ⟨held ++ (run (s.drop place) calls).sent, (run (s.drop place) calls).outcome⟩ := by
  induction calls generalizing place held with
  | nil =>
    obtain rfl | hlt := Nat.eq_or_lt_of_le hplace
    · rw [runAt_of_le (Nat.le_refl _), List.drop_length, run_nil, List.append_nil]
    · rw [runAt, if_neg (Nat.not_le_of_lt hlt), List.drop_eq_getElem_cons hlt, run, List.append_nil]
      rfl
  | cons call calls ih =>
    obtain rfl | hlt := Nat.eq_or_lt_of_le hplace
    · rw [runAt_of_le (Nat.le_refl _), List.drop_length, run_nil, List.append_nil]
    · obtain ⟨hle, hmore⟩ := hobeys (Nat.sub_pos_of_lt hlt)
      have hrest := List.drop_eq_getElem_cons hlt
      match call with
      | .failed =>
        rw [runAt, if_neg (Nat.not_le_of_lt hlt), hrest, run, List.append_nil]
        rfl
      | .took 0 =>
        rw [runAt, if_neg (Nat.not_le_of_lt hlt), hrest, run, List.append_nil]
        rfl
      | .interrupted =>
        have hrun : run (s.drop place) (.interrupted :: calls) = run (s.drop place) calls := by rw [hrest, run]
        rw [runAt, if_neg (Nat.not_le_of_lt hlt), hrun]
        exact ih hplace (hmore (by decide)) held
      | .took (n + 1) =>
        have hgoes : ¬ (WriteCall.took (n + 1)).Refuses := by simp [WriteCall.Refuses]
        have hrun := run_append (List.forall_mem_singleton.2 hgoes) (s.drop place) calls
        have hle' : n + 1 ≤ s.length - place := hle
        have hobeys' : Obeys (s.length - (place + (n + 1))) calls := by
          rw [← Nat.sub_sub]
          exact hmore hgoes
        simp only [List.singleton_append, taken_cons, taken_nil, WriteCall.taken, Nat.add_zero, List.drop_drop] at hrun
        rw [runAt_took hs hlt hle', ih (by omega) hobeys', hrun, List.append_assoc]

/-- Whatever calls do that take no more than they are offered and are not interrupted for ever, a transfer comes to an
end, after no more calls than there are bytes and interruptions, and calls behind the end make no difference. The bytes
handed over are as many from the front as the calls took. They are all if and only if the transfer is complete, and it
is refused if and only if the last call failed or took nothing. A loop that goes by places, which are words, has handed
over the same at every time, and offers nothing that is not there. -/
theorem transfer_exact {s : Bytes} {calls : Stream' WriteCall} (hobeys : ∀ m, Obeys s.length (calls.take m))
    (hfinite : {i | calls.get i = .interrupted}.Finite) :
    ∃ n ≤ s.length + {i | calls.get i = .interrupted}.ncard,
      let t := run s (calls.take n)
      (∀ m < n, (run s (calls.take m)).outcome = .pending) ∧ t.outcome ≠ .pending ∧
        (∀ m ≥ n, run s (calls.take m) = t) ∧
        t.sent <+: s ∧ t.sent.length = taken (calls.take n) ∧
        (t.outcome = .complete ↔ t.sent = s) ∧
        (t.outcome = .refused ↔ ∃ k, n = k + 1 ∧ (calls.get k).Refuses) ∧
        (s.length < UInt64.size → ∀ m, runAt s 0 [] (calls.take m) = some (run s (calls.take m))) := by
  obtain ⟨n, hn, hend, hgoes⟩ := exists_end s hfinite
  have hpending : ∀ m < n, (run s (calls.take m)).outcome = .pending := fun m hm => by rw [(hgoes m hm).run_eq]
  have hplaces : s.length < UInt64.size → ∀ m, runAt s 0 [] (calls.take m) = some (run s (calls.take m)) :=
    fun hs m => runAt_eq hs (Nat.zero_le _) (hobeys m) []
  have htaken : taken (calls.take n) ≤ s.length := taken_le_of_end hobeys hgoes
  obtain ⟨hcalls, hle, hrun⟩ | ⟨k, rfl, hcall, hlt, hrun⟩ := run_of_end hend hgoes
  · have hended : (run s (calls.take n)).outcome ≠ .pending := by simp [hrun]
    refine ⟨n, hn, hpending, hended, fun m hm => run_take_of_ended hended hm, ?_⟩
    rw [hrun]
    refine ⟨List.prefix_refl s, Nat.le_antisymm hle htaken, iff_of_true rfl rfl, iff_of_false nofun ?_, hplaces⟩
    rintro ⟨k, hk, hcall⟩
    exact hcalls k hk hcall
  · have hended : (run s (calls.take (k + 1))).outcome ≠ .pending := by simp [hrun]
    refine ⟨k + 1, hn, hpending, hended, fun m hm => run_take_of_ended hended hm, ?_⟩
    have hpart : s.take (taken (calls.take (k + 1))) ≠ s := fun heq =>
      Nat.not_le_of_lt hlt ((List.take_eq_self_iff s).1 heq)
    rw [hrun]
    exact ⟨List.take_prefix _ s, List.length_take_of_le htaken, iff_of_false nofun hpart,
      iff_of_true rfl ⟨k, rfl, hcall⟩, hplaces⟩

/-- Two bytes, an interruption, one byte, and then a call that takes nothing, of five bytes. -/
theorem transfer_exact_of_nothing_taken :
    let calls : Stream' WriteCall := [.took 2, .interrupted, .took 1] ++ₛ Stream'.const (.took 0)
    (∀ m, Obeys 5 (calls.take m)) ∧ {i | calls.get i = .interrupted}.Finite ∧
      ∀ m ≥ 4, run "hello" (calls.take m) = ⟨"hel", .refused⟩ := by
  intro calls
  have hobeys : ∀ m, Obeys 5 (calls.take m) := by
    intro m
    rcases m with _ | _ | _ | _ | m <;>
      simp [calls, Stream'.cons_append_stream, Stream'.take_succ, Obeys, WriteCall.taken, WriteCall.Refuses]
  have hfinite : {i | calls.get i = .interrupted}.Finite := by
    refine (Set.finite_singleton 1).subset fun i hi => ?_
    match i with
    | 0 | 2 => cases hi
    | 1 => rfl
    | i + 3 => cases hi
  obtain ⟨n, -, hpending, -, hstays, -⟩ := transfer_exact (s := "hello") hobeys hfinite
  have hfourth : run "hello" (calls.take 4) = ⟨"hel", .refused⟩ := by decide
  have hn : n ≤ 4 := Nat.le_of_not_lt fun hlt => by
    have hpending := hpending 4 hlt
    rw [hfourth] at hpending
    cases hpending
  refine ⟨hobeys, hfinite, fun m hm => ?_⟩
  rw [hstays m (Nat.le_trans hn hm), ← hstays 4 hn, hfourth]

end Transfer
end KeyStore
