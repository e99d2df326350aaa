import KeyStore.Connection
import KeyStore.Proofs.Scans

/-!
# Requests in a stream

What stands at the front of a buffer is decided by its own bytes: a request that was read, or bytes that no
frame starts with, stay so whatever arrives behind them (`Incoming.read_local`, `Incoming.read_of_malformed`).
So a stream has its requests, however it arrives.
-/

namespace KeyStore

namespace Bytes

theorem lineFrom_local {line s l rest : Bytes} (h : lineFrom line s = some (l, rest)) :
    ∃ front, s = front ++ 10 :: rest ∧ ∀ more, lineFrom line (front ++ 10 :: more) = some (l, more) := by
  induction s generalizing line with
  | nil => cases h
  | cons b s ih =>
    rw [lineFrom] at h
    split at h
    · next hb =>
      cases h
      exact ⟨[], by rw [hb]; rfl, fun more => rfl⟩
    · next hb =>
      obtain ⟨front, rfl, hmore⟩ := ih h
      refine ⟨b :: front, rfl, fun more => ?_⟩
      rw [List.cons_append, lineFrom, if_neg hb]
      exact hmore more

end Bytes

namespace Frame

theorem bulksFrom_of_malformed {n : Nat} {items : List Bytes} {size : Nat} {s : Bytes}
    (h : bulksFrom n items size s = .malformed) (more : Bytes) : bulksFrom n items size (s ++ more) = .malformed := by
  fun_induction bulksFrom n items size s with
  | case4 n items size s taken tail hline =>
    simp only [List.cons_append, bulksFrom, if_true, lengthLine_more hline more]
  | case6 n items size s len taken tail hline item tail' hsplit ih =>
    have hs := Bytes.splitExact_more hsplit more
    simp only [List.cons_append] at hs ⊢
    simp only [bulksFrom, if_true, lengthLine_more hline more, hs]
    exact ih h
  | case7 n items size s len taken tail hline item a b tail' hne hsplit =>
    have hs := Bytes.splitExact_more hsplit more
    simp only [List.cons_append] at hs ⊢
    simp only [bulksFrom, if_true, lengthLine_more hline more, hs]
  | case9 n items size b s hb => simp only [List.cons_append, bulksFrom, if_neg hb]
  | _ => cases h

theorem parse_of_malformed {s : Bytes} (h : parse s = .malformed) (more : Bytes) : parse (s ++ more) = .malformed := by
  unfold parse at h
  split at h
  · cases h
  · next b s =>
    split at h
    · next hb =>
      split at h
      · cases h
      · next taken rest hline =>
        simp only [List.cons_append, parse, if_pos hb, lengthLine_more hline more]
      · next n taken rest hline =>
        simp only [List.cons_append, parse, if_pos hb, lengthLine_more hline more]
        exact bulksFrom_of_malformed h more
    · next hb => simp only [List.cons_append, parse, if_neg hb]

end Frame

namespace Incoming

variable {s rest : Bytes} {dialect : Dialect} {request : Request}

@[simp] theorem read_nil : Incoming.read [] = .incomplete := rfl

/-- A request that was read is read from its own bytes, of which there is at least one. -/
theorem read_local (h : Incoming.read s = .request dialect request rest) :
    ∃ front, s = front ++ rest ∧ front ≠ [] ∧
      ∀ more, Incoming.read (front ++ more) = .request dialect request more := by
  unfold Incoming.read at h
  split at h
  · next hstar =>
    split at h
    · cases h
    · cases h
    · next items size rest' hdone =>
      cases h
      obtain ⟨front, rfl, _, hmore⟩ := Frame.parse_local hdone
      have hne : front ≠ [] := by
        rintro rfl
        cases hmore []
      obtain ⟨b, front, rfl⟩ := List.exists_cons_of_ne_nil hne
      have hb : b = 42 := by simpa using hstar
      refine ⟨b :: front, rfl, hne, fun more => ?_⟩
      have hhead : (b :: front ++ more).head? = some 42 := by simp [hb]
      simp only [Incoming.read, hhead, hmore more, if_true]
  · next hstar =>
    split at h
    · cases h
    · next line rest' hline =>
      cases h
      obtain ⟨front, rfl, hmore⟩ := Bytes.lineFrom_local hline
      refine ⟨front ++ [10], by simp, by simp, fun more => ?_⟩
      have hhead : (front ++ [10] ++ more).head? ≠ some 42 := by
        cases front with
        | nil => simp
        | cons b front => simpa using hstar
      have hline' : Bytes.line? (front ++ [10] ++ more) = some (line, more) := by
        rw [List.append_assoc]
        exact hmore more
      simp only [Incoming.read, if_neg hhead, hline']

theorem read_more (h : Incoming.read s = .request dialect request rest) (more : Bytes) :
    Incoming.read (s ++ more) = .request dialect request (rest ++ more) := by
  obtain ⟨front, rfl, _, hmore⟩ := read_local h
  rw [List.append_assoc]
  exact hmore _

theorem length_rest_lt (h : Incoming.read s = .request dialect request rest) : rest.length < s.length := by
  obtain ⟨front, rfl, hne, _⟩ := read_local h
  have hpos := List.length_pos_iff.2 hne
  rw [List.length_append]
  omega

theorem read_of_malformed (h : Incoming.read s = .malformed) (more : Bytes) :
    Incoming.read (s ++ more) = .malformed := by
  unfold Incoming.read at h
  split at h
  · next hstar =>
    have hhead : (s ++ more).head? = some 42 := by
      cases s with
      | nil => cases hstar
      | cons b s => simpa using hstar
    split at h
    · cases h
    · next hmal => simp only [Incoming.read, if_pos hhead, Frame.parse_of_malformed hmal more]
    · cases h
  · split at h <;> cases h

/-- What holds of a stream in which no request is finished, of one that is malformed, and of a request if it holds
of what follows, holds of all streams. -/
theorem induction {motive : Bytes → Prop} (incomplete : ∀ s, Incoming.read s = .incomplete → motive s)
    (malformed : ∀ s, Incoming.read s = .malformed → motive s)
    (request : ∀ s dialect request rest, Incoming.read s = .request dialect request rest → motive rest → motive s)
    (s : Bytes) : motive s := by
  induction hn : s.length using Nat.strongRecOn generalizing s with
  | ind n ih =>
    subst hn
    cases hread : Incoming.read s with
    | incomplete => exact incomplete s hread
    | malformed => exact malformed s hread
    | request dialect r rest => exact request s dialect r rest hread (ih _ (length_rest_lt hread) rest rfl)

def requestsFrom : Nat → Bytes → List Request
  | 0, _ => []
  | fuel + 1, s =>
    match Incoming.read s with
    | .request _ first rest => first :: requestsFrom fuel rest
    | _ => []

/-- The requests that stand in a stream, up to one that is unfinished or none. -/
def requests (stream : Bytes) : List Request := requestsFrom stream.length stream

theorem requestsFrom_eq {fuel fuel' : Nat} (h : s.length ≤ fuel) (h' : s.length ≤ fuel') :
    requestsFrom fuel s = requestsFrom fuel' s := by
  induction s using Incoming.induction generalizing fuel fuel' with
  | incomplete s hread => cases fuel <;> cases fuel' <;> simp only [requestsFrom, hread]
  | malformed s hread => cases fuel <;> cases fuel' <;> simp only [requestsFrom, hread]
  | request s dialect request rest hread ih =>
    have hlt := length_rest_lt hread
    obtain ⟨fuel, rfl⟩ := Nat.exists_eq_add_one_of_ne_zero (show fuel ≠ 0 by omega)
    obtain ⟨fuel', rfl⟩ := Nat.exists_eq_add_one_of_ne_zero (show fuel' ≠ 0 by omega)
    simp only [requestsFrom, hread]
    rw [ih (show rest.length ≤ fuel by omega) (show rest.length ≤ fuel' by omega)]

theorem requests_of_incomplete (h : Incoming.read s = .incomplete) : requests s = [] := by
  unfold requests
  cases s.length <;> simp only [requestsFrom, h]

theorem requests_of_malformed (h : Incoming.read s = .malformed) : requests s = [] := by
  unfold requests
  cases s.length <;> simp only [requestsFrom, h]

theorem requests_of_request (h : Incoming.read s = .request dialect request rest) :
    requests s = request :: requests rest := by
  have hlt := length_rest_lt h
  obtain ⟨fuel, hfuel⟩ := Nat.exists_eq_add_one_of_ne_zero (show s.length ≠ 0 by omega)
  simp only [requests, hfuel, requestsFrom, h]
  rw [requestsFrom_eq (show rest.length ≤ fuel by omega) (Nat.le_refl rest.length)]

theorem requests_subset_append (s more : Bytes) : requests s ⊆ requests (s ++ more) := by
  induction s using Incoming.induction with
  | incomplete s hread => simp [requests_of_incomplete hread]
  | malformed s hread => simp [requests_of_malformed hread]
  | request s dialect request rest hread ih =>
    rw [requests_of_request hread, requests_of_request (read_more hread more)]
    exact List.cons_subset_cons _ ih

end Incoming
end KeyStore
