import KeyStore.Proofs.Streams

/-!
# Streams cut into reads

A stream may arrive in any reads: its requests are served as if all of it had arrived at once
(`Connection.effect_serve`), unless one of them grows too long before it is finished. Serving goes on from where it
had to wait (`Connection.serveAll_append`), and never behind what ended the connection
(`Connection.serveAll_append_of_closed`).
-/

namespace KeyStore

/-- No request of a stream takes more than so many bytes: neither one that is finished, nor the one that is
unfinished at the end or turns out to be none. -/
inductive Incoming.Fits (limit : Nat) : Bytes → Prop
  | last {s : Bytes} (hlast : ∀ dialect request rest, Incoming.read s ≠ .request dialect request rest)
      (hsize : ∀ front, front <+: s → Incoming.read front = .incomplete → front.length ≤ limit) : Fits limit s
  | next {s rest : Bytes} {dialect : Dialect} {request : Request}
      (hread : Incoming.read s = .request dialect request rest) (hsize : s.length ≤ rest.length + limit)
      (hrest : Fits limit rest) : Fits limit s

namespace Incoming

variable {s rest : Bytes} {limit : Nat}

theorem fits_of_length_le (h : s.length ≤ limit) : Fits limit s := by
  induction s using Incoming.induction with
  | incomplete s hread => exact .last (fun _ _ _ => by simp [hread]) fun _ hfront _ => Nat.le_trans hfront.length_le h
  | malformed s hread => exact .last (fun _ _ _ => by simp [hread]) fun _ hfront _ => Nat.le_trans hfront.length_le h
  | request s dialect request rest hread ih =>
    have hlt := length_rest_lt hread
    exact .next hread (by omega) (ih (by omega))

theorem Fits.length_le (h : Fits limit s) {front : Bytes} (hfront : front <+: s)
    (hread : Incoming.read front = .incomplete) : front.length ≤ limit := by
  cases h with
  | last hlast hsize => exact hsize front hfront hread
  | @next _ rest dialect request hnext hsize hrest =>
    obtain ⟨whole, rfl, _, hmore⟩ := read_local hnext
    rw [List.length_append] at hsize
    rcases List.prefix_or_prefix_of_prefix hfront (List.prefix_append whole rest) with hle | ⟨back, rfl⟩
    · exact Nat.le_trans hle.length_le (by omega)
    · -- the whole request would stand in it
      rw [hmore back] at hread
      cases hread

theorem Fits.of_request (h : Fits limit s) {dialect : Dialect} {request : Request}
    (hread : Incoming.read s = .request dialect request rest) : Fits limit rest := by
  cases h with
  | last hlast hsize => exact absurd hread (hlast _ _ _)
  | next hnext hsize hrest =>
    rw [hnext] at hread
    cases hread
    exact hrest

end Incoming

namespace Served

def withBuffer (s : Served) (buffer : Bytes) : Served := { s with connection := { s.connection with buffer } }

def andThen (s t : Served) : Served := { t with out := s.out ++ t.out, notices := s.notices ++ t.notices }

/-- All that is left of it but what still waits. -/
def effect (s : Served) : Bytes × List Notice × Database × Clock × Session :=
  (s.out, s.notices, s.connection.database, s.connection.clock, s.connection.session)

variable {s t u : Served}

@[simp] theorem progress_withBuffer (s : Served) (buffer : Bytes) : (s.withBuffer buffer).progress = s.progress := rfl

@[simp] theorem buffer_withBuffer (s : Served) (buffer : Bytes) :
    (s.withBuffer buffer).connection.buffer = buffer := rfl

@[simp] theorem effect_withBuffer (s : Served) (buffer : Bytes) : (s.withBuffer buffer).effect = s.effect := rfl

@[simp] theorem connection_andThen (s t : Served) : (s.andThen t).connection = t.connection := rfl

theorem andThen_assoc (s t u : Served) : (s.andThen t).andThen u = s.andThen (t.andThen u) := by
  simp only [andThen, List.append_assoc]

theorem effect_andThen (h : t.effect = u.effect) : (s.andThen t).effect = (s.andThen u).effect := by
  simp only [effect, andThen, Prod.mk.injEq] at h ⊢
  simp only [h, and_self]

end Served

namespace Connection
open Served

/-- Serves a stream that has arrived as a whole. -/
def serveAll (k : Connection) (stream : Bytes) : Served := { k with buffer := stream }.serveBuffer stream.length

def treat (k : Connection) (dialect : Dialect) (request : Request) : Served :=
  if request.isEmpty then ⟨k, [], [], .handled⟩
  else if isQuit request then ⟨k, dialect.goodbye, [], .closed⟩
  else k.answer dialect request

variable {k : Connection} {s rest : Bytes} {dialect : Dialect} {request : Request}

theorem treat_withBuffer (k : Connection) (dialect : Dialect) (request : Request) (buffer : Bytes) :
    { k with buffer }.treat dialect request = (k.treat dialect request).withBuffer buffer := by
  simp only [treat, answer]
  split
  · rfl
  · split
    · rfl
    · split <;> rfl

theorem progress_treat_ne (k : Connection) (dialect : Dialect) (request : Request) :
    (k.treat dialect request).progress ≠ .waiting := by
  simp only [treat, answer]
  split
  · simp
  · split
    · simp
    · split <;> simp

theorem serveOne_of_request (h : Incoming.read k.buffer = .request dialect request rest) :
    k.serveOne = (k.treat dialect request).withBuffer rest := by
  rw [← treat_withBuffer]
  simp only [serveOne, h]
  rfl

theorem serveBuffer_of_incomplete (h : Incoming.read k.buffer = .incomplete) (fuel : Nat) :
    k.serveBuffer fuel = ⟨k, [], [], .waiting⟩ := by
  cases fuel with
  | zero => rfl
  | succ fuel =>
    rw [serveBuffer]
    split
    · rfl
    · simp only [serveOne, h]

theorem isEmpty_of_read (h : Incoming.read s ≠ .incomplete) : s.isEmpty = false := by
  cases s with
  | nil => exact absurd Incoming.read_nil h
  | cons b s => rfl

theorem serveBuffer_of_malformed (h : Incoming.read k.buffer = .malformed) (fuel : Nat) :
    k.serveBuffer (fuel + 1) = ⟨k, protocolError, [], .closed⟩ := by
  have hne := isEmpty_of_read (s := k.buffer) (by simp [h])
  simp only [serveBuffer, hne, serveOne, h]
  rfl

theorem serveBuffer_of_request (h : Incoming.read k.buffer = .request dialect request rest) (fuel : Nat) :
    k.serveBuffer (fuel + 1) =
      let t := k.treat dialect request
      if t.progress = .handled then t.andThen ({ t.connection with buffer := rest }.serveBuffer fuel)
      else t.withBuffer rest := by
  have hne := isEmpty_of_read (s := k.buffer) (by simp [h])
  simp only [serveBuffer, hne, serveOne_of_request h]
  cases hp : (k.treat dialect request).progress <;> simp [Served.withBuffer, Served.andThen, hp]

theorem serveBuffer_eq {fuel fuel' : Nat} (h : k.buffer.length ≤ fuel) (h' : k.buffer.length ≤ fuel') :
    k.serveBuffer fuel = k.serveBuffer fuel' := by
  induction hs : k.buffer using Incoming.induction generalizing k fuel fuel' with
  | incomplete s hread =>
    subst hs
    rw [serveBuffer_of_incomplete hread, serveBuffer_of_incomplete hread]
  | malformed s hread =>
    subst hs
    have hpos := List.length_pos_iff.2 (List.isEmpty_eq_false_iff.1 (isEmpty_of_read (s := k.buffer) (by simp [hread])))
    obtain ⟨fuel, rfl⟩ := Nat.exists_eq_add_one_of_ne_zero (show fuel ≠ 0 by omega)
    obtain ⟨fuel', rfl⟩ := Nat.exists_eq_add_one_of_ne_zero (show fuel' ≠ 0 by omega)
    rw [serveBuffer_of_malformed hread, serveBuffer_of_malformed hread]
  | request s dialect request rest hread ih =>
    subst hs
    have hlt := Incoming.length_rest_lt hread
    obtain ⟨fuel, rfl⟩ := Nat.exists_eq_add_one_of_ne_zero (show fuel ≠ 0 by omega)
    obtain ⟨fuel', rfl⟩ := Nat.exists_eq_add_one_of_ne_zero (show fuel' ≠ 0 by omega)
    rw [serveBuffer_of_request hread, serveBuffer_of_request hread]
    simp only
    rw [ih (k := { (k.treat dialect request).connection with buffer := rest }) (show rest.length ≤ fuel by omega)
      (show rest.length ≤ fuel' by omega) rfl]

theorem serveAll_of_incomplete (h : Incoming.read s = .incomplete) :
    k.serveAll s = ⟨{ k with buffer := s }, [], [], .waiting⟩ :=
  serveBuffer_of_incomplete h _

theorem serveAll_of_malformed (h : Incoming.read s = .malformed) :
    k.serveAll s = ⟨{ k with buffer := s }, protocolError, [], .closed⟩ := by
  cases s with
  | nil => cases h
  | cons b s => exact serveBuffer_of_malformed (k := { k with buffer := b :: s }) h _

theorem serveAll_of_request (h : Incoming.read s = .request dialect request rest) :
    k.serveAll s =
      let t := k.treat dialect request
      if t.progress = .handled then t.andThen (t.connection.serveAll rest) else t.withBuffer rest := by
  have hlt := Incoming.length_rest_lt h
  obtain ⟨fuel, hfuel⟩ := Nat.exists_eq_add_one_of_ne_zero (show s.length ≠ 0 by omega)
  unfold serveAll
  rw [hfuel, serveBuffer_of_request h, treat_withBuffer]
  simp only [progress_withBuffer]
  rw [serveBuffer_eq (show rest.length ≤ fuel by omega) (Nat.le_refl rest.length)]
  rfl

theorem serveAll_of_handled (h : Incoming.read s = .request dialect request rest)
    (ht : (k.treat dialect request).progress = .handled) :
    k.serveAll s = (k.treat dialect request).andThen ((k.treat dialect request).connection.serveAll rest) := by
  rw [serveAll_of_request h]
  exact if_pos ht

theorem serveAll_of_closed (h : Incoming.read s = .request dialect request rest)
    (ht : (k.treat dialect request).progress = .closed) :
    k.serveAll s = (k.treat dialect request).withBuffer rest := by
  rw [serveAll_of_request h]
  exact if_neg (by simp [ht])

/-- What holds where a stream has no finished request, where it is malformed and where a request ends the
connection, and of a request if it holds of what is served behind it, holds of serving all streams. -/
theorem serveAll_induction {motive : Connection → Bytes → Prop}
    (incomplete : ∀ k s, Incoming.read s = .incomplete → motive k s)
    (malformed : ∀ k s, Incoming.read s = .malformed → motive k s)
    (handled : ∀ k s dialect request rest, Incoming.read s = .request dialect request rest →
      (k.treat dialect request).progress = .handled → motive (k.treat dialect request).connection rest → motive k s)
    (closed : ∀ k s dialect request rest, Incoming.read s = .request dialect request rest →
      (k.treat dialect request).progress = .closed → motive k s)
    (k : Connection) (s : Bytes) : motive k s := by
  induction s using Incoming.induction generalizing k with
  | incomplete s hread => exact incomplete k s hread
  | malformed s hread => exact malformed k s hread
  | request s dialect request rest hread ih =>
    cases ht : (k.treat dialect request).progress with
    | waiting => exact absurd ht (progress_treat_ne k dialect request)
    | handled => exact handled k s dialect request rest hread ht (ih _)
    | closed => exact closed k s dialect request rest hread ht

theorem progress_serveAll_ne (k : Connection) (s : Bytes) : (k.serveAll s).progress ≠ .handled := by
  induction k, s using serveAll_induction with
  | incomplete k s hread => simp [serveAll_of_incomplete hread]
  | malformed k s hread => simp [serveAll_of_malformed hread]
  | handled k s dialect request rest hread ht ih => rwa [serveAll_of_handled hread ht]
  | closed k s dialect request rest hread ht => simp [serveAll_of_closed hread ht, ht]

theorem serveAll_append (h : (k.serveAll s).progress = .waiting) (more : Bytes) :
    k.serveAll (s ++ more) =
      (k.serveAll s).andThen ((k.serveAll s).connection.serveAll ((k.serveAll s).connection.buffer ++ more)) := by
  induction k, s using serveAll_induction with
  | incomplete k s hread =>
    rw [serveAll_of_incomplete hread]
    rfl
  | malformed k s hread => simp [serveAll_of_malformed hread] at h
  | handled k s dialect request rest hread ht ih =>
    rw [serveAll_of_handled hread ht] at h ⊢
    rw [serveAll_of_handled (Incoming.read_more hread more) ht, ih h, andThen_assoc]
    rfl
  | closed k s dialect request rest hread ht => simp [serveAll_of_closed hread ht, ht] at h

theorem serveAll_append_of_closed (h : (k.serveAll s).progress = .closed) (more : Bytes) :
    k.serveAll (s ++ more) = (k.serveAll s).withBuffer ((k.serveAll s).connection.buffer ++ more) := by
  induction k, s using serveAll_induction with
  | incomplete k s hread => simp [serveAll_of_incomplete hread] at h
  | malformed k s hread =>
    rw [serveAll_of_malformed hread, serveAll_of_malformed (Incoming.read_of_malformed hread more)]
    rfl
  | handled k s dialect request rest hread ht ih =>
    rw [serveAll_of_handled hread ht] at h ⊢
    rw [serveAll_of_handled (Incoming.read_more hread more) ht, ih h]
    rfl
  | closed k s dialect request rest hread ht =>
    rw [serveAll_of_closed hread ht, serveAll_of_closed (Incoming.read_more hread more) ht]
    rfl

/-- What waits when a stream was served is an unfinished request at its end, and the rest is served without it. -/
theorem serveAll_of_waiting (h : (k.serveAll s).progress = .waiting) :
    Incoming.read (k.serveAll s).connection.buffer = .incomplete ∧
      ∃ front, s = front ++ (k.serveAll s).connection.buffer ∧ k.serveAll front = (k.serveAll s).withBuffer [] := by
  induction k, s using serveAll_induction with
  | incomplete k s hread =>
    rw [serveAll_of_incomplete hread]
    exact ⟨hread, [], rfl, serveAll_of_incomplete Incoming.read_nil⟩
  | malformed k s hread => simp [serveAll_of_malformed hread] at h
  | handled k s dialect request rest hread ht ih =>
    rw [serveAll_of_handled hread ht] at h ⊢
    obtain ⟨hrest, front', hfront', hserve⟩ := ih h
    obtain ⟨front, rfl, _, hmore⟩ := Incoming.read_local hread
    refine ⟨hrest, front ++ front', ?_, ?_⟩
    · rw [connection_andThen, List.append_assoc, ← hfront']
    · rw [serveAll_of_handled (hmore front') ht, hserve]
      rfl
  | closed k s dialect request rest hread ht => simp [serveAll_of_closed hread ht, ht] at h

/-- What holds of a stream, and behind each request that it holds before, holds from where serving had to wait. -/
theorem of_waiting {P : Bytes → Prop} {more : Bytes} (h : (k.serveAll s).progress = .waiting)
    (hrest : ∀ s dialect request rest, Incoming.read s = .request dialect request rest → P s → P rest)
    (hs : P (s ++ more)) : P ((k.serveAll s).connection.buffer ++ more) := by
  induction k, s using serveAll_induction with
  | incomplete k s hread => simpa only [serveAll_of_incomplete hread] using hs
  | malformed k s hread => simp [serveAll_of_malformed hread] at h
  | handled k s dialect request rest hread ht ih =>
    rw [serveAll_of_handled hread ht] at h ⊢
    exact ih h (hrest _ _ _ _ (Incoming.read_more hread more) hs)
  | closed k s dialect request rest hread ht => simp [serveAll_of_closed hread ht, ht] at h

theorem serve_of_waiting {bytes : Bytes} (h : (k.receive bytes).progress = .waiting) (reads : List Bytes) :
    k.serve (bytes :: reads) = (k.receive bytes).andThen ((k.receive bytes).connection.serve reads) := by
  rw [serve]
  simp only [h]
  rfl

theorem serve_of_closed {bytes : Bytes} (h : (k.receive bytes).progress = .closed) (reads : List Bytes) :
    k.serve (bytes :: reads) = k.receive bytes := by
  rw [serve]
  simp only [h]

theorem receive_eq (k : Connection) (bytes : Bytes) :
    k.receive bytes =
      let s := k.serveAll (k.buffer ++ bytes)
      if s.progress = .waiting ∧ requestLimit < s.connection.buffer.length then
        { s with out := s.out ++ tooLarge, progress := .closed }
      else s := rfl

theorem progress_receive_ne (k : Connection) (bytes : Bytes) : (k.receive bytes).progress ≠ .handled := by
  rw [receive_eq]
  simp only
  split
  · simp
  · exact progress_serveAll_ne _ _

theorem receive_of_waiting {bytes : Bytes} (h : (k.receive bytes).progress = .waiting) :
    k.receive bytes = k.serveAll (k.buffer ++ bytes) := by
  rw [receive_eq] at h ⊢
  simp only at h ⊢
  split at h
  · cases h
  · next hsmall => exact if_neg hsmall

theorem not_fits_of_large {limit : Nat} (h : (k.serveAll s).progress = .waiting)
    (hlarge : limit < (k.serveAll s).connection.buffer.length) (more : Bytes) : ¬ Incoming.Fits limit (s ++ more) := by
  intro hfits
  have hrest := of_waiting h (fun _ _ _ _ hread hs => hs.of_request hread) hfits
  have hsize := hrest.length_le (List.prefix_append _ _) (serveAll_of_waiting h).1
  omega

theorem receive_of_fits {bytes more : Bytes} (h : Incoming.Fits requestLimit (k.buffer ++ bytes ++ more)) :
    k.receive bytes = k.serveAll (k.buffer ++ bytes) := by
  rw [receive_eq]
  exact if_neg fun ⟨hwait, hlarge⟩ => not_fits_of_large hwait hlarge more h

/-- A connection that waits for the rest of a request, and gets it in any reads, does what it would if all of them
arrived at once. -/
theorem effect_serve (reads : List Bytes) (hread : Incoming.read k.buffer = .incomplete)
    (hfits : Incoming.Fits requestLimit (k.buffer ++ reads.flatten)) :
    (k.serve reads).effect = (k.serveAll (k.buffer ++ reads.flatten)).effect := by
  induction reads generalizing k with
  | nil =>
    rw [List.flatten_nil, List.append_nil, serveAll_of_incomplete hread]
    rfl
  | cons bytes reads ih =>
    rw [List.flatten_cons, ← List.append_assoc] at hfits ⊢
    have hreceive := receive_of_fits hfits
    cases hp : (k.serveAll (k.buffer ++ bytes)).progress with
    | waiting =>
      rw [serveAll_append hp, serve_of_waiting (by rw [hreceive, hp]), hreceive]
      exact effect_andThen (ih (serveAll_of_waiting hp).1
        (of_waiting hp (fun _ _ _ _ hread hs => hs.of_request hread) hfits))
    | handled => exact absurd hp (progress_serveAll_ne _ _)
    | closed => rw [serveAll_append_of_closed hp, serve_of_closed (by rw [hreceive, hp]), hreceive, effect_withBuffer]

/-- A request ends the connection if the client quits with it or it locks the session. -/
theorem progress_treat (k : Connection) (dialect : Dialect) (request : Request) :
    (k.treat dialect request).progress = .closed ↔
      isQuit request ∨ request ≠ [] ∧ (k.database.dispatch k.clock k.session request).result.2.isLocked := by
  simp only [treat, answer]
  split
  · next hempty =>
    rw [List.isEmpty_iff.1 hempty]
    simp [isQuit]
  · next hempty =>
    split
    · next hquit => simp [hquit]
    · next hquit =>
      have hne : request ≠ [] := fun hnil => hempty (by simp [hnil])
      split
      · next hlocked => simp [hne, hlocked]
      · next hlocked => simp [hquit, hlocked]

theorem serveOne_handled (h : k.serveOne.progress = .handled) :
    ∃ front, front ≠ [] ∧ k.buffer = front ++ k.serveOne.connection.buffer := by
  cases hread : Incoming.read k.buffer with
  | incomplete => simp [serveOne, hread] at h
  | malformed => simp [serveOne, hread] at h
  | request dialect request rest =>
    obtain ⟨front, hfront, hne, _⟩ := Incoming.read_local hread
    exact ⟨front, hne, by rw [serveOne_of_request hread, hfront, buffer_withBuffer]⟩

theorem serveOne_closed (k : Connection) :
    k.serveOne.progress = .closed ↔ Incoming.read k.buffer = .malformed ∨
      ∃ dialect request rest, Incoming.read k.buffer = .request dialect request rest ∧
        (isQuit request ∨ request ≠ [] ∧ (k.database.dispatch k.clock k.session request).result.2.isLocked) := by
  cases hread : Incoming.read k.buffer with
  | incomplete => simp [serveOne, hread]
  | malformed => simp [serveOne, hread]
  | request dialect request rest =>
    rw [serveOne_of_request hread, progress_withBuffer, progress_treat]
    constructor
    · intro hend
      exact .inr ⟨dialect, request, rest, rfl, hend⟩
    · rintro (hmal | ⟨_, _, _, hsame, hend⟩)
      · cases hmal
      · cases hsame
        exact hend

/-- A request that is handled takes at least one byte; bytes that no frame starts with, a client that quits and a
session that is locked end the connection, and nothing else does. However a stream of requests that are not too
large is cut into reads, it gives the same replies and notices and leaves the same database and session as if all of
it had arrived at once; a request that is unfinished at its end has no effect, and nor has what stands behind the
end of the connection. -/
theorem effect_serve_of_fits (db : Database) (c : Clock) (session : Session) {reads : List Bytes}
    (h : Incoming.Fits requestLimit reads.flatten) :
    (∀ k : Connection,
      (k.serveOne.progress = .handled → ∃ front, front ≠ [] ∧ k.buffer = front ++ k.serveOne.connection.buffer) ∧
      (k.serveOne.progress = .closed ↔ Incoming.read k.buffer = .malformed ∨
        ∃ dialect request rest, Incoming.read k.buffer = .request dialect request rest ∧
          (isQuit request ∨
            request ≠ [] ∧ (k.database.dispatch k.clock k.session request).result.2.isLocked))) ∧
    let k : Connection := ⟨db, c, session, []⟩
    let whole := k.serveAll reads.flatten
    ((k.serve reads).effect = whole.effect ∧ whole.progress ≠ .handled) ∧
    (whole.progress = .waiting →
      ∃ front, reads.flatten = front ++ whole.connection.buffer ∧
        Incoming.read whole.connection.buffer = .incomplete ∧ (k.serve reads).effect = (k.serveAll front).effect) ∧
    (∀ front behind, reads.flatten = front ++ behind → (k.serveAll front).progress = .closed →
      (k.serve reads).effect = (k.serveAll front).effect) := by
  refine ⟨fun k => ⟨serveOne_handled, serveOne_closed k⟩, ?_⟩
  intro k whole
  have hsame : (k.serve reads).effect = whole.effect := effect_serve reads Incoming.read_nil h
  refine ⟨⟨hsame, progress_serveAll_ne _ _⟩, fun hwait => ?_, fun front behind hcut hclosed => ?_⟩
  · obtain ⟨hread, front, hcut, hfront⟩ := serveAll_of_waiting hwait
    exact ⟨front, hcut, hread, by rw [hsame, hfront, effect_withBuffer]⟩
  · rw [hsame, show whole = k.serveAll (front ++ behind) by rw [← hcut],
      serveAll_append_of_closed hclosed, effect_withBuffer]

/-- Reads that end inside a header, between a carriage return and its line feed, inside a value and inside a line; the
client quits before it has sent all. -/
theorem effect_serve_of_fits_of_quit :
    let k : Connection := ⟨{ journal := some { path := "log" } }, .standing 1000, .start none, []⟩
    let reads : List Bytes := ["*3\r\n$3\r", "\nSET\r\n$1\r\nk\r\n$", "2\r\nv", "w\r\nGE", "T k\nQUIT\nDEL", " k\n"]
    let front : Bytes := "*3\r\n$3\r\nSET\r\n$1\r\nk\r\n$2\r\nvw\r\nGET k\nQUIT\n"
    Incoming.Fits requestLimit reads.flatten ∧ (k.serve reads).effect = (k.serveAll front).effect ∧
      (k.serve reads).out = "+OK\r\nvw\n+OK\n" := by
  intro k reads front
  have hfits : Incoming.Fits requestLimit reads.flatten := Incoming.fits_of_length_le (by decide +kernel)
  have hclosed : (k.serveAll front).progress = .closed := by decide +kernel
  have hcut : reads.flatten = front ++ Bytes.ofString "DEL k\n" := by decide +kernel
  obtain ⟨_, _, _, hbehind⟩ := effect_serve_of_fits k.database k.clock k.session hfits
  exact ⟨hfits, hbehind front _ hcut hclosed, by decide +kernel⟩

end Connection
end KeyStore
