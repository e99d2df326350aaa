import KeyStore.Admission
import Mathlib.Data.List.Induction

/-!
# Admission is exact

Whatever the order in which the accepting loop and the served connections take their steps, the counters tell what
there is (`Admission.Accounted`): each step keeps that (`Accounted.step`), so every run does. A connection is turned
away when, at the moment in which the number of clients was raised for it, as many as the limit had not lowered it
(`Admission.raisedAt_of_door`).
-/

namespace KeyStore

/-- Whether a served connection has not yet lowered the number of clients. -/
def Stage.stays : Stage → Bool
  | serving | closed => true
  | lowered | finished => false

/-- The number of clients has been raised for the connection at the door, and neither lowered again nor kept. -/
def Door.isRaised : Door → Bool
  | raised _ => true
  | free | counted | refusing => false

namespace Admission

variable {a b : Admission} {s : Step}

def opened (limit : Nat) : Admission := { limit, info := {} }

def staying (a : Admission) : Nat := a.clients.countP Stage.stays

def unfinished (a : Admission) : Nat := a.clients.countP (· ≠ .finished)

structure Advances (a b : Admission) : Prop where
  limit : b.limit = a.limit
  door : b.door = a.door
  accepting : b.accepting = a.accepting
  returned : b.returned = a.returned
  connections : b.info.connections = a.info.connections
  rejected : b.info.rejected = a.info.rejected
  length : b.clients.length = a.clients.length
  /-- It lowers the number of clients by as many as no longer stay. -/
  connected : b.info.connected - b.staying = a.info.connected - a.staying
  staying_le : b.staying ≤ a.staying
  active : a.active = a.unfinished → b.active = b.unfinished
  /-- One that goes on had not finished. -/
  unfinished_pos : 0 < a.unfinished

theorem exists_of_advance {i : Nat} (h : a.step? (.advance i) = some b) :
    ∃ front stage back next a', a.clients = front ++ stage :: back ∧ a.advanceStage stage = some (next, a') ∧
      b = { a' with clients := front ++ next :: back } := by
  simp only [step?] at h
  split at h
  · next next a' hnext =>
    obtain ⟨stage, hstage, hadvance⟩ := Option.bind_eq_some_iff.1 hnext
    obtain ⟨hi, hget⟩ := List.getElem?_eq_some_iff.1 hstage
    obtain ⟨front, back, heq, -, hset⟩ := @List.exists_of_set _ i next a.clients hi
    have hclients : a'.clients = a.clients := by cases stage <;> cases hadvance <;> rfl
    refine ⟨front, stage, back, next, a', hget ▸ heq, hadvance, ?_⟩
    rw [← hset, ← hclients]
    exact (Option.some.inj h).symm
  · cases h

theorem staying_of_eq {front back : List Stage} {stage : Stage} (h : a.clients = front ++ stage :: back) :
    a.staying = front.countP Stage.stays + back.countP Stage.stays + if stage.stays then 1 else 0 := by
  rw [staying, h, List.countP_append, List.countP_cons, Nat.add_assoc]

theorem unfinished_of_eq {front back : List Stage} {stage : Stage} (h : a.clients = front ++ stage :: back) :
    a.unfinished = front.countP (· ≠ .finished) + back.countP (· ≠ .finished) + if stage = .finished then 0 else 1 := by
  rw [unfinished, h, List.countP_append, List.countP_cons, Nat.add_assoc]
  simp

theorem advances {i : Nat} (h : a.step? (.advance i) = some b) : a.Advances b := by
  obtain ⟨front, stage, back, next, a', hclients, hnext, hb⟩ := exists_of_advance h
  have hclients' : b.clients = front ++ next :: back := congrArg clients hb
  have hlength : b.clients.length = a.clients.length := by
    rw [hclients, hclients', List.length_append, List.length_append]
    rfl
  have hstaying := staying_of_eq hclients
  have hstaying' := staying_of_eq hclients'
  have hunfinished := unfinished_of_eq hclients
  have hunfinished' := unfinished_of_eq hclients'
  cases stage with
  | serving =>
    cases hnext
    have hstay : b.staying = a.staying := hstaying'.trans hstaying.symm
    have hrest : b.unfinished = a.unfinished := hunfinished'.trans hunfinished.symm
    have hactive : b.active = a.active := by rw [hb]
    exact ⟨by rw [hb], by rw [hb], by rw [hb], by rw [hb], by rw [hb], by rw [hb], hlength, by rw [hstay, hb],
      Nat.le_of_eq hstay, fun h => hactive.trans (h.trans hrest.symm), by rw [hunfinished]; exact Nat.succ_pos _⟩
  | closed =>
    cases hnext
    have hstay : a.staying = b.staying + 1 := by rw [hstaying, hstaying']; rfl
    have hrest : b.unfinished = a.unfinished := hunfinished'.trans hunfinished.symm
    have hconnected : b.info.connected = a.info.connected - 1 := by rw [hb]; rfl
    have hactive : b.active = a.active := by rw [hb]
    exact ⟨by rw [hb], by rw [hb], by rw [hb], by rw [hb], by rw [hb]; rfl, by rw [hb]; rfl, hlength,
      by omega, by omega, fun h => hactive.trans (h.trans hrest.symm), by rw [hunfinished]; exact Nat.succ_pos _⟩
  | lowered =>
    cases hnext
    have hstay : b.staying = a.staying := hstaying'.trans hstaying.symm
    have hrest : a.unfinished = b.unfinished + 1 := by rw [hunfinished, hunfinished']; rfl
    have hactive : b.active = a.active - 1 := by rw [hb]
    exact ⟨by rw [hb], by rw [hb], by rw [hb], by rw [hb], by rw [hb], by rw [hb], hlength, by rw [hstay, hb],
      Nat.le_of_eq hstay, fun h => by omega, by omega⟩
  | finished => cases hnext

/-- What the counters tell, between any two steps. -/
structure Accounted (a : Admission) : Prop where
  /-- Each connection that was counted is served, or was turned away, or is at the door. -/
  connections : a.info.connections = a.clients.length + a.info.rejected + if a.door = .free then 0 else 1
  connected : a.info.connected = a.staying + if a.door.isRaised then 1 else 0
  staying_le : a.staying ≤ a.limit
  /-- Since the number was raised none has come, and some may have gone. -/
  before : ∀ before, a.door = .raised before → (a.staying : Int) ≤ before ∧ before ≤ a.limit
  active : a.active = a.unfinished
  stopped : a.accepting = false → a.door = .free
  returned : a.returned = true → a.accepting = false ∧ a.unfinished = 0

theorem accounted_opened (limit : Nat) : (opened limit).Accounted where
  connections := rfl
  connected := rfl
  staying_le := Nat.zero_le limit
  before := fun _ h => by cases h
  active := rfl
  stopped := fun _ => rfl
  returned := fun h => by cases h

theorem Accounted.advance (h : a.Accounted) (hs : a.Advances b) : b.Accounted := by
  have hconnections := h.connections
  have hconnected := h.connected
  have hsame := hs.connected
  have hstaying := hs.staying_le
  have hle := h.staying_le
  refine ⟨?_, ?_, ?_, fun before hdoor => ?_, hs.active h.active, ?_, fun hret => ?_⟩
  · rw [hs.connections, hs.length, hs.rejected, hs.door, hconnections]
  · rw [hs.door]
    omega
  · rw [hs.limit]
    omega
  · obtain ⟨hlow, hhigh⟩ := h.before before (hs.door ▸ hdoor)
    rw [hs.limit]
    omega
  · rw [hs.accepting, hs.door]
    exact h.stopped
  · have hzero := (h.returned (hs.returned ▸ hret)).2
    have hpos := hs.unfinished_pos
    omega

theorem Accounted.decide (h : a.Accounted) {before : Int} (hdoor : a.door = .raised before)
    (hs : a.step? .decide = some b) : b.Accounted := by
  obtain ⟨hconnections, hconnected, hle, hbefore, hactive, hstopped, hreturned⟩ := h
  simp only [step?, hdoor] at hs
  simp only [hdoor, Door.isRaised, if_true] at hconnections hconnected hstopped
  obtain ⟨hlow, -⟩ := hbefore before hdoor
  split at hs
  · obtain rfl := Option.some.inj hs
    have hlowered : a.info.connected - 1 = a.staying := by omega
    exact ⟨hconnections, hlowered.trans (Int.add_zero _).symm, hle, (fun _ heq => by cases heq), hactive,
      (fun hfalse => by cases hstopped hfalse), hreturned⟩
  · obtain rfl := Option.some.inj hs
    have hstaying : (a.clients ++ [Stage.serving]).countP Stage.stays = a.staying + 1 := List.countP_append
    have hunfinished : (a.clients ++ [Stage.serving]).countP (· ≠ .finished) = a.unfinished + 1 :=
      List.countP_append
    refine ⟨?_, ?_, ?_, fun _ heq => (by cases heq), (congrArg (· + 1) hactive).trans hunfinished.symm,
      fun _ => rfl, fun hret => (by cases hstopped (hreturned hret).1)⟩
    · rw [if_neg (fun heq => by cases heq)] at hconnections
      simp only [List.length_append, List.length_singleton, if_true]
      omega
    · change a.info.connected = ((a.clients ++ [Stage.serving]).countP Stage.stays : Nat) + (0 : Int)
      omega
    · change (a.clients ++ [Stage.serving]).countP Stage.stays ≤ a.limit
      omega

/-- Each step keeps the account. -/
theorem Accounted.step (h : a.Accounted) (hs : a.step? s = some b) : b.Accounted := by
  have ⟨hconnections, hconnected, hle, hbefore, hactive, hstopped, hreturned⟩ := h
  cases s with
  | count =>
    obtain ⟨⟨hdoor, haccepting⟩, rfl⟩ : (a.door = .free ∧ a.accepting = true) ∧ _ = b := by simpa [step?] using hs
    simp only [hdoor, if_true] at hconnections hconnected
    exact ⟨congrArg (· + 1) hconnections, hconnected, hle, (fun _ heq => by cases heq), hactive,
      (fun hfalse => absurd (haccepting.symm.trans hfalse) (by decide)), hreturned⟩
  | raise =>
    obtain ⟨hdoor, rfl⟩ : a.door = .counted ∧ _ = b := by simpa [step?] using hs
    simp only [hdoor, Door.isRaised, Bool.false_eq_true, if_false] at hconnections hconnected hstopped
    have hbounds : (a.staying : Int) ≤ a.info.connected ∧ a.info.connected ≤ a.limit := by omega
    exact ⟨hconnections, congrArg (· + 1) hconnected, hle, (fun _ heq => by cases heq; exact hbounds), hactive,
      (fun hfalse => by cases hstopped hfalse), hreturned⟩
  | decide =>
    cases hdoor : a.door with
    | raised before => exact h.decide hdoor hs
    | _ => simp [step?, hdoor] at hs
  | refuse =>
    obtain ⟨hdoor, rfl⟩ : a.door = .refusing ∧ _ = b := by simpa [step?] using hs
    simp only [hdoor, Door.isRaised, Bool.false_eq_true, if_false] at hconnections hconnected hstopped
    exact ⟨hconnections, hconnected, hle, (fun _ heq => by cases heq), hactive, fun _ => rfl, hreturned⟩
  | advance i => exact h.advance (advances hs)
  | stop =>
    obtain ⟨⟨hdoor, haccepting⟩, rfl⟩ : (a.door = .free ∧ a.accepting = true) ∧ _ = b := by simpa [step?] using hs
    exact ⟨hconnections, hconnected, hle, hbefore, hactive, fun _ => hdoor, fun hret => ⟨rfl, (hreturned hret).2⟩⟩
  | leave =>
    obtain ⟨⟨haccepting, hnone⟩, rfl⟩ : (a.accepting = false ∧ a.active = 0) ∧ _ = b := by simpa [step?] using hs
    exact ⟨hconnections, hconnected, hle, hbefore, hactive, hstopped, fun _ => ⟨haccepting, hactive.symm.trans hnone⟩⟩

theorem Accounted.run (h : a.Accounted) (steps : List Step) : (a.run steps).Accounted := by
  induction steps generalizing a with
  | nil => exact h
  | cons s rest ih =>
    simp only [Admission.run]
    cases hs : a.step? s with
    | none => exact ih h
    | some b => exact ih (h.step hs)

theorem run_append (a : Admission) (steps rest : List Step) : a.run (steps ++ rest) = (a.run steps).run rest := by
  induction steps generalizing a with
  | nil => rfl
  | cons s steps ih => exact ih _

theorem run_concat (a : Admission) (steps : List Step) (s : Step) :
    a.run (steps ++ [s]) = ((a.run steps).step? s).getD (a.run steps) := run_append a steps [s]

theorem limit_of_step (h : a.step? s = some b) : b.limit = a.limit := by
  cases s with
  | advance i => exact (advances h).limit
  | _ => grind [step?]

theorem limit_run (a : Admission) (steps : List Step) : (a.run steps).limit = a.limit := by
  induction steps using List.reverseRecOn with
  | nil => rfl
  | append_singleton steps s ih =>
    rw [run_concat]
    cases hs : (a.run steps).step? s with
    | none => exact ih
    | some b => exact (limit_of_step hs).trans ih

/-- When the number of clients was raised for the connection that is at the door now, `n` stayed. -/
def RaisedAt (limit : Nat) (steps : List Step) (n : Int) : Prop :=
  ∃ before after, steps = before ++ .raise :: after ∧ ((opened limit).run before).door = .counted ∧
    ((opened limit).run before).staying = n ∧
    ∀ seen, seen <+: after → ((opened limit).run (before ++ .raise :: seen)).door ≠ .free

variable {limit : Nat} {steps : List Step} {n : Int}

theorem RaisedAt.concat (h : RaisedAt limit steps n) (hdoor : ((opened limit).run (steps ++ [s])).door ≠ .free) :
    RaisedAt limit (steps ++ [s]) n := by
  obtain ⟨before, after, rfl, hcounted, hstaying, hseen⟩ := h
  refine ⟨before, after ++ [s], List.append_assoc _ _ _, hcounted, hstaying, fun seen hprefix => ?_⟩
  obtain rfl | hprefix := List.prefix_concat_iff.1 hprefix
  · exact List.append_assoc before (.raise :: after) [s] ▸ hdoor
  · exact hseen seen hprefix

theorem door_of_step (h : a.step? s = some b) :
    (s = .raise ∧ a.door = .counted ∧ b.door = .raised a.info.connected) ∨
    (∃ before, a.door = .raised before ∧ (a.limit : Int) ≤ before ∧ b.door = .refusing) ∨
    b.door = .counted ∨ b.door = .free ∨ b.door = a.door := by
  cases s with
  | advance i => exact .inr (.inr (.inr (.inr (advances h).door)))
  | _ => grind [step?]

/-- The number that the connection at the door is judged by is the number of those that stayed when it was raised; for
one that is being turned away it is the limit. -/
theorem raisedAt_of_door (limit : Nat) (steps : List Step) :
    (∀ n, ((opened limit).run steps).door = .raised n → RaisedAt limit steps n) ∧
    (((opened limit).run steps).door = .refusing → RaisedAt limit steps limit) := by
  induction steps using List.reverseRecOn with
  | nil => exact ⟨fun n h => (by cases h), fun h => by cases h⟩
  | append_singleton steps s ih =>
    obtain ⟨hraised, hrefusing⟩ := ih
    have hnow := run_concat (opened limit) steps s
    have haccount := (accounted_opened limit).run steps
    have hlimit := limit_run (opened limit) steps
    generalize ha : (opened limit).run steps = a at *
    have hsame : ((opened limit).run (steps ++ [s])).door = a.door →
        (∀ n, ((opened limit).run (steps ++ [s])).door = .raised n → RaisedAt limit (steps ++ [s]) n) ∧
        (((opened limit).run (steps ++ [s])).door = .refusing → RaisedAt limit (steps ++ [s]) limit) := fun hdoor =>
      ⟨fun n h => (hraised n (hdoor.symm.trans h)).concat (h ▸ nofun),
        fun h => (hrefusing (hdoor.symm.trans h)).concat (h ▸ nofun)⟩
    cases hs : a.step? s with
    | none => exact hsame (congrArg door (hnow.trans (by rw [hs]; rfl)))
    | some b =>
      rw [hs, Option.getD_some] at hnow
      obtain ⟨rfl, hcounted, hdoor⟩ | ⟨before, hbefore, hfull, hdoor⟩ | hdoor | hdoor | hdoor := door_of_step hs
      · have hstaying : (a.staying : Int) = a.info.connected := by
          rw [haccount.connected, hcounted]
          exact (Int.add_zero _).symm
        rw [hnow, hdoor]
        refine ⟨fun n h => ?_, nofun⟩
        obtain rfl := Door.raised.inj h
        refine ⟨steps, [], rfl, ha ▸ hcounted, ha ▸ hstaying, fun seen hprefix => ?_⟩
        rw [List.prefix_nil.1 hprefix, hnow, hdoor]
        nofun
      · have hlast : before = limit := by
          have := (haccount.before before hbefore).2
          rw [hlimit] at hfull this
          exact Int.le_antisymm this hfull
        have hnext : ((opened limit).run (steps ++ [s])).door = .refusing := hnow ▸ hdoor
        refine ⟨fun n h => (by cases hnext.symm.trans h), fun _ => ?_⟩
        exact hlast ▸ (hraised before hbefore).concat (hnext ▸ nofun)
      · rw [hnow, hdoor]
        exact ⟨nofun, nofun⟩
      · rw [hnow, hdoor]
        exact ⟨nofun, nofun⟩
      · exact hsame (hnow ▸ hdoor)

theorem rejected_of_step (h : a.step? s = some b) (hmore : a.info.rejected ≠ b.info.rejected) : a.door = .refusing := by
  cases s with
  | advance i => exact absurd (advances h).rejected.symm hmore
  | _ => grind [step?, ServerInfo.countConnection, ServerInfo.raiseClients, ServerInfo.lowerClients]

/-- **Admission is exact in every order of steps.** No more connections stay than the limit allows, each connection
counted is served, was turned away or is at the door, and the number of clients is that of those that stay, with the
one at the door while it is raised for it. A rejection is only counted of a connection for which the number was raised
when as many as the limit stayed. The server has only returned when each connection it served has finished. -/
theorem admission_exact (limit : Nat) (steps : List Step) :
    let a := (opened limit).run steps
    (a.clients.count .serving ≤ a.staying ∧ a.staying ≤ limit) ∧
    a.info.connections = a.clients.length + a.info.rejected + (if a.door = .free then 0 else 1) ∧
    (a.info.connected = a.staying + (if a.door.isRaised then 1 else 0) ∧ 0 ≤ a.info.connected) ∧
    (∀ s b, a.step? s = some b → a.info.rejected ≠ b.info.rejected → a.door = .refusing) ∧
    (a.door = .refusing → RaisedAt limit steps limit) ∧
    (a.returned = true → (∀ stage ∈ a.clients, stage = .finished) ∧ a.info.connected = 0) := by
  intro a
  have h : a.Accounted := (accounted_opened limit).run steps
  have hconnected := h.connected
  refine ⟨⟨?_, ?_⟩, h.connections, ⟨hconnected, by omega⟩, fun s b => rejected_of_step,
    (raisedAt_of_door limit steps).2, fun hreturned => ?_⟩
  · exact List.countP_mono_left fun stage _ hserving => by rw [eq_of_beq hserving]; rfl
  · have hlimit : a.limit = limit := limit_run (opened limit) steps
    exact hlimit ▸ h.staying_le
  · obtain ⟨hstopped, hnone⟩ := h.returned hreturned
    have hfinished : ∀ stage ∈ a.clients, stage = .finished := fun stage hmem => by
      simpa using List.countP_eq_zero.1 hnone stage hmem
    have hstaying : a.staying = 0 := List.countP_eq_zero.2 fun stage hmem => by
      rw [hfinished stage hmem]
      nofun
    refine ⟨hfinished, ?_⟩
    rw [hconnected, hstaying, h.stopped hstopped]
    rfl

/-- The second connection is judged by the number at which it was raised, though the first has left before it is
judged; and the server returns when both loops are done. -/
theorem admission_exact_of_one :
    let before := [Step.count, .raise, .decide, .count, .raise, .advance 0, .advance 0, .decide]
    let after := before ++ [.refuse, .advance 0, .stop, .leave]
    (((opened 1).run before).door = .refusing ∧ RaisedAt 1 before 1 ∧
      ∃ b, ((opened 1).run before).step? .refuse = some b ∧ ((opened 1).run before).info.rejected ≠ b.info.rejected ∧
        ((opened 1).run before).door = .refusing) ∧
    ((opened 1).run after).returned = true ∧ ((opened 1).run after).clients = [.finished] ∧
    (∀ stage ∈ ((opened 1).run after).clients, stage = .finished) ∧ ((opened 1).run after).info.connected = 0 := by
  intro before after
  obtain ⟨-, -, -, hcounted, hrefusing, -⟩ := admission_exact 1 before
  obtain ⟨-, -, -, -, -, hreturned⟩ := admission_exact 1 after
  exact ⟨⟨by decide, hrefusing (by decide), _, rfl, by decide, hcounted .refuse _ rfl (by decide)⟩,
    by decide, by decide, hreturned (by decide)⟩

end Admission
end KeyStore
