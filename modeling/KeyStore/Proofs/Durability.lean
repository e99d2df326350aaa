import KeyStore.Proofs.Lives
import Mathlib.Data.List.Induction
import Mathlib.Data.List.Infix

/-!
# Durability

What is visible before a restart is visible after it, as long as no event has revived a key: created it,
other than by a `set`, while the journal still told an entry of it that a start had dropped. A key that is
revived is lost.
-/

namespace KeyStore.Life

variable {path : Bytes} {limit : Option Nat} {history : List (Int × Occurrence)} {now : Int}

theorem exists_lasts (hforward : history.Pairwise fun x y => x.1 ≤ y.1) (hsized : ∀ x ∈ history, Occurrence.Sized x)
    (hclean : ∀ past, past <+: history → (of path limit past).Clean)
    (hnew : ∀ past now event, past ++ [(now, Occurrence.event event)] <+: history →
      ∀ db, (of path limit past).database = some db → ¬ db.Revives now event)
    (hnow : ∀ x ∈ history, x.1 ≤ now) :
    ∃ db j records t, (of path limit history).database = some db ∧ db.Lasts now j records t := by
  induction history using List.reverseRecOn generalizing now with
  | nil => exact ⟨_, _, _, _, rfl, Database.lasts_fresh path limit now⟩
  | append_singleton history x ih =>
    have hlonger : ∀ past, past <+: history → past <+: history ++ [x] := fun _ h => h.trans (List.prefix_append _ _)
    obtain ⟨hbefore, _, hx⟩ := List.pairwise_append.1 hforward
    obtain ⟨db, j, records, t, hdb, hlasts⟩ := ih hbefore (fun y hy => hsized y (List.mem_append_left _ hy))
      (fun past h => hclean past (hlonger past h)) (fun past _ event h => hnew past _ event (hlonger _ h))
      fun y hy => hx y hy x (List.mem_singleton.2 rfl)
    have hle : x.1 ≤ now := hnow x List.mem_concat_self
    have hsized' := hsized x List.mem_concat_self
    have hclean' := hclean (history ++ [x]) (List.prefix_refl _)
    rw [of_snoc] at hclean' ⊢
    obtain ⟨time, occurrence⟩ := x
    cases occurrence with
    | restart =>
      obtain ⟨db', hdb', _, hlasts'⟩ := hlasts.restart
      exact ⟨db', _, _, _, by simp only [next, hdb, Option.bind_some, hdb'], hlasts'.mono hle⟩
    | event event =>
      simp only [next, hdb] at hclean' ⊢
      obtain ⟨j', records', t', hlasts'⟩ := hlasts.happen hsized' (List.append_eq_nil_iff.1 hclean'.notices).2
        (hnew history time event (List.prefix_refl _) db hdb) fun j' hj' => hclean'.timely _ j' rfl hj'
      exact ⟨_, j', records', t', rfl, hlasts'.mono hle⟩

theorem not_revives (hforward : history.Pairwise fun x y => x.1 ≤ y.1) (hsized : ∀ x ∈ history, Occurrence.Sized x)
    (hclean : ∀ past, past <+: history → (of path limit past).Clean)
    (hsurvives : ∀ past, past <+: history → ∀ later, (∀ x ∈ past, x.1 ≤ later) →
      ∃ db, (of path limit past).database = some db ∧ db.Survives later) :
    ∀ past now event, past ++ [(now, Occurrence.event event)] <+: history →
      ∀ db, (of path limit past).database = some db → ¬ db.Revives now event := by
  induction history using List.reverseRecOn with
  | nil =>
    intro past now event h
    simp at h
  | append_singleton history x ih =>
    have hlonger : ∀ past, past <+: history → past <+: history ++ [x] := fun _ h => h.trans (List.prefix_append _ _)
    obtain ⟨hbefore, _, hx⟩ := List.pairwise_append.1 hforward
    have hsized' : ∀ y ∈ history, Occurrence.Sized y := fun y hy => hsized y (List.mem_append_left _ hy)
    have hclean' : ∀ past, past <+: history → (of path limit past).Clean := fun past h => hclean past (hlonger past h)
    have hnew := ih hbefore hsized' hclean' fun past h => hsurvives past (hlonger past h)
    intro past now event h
    rcases List.prefix_concat_iff.1 h with heq | h
    · -- the last occurrence is the one in question, and the database has lasted until then
      obtain ⟨rfl, hlast⟩ := List.append_inj' heq rfl
      obtain rfl := List.singleton_inj.1 hlast
      intro db hdb hrev
      have hle : ∀ y ∈ past, y.1 ≤ now := fun y hy => hx y hy _ (List.mem_singleton.2 rfl)
      obtain ⟨db', j, records, t, hdb', hlasts⟩ := exists_lasts hbefore hsized' hclean' hnew hle
      obtain rfl : db = db' := Option.some.inj (hdb.symm.trans hdb')
      have hwhole := hclean _ (List.prefix_refl _)
      obtain ⟨after, hafter, hkept⟩ := hsurvives _ (List.prefix_refl _) now
        (List.forall_mem_append.2 ⟨hle, List.forall_mem_singleton.2 (Int.le_refl now)⟩)
      rw [of_snoc] at hwhole hafter
      simp only [next, hdb] at hwhole hafter
      obtain rfl := Option.some.inj hafter
      have hnotices := (List.append_eq_nil_iff.1 hwhole.notices).2
      exact hlasts.not_survives (hsized _ List.mem_concat_self) hnotices hrev hkept
    · exact hnew past now event h

/-- Restarts keep what is visible, at any point of a life in which the clock does not go backwards, exactly if
no event of it revives a key. -/
theorem survives_iff_not_revives (path : Bytes) (limit : Option Nat) (history : List (Int × Occurrence))
    (hforward : history.Pairwise fun x y => x.1 ≤ y.1) (hsized : ∀ x ∈ history, Occurrence.Sized x)
    (hclean : ∀ past, past <+: history → (of path limit past).Clean) :
    (∀ past, past <+: history → ∀ later, (∀ x ∈ past, x.1 ≤ later) →
      ∃ db, (of path limit past).database = some db ∧ db.Survives later) ↔
    ∀ past now event, past ++ [(now, Occurrence.event event)] <+: history →
      ∀ db, (of path limit past).database = some db → ¬ db.Revives now event := by
  constructor
  · exact not_revives hforward hsized hclean
  · intro hnew past hpast later hlater
    have hsized' : ∀ x ∈ past, Occurrence.Sized x := fun x hx => hsized x (hpast.subset hx)
    obtain ⟨db, j, records, t, hdb, hlasts⟩ := exists_lasts (hforward.sublist hpast.sublist) hsized'
      (fun past' h => hclean past' (h.trans hpast)) (fun past' _ event h => hnew past' _ event (h.trans hpast)) hlater
    exact ⟨db, hdb, hlasts.survives⟩

theorem not_survives_of_increment :
    let history : List (Int × Occurrence) :=
      [(1000, .event (.request (.start none) ["SET", "k", "5", "PX", "100"])), (1200, .restart),
        (1200, .event (.request (.start none) ["INCR", "k"]))]
    ¬ ∀ past, past <+: history → ∀ later, (∀ x ∈ past, x.1 ≤ later) →
      ∃ db, (of "log" none past).database = some db ∧ db.Survives later := by
  intro history h
  let past : List (Int × Occurrence) :=
    [(1000, .event (.request (.start none) ["SET", "k", "5", "PX", "100"])), (1200, .restart)]
  have hclean : ∀ past, past <+: history → (of "log" none past).Clean := by
    have hall : ∀ past ∈ history.inits, (of "log" none past).notices = [] ∧
        ∀ j ∈ (of "log" none past).database.bind (·.journal),
          ∀ record ∈ Journal.recordsIn j.contents, Command.Legible record := by
      decide +kernel
    intro past hpast
    obtain ⟨hnotices, hlegible⟩ := hall past ((List.mem_inits _ _).2 hpast)
    refine ⟨hnotices, fun db j hdb hj => Command.timely_of_legible (hlegible j ?_)⟩
    rw [hdb]
    exact hj
  have hstate : ∀ o, (of "log" none past).database = o → (o.map fun db =>
      ((db.keyspace.entries.find? "k").isSome, (db.journal.bind (·.told.find? "k")).isSome,
        ((db.happen 1200 (.request (.start none) ["INCR", "k"])).database.keyspace.entries.find? "k").isSome)) =
          some (false, true, true) := by
    rintro _ rfl
    decide +kernel
  cases hdb : (of "log" none past).database with
  | none => cases hstate _ hdb
  | some db =>
    have hdb' := Option.some.inj (hstate _ hdb)
    simp only [Prod.mk.injEq] at hdb'
    obtain ⟨hbefore, htold, hafter⟩ := hdb'
    refine (survives_iff_not_revives "log" none history (by decide) (by decide) hclean).1 h past 1200 _
      (List.prefix_refl history) db hdb ?_
    cases hj : db.journal with
    | none => simp [hj] at htold
    | some j =>
      rw [hj] at htold
      exact ⟨j, hj, "k", Option.not_isSome_iff_eq_none.1 (by simp [hbefore]), Option.isSome_iff_ne_none.1 htold,
        Option.isSome_iff_ne_none.1 hafter, nofun⟩

end KeyStore.Life
