import KeyStore.Proofs.Domains
import KeyStore.Proofs.Rankings
import KeyStore.Proofs.Scores
import KeyStore.Proofs.Slices
import KeyStore.Proofs.Stored

/-!
# Sorted sets as finite maps

A sorted set keeps its members twice, and both are in step (`SortedSet.Coherent`) whatever is added and removed. So it
answers as a finite map from members to scores, ordered by the numbers that the scores are and then by the members
(`SortedSet.Mirrors`), as long as every score is a number. All sorted sets that are ever stored are so
(`Keyspace.Arises.coherent`), since no text is read as a score that is none.
-/

namespace KeyStore

namespace Ranking

variable {α : Type} {position : α → Int}

theorem compare_lt_iff {x y : α × Bytes} : compare position x y = .lt ↔
    position x.1 < position y.1 ∨ position x.1 = position y.1 ∧ x.2 < y.2 := by
  rw [← Bytes.compare_eq_lt_iff, compare]
  split
  · simp_all
  · split
    · simp
      omega
    · next h h' =>
      have heq : position x.1 = position y.1 := by omega
      simp [heq]

theorem countBelow_eq {l : Ranking α} (h : Ascending position l) (x : α × Bytes) :
    countBelow position x l = l.countP fun y => compare position y x = .lt := by
  induction l with
  | nil => rfl
  | cons y l ih =>
    obtain ⟨hy, hl⟩ := List.pairwise_cons.1 h
    rw [countBelow]
    split
    · next hgt =>
      rw [ih hl, List.countP_cons]
      simp [compare_gt_iff.1 hgt]
    · next hne =>
      -- nothing behind `y` comes before `x` if `y` does not
      refine (List.countP_eq_zero.2 fun z hz hlt => hne ?_).symm
      rcases List.mem_cons.1 hz with rfl | hz
      · exact compare_gt_iff.2 (of_decide_eq_true hlt)
      · exact compare_gt_iff.2 (compare_trans (hy z hz) (of_decide_eq_true hlt))

theorem countBelow_of_getElem? {l : Ranking α} (h : Ascending position l) {i : Nat} {x : α × Bytes}
    (hx : l[i]? = some x) : countBelow position x l = i := by
  induction l generalizing i with
  | nil => cases hx
  | cons y l ih =>
    obtain ⟨hy, hl⟩ := List.pairwise_cons.1 h
    cases i with
    | zero =>
      obtain rfl : y = x := by simpa using hx
      simp [countBelow]
    | succ i =>
      have hi : l[i]? = some x := by simpa using hx
      have hgt := compare_gt_iff.2 (hy x (List.mem_of_getElem? hi))
      simp only [countBelow, hgt, ih hl hi]

theorem getElem?_eq_some_iff {l : Ranking α} (h : Ascending position l) {i : Nat} {x : α × Bytes} :
    l[i]? = some x ↔ x ∈ l ∧ countBelow position x l = i := by
  constructor
  · intro hx
    exact ⟨List.mem_of_getElem? hx, countBelow_of_getElem? h hx⟩
  · rintro ⟨hx, rfl⟩
    obtain ⟨i, hi⟩ := List.getElem?_of_mem hx
    rw [countBelow_of_getElem? h hi]
    exact hi

end Ranking

def Score.Before (x y : Score × Bytes) : Prop :=
  x.1.number < y.1.number ∨ x.1.number = y.1.number ∧ x.2 < y.2

theorem Score.before_iff {x y : Score × Bytes} (hx : x.1.isNaN = false) (hy : y.1.isNaN = false) :
    Before x y ↔ Ranking.compare position x y = .lt := by
  rw [Before, number_lt_iff hx hy, number_eq_iff hx hy, Ranking.compare_lt_iff]

namespace SortedSet

/-- The ranking holds the members of the table, in order, and their scores are numbers. -/
structure Coherent (z : SortedSet) : Prop where
  ascending : Ranking.Ascending Score.position z.order
  mem_order : ∀ score member, (score, member) ∈ z.order ↔ z.score? member = some score
  numbers : ∀ member score, z.score? member = some score → score.isNaN = false

variable {z : SortedSet} {member : Bytes} {score : Score}

theorem coherent_empty : (∅ : SortedSet).Coherent where
  ascending := List.Pairwise.nil
  mem_order := fun score member => by
    constructor <;> (intro h; cases h)
  numbers := fun member score h => by cases h

theorem Coherent.mem_erase (h : z.Coherent) {old : Score} (hold : z.score? member = some old) (x : Score × Bytes) :
    x ∈ Ranking.erase Score.position (old, member) z.order ↔ x ∈ z.order ∧ x.2 ≠ member := by
  rw [Ranking.mem_erase h.ascending]
  refine and_congr_right fun hx => not_congr ?_
  rw [Ranking.compare_eq_iff]
  constructor
  · exact fun heq => heq.2.symm
  · rintro rfl
    have hscore := (h.mem_order x.1 x.2).1 hx
    obtain rfl : old = x.1 := Option.some.inj (hold.symm.trans hscore)
    exact ⟨rfl, rfl⟩

/-- A member put into a ranking that does not have it. -/
theorem coherent_insert {scores : Table Score} {order : Ranking Score} (hasc : Ranking.Ascending Score.position order)
    (hmem : ∀ s name, (s, name) ∈ order ↔ name ≠ member ∧ scores.find? name = some s)
    (hnum : ∀ name s, scores.find? name = some s → s.isNaN = false) (hscore : score.isNaN = false) :
    (⟨scores.insert member score, Ranking.insert Score.position (score, member) order⟩ : SortedSet).Coherent where
  ascending := hasc.insert
  mem_order := fun s name => by
    have hnew : ∀ y ∈ order, Ranking.compare Score.position (score, member) y ≠ .eq := fun y hy heq =>
      ((hmem y.1 y.2).1 hy).1 (Ranking.compare_eq_iff.1 heq).2.symm
    rw [Ranking.mem_insert hnew, hmem]
    simp only [score?, Table.find?_insert, Prod.mk.injEq]
    by_cases hname : name = member
    · simp [hname, eq_comm]
    · simp [hname]
  numbers := fun name s hs => by
    simp only [score?, Table.find?_insert] at hs
    split at hs
    · obtain rfl := Option.some.inj hs
      exact hscore
    · exact hnum name s hs

theorem Coherent.add (h : z.Coherent) (hscore : score.isNaN = false) (member : Bytes) :
    (z.add member score).1.Coherent := by
  unfold SortedSet.add
  split
  · next hnone =>
    refine coherent_insert h.ascending (fun s name => ?_) h.numbers hscore
    rw [h.mem_order]
    refine ⟨fun hs => ⟨?_, hs⟩, And.right⟩
    rintro rfl
    cases hnone.symm.trans hs
  · next old hold =>
    split
    · exact h
    · refine coherent_insert h.ascending.erase (fun s name => ?_) h.numbers hscore
      rw [h.mem_erase hold, h.mem_order]
      exact and_comm

theorem Coherent.remove (h : z.Coherent) (member : Bytes) : (z.remove member).1.Coherent := by
  unfold SortedSet.remove
  split
  · exact h
  · next old hold =>
    have hfind : ∀ name, (z.scores.erase member).find? name = if name = member then none else z.score? name :=
      Table.find?_erase z.scores member
    refine ⟨h.ascending.erase, fun s name => ?_, fun name s hs => ?_⟩
    · rw [h.mem_erase hold, h.mem_order]
      simp only [score?, hfind]
      split <;> simp_all
    · rw [score?, hfind] at hs
      split at hs
      · cases hs
      · exact h.numbers name s hs

inductive Step where
  | add (member : Bytes) (score : Score)
  | remove (member : Bytes)
  deriving DecidableEq

def Step.Numeric : Step → Prop
  | add _ score => score.isNaN = false
  | remove _ => True

instance : DecidablePred Step.Numeric
  | .add _ score => inferInstanceAs (Decidable (score.isNaN = false))
  | .remove _ => .isTrue trivial

def apply (z : SortedSet) : Step → SortedSet × Bool
  | .add member score => z.add member score
  | .remove member => z.remove member

def applyAll (z : SortedSet) : List Step → SortedSet × List Bool
  | [] => (z, [])
  | step :: steps =>
    let (z, told) := z.apply step
    let (z, more) := z.applyAll steps
    (z, told :: more)

theorem Coherent.apply (h : z.Coherent) {step : Step} (hstep : step.Numeric) : (z.apply step).1.Coherent := by
  cases step with
  | add member score => exact h.add hstep member
  | remove member => exact h.remove member

theorem Coherent.applyAll (h : z.Coherent) {steps : List Step} (hsteps : ∀ step ∈ steps, step.Numeric) :
    (z.applyAll steps).1.Coherent := by
  induction steps generalizing z with
  | nil => exact h
  | cons step steps ih =>
    obtain ⟨hstep, hsteps⟩ := List.forall_mem_cons.1 hsteps
    exact ih (h.apply hstep) hsteps

abbrev Scores := Finmap fun _ : Bytes => Score

open Classical in
/-- What a step does to members and their scores: an equal number does not replace a score. -/
noncomputable def Step.onScores (m : Scores) : Step → Scores × Bool
  | add member score =>
    match m.lookup member with
    | none => (m.insert member score, true)
    | some old => (if old.number = score.number then m else m.insert member score, false)
  | remove member => (m.erase member, (m.lookup member).isSome)

noncomputable def Step.allOnScores (m : Scores) : List Step → Scores × List Bool
  | [] => (m, [])
  | step :: steps =>
    let (m, told) := step.onScores m
    let (m, more) := allOnScores m steps
    (m, told :: more)

theorem Coherent.onScores (h : z.Coherent) {step : Step} (hstep : step.Numeric) :
    step.onScores z.scores.toFinmap = ((z.apply step).1.scores.toFinmap, (z.apply step).2) := by
  cases step with
  | add member score =>
    simp only [Step.onScores, SortedSet.apply, SortedSet.add, Table.lookup_toFinmap]
    cases hold : z.scores.find? member with
    | none => simp only [score?, hold, Table.toFinmap_insert]
    | some old =>
      have hiff := Score.number_eq_iff (h.numbers member old hold) hstep
      simp only [score?, hold, hiff]
      split
      · rfl
      · simp only [Table.toFinmap_insert]
  | remove member =>
    simp only [Step.onScores, SortedSet.apply, SortedSet.remove, Table.lookup_toFinmap]
    cases hold : z.scores.find? member with
    | none =>
      simp only [score?, hold, Option.isSome_none]
      rw [← Table.toFinmap_erase, Table.erase_of_find?_eq_none hold]
    | some old => simp only [score?, hold, Option.isSome_some, Table.toFinmap_erase]

theorem Coherent.allOnScores (h : z.Coherent) {steps : List Step} (hsteps : ∀ step ∈ steps, step.Numeric) :
    Step.allOnScores z.scores.toFinmap steps = ((z.applyAll steps).1.scores.toFinmap, (z.applyAll steps).2) := by
  induction steps generalizing z with
  | nil => rfl
  | cons step steps ih =>
    obtain ⟨hstep, hsteps⟩ := List.forall_mem_cons.1 hsteps
    simp only [Step.allOnScores, SortedSet.applyAll, h.onScores hstep, ih (h.apply hstep) hsteps]

open Classical in
/-- The sorted set answers as a map from members to scores, in the order of numbers and names. -/
structure Mirrors (z : SortedSet) (m : Scores) : Prop where
  size : z.size = m.keys.card
  score : ∀ member, z.score? member = m.lookup member
  ascending : (z.range 0 (-1)).Pairwise Score.Before
  listed : ∀ score member, (score, member) ∈ z.range 0 (-1) ↔ m.lookup member = some score
  once : ((z.range 0 (-1)).map (·.2)).Nodup
  rank : ∀ member, z.rank? member = (m.lookup member).map fun score =>
    (m.keys.filter fun name => ∃ s, m.lookup name = some s ∧ Score.Before (s, name) (score, member)).card
  place : ∀ (i : Nat) score member,
    z.range i i = [(score, member)] ↔ z.rank? member = some i ∧ z.score? member = some score
  empty : z.isEmpty = true ↔ z.range 0 (-1) = []

namespace Coherent

theorem range_all (z : SortedSet) : z.range 0 (-1) = z.order := Slice.of_all z.order

theorem isNaN_of_mem (h : z.Coherent) {x : Score × Bytes} (hx : x ∈ z.order) : x.1.isNaN = false :=
  h.numbers x.2 x.1 ((h.mem_order x.1 x.2).1 hx)

theorem pairwise_before (h : z.Coherent) : z.order.Pairwise Score.Before :=
  h.ascending.imp_of_mem fun hx hy => (Score.before_iff (h.isNaN_of_mem hx) (h.isNaN_of_mem hy)).2

theorem nodup_names (h : z.Coherent) : (z.order.map (·.2)).Nodup := by
  refine List.pairwise_map.2 (h.ascending.imp_of_mem fun {x y} hx hy hlt heq => ?_)
  have hscore : some x.1 = some y.1 := by
    rw [← (h.mem_order x.1 x.2).1 hx, ← (h.mem_order y.1 y.2).1 hy, heq]
  obtain rfl : x = y := Prod.ext (Option.some.inj hscore) heq
  simp at hlt

theorem size_eq (h : z.Coherent) : z.size = z.order.length := by
  have hperm : z.scores.keys.Perm (z.order.map (·.2)) := by
    refine (List.perm_ext_iff_of_nodup z.scores.nodup_keys h.nodup_names).2 fun name => ?_
    have hkey : name ∈ z.scores.keys ↔ ∃ score, z.score? name = some score := by
      rw [← List.mem_toFinset, ← Table.domain, Table.mem_domain, Table.contains, Option.isSome_iff_exists]
      rfl
    rw [hkey, List.mem_map]
    constructor
    · rintro ⟨score, hs⟩
      exact ⟨(score, name), (h.mem_order score name).2 hs, rfl⟩
    · rintro ⟨x, hx, rfl⟩
      exact ⟨x.1, (h.mem_order x.1 x.2).1 hx⟩
  simpa [Table.keys, SortedSet.size, Table.size] using hperm.length_eq

open Classical in
/-- As many members are ranked before one as there are whose number and name come before its own. -/
theorem countBelow_eq_card (h : z.Coherent) (hscore : z.score? member = some score) :
    Ranking.countBelow Score.position (score, member) z.order = (z.scores.domain.filter fun name =>
      ∃ s, z.score? name = some s ∧ Score.Before (s, name) (score, member)).card := by
  let before := z.order.filter fun y => Ranking.compare Score.position y (score, member) = .lt
  have hset : (before.map (·.2)).toFinset = z.scores.domain.filter fun name =>
      ∃ s, z.score? name = some s ∧ Score.Before (s, name) (score, member) := by
    ext name
    simp only [before, List.mem_toFinset, List.mem_map, List.mem_filter, decide_eq_true_eq, Finset.mem_filter,
      Table.mem_domain]
    constructor
    · rintro ⟨x, ⟨hx, hlt⟩, rfl⟩
      have hs := (h.mem_order x.1 x.2).1 hx
      exact ⟨Option.isSome_iff_exists.2 ⟨x.1, hs⟩, x.1, hs,
        (Score.before_iff (h.isNaN_of_mem hx) (h.numbers member score hscore)).2 hlt⟩
    · rintro ⟨_, s, hs, hbefore⟩
      exact ⟨(s, name), ⟨(h.mem_order s name).2 hs,
        (Score.before_iff (h.numbers name s hs) (h.numbers member score hscore)).1 hbefore⟩, rfl⟩
  have hnodup : (before.map (·.2)).Nodup := h.nodup_names.sublist (List.filter_sublist.map _)
  rw [← hset, List.toFinset_card_of_nodup hnodup, List.length_map, Ranking.countBelow_eq h.ascending,
    List.countP_eq_length_filter]

theorem range_self_eq_iff (h : z.Coherent) {i : Nat} : z.range i i = [(score, member)] ↔
    z.rank? member = some i ∧ z.score? member = some score := by
  have hlist : z.range i i = [(score, member)] ↔ z.order[i]? = some (score, member) := by
    rw [range, Slice.of_self]
    cases z.order[i]? <;> simp
  rw [hlist, Ranking.getElem?_eq_some_iff h.ascending, h.mem_order, rank?]
  constructor
  · rintro ⟨hs, hi⟩
    exact ⟨by rw [hs, Option.map_some, hi], hs⟩
  · rintro ⟨hrank, hs⟩
    rw [hs, Option.map_some] at hrank
    exact ⟨hs, Option.some.inj hrank⟩

theorem mirrors (h : z.Coherent) : z.Mirrors z.scores.toFinmap where
  size := by rw [Table.keys_toFinmap, Table.card_domain, SortedSet.size]
  score := fun member => (z.scores.lookup_toFinmap member).symm
  ascending := range_all z ▸ h.pairwise_before
  listed := fun score member => by
    rw [range_all, h.mem_order, Table.lookup_toFinmap]
    rfl
  once := range_all z ▸ h.nodup_names
  rank := fun member => by
    classical
    simp only [Table.lookup_toFinmap, Table.keys_toFinmap, rank?]
    refine Option.map_congr fun score hscore => ?_
    exact h.countBelow_eq_card hscore
  place := fun i score member => h.range_self_eq_iff
  empty := by
    rw [range_all, ← List.length_eq_zero_iff, ← h.size_eq, SortedSet.size, SortedSet.isEmpty, Table.size, Table.isEmpty,
      List.length_eq_zero_iff, List.isEmpty_iff]

end Coherent

theorem Coherent.rankAll {z : SortedSet} (h : z.Coherent) {members : List (Score × Bytes)}
    (hnum : ∀ x ∈ members, x.1.isNaN = false) (fresh : Nat) (changed : Bool) :
    (Edit.rankAll members z fresh changed).1.Coherent := by
  induction members generalizing z fresh changed with
  | nil => exact h
  | cons x members ih =>
    obtain ⟨hx, hmembers⟩ := List.forall_mem_cons.1 hnum
    exact ih (h.add hx x.2) hmembers _ _

theorem Coherent.unrankAll {z : SortedSet} (h : z.Coherent) (members : List Bytes) (gone : Nat) :
    (Removal.unrankAll members z gone).1.Coherent := by
  induction members generalizing z gone with
  | nil => exact h
  | cons member members ih => exact ih (h.remove member) _

end SortedSet

theorem Command.isNaN_of_readScores {members : List (Bytes × Bytes)} {ranked : List (Score × Bytes)}
    (h : readScores members = .ok ranked) : ∀ x ∈ ranked, x.1.isNaN = false := by
  induction members generalizing ranked with
  | nil =>
    cases h
    exact fun x hx => by cases hx
  | cons member members ih =>
    rw [readScores, List.mapM_cons] at h
    obtain ⟨x, hx, h⟩ := bind_eq_ok h
    obtain ⟨rest, hrest, h⟩ := bind_eq_ok h
    cases h
    obtain ⟨score, hscore, rfl⟩ := map_eq_ok hx
    unfold readScore at hscore
    split at hscore
    · cases hscore
    · next hread =>
      cases hscore
      exact List.forall_mem_cons.2 ⟨Score.isNaN_read hread, ih hrest⟩

def Value.Coherent : Value → Prop
  | .sortedSet z => z.Coherent
  | _ => True

theorem Command.storesIn_coherent {name : Bytes} {words : List Bytes} {command : Command}
    (h : Means name words command) : command.StoresIn Set.univ Set.univ {v | v.Coherent} := by
  cases h with
  | set key value => exact ⟨trivial, fun _ _ _ _ => trivial⟩
  | setSeconds => exact ⟨trivial, fun _ _ _ _ => trivial⟩
  | setMilliseconds => exact ⟨trivial, fun _ _ _ _ => trivial⟩
  | increment key h => exact fun _ => trivial
  | expireIn => exact fun _ _ => trivial
  | expireAtSecond => exact Set.mem_univ _
  | expireAt => exact Set.mem_univ _
  | edit key h =>
    cases h with
    | rankMembers hread =>
      have hnum := isNaN_of_readScores hread
      exact ⟨SortedSet.coherent_empty.rankAll hnum 0 false, fun z hz => SortedSet.Coherent.rankAll hz hnum 0 false⟩
    | _ => exact ⟨trivial, fun _ _ => trivial⟩
  | remove key h =>
    cases h with
    | ranked member more =>
      exact ⟨SortedSet.coherent_empty.unrankAll (member :: more) 0,
        fun z hz => SortedSet.Coherent.unrankAll hz (member :: more) 0⟩
    | _ => exact ⟨trivial, fun _ _ => trivial⟩
  | _ => trivial

/-- Every sorted set that is ever stored is coherent, and its scores are numbers. -/
theorem Keyspace.Arises.coherent {ks : Keyspace} (h : ks.Arises Set.univ) {key : Bytes} {e : Entry} {z : SortedSet}
    (he : ks.entries.find? key = some e) (hz : e.value = .sortedSet z) : z.Coherent := by
  have hstores : ks.Stores Set.univ {v | v.Coherent} :=
    h.stores fun _ signature _ hread => Command.storesIn_coherent (Command.read_eq_ok_iff.1 ⟨signature, hread⟩)
  have hvalue := (hstores key e he).value
  rwa [hz] at hvalue

namespace SortedSet

/-- Whatever is added to an empty sorted set and removed from it, with scores that are numbers, it tells and holds what
a finite map from members to scores does, in which an equal number leaves a score in place. Every score that a text is
read as is a number, and so is every score of a sorted set that is ever stored. -/
theorem mirrors_applyAll (steps : List Step) (h : ∀ step ∈ steps, step.Numeric) :
    ((∅ : SortedSet).applyAll steps).2 = (Step.allOnScores ∅ steps).2 ∧
      ((∅ : SortedSet).applyAll steps).1.Mirrors (Step.allOnScores ∅ steps).1 ∧
      (∀ text score, Score.read text = some score → score.isNaN = false) ∧
      ∀ (ks : Keyspace) key e z, ks.Arises Set.univ → ks.entries.find? key = some e → e.value = .sortedSet z →
        ∀ member score, z.score? member = some score → score.isNaN = false := by
  have hall : Step.allOnScores ∅ steps =
      (((∅ : SortedSet).applyAll steps).1.scores.toFinmap, ((∅ : SortedSet).applyAll steps).2) :=
    coherent_empty.allOnScores h
  rw [hall]
  exact ⟨rfl, (coherent_empty.applyAll h).mirrors, fun _ _ hread => Score.isNaN_read hread,
    fun ks key e z harises he hz => (harises.coherent he hz).numbers⟩

/-- Both infinities, both zeros, a tie, and a score that changes. -/
theorem mirrors_applyAll_of_zeros :
    let steps : List Step := [.add "b" (.ofMagnitude true 0), .add "a" (.ofMagnitude false 0),
      .add "c" (.infinity true), .add "b" (.ofMagnitude false 0), .add "c" (.infinity false), .remove "d"]
    let z := ((∅ : SortedSet).applyAll steps).1
    z.order = [(.ofMagnitude false 0, ("a" : Bytes)), (.ofMagnitude true 0, ("b" : Bytes)),
      (.infinity false, ("c" : Bytes))] ∧
      (Step.allOnScores ∅ steps).2 = [true, true, true, false, false, false] ∧
      z.Mirrors (Step.allOnScores ∅ steps).1 := by
  intro steps z
  have h := mirrors_applyAll steps (by decide)
  exact ⟨by decide +kernel, h.1 ▸ by decide +kernel, h.2.1⟩

end SortedSet
end KeyStore
