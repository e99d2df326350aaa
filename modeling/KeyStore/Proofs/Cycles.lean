import KeyStore.Proofs.Refusals
import KeyStore.Proofs.SortedSets
import Mathlib.Data.List.TakeWhile

/-!
# Cycles of the background expiry

The keys past their deadline are the front of the index (`Keyspace.overdue`). A sweep takes the first of them
(`Database.sweep_spec`), and a cycle sweeps until one sweep comes short (`Database.Cycle`). So a cycle takes all of
them and nothing else, and the size of its batches shows in the number of its sweeps only (`Database.runCycle_exact`).
-/

namespace KeyStore

namespace Keyspace

variable {ks : Keyspace} {now : Int} {n : Nat}

/-- The places of the index whose deadline has come. -/
def overdue (ks : Keyspace) (now : Int) : Ranking Int := ks.index.takeWhile (·.1 ≤ now)

def purged (ks : Keyspace) (now : Int) (n : Nat) : Keyspace :=
  { ks with
    entries := ks.entries.eraseAll (((ks.overdue now).take n).map (·.2))
    index := ks.index.drop (min n (ks.overdue now).length)
    expired := ks.expired + min n (ks.overdue now).length }

theorem lt_of_mem_dropWhile {index : Ranking Int} (h : Ranking.Ascending id index) {x : Int × Bytes}
    (hx : x ∈ index.dropWhile (·.1 ≤ now)) : now < x.1 := by
  induction index with
  | nil => cases hx
  | cons y rest ih =>
    obtain ⟨hy, hrest⟩ := List.pairwise_cons.1 h
    by_cases hle : y.1 ≤ now
    · rw [List.dropWhile_cons_of_pos (by simpa using hle)] at hx
      exact ih hrest hx
    · rw [List.dropWhile_cons_of_neg (by simpa using hle)] at hx
      rcases List.mem_cons.1 hx with rfl | hx
      · exact Int.not_le.1 hle
      · have hlt := Ranking.compare_lt_iff.1 (hy x hx)
        simp only [id] at hlt
        omega

theorem overdue_append (ks : Keyspace) (now : Int) :
    ks.overdue now ++ ks.index.dropWhile (·.1 ≤ now) = ks.index := List.takeWhile_append_dropWhile

theorem le_of_mem_overdue {x : Int × Bytes} (hx : x ∈ ks.overdue now) : x.1 ≤ now := by
  simpa using List.mem_takeWhile_imp hx

theorem mem_overdue_iff (h : Indexes ks.index ks.entries) (d : Int) (key : Bytes) :
    (d, key) ∈ ks.overdue now ↔ ∃ e, ks.entries.find? key = some e ∧ e.deadline = some d ∧ d ≤ now := by
  constructor
  · intro hx
    obtain ⟨e, he, hd⟩ := (h.mem_iff d key).1 ((List.takeWhile_sublist _).subset hx)
    exact ⟨e, he, hd, le_of_mem_overdue hx⟩
  · rintro ⟨e, he, hd, hle⟩
    have hmem : (d, key) ∈ ks.index := (h.mem_iff d key).2 ⟨e, he, hd⟩
    rw [← ks.overdue_append now] at hmem
    refine (List.mem_append.1 hmem).resolve_right fun hlater => ?_
    have hlt : now < d := lt_of_mem_dropWhile h.ascending hlater
    omega

theorem ascending_overdue (h : Indexes ks.index ks.entries) (now : Int) :
    Ranking.Ascending id (ks.overdue now) := h.ascending.sublist (List.takeWhile_sublist _)

theorem takeWhile_drop {α : Type} (p : α → Bool) (l : List α) (n : Nat) :
    (l.drop (min n (l.takeWhile p).length)).takeWhile p = (l.takeWhile p).drop n := by
  induction l generalizing n with
  | nil => simp
  | cons x l ih =>
    by_cases hx : p x = true
    · cases n with
      | zero => simp
      | succ n =>
        rw [List.takeWhile_cons_of_pos hx, List.length_cons, Nat.succ_min_succ, List.drop_succ_cons, ih,
          List.drop_succ_cons]
    · simp [hx]

theorem overdue_purged (ks : Keyspace) (now : Int) (n : Nat) :
    (ks.purged now n).overdue now = (ks.overdue now).drop n := takeWhile_drop _ ks.index n

theorem purged_purged (ks : Keyspace) (now : Int) (m n : Nat) :
    (ks.purged now m).purged now n = ks.purged now (m + n) := by
  have hlen : min m (ks.overdue now).length + min n ((ks.overdue now).drop m).length =
      min (m + n) (ks.overdue now).length := by
    rw [List.length_drop]
    omega
  rw [purged, overdue_purged]
  simp only [purged, Nat.add_assoc, List.drop_drop, hlen, List.take_add, List.map_append, Table.eraseAll_append]

theorem purged_of_le (h : (ks.overdue now).length ≤ n) :
    ks.purged now n = ks.purged now (ks.overdue now).length := by
  simp only [purged, List.take_of_length_le h, List.take_length, Nat.min_eq_right h, Nat.min_self]

/-- Without all of them, what is left is what is not past its deadline. -/
theorem purged_overdue (h : Indexes ks.index ks.entries) (now : Int) :
    ks.purged now (ks.overdue now).length =
      { ks with
        entries := ks.visible now
        index := ks.index.filter (now < ·.1)
        expired := ks.expired + (ks.overdue now).length } := by
  have hentries : ks.entries.eraseAll ((ks.overdue now).map (·.2)) = ks.visible now := by
    refine Table.ext_find? fun key => ?_
    have hkey : key ∈ (ks.overdue now).map (·.2) ↔ ∃ e, ks.entries.find? key = some e ∧ e.hasElapsed now = true := by
      simp only [List.mem_map, Prod.exists, exists_eq_right, mem_overdue_iff h, Entry.hasElapsed_eq_true_iff]
      exact ⟨fun ⟨d, e, he, hd⟩ => ⟨e, he, d, hd⟩, fun ⟨e, he, d, hd⟩ => ⟨d, e, he, hd⟩⟩
    rw [Table.find?_eraseAll, find?_visible]
    cases he : ks.entries.find? key with
    | none => simp
    | some e =>
      cases hel : e.hasElapsed now <;> simp [hkey, he, hel, Option.filter]
  have hindex : ks.index.drop (ks.overdue now).length = ks.index.filter (now < ·.1) := by
    have hfront : (ks.overdue now).filter (now < ·.1) = [] :=
      List.filter_eq_nil_iff.2 fun x hx => by simpa using le_of_mem_overdue hx
    have hback : (ks.index.dropWhile (·.1 ≤ now)).filter (now < ·.1) = ks.index.dropWhile (·.1 ≤ now) :=
      List.filter_eq_self.2 fun x hx => by simpa using lt_of_mem_dropWhile h.ascending hx
    conv_lhs => rw [← ks.overdue_append now, List.drop_left]
    conv_rhs => rw [← ks.overdue_append now, List.filter_append, hfront, hback, List.nil_append]
  simp only [purged, List.take_length, Nat.min_self, hentries, hindex]

theorem removeExpired_eq_purged (h : Indexes ks.index ks.entries) (c : Clock) (limit : Nat) :
    ks.removeExpired c limit =
      ⟨min limit (ks.overdue c.now).length,
        { ks.purged c.now limit with
          unlogged := ks.unlogged ++ ((ks.overdue c.now).take limit).map (·.2) }, c.next⟩ := by
  have hdue : due c.now limit ks.index = (ks.overdue c.now).take limit := rfl
  rw [removeExpired_eq h]
  simp only [hdue, List.length_map, List.length_take]
  rfl

end Keyspace

namespace Database

variable {db db' : Database} {now : Int} {c : Clock} {batch rounds : Nat} {records more : List Request}

def Takes (db : Database) (records : List Request) : Prop := (db.log records).1 = true

instance (db : Database) (records : List Request) : Decidable (db.Takes records) := inferInstanceAs (Decidable (_ = _))

theorem info_log (db : Database) (records : List Request) : (db.log records).2.1.info = db.info := by
  simp only [log]
  split <;> rfl

theorem fst_appendAll_append {j : Journal} :
    (appendAll (records ++ more) j).1 = true ↔
      (appendAll records j).1 = true ∧ (appendAll more (j.extended records)).1 = true := by
  induction records generalizing j with
  | nil => simp [appendAll]
  | cons record records ih =>
    cases hfst : (j.append record).1 with
    | true =>
      simp only [List.cons_append, appendAll, Journal.append_of_fst hfst]
      simpa [Journal.extended_extended] using ih (j := j.extended [record])
    | false =>
      simp only [List.cons_append, appendAll]
      split
      · next heq => simp [heq] at hfst
      · simp

theorem Takes.left (h : db.Takes (records ++ more)) : db.Takes records := by
  obtain ⟨ks, info, journal⟩ := db
  cases journal with
  | none => rfl
  | some j => exact (fst_appendAll_append.1 h).1

theorem Takes.right (h : db.Takes (records ++ more)) (hj : db'.journal = db.journal.map (·.extended records)) :
    db'.Takes more := by
  obtain ⟨ks, info, journal⟩ := db
  obtain ⟨ks', info', journal'⟩ := db'
  cases journal with
  | none =>
    cases hj
    rfl
  | some j =>
    cases hj
    exact (fst_appendAll_append.1 h).2

theorem Takes.append (h : db.Takes records) (hj : db'.journal = db.journal.map (·.extended records))
    (h' : db'.Takes more) : db.Takes (records ++ more) := by
  obtain ⟨ks, info, journal⟩ := db
  obtain ⟨ks', info', journal'⟩ := db'
  cases journal with
  | none => rfl
  | some j =>
    cases hj
    exact fst_appendAll_append.2 ⟨h, h'⟩

theorem Takes.of_journal_eq (h : db.Takes records) (hj : db'.journal = db.journal) : db'.Takes records := by
  have hnone : db.Takes ([] ++ records) := h
  exact hnone.right (by rw [hj]; cases db.journal <;> simp)

/-- What is left and answered when the first `n` of the overdue keys are taken out. The log is told so by one record for
each key, if the journal takes them. -/
structure Purges (db : Database) (now : Int) (n : Nat) (o : Outcome Nat) : Prop where
  result : o.result = min n (db.keyspace.overdue now).length
  keyspace : o.database.keyspace = db.keyspace.purged now n
  info : o.database.info = db.info
  logged : let records := expiryRecords (((db.keyspace.overdue now).take n).map (·.2))
    db.Takes records → o.notices = [] ∧ o.database.journal = db.journal.map (·.extended records)

theorem sweep_spec (h : db.keyspace.Sound) (hc : c.Stands now) (limit : Nat) :
    db.Purges now limit (db.sweep c limit) ∧ (db.sweep c limit).clock.Stands now := by
  have hremoved := Keyspace.removeExpired_eq_purged h.indexes c limit
  rw [h.unlogged, List.nil_append, hc.now_eq] at hremoved
  have hkeyspace : { db.keyspace.purged now limit with unlogged := [] } = db.keyspace.purged now limit := by
    simp only [Keyspace.purged, h.unlogged]
  simp only [sweep, hremoved, Keyspace.takeExpired, hkeyspace]
  refine ⟨⟨rfl, by rw [keyspace_log], by rw [info_log], fun htakes => ?_⟩, hc.next⟩
  have htakes' : ({ db with keyspace := db.keyspace.purged now limit } : Database).Takes
      (expiryRecords (((db.keyspace.overdue now).take limit).map (·.2))) := htakes.of_journal_eq rfl
  simp only [log_of_fst htakes', if_true]
  exact ⟨trivial, trivial⟩

theorem Purges.trans {m n : Nat} {o o' : Outcome Nat} (h : db.Purges now m o) (h' : o.database.Purges now n o') :
    db.Purges now (m + n) ⟨o.result + o'.result, o'.database, o'.clock, o.notices ++ o'.notices⟩ := by
  have hoverdue : o.database.keyspace.overdue now = (db.keyspace.overdue now).drop m := by
    rw [h.keyspace, Keyspace.overdue_purged]
  refine ⟨?_, ?_, h'.info.trans h.info, ?_⟩
  · simp only [h.result, h'.result, hoverdue, List.length_drop]
    omega
  · rw [h'.keyspace, h.keyspace, Keyspace.purged_purged]
  · have hrecords : expiryRecords (((db.keyspace.overdue now).take (m + n)).map (·.2)) =
        expiryRecords (((db.keyspace.overdue now).take m).map (·.2)) ++
          expiryRecords (((o.database.keyspace.overdue now).take n).map (·.2)) := by
      simp only [hoverdue, List.take_add, List.map_append, expiryRecords]
    simp only [hrecords]
    intro htakes
    obtain ⟨hnotices, hjournal⟩ := h.logged htakes.left
    obtain ⟨hnotices', hjournal'⟩ := h'.logged (htakes.right hjournal)
    refine ⟨by rw [hnotices, hnotices', List.append_nil], ?_⟩
    rw [hjournal', hjournal, Option.map_map]
    exact congrArg (Option.map · db.journal) (funext fun j => Journal.extended_extended j _ _)

/-- Sweeps of `batch` keys, as many as `rounds`, of which the last is the first that comes short. -/
inductive Cycle (batch : Nat) : Nat → Database → Clock → Outcome Nat → Prop
  | last {db : Database} {c : Clock} (h : (db.sweep c batch).result < batch) : Cycle batch 1 db c (db.sweep c batch)
  | more {db : Database} {c : Clock} {rounds : Nat} {o : Outcome Nat} (h : batch ≤ (db.sweep c batch).result)
      (rest : Cycle batch rounds (db.sweep c batch).database (db.sweep c batch).clock o) :
      Cycle batch (rounds + 1) db c
        ⟨(db.sweep c batch).result + o.result, o.database, o.clock, (db.sweep c batch).notices ++ o.notices⟩

theorem Cycle.spec {o : Outcome Nat} (h : Cycle batch rounds db c o) (hbatch : 0 < batch) (hsound : db.keyspace.Sound)
    (hc : c.Stands now) :
    db.Purges now (db.keyspace.overdue now).length o ∧ rounds = (db.keyspace.overdue now).length / batch + 1 := by
  induction h with
  | @last db c hshort =>
    obtain ⟨hpurges, -⟩ := sweep_spec hsound hc batch
    rw [hpurges.result] at hshort
    have hall : (db.keyspace.overdue now).length ≤ batch := by omega
    refine ⟨⟨?_, ?_, hpurges.info, ?_⟩, ?_⟩
    · rw [hpurges.result]
      omega
    · rw [hpurges.keyspace, Keyspace.purged_of_le hall]
    · have hlogged := hpurges.logged
      rw [List.take_of_length_le hall] at hlogged
      rwa [List.take_length]
    · rw [Nat.div_eq_of_lt (by omega)]
  | @more db c rounds o hfull rest ih =>
    obtain ⟨hpurges, hnext⟩ := sweep_spec hsound hc batch
    obtain ⟨hrest, hrounds⟩ := ih (sound_sweep hsound c batch) hnext
    have hlen : ((db.sweep c batch).database.keyspace.overdue now).length =
        (db.keyspace.overdue now).length - batch := by
      rw [hpurges.keyspace, Keyspace.overdue_purged, List.length_drop]
    rw [hpurges.result] at hfull
    have hle : batch ≤ (db.keyspace.overdue now).length := by omega
    constructor
    · have hall := hpurges.trans hrest
      rwa [hlen, Nat.add_sub_cancel' hle] at hall
    · rw [hrounds, hlen, Nat.div_eq_sub_div hbatch hle]

/-- The sweeps end: with more rounds at hand than there are overdue keys, the last one comes short. -/
theorem exists_cycle_sweepFrom {fuel : Nat} (hbatch : 0 < batch) (h : db.keyspace.Sound) (hc : c.Stands now)
    (hfuel : (db.keyspace.overdue now).length < fuel) (total : Nat) (notices : List Notice) :
    ∃ rounds o, Cycle batch rounds db c o ∧
      db.sweepFrom c batch total fuel notices = ⟨total + o.result, o.database, o.clock, notices ++ o.notices⟩ := by
  induction fuel generalizing db c total notices with
  | zero => omega
  | succ fuel ih =>
    obtain ⟨hpurges, hnext⟩ := sweep_spec h hc batch
    rw [sweepFrom]
    by_cases hshort : (db.sweep c batch).result < batch
    · exact ⟨1, _, .last hshort, if_pos hshort⟩
    · have hless : ((db.sweep c batch).database.keyspace.overdue now).length < fuel := by
        rw [hpurges.keyspace, Keyspace.overdue_purged, List.length_drop]
        rw [hpurges.result] at hshort
        omega
      obtain ⟨rounds, o, hcycle, heq⟩ := ih (sound_sweep h c batch) hnext hless
        (total + (db.sweep c batch).result) (notices ++ (db.sweep c batch).notices)
      refine ⟨rounds + 1, _, .more (Nat.le_of_not_lt hshort) hcycle, ?_⟩
      simp only [if_neg hshort, heq, Nat.add_assoc, List.append_assoc]

theorem cycle_runCycle (h : db.keyspace.Sound) (hc : c.Stands now) (batch : Nat) :
    Cycle (max batch 1) ((db.keyspace.overdue now).length / max batch 1 + 1) db c (db.runCycle c batch) := by
  have hbatch : 0 < max batch 1 := Nat.lt_of_lt_of_le Nat.one_pos (Nat.le_max_right batch 1)
  have hfuel : (db.keyspace.overdue now).length < db.keyspace.volatileSize + 1 :=
    Nat.lt_succ_of_le (List.takeWhile_sublist _).length_le
  obtain ⟨rounds, o, hcycle, heq⟩ := exists_cycle_sweepFrom hbatch h hc hfuel 0 []
  rw [Nat.zero_add, List.nil_append] at heq
  rw [runCycle, heq, ← (hcycle.spec hbatch h hc).2]
  exact hcycle

/-- Let the overdue places be those of the entries whose deadline has come, in ascending order. A sweep takes out the
first ones, as many as it may, and tells how many. A cycle ends after a sweep for each full batch of them and one more,
whatever the size of the batches, where none counts as one: it takes out all of them and tells how many, leaves every
other entry, and counts them as expired. The log is told by one record for each key, in their order, as long as it takes
these. So what a cycle leaves and answers does not depend on the size of its batches. -/
theorem runCycle_exact (h : db.keyspace.Sound) (hc : c.Stands now) :
    let ks := db.keyspace
    let overdue := ks.overdue now
    let records : List Request := overdue.map fun x => ["DEL", x.2]
    (Ranking.Ascending id overdue ∧
      ∀ d key, (d, key) ∈ overdue ↔ ∃ e, ks.entries.find? key = some e ∧ e.deadline = some d ∧ d ≤ now) ∧
    (∀ limit,
      let o := db.sweep c limit
      let count := min limit overdue.length
      o.result = count ∧
        o.database.keyspace = { ks with
          entries := ks.entries.eraseAll ((overdue.take limit).map (·.2))
          index := ks.index.drop count
          expired := ks.expired + count } ∧
        o.database.info = db.info ∧
        (db.Takes (records.take limit) →
          o.notices = [] ∧ o.database.journal = db.journal.map (·.extended (records.take limit)))) ∧
    ∀ batch,
      let o := db.runCycle c batch
      Cycle (max batch 1) (overdue.length / max batch 1 + 1) db c o ∧
        o.result = overdue.length ∧
        o.database.keyspace = { ks with
          entries := ks.entries.filter (!·.hasElapsed now)
          index := ks.index.filter (now < ·.1)
          expired := ks.expired + overdue.length } ∧
        o.database.info = db.info ∧
        (db.Takes records → o.notices = [] ∧ o.database.journal = db.journal.map (·.extended records)) := by
  intro ks overdue records
  have hrecords : ∀ places : Ranking Int,
      expiryRecords (places.map (·.2)) = places.map fun x => ("DEL" :: [x.2] : Request) := fun _ => List.map_map
  refine ⟨⟨Keyspace.ascending_overdue h.indexes now, Keyspace.mem_overdue_iff h.indexes⟩, fun limit => ?_,
    fun batch => ?_⟩
  · obtain ⟨hpurges, -⟩ := sweep_spec h hc limit
    refine ⟨hpurges.result, hpurges.keyspace, hpurges.info, ?_⟩
    have hlogged := hpurges.logged
    rw [hrecords, List.map_take] at hlogged
    exact hlogged
  · have hcycle := cycle_runCycle h hc batch
    obtain ⟨hpurges, -⟩ := hcycle.spec (Nat.lt_of_lt_of_le Nat.one_pos (Nat.le_max_right batch 1)) h hc
    refine ⟨hcycle, ?_, ?_, hpurges.info, ?_⟩
    · rw [hpurges.result, Nat.min_self]
    · rw [hpurges.keyspace, Keyspace.purged_overdue h.indexes]
      rfl
    · have hlogged := hpurges.logged
      rw [List.take_length, hrecords] at hlogged
      exact hlogged

/-- Two keys whose deadline has just come and one that is still there, taken out in batches of two and one by one. -/
theorem runCycle_exact_of_full_batch :
    let set (key ms : Bytes) : Int × Event := (1000, .request (.start none) ["SET", key, "v", "PX", ms])
    let db := ((fresh "log" none).course [set "b" "5", set "c" "9", set "a" "5"]).database
    let c := Clock.standing 1005
    let pairs := db.runCycle c 2
    let singles := db.runCycle c 0
    (db.keyspace.Sound ∧ c.Stands 1005 ∧ db.Takes [["DEL", "a"], ["DEL", "b"]]) ∧
      Cycle 2 2 db c pairs ∧ Cycle 1 3 db c singles ∧ pairs.result = 2 ∧ singles.result = 2 ∧
      pairs.database = singles.database ∧ pairs.database.keyspace.expired = 2 ∧
      pairs.database.journal = db.journal.map (·.extended [["DEL", "a"], ["DEL", "b"]]) := by
  intro set db c pairs singles
  have hsound : db.keyspace.Sound := (Keyspace.Reachable.course .empty _).sound
  have hc : c.Stands 1005 := Clock.stands_standing 1005
  have hoverdue : db.keyspace.overdue 1005 = [((1005 : Int), ("a" : Bytes)), ((1005 : Int), ("b" : Bytes))] := by
    decide +kernel
  have hexpired : db.keyspace.expired = 0 := by decide +kernel
  have htakes : db.Takes [["DEL", "a"], ["DEL", "b"]] := by decide +kernel
  have hexact := runCycle_exact hsound hc
  -- the course is not to be run again from here on
  clear_value db
  simp only [hoverdue] at hexact
  obtain ⟨-, -, hcycles⟩ := hexact
  obtain ⟨hpairs, hresult, hkeyspace, hinfo, hlogged⟩ := hcycles 2
  obtain ⟨hsingles, hresult', hkeyspace', hinfo', hlogged'⟩ := hcycles 0
  obtain ⟨-, hjournal⟩ := hlogged htakes
  obtain ⟨-, hjournal'⟩ := hlogged' htakes
  have hdatabase : pairs.database = singles.database := by
    have hfields : ∀ d : Database, d = ⟨d.keyspace, d.info, d.journal⟩ := fun _ => rfl
    rw [hfields pairs.database, hfields singles.database]
    exact congr (congr (congrArg Database.mk (hkeyspace.trans hkeyspace'.symm)) (hinfo.trans hinfo'.symm))
      (hjournal.trans hjournal'.symm)
  refine ⟨⟨hsound, hc, htakes⟩, hpairs, hsingles, hresult, hresult', hdatabase, ?_, hjournal⟩
  rw [congrArg (·.expired) hkeyspace, hexpired]
  rfl

end Database
end KeyStore
