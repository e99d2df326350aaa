import KeyStore.Proofs.Lines

/-!
# Journals in parts

A frame is found from its own bytes alone (`Frame.parse_local`), so a journal can be read in parts: with
more bytes behind it, it gives the records it gave, and reading goes on from what was left
(`Journal.recordsIn_append`). What was left decides how: if it is not empty, a record that is appended
behind it can be lost (`Journal.exists_lost`).
-/

namespace KeyStore

namespace Bytes

theorem crlfFrom_local {line s l rest : Bytes} (h : crlfFrom line s = some (l, rest)) :
    ∃ front, s = front ++ rest ∧ ∀ more, crlfFrom line (front ++ more) = some (l, more) := by
  fun_induction crlfFrom line s with
  | case1 line s =>
    cases h
    exact ⟨[13, 10], rfl, fun more => rfl⟩
  | case2 line b s hne ih =>
    obtain ⟨front, rfl, hmore⟩ := ih h
    refine ⟨b :: front, rfl, fun more => ?_⟩
    -- only the byte behind `b` decides whether a line ends here, and the front has that byte
    cases front with
    | nil => cases hmore []
    | cons a front =>
      rw [List.cons_append, crlfFrom]
      · exact hmore more
      · intro s' hb ha
        exact hne (front ++ rest) hb (by rw [List.cons_append, (List.cons.inj ha).1])
  | case3 => cases h

theorem exists_eq_of_crlfFrom {line s l rest : Bytes} (h : crlfFrom line s = some (l, rest)) :
    ∃ digits, l = line.reverse ++ digits ∧ s = digits ++ 13 :: 10 :: rest := by
  fun_induction crlfFrom line s with
  | case1 line s =>
    cases h
    exact ⟨[], (List.append_nil _).symm, rfl⟩
  | case2 line b s hne ih =>
    obtain ⟨digits, rfl, rfl⟩ := ih h
    exact ⟨b :: digits, by simp, rfl⟩
  | case3 => cases h

theorem not_laterLine_of_crlfFrom {line s : Bytes} (h : crlfFrom line s = none) (rest : Bytes) :
    ¬ LaterLine s rest := by
  fun_induction crlfFrom line s with
  | case1 line s => cases h
  | case2 line b s hne ih =>
    rw [laterLine_cons]
    rintro (⟨hb, hs⟩ | hline)
    · exact hne rest hb hs
    · exact ih h hline
  | case3 => exact not_laterLine List.not_mem_nil rest

theorem splitExact_local {n : Nat} {s item rest : Bytes} (h : splitExact n s = some (item, rest)) :
    s = item ++ rest ∧ item.length = n := by
  simp only [splitExact] at h
  split at h
  · next hn =>
    obtain ⟨rfl, rfl⟩ := Prod.mk.inj (Option.some.inj h)
    exact ⟨(List.take_append_drop n s).symm, hn⟩
  · cases h

end Bytes

namespace Numeral

theorem mem_of_digitsFrom {limit m n : Nat} {s : Bytes} (h : digitsFrom limit m s = some n) :
    ∀ b ∈ s, Bytes.isDigit b = true := by
  induction s generalizing m with
  | nil => simp
  | cons b s ih =>
    simp only [digitsFrom] at h
    split at h
    · next hb =>
      split at h
      · exact List.forall_mem_cons.2 ⟨hb, ih h⟩
      · cases h
    · cases h

theorem not_mem_of_readLength {s : Bytes} {n : Nat} (h : readLength s = some n) {b : UInt8}
    (hb : Bytes.isDigit b = false) (hsign : b ≠ 45) : b ∉ s := by
  have hnat : ∀ {limit : Nat} {t : Bytes} {m : Nat}, readNat limit t = some m → b ∉ t := by
    intro limit t m hm hmem
    unfold readNat at hm
    split at hm
    · cases hm
    · rw [mem_of_digitsFrom hm b hmem] at hb
      cases hb
  unfold readLength at h
  split at h
  · next m hm =>
    unfold readInt at hm
    split at hm
    · next t =>
      obtain ⟨m, hm, -⟩ := Option.map_eq_some_iff.1 hm
      obtain ⟨k, hk, -⟩ := Option.bind_eq_some_iff.1 hm
      have ht : b ∉ t := hnat hk
      simp [ht, hsign]
    · obtain ⟨m, hm, -⟩ := Option.map_eq_some_iff.1 hm
      obtain ⟨k, hk, -⟩ := Option.bind_eq_some_iff.1 hm
      exact hnat hk
  · cases h

end Numeral

namespace Frame

theorem lengthLine_local {s rest : Bytes} {n : Option Nat} {taken : Nat}
    (h : lengthLine s = some (n, taken, rest)) :
    ∃ front, s = front ++ rest ∧ front.length = taken ∧
      ∀ more, lengthLine (front ++ more) = some (n, taken, more) := by
  unfold lengthLine at h
  split at h
  · cases h
  · next digits rest' hline =>
    cases h
    obtain ⟨front, hs, hmore⟩ := Bytes.crlfFrom_local hline
    obtain ⟨digits', hdigits, hs'⟩ := Bytes.exists_eq_of_crlfFrom hline
    refine ⟨front, hs, ?_, fun more => ?_⟩
    · have hlength := congrArg List.length (hs.symm.trans hs')
      simp only [hdigits, List.length_append, List.length_cons, List.reverse_nil, List.nil_append] at hlength ⊢
      omega
    · simp [lengthLine, Bytes.crlfLine?, hmore]

theorem bulksFrom_local {n : Nat} {items out : List Bytes} {size total : Nat} {s rest : Bytes}
    (h : bulksFrom n items size s = .done out total rest) :
    ∃ front, s = front ++ rest ∧ size + front.length = total ∧ out.length = items.length + n ∧
      ∀ more, bulksFrom n items size (front ++ more) = .done out total more := by
  fun_induction bulksFrom n items size s with
  | case1 items size s =>
    cases h
    exact ⟨[], rfl, rfl, List.length_reverse, fun more => rfl⟩
  | case6 n items size s len taken tail hline item tail' hsplit ih =>
    obtain ⟨front, hs, hfront, hlines⟩ := lengthLine_local hline
    obtain ⟨rfl, hlen⟩ := Bytes.splitExact_local hsplit
    obtain ⟨back, rfl, hback, hout, hmore⟩ := ih h
    refine ⟨36 :: (front ++ (item ++ 13 :: 10 :: back)), by simp [hs], ?_, ?_, fun more => ?_⟩
    · simp only [List.length_cons, List.length_append]
      omega
    · rw [hout, List.length_cons]
      omega
    · have heq : 36 :: (front ++ (item ++ 13 :: 10 :: back)) ++ more =
          36 :: (front ++ (item ++ 13 :: 10 :: (back ++ more))) := by simp
      rw [heq]
      have hsplit' : Bytes.splitExact len (item ++ 13 :: 10 :: (back ++ more)) =
          some (item, 13 :: 10 :: (back ++ more)) := by
        rw [← hlen]
        exact Bytes.splitExact_append item _
      simp only [bulksFrom, if_true, hlines, hsplit']
      exact hmore more
  | _ => cases h

theorem parse_local {s rest : Bytes} {items : List Bytes} {size : Nat} (h : parse s = .done items size rest) :
    ∃ front, s = front ++ rest ∧ front.length = size ∧ ∀ more, parse (front ++ more) = .done items size more := by
  unfold parse at h
  split at h
  · cases h
  · next b s =>
    split at h
    · next hb =>
      split at h
      · cases h
      · cases h
      · next n taken rest' hline =>
        obtain ⟨front, rfl, hfront, hlines⟩ := lengthLine_local hline
        obtain ⟨back, rfl, hback, _, hmore⟩ := bulksFrom_local h
        refine ⟨b :: (front ++ back), by simp, ?_, fun more => ?_⟩
        · simp only [List.length_cons, List.length_append]
          omega
        · have heq : b :: (front ++ back) ++ more = b :: (front ++ (back ++ more)) := by simp
          rw [heq]
          simp only [parse, if_pos hb, hlines]
          exact hmore more
    · cases h

theorem length_rest_lt {s rest : Bytes} {items : List Bytes} {size : Nat} (h : parse s = .done items size rest) :
    rest.length < s.length := by
  obtain ⟨front, rfl, _, hmore⟩ := parse_local h
  cases front with
  | nil => cases hmore []
  | cons b front =>
    rw [List.length_append, List.length_cons]
    omega

theorem not_incomplete_of_le {s more rest : Bytes} {items : List Bytes} {size : Nat}
    (h : parse (s ++ more) = .done items size rest) (hle : more.length ≤ rest.length) : ¬ Incomplete s := by
  obtain ⟨front, hs, _, hmore⟩ := parse_local h
  have hfront : front <+: s := by
    refine List.prefix_of_prefix_length_le (List.prefix_append front rest) (hs ▸ List.prefix_append s more) ?_
    have hlength := congrArg List.length hs
    simp only [List.length_append] at hlength
    omega
  obtain ⟨back, rfl⟩ := hfront
  exact fun hnone => hnone _ _ _ (hmore back)

theorem lengthLine_of_append {s x rest : Bytes} {n taken : Nat}
    (h : lengthLine (s ++ 42 :: x) = some (some n, taken, rest)) :
    ∃ tail, lengthLine s = some (some n, taken, tail) := by
  cases hs : lengthLine s with
  | some p =>
    obtain ⟨m, taken', tail⟩ := p
    rw [lengthLine_more hs] at h
    simp only [Option.some.injEq, Prod.mk.injEq] at h
    exact ⟨tail, by rw [h.1, h.2.1]⟩
  | none =>
    exfalso
    have hnone : Bytes.crlfFrom [] s = none := by
      cases hc : Bytes.crlfFrom [] s with
      | none => rfl
      | some p => simp [lengthLine, Bytes.crlfLine?, hc] at hs
    obtain ⟨digits, hread, heq⟩ : ∃ digits, Numeral.readLength digits = some n ∧
        s ++ 42 :: x = digits ++ 13 :: 10 :: rest := by
      unfold lengthLine at h
      split at h
      · cases h
      · next digits rest' hline =>
        obtain ⟨digits', hdigits, heq⟩ := Bytes.exists_eq_of_crlfFrom hline
        rw [List.reverse_nil, List.nil_append] at hdigits
        simp only [Option.some.injEq, Prod.mk.injEq] at h
        exact ⟨digits, h.1, by rw [heq, hdigits, h.2.2]⟩
    rcases (Bytes.laterLine_append (by simp)).1 ⟨_, heq⟩ with ⟨line, hearly, _⟩ | ⟨front, hfront⟩
    · exact Bytes.not_laterLine_of_crlfFrom hnone line hearly
    · -- the line would end behind the star, which is no digit
      cases front with
      | nil => cases hfront
      | cons a front =>
        obtain ⟨rfl, -⟩ := List.cons.inj hfront
        rw [hfront, ← List.append_assoc] at heq
        have hdigits := List.append_cancel_right heq
        refine Numeral.not_mem_of_readLength hread (b := 42) (by decide) (by decide) ?_
        rw [← hdigits]
        simp

theorem lengthLine_of_parse {b : UInt8} {s x rest : Bytes} {items : List Bytes} {size : Nat}
    (h : parse (b :: s ++ 42 :: x) = .done items size rest) :
    ∃ taken tail, lengthLine s = some (some items.length, taken, tail) := by
  simp only [List.cons_append, parse] at h
  split at h
  · split at h
    · cases h
    · cases h
    · next n taken rest' hline =>
      obtain ⟨_, _, _, hcount, _⟩ := bulksFrom_local h
      obtain ⟨tail, htail⟩ := lengthLine_of_append hline
      rw [List.length_nil, Nat.zero_add] at hcount
      exact ⟨taken, tail, hcount ▸ htail⟩
  · cases h

theorem length_eq_of_parse {s x x' rest rest' : Bytes} {items items' : List Bytes} {size size' : Nat} (hs : s ≠ [])
    (h : parse (s ++ 42 :: x) = .done items size rest) (h' : parse (s ++ 42 :: x') = .done items' size' rest') :
    items.length = items'.length := by
  obtain ⟨b, s, rfl⟩ := List.exists_cons_of_ne_nil hs
  obtain ⟨taken, tail, hline⟩ := lengthLine_of_parse h
  obtain ⟨taken', tail', hline'⟩ := lengthLine_of_parse h'
  rw [hline] at hline'
  simp only [Option.some.injEq, Prod.mk.injEq] at hline'
  exact hline'.1

theorem incomplete_or_done (s : Bytes) : Incomplete s ∨ ∃ items size rest, parse s = .done items size rest := by
  cases hparse : parse s with
  | done items size rest => exact Or.inr ⟨items, size, rest, rfl⟩
  | needMore => exact Or.inl fun _ _ _ hdone => by cases hparse.symm.trans hdone
  | malformed => exact Or.inl fun _ _ _ hdone => by cases hparse.symm.trans hdone

theorem induction {motive : Bytes → Prop} (incomplete : ∀ s, Incomplete s → motive s)
    (frame : ∀ s items size rest, parse s = .done items size rest → motive rest → motive s) (s : Bytes) :
    motive s := by
  induction hn : s.length using Nat.strongRecOn generalizing s with
  | ind n ih =>
    subst hn
    rcases incomplete_or_done s with hs | ⟨items, size, rest, hdone⟩
    · exact incomplete s hs
    · exact frame s items size rest hdone (ih _ (length_rest_lt hdone) rest rfl)

end Frame

namespace Journal

theorem scanFrom_of_done {s rest : Bytes} {items : List Bytes} {size : Nat}
    (h : Frame.parse s = .done items size rest) (fuel offset : Nat) :
    scanFrom (fuel + 1) offset s =
      let scan := scanFrom fuel (offset + size) rest
      if items.isEmpty then scan else { scan with records := (items, offset + size) :: scan.records } := by
  cases s with
  | nil => cases h
  | cons b s =>
    rw [scanFrom, h]
    simp

/-- What is read does not depend on where it begins, if the fuel is enough. -/
theorem scanFrom_eq (s : Bytes) {fuel fuel' : Nat} (hf : s.length ≤ fuel) (hf' : s.length ≤ fuel')
    (offset offset' : Nat) :
    (scanFrom fuel offset s).records.map (·.1) = (scanFrom fuel' offset' s).records.map (·.1) ∧
      (scanFrom fuel offset s).tail = (scanFrom fuel' offset' s).tail := by
  induction s using Frame.induction generalizing fuel fuel' offset offset' with
  | incomplete s hs => simp [scanFrom_of_incomplete hs]
  | frame s items size rest hdone ih =>
    have hlt := Frame.length_rest_lt hdone
    obtain ⟨fuel, rfl⟩ : ∃ f, fuel = f + 1 := ⟨fuel - 1, by omega⟩
    obtain ⟨fuel', rfl⟩ : ∃ f, fuel' = f + 1 := ⟨fuel' - 1, by omega⟩
    obtain ⟨hrecords, htail⟩ := ih (show rest.length ≤ fuel by omega) (show rest.length ≤ fuel' by omega)
      (offset + size) (offset' + size)
    rw [scanFrom_of_done hdone, scanFrom_of_done hdone]
    simp only
    split
    · exact ⟨hrecords, htail⟩
    · exact ⟨congrArg (items :: ·) hrecords, htail⟩

theorem recordsIn_of_incomplete {s : Bytes} (h : Frame.Incomplete s) : recordsIn s = [] ∧ (scan s).tail = s := by
  simp [recordsIn, scan, scanFrom_of_incomplete h]

theorem recordsIn_of_done {s rest : Bytes} {items : List Bytes} {size : Nat}
    (h : Frame.parse s = .done items size rest) :
    recordsIn s = (if items.isEmpty then [] else [items]) ++ recordsIn rest ∧ (scan s).tail = (scan rest).tail := by
  have hlt := Frame.length_rest_lt h
  obtain ⟨n, hn⟩ : ∃ n, s.length = n + 1 := ⟨s.length - 1, by omega⟩
  obtain ⟨hrecords, htail⟩ := scanFrom_eq rest (show rest.length ≤ n by omega) (Nat.le_refl _) (0 + size) 0
  simp only [recordsIn, scan, hn, scanFrom_of_done h]
  split
  · exact ⟨hrecords, htail⟩
  · exact ⟨congrArg (items :: ·) hrecords, htail⟩

theorem incomplete_tail (s : Bytes) : Frame.Incomplete (scan s).tail := by
  induction s using Frame.induction with
  | incomplete s hs => rwa [(recordsIn_of_incomplete hs).2]
  | frame s items size rest hdone ih => rwa [(recordsIn_of_done hdone).2]

/-- With more bytes behind it, a journal gives the records that it gave, and then those that what was left of
it gives with the bytes behind. -/
theorem recordsIn_append (s more : Bytes) :
    recordsIn (s ++ more) = recordsIn s ++ recordsIn ((scan s).tail ++ more) ∧
      (scan (s ++ more)).tail = (scan ((scan s).tail ++ more)).tail := by
  induction s using Frame.induction with
  | incomplete s hs => simp [recordsIn_of_incomplete hs]
  | frame s items size rest hdone ih =>
    obtain ⟨hrecords, htail⟩ := recordsIn_of_done hdone
    obtain ⟨hrecords', htail'⟩ := recordsIn_of_done (Frame.parse_more hdone more)
    rw [hrecords', hrecords, htail', htail, ih.1, ih.2, List.append_assoc]
    exact ⟨rfl, rfl⟩

/-- If a record without stars is read behind bytes that no frame starts with, the first frame is that record. -/
theorem parse_of_mem_recordsIn {s : Bytes} (hs : Frame.Incomplete s) {r : List Bytes}
    (hstar : (42 : UInt8) ∉ (Frame.encode r).tail) (h : r ∈ recordsIn (s ++ Frame.encode r)) :
    ∃ size rest, Frame.parse (s ++ Frame.encode r) = .done r size rest := by
  rcases Frame.incomplete_or_done (s ++ Frame.encode r) with hnone | ⟨items, size, rest, hdone⟩
  · rw [(recordsIn_of_incomplete hnone).1] at h
    cases h
  · -- what follows the first frame lies in the record, behind its star
    have hlt : rest.length < (Frame.encode r).length := by
      refine Nat.lt_of_not_le fun hle => ?_
      exact Frame.not_incomplete_of_le hdone hle hs
    obtain ⟨front, hfront, -, -⟩ := Frame.parse_local hdone
    have hsuffix : rest <:+ (Frame.encode r).tail := by
      have hback : (Frame.encode r).tail <:+ s ++ Frame.encode r :=
        (List.tail_suffix _).trans (List.suffix_append s _)
      refine List.suffix_of_suffix_length_le (hfront ▸ List.suffix_append front rest) hback ?_
      rw [List.length_tail]
      omega
    have hrest : Frame.Incomplete rest := Frame.incomplete_of_head? fun hhead =>
      hstar (hsuffix.subset (List.mem_of_head? hhead))
    rw [(recordsIn_of_done hdone).1, (recordsIn_of_incomplete hrest).1, List.append_nil] at h
    split at h
    · cases h
    · obtain rfl := List.mem_singleton.1 h
      exact ⟨size, rest, hdone⟩

theorem exists_lost {s : Bytes} (hne : s ≠ []) (hs : Frame.Incomplete s) :
    ∃ r, Readable r ∧ r ∉ recordsIn (s ++ Frame.encode r) := by
  refine Classical.byContradiction fun hall => ?_
  have hread : ∀ r, Readable r → r ∈ recordsIn (s ++ Frame.encode r) := fun r hr =>
    Classical.byContradiction fun hlost => hall ⟨r, hr, hlost⟩
  -- but a record of one item and a record of two would both have to be it
  let one : List Bytes := [[97]]
  let two : List Bytes := [[97], [97]]
  obtain ⟨size, rest, hone⟩ := parse_of_mem_recordsIn hs (by decide) (hread one ⟨by decide, by decide⟩)
  obtain ⟨size', rest', htwo⟩ := parse_of_mem_recordsIn hs (by decide) (hread two ⟨by decide, by decide⟩)
  have hlength := Frame.length_eq_of_parse hne hone htwo
  cases hlength

end Journal
end KeyStore
