import KeyStore.Proofs.Frames

/-!
# Frames at later lines

Bytes that no frame starts with are taken for damage if a complete frame starts at a later line of them
(`Journal.laterFrame_iff`). In the encoding of a record the later lines are those of its items, and the
ends of lines around them; so a frame that is found there starts inside an item (`Frame.ItemLine`).
-/

namespace KeyStore

namespace Bytes

def LaterLine (s rest : Bytes) : Prop := ∃ front, s = front ++ 13 :: 10 :: rest

theorem not_laterLine {s : Bytes} (h : (13 : UInt8) ∉ s) (rest : Bytes) : ¬ LaterLine s rest := by
  rintro ⟨front, rfl⟩
  simp at h

theorem laterLine_cons {b : UInt8} {s rest : Bytes} :
    LaterLine (b :: s) rest ↔ (b = 13 ∧ s = 10 :: rest) ∨ LaterLine s rest := by
  constructor
  · rintro ⟨front, hfront⟩
    cases front with
    | nil => exact Or.inl (List.cons.inj hfront)
    | cons a front => exact Or.inr ⟨front, (List.cons.inj hfront).2⟩
  · rintro (⟨rfl, rfl⟩ | ⟨front, rfl⟩)
    · exact ⟨[], rfl⟩
    · exact ⟨b :: front, rfl⟩

theorem LaterLine.append_left {s rest : Bytes} (h : LaterLine s rest) (front : Bytes) :
    LaterLine (front ++ s) rest := by
  obtain ⟨t, rfl⟩ := h
  exact ⟨front ++ t, (List.append_assoc ..).symm⟩

theorem LaterLine.append_right {s rest : Bytes} (h : LaterLine s rest) (back : Bytes) :
    LaterLine (s ++ back) (rest ++ back) := by
  obtain ⟨t, rfl⟩ := h
  exact ⟨t, List.append_assoc ..⟩

theorem laterLine_append {s t rest : Bytes} (ht : t.head? ≠ some 10) :
    LaterLine (s ++ t) rest ↔ (∃ line, LaterLine s line ∧ rest = line ++ t) ∨ LaterLine t rest := by
  induction s with
  | nil =>
    have hnil : ∀ line, ¬ LaterLine [] line := not_laterLine List.not_mem_nil
    simp [hnil]
  | cons b s ih =>
    -- a line feed behind `b` is one of `s`, or `s` is empty and it is the first byte of `t`
    have hhere : s ++ t = 10 :: rest ↔ ∃ line, s = 10 :: line ∧ rest = line ++ t := by
      cases s with
      | nil =>
        have hne : t ≠ 10 :: rest := fun h => ht (by rw [h]; rfl)
        simpa using hne
      | cons a s =>
        rw [List.cons_append, List.cons_eq_cons]
        constructor
        · rintro ⟨rfl, rfl⟩
          exact ⟨s, rfl, rfl⟩
        · rintro ⟨line, hs, rfl⟩
          obtain ⟨rfl, rfl⟩ := List.cons.inj hs
          exact ⟨rfl, rfl⟩
    rw [List.cons_append, laterLine_cons, ih, hhere]
    simp only [laterLine_cons, or_and_right, exists_or, and_assoc, exists_and_left, or_assoc]

theorem laterLine_append_crlf {s t rest : Bytes} :
    LaterLine (s ++ 13 :: 10 :: t) rest ↔
      (∃ line, LaterLine s line ∧ rest = line ++ 13 :: 10 :: t) ∨ rest = t ∨ LaterLine t rest := by
  rw [laterLine_append (by simp), laterLine_cons, laterLine_cons]
  simp [eq_comm]

theorem exists_laterLine_of_take {s rest : Bytes} {n : Nat} (h : LaterLine (s.take n) rest) :
    ∃ line, LaterLine s line ∧ rest = line.take (n + line.length - s.length) := by
  obtain ⟨front, hfront⟩ := h
  refine ⟨rest ++ s.drop n, ⟨front, ?_⟩, ?_⟩
  · rw [← List.cons_append, ← List.cons_append, ← List.append_assoc, ← hfront, List.take_append_drop]
  · by_cases hn : n ≤ s.length
    · have hcount : n + (rest ++ s.drop n).length - s.length = rest.length := by
        simp only [List.length_append, List.length_drop]
        omega
      rw [hcount, List.take_left]
    · have hdrop : s.drop n = [] := List.drop_eq_nil_iff.2 (by omega)
      rw [hdrop, List.append_nil, List.take_of_length_le (by omega)]

/-- The first bytes of a line are a line of the first `n` bytes, if these reach so far. -/
theorem laterLine_take {s line : Bytes} {n : Nat} (h : LaterLine s line) (hn : s.length ≤ n + line.length) :
    LaterLine (s.take n) (line.take (n + line.length - s.length)) := by
  obtain ⟨front, rfl⟩ := h
  simp only [List.length_append, List.length_cons] at hn ⊢
  refine ⟨front, ?_⟩
  have hcount : n - front.length = (n + line.length - (front.length + (line.length + 1 + 1))) + 2 := by omega
  rw [List.take_append, List.take_of_length_le (by omega), hcount]
  rfl

end Bytes

namespace Frame

theorem Incomplete.of_append {s more : Bytes} (h : Incomplete (s ++ more)) : Incomplete s :=
  fun _ _ _ hdone => h _ _ _ (parse_more hdone more)

theorem incomplete_of_head? {s : Bytes} (h : s.head? ≠ some 42) : Incomplete s := by
  intro items size rest hdone
  cases s with
  | nil => cases hdone
  | cons b s =>
    have hb : b ≠ 42 := fun hb => h (by rw [hb]; rfl)
    simp [parse, hb] at hdone

end Frame

namespace Journal

theorem laterFrame_iff {s : Bytes} :
    laterFrame s = true ↔ ∃ rest, Bytes.LaterLine s rest ∧ ¬ Frame.Incomplete rest := by
  -- a byte in front matters only if it is the carriage return in front of a frame
  have hskip : ∀ {b : UInt8} {s : Bytes}, (∀ rest, b = 13 → s = 10 :: rest → Frame.Incomplete rest) →
      ((∃ rest, Bytes.LaterLine (b :: s) rest ∧ ¬ Frame.Incomplete rest) ↔
        ∃ rest, Bytes.LaterLine s rest ∧ ¬ Frame.Incomplete rest) := by
    intro b s hnone
    refine exists_congr fun rest => and_congr_left fun hrest => ?_
    rw [Bytes.laterLine_cons, or_iff_right fun ⟨hb, hs⟩ => hrest (hnone rest hb hs)]
  fun_induction laterFrame s with
  | case1 s items size rest hparse =>
    have hfound : ¬ Frame.Incomplete (42 :: s) := fun h => h _ _ _ hparse
    simpa using ⟨_, ⟨[], rfl⟩, hfound⟩
  | case2 s hparse ih =>
    refine ih.trans (hskip ?_).symm
    rintro rest - hs
    obtain rfl := (List.cons.inj hs).2
    exact hparse
  | case3 b s hne ih =>
    refine ih.trans (hskip ?_).symm
    rintro rest rfl rfl
    refine Frame.incomplete_of_head? fun hstar => ?_
    obtain ⟨s, rfl⟩ := List.head?_eq_some_iff.1 hstar
    exact hne s rfl rfl
  | case4 =>
    have hnil : ∀ rest, ¬ Bytes.LaterLine [] rest := Bytes.not_laterLine List.not_mem_nil
    simp [hnil]

end Journal

namespace Frame

/-- What the encoding of a record holds from the start of a line inside an item on. The first line of an
item is one of them. -/
def ItemLine (record : List Bytes) (rest : Bytes) : Prop :=
  ∃ front item back line, record = front ++ item :: back ∧ (line = item ∨ Bytes.LaterLine item line) ∧
    rest = line ++ 13 :: 10 :: back.flatMap bulk

/-- Among the first `n` bytes of the encoding of a record, a complete frame starts at a line inside an item. -/
def Embeds (record : List Bytes) (n : Nat) : Prop :=
  ∃ rest, ItemLine record rest ∧ ¬ Incomplete (rest.take (n + rest.length - (encode record).length))

theorem laterLine_bulk_append {item t rest : Bytes} :
    Bytes.LaterLine (bulk item ++ t) rest ↔
      (∃ line, (line = item ∨ Bytes.LaterLine item line) ∧ rest = line ++ 13 :: 10 :: t) ∨ rest = t ∨
        Bytes.LaterLine t rest := by
  have h13 : (13 : UInt8) ∉ 36 :: Numeral.ofNat item.length := by
    simp [Numeral.not_mem_ofNat (show Bytes.isDigit 13 = false by decide)]
  have hb : bulk item ++ t = (36 :: Numeral.ofNat item.length) ++ 13 :: 10 :: (item ++ 13 :: 10 :: t) := by
    simp [bulk, Bytes.crlf]
  rw [hb, Bytes.laterLine_append_crlf, Bytes.laterLine_append_crlf]
  simp [Bytes.not_laterLine h13, or_and_right, exists_or, or_assoc]

/-- The later lines of a row of items are the lines inside them and those that begin an item. -/
theorem laterLine_flatMap_bulk {items : List Bytes} {rest : Bytes} (h : Bytes.LaterLine (items.flatMap bulk) rest) :
    ItemLine items rest ∨ ∃ back : List Bytes, rest = back.flatMap bulk := by
  induction items with
  | nil => exact absurd h (Bytes.not_laterLine List.not_mem_nil rest)
  | cons item items ih =>
    rw [List.flatMap_cons, laterLine_bulk_append] at h
    rcases h with ⟨line, hline, rfl⟩ | rfl | h
    · exact Or.inl ⟨[], item, items, line, rfl, hline, rfl⟩
    · exact Or.inr ⟨items, rfl⟩
    · refine (ih h).imp_left ?_
      rintro ⟨front, item', back, line, rfl, hline, rfl⟩
      exact ⟨item :: front, item', back, line, rfl, hline, rfl⟩

theorem ItemLine.laterLine_flatMap_bulk {items : List Bytes} {rest : Bytes} (h : ItemLine items rest) :
    Bytes.LaterLine (items.flatMap bulk) rest := by
  obtain ⟨front, item, back, line, rfl, hline, rfl⟩ := h
  induction front with
  | nil => exact laterLine_bulk_append.2 (Or.inl ⟨line, hline, rfl⟩)
  | cons item' front ih => exact laterLine_bulk_append.2 (Or.inr (Or.inr ih))

theorem laterLine_encode {record : List Bytes} {rest : Bytes} :
    Bytes.LaterLine (encode record) rest ↔
      rest = record.flatMap bulk ∨ Bytes.LaterLine (record.flatMap bulk) rest := by
  have h13 : (13 : UInt8) ∉ 42 :: Numeral.ofNat record.length := by
    simp [Numeral.not_mem_ofNat (show Bytes.isDigit 13 = false by decide)]
  have he : encode record = (42 :: Numeral.ofNat record.length) ++ 13 :: 10 :: record.flatMap bulk := by
    simp [encode, Bytes.crlf]
  rw [he, Bytes.laterLine_append_crlf]
  simp [Bytes.not_laterLine h13]

theorem ItemLine.laterLine_encode {record : List Bytes} {rest : Bytes} (h : ItemLine record rest) :
    Bytes.LaterLine (encode record) rest := Frame.laterLine_encode.2 (Or.inr h.laterLine_flatMap_bulk)

theorem incomplete_take_flatMap_bulk (items : List Bytes) (n : Nat) : Incomplete ((items.flatMap bulk).take n) := by
  refine incomplete_of_head? ?_
  cases items with
  | nil => simp
  | cons item items => cases n <;> simp [bulk]

/-- In the first bytes of a record, frames at later lines are those at lines inside items. -/
theorem laterFrame_take_encode {record : List Bytes} {n : Nat} :
    Journal.laterFrame ((encode record).take n) = true ↔ Embeds record n := by
  rw [Journal.laterFrame_iff]
  constructor
  · rintro ⟨_, htake, hrest⟩
    obtain ⟨line, hline, rfl⟩ := Bytes.exists_laterLine_of_take htake
    have hitem : ItemLine record line ∨ ∃ back : List Bytes, line = back.flatMap bulk := by
      rcases laterLine_encode.1 hline with rfl | hline
      · exact Or.inr ⟨record, rfl⟩
      · exact laterLine_flatMap_bulk hline
    rcases hitem with hitem | ⟨back, rfl⟩
    · exact ⟨line, hitem, hrest⟩
    · exact absurd (incomplete_take_flatMap_bulk back _) hrest
  · rintro ⟨rest, hitem, hrest⟩
    have hn : (encode record).length ≤ n + rest.length := by
      refine Nat.le_of_not_lt fun hlt => hrest ?_
      rw [Nat.sub_eq_zero_of_le (Nat.le_of_lt hlt)]
      exact incomplete_nil
    exact ⟨_, Bytes.laterLine_take hitem.laterLine_encode hn, hrest⟩

theorem laterFrame_encode {record : List Bytes} :
    Journal.laterFrame (encode record) = true ↔ Embeds record (encode record).length := by
  rw [← laterFrame_take_encode, List.take_length]

end Frame
end KeyStore
