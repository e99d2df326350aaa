/-!
# Byte strings

Keys, values, requests and log records are strings of bytes. Their order is bytewise and unsigned;
case and white space are those of ASCII, so a byte above 127 is never a letter or a blank.
-/

namespace KeyStore

abbrev Bytes := List UInt8

instance : LawfulBEq Bytes := inferInstanceAs (LawfulBEq (List UInt8))

namespace Bytes

def ofString (s : String) : Bytes := s.toList.map Char.toUInt8

instance : Coe String Bytes := ⟨ofString⟩

def compare : Bytes → Bytes → Ordering
  | [], [] => .eq
  | [], _ :: _ => .lt
  | _ :: _, [] => .gt
  | a :: s, b :: t => if a < b then .lt else if b < a then .gt else compare s t

@[simp] theorem compare_self (s : Bytes) : compare s s = .eq := by
  induction s with
  | nil => rfl
  | cons a s ih => simp [compare, ih, UInt8.lt_irrefl]

theorem eq_of_compare {s t : Bytes} (h : compare s t = .eq) : s = t := by
  induction s generalizing t with
  | nil => cases t with
    | nil => rfl
    | cons b t => simp [compare] at h
  | cons a s ih => cases t with
    | nil => simp [compare] at h
    | cons b t =>
      by_cases hab : a < b
      · simp [compare, hab] at h
      · by_cases hba : b < a
        · simp [compare, hab, hba] at h
        · have : a = b := UInt8.le_antisymm (UInt8.not_lt.1 hba) (UInt8.not_lt.1 hab)
          simp only [compare, hab, hba, if_false] at h
          rw [this, ih h]

@[simp] theorem compare_eq_iff {s t : Bytes} : compare s t = .eq ↔ s = t :=
  ⟨eq_of_compare, fun h => h ▸ compare_self s⟩

theorem compare_swap (s t : Bytes) : (compare s t).swap = compare t s := by
  induction s generalizing t with
  | nil => cases t <;> rfl
  | cons a s ih => cases t with
    | nil => rfl
    | cons b t =>
      by_cases hab : a < b
      · simp [compare, hab, UInt8.lt_asymm hab]
      · by_cases hba : b < a <;> simp [compare, hab, hba, ih]

theorem compare_gt_iff {s t : Bytes} : compare s t = .gt ↔ compare t s = .lt := by
  rw [← compare_swap t s]
  cases compare t s <;> simp

theorem compare_trans {s t u : Bytes} (h₁ : compare s t = .lt) (h₂ : compare t u = .lt) :
    compare s u = .lt := by
  induction s generalizing t u with
  | nil => cases t with
    | nil => simp [compare] at h₁
    | cons b t => cases u with
      | nil => simp [compare] at h₂
      | cons c u => rfl
  | cons a s ih => cases t with
    | nil => simp [compare] at h₁
    | cons b t => cases u with
      | nil => simp [compare] at h₂
      | cons c u =>
        simp only [compare] at h₁ h₂ ⊢
        by_cases hab : a < b
        · by_cases hbc : b < c
          · simp [UInt8.lt_trans hab hbc]
          · by_cases hcb : c < b
            · simp [hbc, hcb] at h₂
            · have : b = c := UInt8.le_antisymm (UInt8.not_lt.1 hcb) (UInt8.not_lt.1 hbc)
              simp [← this, hab]
        · by_cases hba : b < a
          · simp [hab, hba] at h₁
          · have : a = b := UInt8.le_antisymm (UInt8.not_lt.1 hba) (UInt8.not_lt.1 hab)
            subst this
            simp only [UInt8.lt_irrefl, if_false] at h₁
            by_cases hbc : a < c
            · simp [hbc]
            · by_cases hcb : c < a
              · simp [hbc, hcb] at h₂
              · simp only [hbc, hcb, if_false] at h₂ ⊢
                exact ih h₁ h₂

def isDigit (b : UInt8) : Bool := 48 ≤ b && b ≤ 57

/-- Space, tab, line feed, vertical tab, form feed and carriage return. -/
def isSpace (b : UInt8) : Bool := b == 32 || (9 ≤ b && b ≤ 13)

def toLower (b : UInt8) : UInt8 := if 65 ≤ b && b ≤ 90 then b + 32 else b

def toUpper (b : UInt8) : UInt8 := if 97 ≤ b && b ≤ 122 then b - 32 else b

def lower (s : Bytes) : Bytes := s.map toLower

def upper (s : Bytes) : Bytes := s.map toUpper

def trim (s : Bytes) : Bytes := ((s.dropWhile isSpace).reverse.dropWhile isSpace).reverse

/-- What stands before the first NUL byte. -/
def untilNul (s : Bytes) : Bytes := s.takeWhile (· != 0)

/-- A finished word, given backwards, in front of the words before it; an empty one is none. -/
def pushWord (word : Bytes) (words : List Bytes) : List Bytes :=
  if word.isEmpty then words else word.reverse :: words

def wordsFrom : Bytes → Bytes → List Bytes → List Bytes
  | [], word, words => (pushWord word words).reverse
  | b :: s, word, words =>
    if isSpace b then wordsFrom s [] (pushWord word words) else wordsFrom s (b :: word) words

/-- The maximal runs of bytes that are not white space. -/
def words (s : Bytes) : List Bytes := wordsFrom s [] []

def lineFrom : Bytes → Bytes → Option (Bytes × Bytes)
  | _, [] => none
  | line, b :: s => if b = 10 then some (line.reverse, s) else lineFrom (b :: line) s

def line? (s : Bytes) : Option (Bytes × Bytes) := lineFrom [] s

def crlfFrom : Bytes → Bytes → Option (Bytes × Bytes)
  | line, 13 :: 10 :: s => some (line.reverse, s)
  | line, b :: s => crlfFrom (b :: line) s
  | _, [] => none

/-- The bytes before the first carriage return that a line feed follows, and those after the two. -/
def crlfLine? (s : Bytes) : Option (Bytes × Bytes) := crlfFrom [] s

def crlf : Bytes := [13, 10]

def splitExact (n : Nat) (s : Bytes) : Option (Bytes × Bytes) :=
  let front := s.take n
  if front.length = n then some (front, s.drop n) else none

end Bytes
end KeyStore
