import KeyStore.Reply

/-!
# Reading frames

A frame is an array of byte strings in the encoding of `Frame.encode`. Reading one from the front
of a byte string either finds it, with its size and what follows it, or needs more bytes, or finds
bytes that no frame starts with.
-/

namespace KeyStore.Frame

inductive Parsed where
  | done (items : List Bytes) (size : Nat) (rest : Bytes)
  | needMore
  | malformed
  deriving DecidableEq

/-- The line after a marker byte, as a length: the number, the bytes it took, and what follows. -/
def lengthLine (s : Bytes) : Option (Option Nat × Nat × Bytes) :=
  match Bytes.crlfLine? s with
  | none => none
  | some (digits, rest) => some (Numeral.readLength digits, digits.length + 2, rest)

/-- Reads `n` byte strings; `items` (backwards) and `size` are those before them. -/
def bulksFrom : Nat → List Bytes → Nat → Bytes → Parsed
  | 0, items, size, s => .done items.reverse size s
  | _ + 1, _, _, [] => .needMore
  | n + 1, items, size, b :: s =>
    if b = 36 then
      match lengthLine s with
      | none => .needMore
      | some (none, _, _) => .malformed
      | some (some len, taken, rest) =>
        match Bytes.splitExact len rest with
        | none => .needMore
        | some (item, rest) =>
          match rest with
          | 13 :: 10 :: rest => bulksFrom n (item :: items) (size + 1 + taken + len + 2) rest
          | _ :: _ :: _ => .malformed
          | _ => .needMore
    else .malformed

/-- Reads one frame from the front of a byte string. -/
def parse : Bytes → Parsed
  | [] => .needMore
  | b :: s =>
    if b = 42 then
      match lengthLine s with
      | none => .needMore
      | some (none, _, _) => .malformed
      | some (some n, taken, rest) => bulksFrom n [] (1 + taken) rest
    else .malformed

@[simp] theorem parse_nil : parse [] = .needMore := rfl

end KeyStore.Frame
