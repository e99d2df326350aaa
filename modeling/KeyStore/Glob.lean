import KeyStore.Bytes

/-!
# Glob patterns

`*` stands for any bytes and `?` for any one byte, `[...]` for one byte of a set and a backslash
makes the byte behind it literal. A set holds bytes, ranges, classes such as `[:alpha:]`, and single
bytes as `[=x=]` or `[.x.]`; it is negated by `!` or `^`, and a bracket that never closes is an
ordinary byte. A pattern has to match the whole string.

The part of a pattern up to its next star is matched at the leftmost place where it fits.
-/

namespace KeyStore.Glob

def isUpper (b : UInt8) : Bool := 65 ≤ b && b ≤ 90
def isLower (b : UInt8) : Bool := 97 ≤ b && b ≤ 122
def isAlpha (b : UInt8) : Bool := isUpper b || isLower b
def isGraph (b : UInt8) : Bool := 33 ≤ b && b ≤ 126

def class? (name : Bytes) : Option (UInt8 → Bool) :=
  if name = "alpha" then some isAlpha
  else if name = "digit" then some Bytes.isDigit
  else if name = "alnum" then some fun b => isAlpha b || Bytes.isDigit b
  else if name = "upper" then some isUpper
  else if name = "lower" then some isLower
  else if name = "space" then some Bytes.isSpace
  else if name = "blank" then some fun b => b == 32 || b == 9
  else if name = "punct" then some fun b => isGraph b && !isAlpha b && !Bytes.isDigit b
  else if name = "print" then some fun b => 32 ≤ b && b ≤ 126
  else if name = "graph" then some isGraph
  else if name = "cntrl" then some fun b => b < 32 || b == 127
  else if name = "xdigit" then some fun b =>
    Bytes.isDigit b || (97 ≤ Bytes.toLower b && Bytes.toLower b ≤ 102)
  else none

def classNameLimit : Nat := 2048

inductive ClassName where
  | named (name : Bytes) (rest : Bytes)
  | notAName
  | tooLong

/-- Reads the name of a class up to `:]`. No name has a `z`. -/
def className : Nat → Bytes → Bytes → ClassName
  | 0, _, _ => .tooLong
  | _ + 1, name, 58 :: 93 :: rest => .named name.reverse rest
  | n + 1, name, b :: rest =>
    if 97 ≤ b && b < 122 then className n (b :: name) rest else .notAName
  | _ + 1, _, [] => .notAName

def symbol? : Bytes → Bytes → Option (Bytes × Bytes)
  | name, 46 :: 93 :: rest => some (name.reverse, rest)
  | name, b :: rest => symbol? (b :: name) rest
  | _, [] => none

/-- What a bracket makes of a byte: whether its set holds it, and the pattern behind the bracket;
or nothing matches; or the bracket is no bracket. -/
inductive Verdict where
  | holds (rest : Bytes)
  | lacks (rest : Bytes)
  | nothing
  | ordinary

def close : Nat → Bytes → Verdict
  | 0, _ => .ordinary
  | _ + 1, [] => .ordinary
  | _ + 1, 93 :: rest => .holds rest
  | _ + 1, [92] => .nothing
  | n + 1, 92 :: _ :: rest => close n rest
  | n + 1, 91 :: 58 :: rest =>
    match className (classNameLimit - 1) [] rest with
    | .named _ rest => close n rest
    | .notAName => close n (58 :: rest)
    | .tooLong => .nothing
  | n + 1, 91 :: 61 :: rest =>
    match rest with
    | _ :: 61 :: 93 :: rest => close n rest
    | _ => .nothing
  | n + 1, 91 :: 46 :: rest =>
    match symbol? [] rest with
    | some (_, rest) => close n rest
    | none => .nothing
  | n + 1, _ :: rest => close n rest

/-- The end of a range, which may be escaped or a symbol. -/
def rangeEnd : Bytes → Option (UInt8 × Bytes)
  | 91 :: 46 :: rest =>
    match symbol? [] rest with
    | some ([b], rest) => some (b, rest)
    | _ => none
  | 92 :: b :: rest => some (b, rest)
  | [92] => none
  | b :: rest => some (b, rest)
  | [] => none

/-- Whether the item at the front of a set holds a byte, and the items behind it. -/
inductive Item where
  | hit (rest : Bytes)
  | miss (rest : Bytes)
  | broken
  | unclosed

def Item.ofTest (test : Bool) (rest : Bytes) : Item := if test then .hit rest else .miss rest

/-- A byte, or the range it starts. In front of `-]` only a plain byte counts for itself. -/
def byteItem (x b : UInt8) (plain : Bool) : Bytes → Item
  | 45 :: 93 :: rest => .ofTest (plain && b == x) (45 :: 93 :: rest)
  | [45] => if b == x then .hit [45] else .broken
  | 45 :: rest =>
    match rangeEnd rest with
    | none => .broken
    | some (high, rest) => .ofTest (b ≤ x && x ≤ high) rest
  | rest => .ofTest (b == x) rest

def item (x : UInt8) : Bytes → Item
  | [] => .unclosed
  | [92] => .broken
  | 92 :: b :: rest => byteItem x b true rest
  | 91 :: 58 :: rest =>
    match className classNameLimit [] rest with
    | .named name rest => match class? name with
      | some test => .ofTest (test x) rest
      | none => .broken
    | .notAName => byteItem x 91 true (58 :: rest)
    | .tooLong => .broken
  | 91 :: 61 :: rest =>
    match rest with
    | b :: 61 :: 93 :: rest => .ofTest (b == x) rest
    | _ => byteItem x 91 true (61 :: rest)
  | 91 :: 46 :: rest =>
    match symbol? [] rest with
    | some ([b], rest) => byteItem x b false rest
    | _ => .broken
  | b :: rest => byteItem x b true rest

/-- Looks for a byte in the items of a set, the first of which may be a closing bracket. -/
def search (x : UInt8) : Nat → Bytes → Verdict
  | 0, _ => .ordinary
  | n + 1, s =>
    match item x s with
    | .hit rest => close (rest.length + 1) rest
    | .miss (93 :: rest) => .lacks rest
    | .miss rest => search x n rest
    | .broken => .nothing
    | .unclosed => .ordinary

/-- The verdict on a byte of the bracket whose opening has been read. -/
def bracket (x : UInt8) : Bytes → Verdict
  | b :: s =>
    if b = 33 ∨ b = 94 then
      match search x (s.length + 1) s with
      | .holds _ => .nothing
      | .lacks rest => .holds rest
      | verdict => verdict
    else search x (s.length + 2) (b :: s)
  | [] => .ordinary

/-- How far a string and a pattern go together: to the end of both, to a star, or not. -/
inductive Segment where
  | matched
  | star (pattern string : Bytes)
  | failed

/-- Matches a string up to the next star of the pattern. -/
def segment : Bytes → Bytes → Segment
  | [], [] => .matched
  | _ :: _, [] => .failed
  | s, 42 :: pattern => .star pattern s
  | [], _ :: _ => .failed
  | _ :: s, 63 :: pattern => segment s pattern
  | _ :: _, [92] => .failed
  | x :: s, 92 :: b :: pattern => if b = x then segment s pattern else .failed
  | x :: s, 91 :: pattern =>
    match bracket x pattern with
    | .holds rest => segment s rest
    | .ordinary => if x = 91 then segment s pattern else .failed
    | _ => .failed
  | x :: s, b :: pattern => if b = x then segment s pattern else .failed

/-- Passes over stars and question marks, each of which takes one byte. -/
def skipStars : Bytes → Bytes → Option (Bytes × Bytes)
  | 42 :: pattern, s => skipStars pattern s
  | 63 :: pattern, _ :: s => skipStars pattern s
  | 63 :: _, [] => none
  | pattern, s => some (pattern, s)

def firstMatch (pattern : Bytes) : Bytes → Segment
  | [] => .failed
  | x :: s =>
    match segment (x :: s) pattern with
    | .failed => firstMatch pattern s
    | found => found

/-- Goes on from star to star, at most `n` of them. -/
def finish : Nat → Segment → Bool
  | _, .matched => true
  | _, .failed => false
  | 0, .star _ _ => false
  | n + 1, .star pattern s =>
    match skipStars pattern s with
    | none => false
    | some ([], _) => true
    | some (pattern, s) => finish n (firstMatch pattern s)

def isMatch (pattern s : Bytes) : Bool := finish pattern.length (segment s pattern)

end KeyStore.Glob
