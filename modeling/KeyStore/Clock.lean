/-!
# The clock

Wall-clock time in milliseconds, as the readings that are taken of it one after another. An
operation that looks at the time twice may see two times.
-/

namespace KeyStore

structure Clock where
  reading : Nat → Int
  taken : Nat := 0

namespace Clock

/-- A clock that shows `now` whenever it is read. -/
def standing (now : Int) : Clock := { reading := fun _ => now }

def ticking (start step : Int) : Clock := { reading := fun i => start + step * i }

def now (c : Clock) : Int := c.reading c.taken

def next (c : Clock) : Clock := { c with taken := c.taken + 1 }

def read (c : Clock) : Int × Clock := (c.now, c.next)

def advance (c : Clock) (ms : Int) : Clock := { c with reading := fun i => c.reading i + ms }

/-- The clock shows `now` at every reading to come. -/
def Stands (c : Clock) (now : Int) : Prop := ∀ i, c.taken ≤ i → c.reading i = now

theorem stands_standing (now : Int) : (standing now).Stands now := fun _ _ => rfl

theorem Stands.now_eq {c : Clock} {now : Int} (h : c.Stands now) : c.now = now := h c.taken (Nat.le_refl _)

theorem Stands.next {c : Clock} {now : Int} (h : c.Stands now) : c.next.Stands now :=
  fun i hi => h i (Nat.le_of_succ_le hi)

@[simp] theorem now_standing (t : Int) : (standing t).now = t := rfl

end Clock
end KeyStore
