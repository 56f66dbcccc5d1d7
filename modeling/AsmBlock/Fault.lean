/-!
# Faults of offset arithmetic

Offsets into a text are 32-bit quantities.  They are held as natural numbers,
and an addition that leaves the 32-bit range is a fault rather than a wrapped
result.  Reading a buffer outside its bounds is the other fault.  The main
statements say exactly when a checked addition succeeds.
-/

namespace AsmBlock

/-- The number of representable offsets: an offset is below this limit. -/
def offsetLimit : Nat := UInt32.size

/-- What can go wrong when an offset is computed or used. -/
inductive Fault where
  | addOverflow
  /-- A buffer of `size` bytes was read at `index`, which is not below `size`. -/
  | outOfBounds (size index : Nat)
  deriving DecidableEq, Repr

def Fault.message : Fault → String
  | .addOverflow => "attempt to add with overflow"
  | .outOfBounds size index =>
    "index out of bounds: the len is " ++ toString size ++ " but the index is " ++ toString index

/-- Adds two offsets; the sum must fit an offset. -/
def checkedAdd (a b : Nat) : Except Fault Nat :=
  if a + b < offsetLimit then .ok (a + b) else .error .addOverflow

theorem checkedAdd_of_lt {a b : Nat} (h : a + b < offsetLimit) :
    checkedAdd a b = .ok (a + b) := by
  simp [checkedAdd, h]

theorem checkedAdd_eq_ok_iff {a b c : Nat} :
    checkedAdd a b = .ok c ↔ c = a + b ∧ a + b < offsetLimit := by
  unfold checkedAdd
  split
  · next h => simp [h, eq_comm]
  · next h => simp [h]

/-- A sequence of two computations succeeds when both do, the second on the
result of the first. -/
theorem Fault.bind_eq_ok_iff {α β : Type} {first : Except Fault α} {second : α → Except Fault β}
    {result : β} :
    first >>= second = .ok result ↔ ∃ value, first = .ok value ∧ second value = .ok result := by
  cases first with
  | error fault => simp [bind, Except.bind]
  | ok value => simp [bind, Except.bind]

end AsmBlock
