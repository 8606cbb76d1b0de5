/-!
# Parallelism

How many instances of a job run side by side: a positive number that fits 32 bits.
-/

namespace JobConfig

/-- A positive 32-bit number of instances. -/
structure Parallelism where
  count : UInt32
  positive : 0 < count
deriving DecidableEq, Repr

namespace Parallelism

/-- The parallelism of a given count, if it is in range. -/
def ofInt? (n : Int) : Option Parallelism :=
  if h : 0 < UInt32.ofNat n.toNat then
    if n = (UInt32.ofNat n.toNat).toNat then some ⟨_, h⟩ else none
  else none

@[simp] theorem ofInt?_toNat (p : Parallelism) : ofInt? p.count.toNat = some p := by
  simp [ofInt?, p.positive]

end Parallelism

end JobConfig
