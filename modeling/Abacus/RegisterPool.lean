import Abacus.Diagnostic

/-!
# The register pool

A machine has finitely many registers. The first ones belong to the declared variables for the
whole program; the others are scratch registers, handed out and given back in nested order. A
scratch register that was given back is handed out again before a new one is taken, so the pool
only ever grows to the deepest nesting.

Every operation is an action of the state monad over the pool that may fail; a failing operation
leaves the pool as it was.
-/

namespace Abacus

open Machine (Register)

/-- What is in use of a finite set of registers. -/
structure RegisterPool where
  /-- How many registers there are. -/
  capacity : Nat
  /-- How many belong to variables. -/
  named : Nat := 0
  /-- The highest register number handed out so far. -/
  highWater : Nat := 0
  /-- Scratch registers that were given back, the latest first. -/
  free : List Register := []
  /-- Scratch registers in use, the latest first. -/
  live : List Register := []
  deriving DecidableEq, Repr

namespace RegisterPool

/-- Hand out the next register to a variable. All variables come before the first scratch
register. -/
def takeNamed (name : String) : EStateM Diagnostic RegisterPool Register := do
  let pool ← get
  if pool.named < pool.highWater then
    throw (.conflict ⟨pool.highWater⟩ (.lateVariable name))
  if pool.capacity < pool.named + 1 then
    throw (.poolExhausted (pool.named + 1) pool.capacity none)
  set { pool with named := pool.named + 1, highWater := pool.named + 1 }
  return ⟨pool.named + 1⟩

/-- Hand out a scratch register. -/
def takeScratch : EStateM Diagnostic RegisterPool Register := do
  let pool ← get
  match pool.free with
  | r :: free =>
    set { pool with free, live := r :: pool.live }
    return r
  | [] =>
    if pool.capacity < pool.highWater + 1 then
      throw (.poolExhausted (pool.highWater + 1) pool.capacity none)
    let r : Register := ⟨pool.highWater + 1⟩
    set { pool with highWater := pool.highWater + 1, live := r :: pool.live }
    return r

/-- Whether a register belongs to a variable. -/
def isNamed (pool : RegisterPool) (r : Register) : Bool :=
  1 ≤ r.id ∧ r.id ≤ pool.named

/-- Take back a scratch register, which must be the latest one in use. -/
def release (r : Register) : EStateM Diagnostic RegisterPool Unit := do
  let pool ← get
  if pool.isNamed r then
    throw (.conflict r .releasedVariable)
  match pool.live with
  | [] => throw (.conflict r .notLive)
  | top :: rest =>
    if top = r then
      set { pool with free := r :: pool.free, live := rest }
    else if r ∈ rest then
      throw (.conflict r (.outOfOrder top))
    else
      throw (.conflict r .notLive)

/-- The size of the register file, once no scratch register is in use. -/
def finish (pool : RegisterPool) : Except Diagnostic Nat :=
  match pool.live.getLast? with
  | some r => .error (.conflict r .stillLive)
  | none => .ok pool.highWater

end RegisterPool

end Abacus
