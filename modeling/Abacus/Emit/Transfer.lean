import Abacus.Emit.Basic

/-!
# Moving counts between registers

The machine cannot read a register without emptying it, so a count is used by draining its
register unit by unit into others, and restored from a scratch copy made on the way. Scratch
registers are zero when they are handed out, and every action here leaves its own at zero.
-/

namespace Abacus.Emit

open Machine Code Fragment

/-- Empty a register. -/
def clear (r : Register) : EmitM Fragment := do
  let top ← fresh .clearLoop
  let step ← fresh .transferStep
  let done ← fresh .transferDone
  return define top ++ test r step done ++ define step ++ dec r ++ jump top ++ define done

/-- Empty a register, adding its count to every one of `targets`. The register itself must not be
among them. -/
def drain (source : Register) (targets : List Register) : EmitM Fragment := do
  let top ← fresh .transferLoop
  let step ← fresh .transferStep
  let done ← fresh .transferDone
  return define top ++ test source step done ++ define step ++ dec source
    ++ join (targets.map inc) ++ jump top ++ define done

/-- Add the count of `source` to `target` and empty `source`. -/
def move (source target : Register) : EmitM Fragment := do
  if source = target then
    throw (.conflict source .moveAlias)
  drain source [target]

/-- Add the count of `source` to `target` and keep `source` as it is. -/
def copy (source target : Register) : EmitM Fragment := do
  if source = target then
    throw (.conflict source .copyAlias)
  let backup ← scratch
  let out ← drain source [target, backup]
  let back ← drain backup [source]
  release backup
  return out ++ back

/-- Take the count of `source` from `target`, stopping at zero, and keep `source` as it is. The
two may be the same register. -/
def deduct (target source : Register) : EmitM Fragment := do
  let count ← scratch
  let load ← copy source count
  let top ← fresh .transferLoop
  let check ← fresh .subtractStep
  let step ← fresh .transferStep
  let rest ← fresh .subtractDrain
  let done ← fresh .transferDone
  release count
  return load
    ++ define top ++ test count check done
    ++ define check ++ test target step rest
    ++ define step ++ dec target ++ dec count ++ jump top
    ++ define rest ++ dec count ++ jump top
    ++ define done

/-- Add a number to a register, one increment for each unit. -/
def addUnits (r : Register) (n : Nat) : Fragment :=
  { code := List.replicate n (.inc r) }

/-- Decrements of a register, `n` of them in a row, each behind a test that skips it at zero.
Their labels are numbered from `first` on. -/
def guardedDecrements (r : Register) (first n : Nat) : Fragment :=
  let step (k : Nat) : Label := ⟨.subtractStep, first + 2 * k⟩
  let skip (k : Nat) : Label := ⟨.subtractSkip, first + 2 * k + 1⟩
  { code := (List.range n).flatMap fun _ => [.tst r 0 0, .dec r]
    holes := (List.range n).map fun k => .test (2 * k) (step k) (skip k)
    labels := (List.range n).flatMap fun k => [(step k, 2 * k + 1), (skip k, 2 * k + 2)] }

/-- Take a number from a register, stopping at zero. -/
def takeUnits (r : Register) (n : Nat) : EmitM Fragment := do
  return guardedDecrements r (← reserveLabels (2 * n)) n

end Abacus.Emit
