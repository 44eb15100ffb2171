import Abacus.Code.Thread
import Abacus.Code.Fallthrough

/-!
# Optimizing fragments

Threading jumps and dropping jumps to the next instruction alternate until neither changes
anything, for a bounded number of rounds.
-/

namespace Abacus.Code.Fragment

/-- Up to `rounds` rounds of both, ended by the first round that changes nothing. -/
def settle : (rounds : Nat) → Fragment → Option Fragment
  | 0, f => some f
  | rounds + 1, f => do
    let threaded := f.threadJumps
    let (next, dropped) ← threaded.dropFallthroughs
    if dropped = 0 ∧ threaded.holes = f.holes then
      return next
    else
      next.settle rounds

/-- The most rounds that are spent on a fragment. -/
def roundLimit : Nat := 32

/-- Optimize at a level: level zero leaves a fragment as it is. -/
def optimize (level : Nat) (f : Fragment) : Option Fragment :=
  if level = 0 then some f else f.settle roundLimit

end Abacus.Code.Fragment
