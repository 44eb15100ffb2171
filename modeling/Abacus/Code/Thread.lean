import Abacus.Code.Fragment

/-!
# Jump threading

A hole whose label stands before an unconditional jump may name that jump's target instead, and so
on along a chain of jumps. A chain that runs into a cycle is followed up to the first label that
comes a second time.
-/

namespace Abacus.Code

namespace Fragment

/-- The target of the jump at each index; of two jump holes at one index the later counts. -/
def jumpTargets (f : Fragment) : Std.HashMap Nat Label :=
  f.holes.foldl
    (fun targets hole =>
      match hole with
      | .jump index target => targets.insert index target
      | .test _ _ _ => targets)
    ∅

/-- For each label that stands before a jump, the target of that jump. -/
def links (f : Fragment) : Std.HashMap Label Label :=
  let targets := f.jumpTargets
  f.offsets.filterMap fun _ offset => targets[offset]?

end Fragment

/-- The end of the chain of links that starts at a label. Each link is used once, so a cycle ends
where it was entered. -/
def follow (links : Std.HashMap Label Label) (l : Label) : Label :=
  if linked : l ∈ links then
    let next := links[l]
    follow (links.erase l) next
  else
    l
termination_by links.size
decreasing_by
  have positive : 0 < links.size := by
    refine Nat.pos_of_ne_zero fun empty => ?_
    have isEmpty : links.isEmpty := by rw [Std.HashMap.isEmpty_eq_size_eq_zero, empty]; rfl
    exact Std.HashMap.not_mem_of_isEmpty isEmpty linked
  rw [Std.HashMap.size_erase, if_pos linked]
  omega

/-- Let every hole name the end of its chain of jumps. -/
def Fragment.threadJumps (f : Fragment) : Fragment :=
  let links := f.links
  { f with holes := f.holes.map (Hole.retarget (follow links)) }

end Abacus.Code
