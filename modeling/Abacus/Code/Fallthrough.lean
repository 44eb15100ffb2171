import Std.Data.HashSet
import Abacus.Code.Fragment

/-!
# Jumps to the next instruction

A jump to the instruction right after it does nothing and can be dropped. The positions of all
other holes and of the labels are then renumbered by how much of the code before them was kept.
-/

namespace Abacus.Code.Fragment

/-- The indices of the jumps that lead to the next instruction. -/
def fallthroughs (f : Fragment) : Std.HashSet Nat :=
  let offsets := f.offsets
  f.holes.foldl
    (fun indices hole =>
      match hole with
      | .jump index target =>
        if offsets[target]? = some (index + 1) then indices.insert index else indices
      | .test _ _ _ => indices)
    ∅

/-- For each position from zero to `size`, how many of the indices below it are not dropped. -/
def renumbering (dropped : Nat → Bool) (size : Nat) : Array Nat :=
  let start : Array Nat × Nat := (#[0], 0)
  let table := (List.range size).foldl
    (fun (table, kept) index =>
      let kept := if dropped index then kept else kept + 1
      (table.push kept, kept))
    start
  table.1

/-- Drop every jump to the next instruction, and say how many there were. There is no result when
something is dropped and a label or hole lies beyond the end of the code. -/
def dropFallthroughs (f : Fragment) : Option (Fragment × Nat) :=
  let dropped := f.fallthroughs
  if dropped.isEmpty then
    some (f, 0)
  else do
    let table := renumbering dropped.contains f.size
    let code := f.code.zipIdx.filterMap fun (i, index) =>
      if dropped.contains index then none else some i
    let holes ← (f.holes.filter fun h => !dropped.contains h.index).mapM fun h =>
      table[h.index]?.map fun index => h.move fun _ => index
    let labels ← f.labels.mapM fun (l, offset) => table[offset]?.map fun offset => (l, offset)
    return (⟨code, holes, labels⟩, dropped.size)

end Abacus.Code.Fragment
