import Abacus.Machine.Program

/-!
# Reachable instructions

The static control flow of a program relates the index of an instruction to the indices that may
be performed right after it. `Program.reached` marks what can be reached from the first
instruction; the rest is dead code.
-/

namespace Abacus.Machine.Program

/-- The indices that may follow an index, whatever the registers hold. -/
def successors (p : Program) (index : Nat) : List Nat :=
  match p.code[index]? with
  | some (.inc _) => [index + 1]
  | some (.dec _) => [index + 1]
  | some (.jmp target) => (p.indexOf? target).toList
  | some (.tst _ ifNonzero ifZero) =>
    (p.indexOf? ifNonzero).toList ++ (p.indexOf? ifZero).toList
  | some .hlt => []
  | none => []

/-- Marking a place that was not marked leaves one fewer without a mark. -/
theorem count_false_set_lt {seen : Array Bool} {index : Nat} (inside : index < seen.size)
    (unmarked : seen[index] = false) :
    (seen.set index true inside).count false < seen.count false := by
  have positive : 0 < seen.count false :=
    Array.count_pos_iff.2 (unmarked ▸ Array.getElem_mem inside)
  rw [Array.count_set, if_pos (by rw [unmarked]; rfl), if_neg (by decide)]
  omega

/-- Mark everything reachable from the indices in `work` through indices not yet marked in
`seen`. Indices outside `seen` are passed over. Of the two ways out of a test the one for a nonzero
count is explored first; the order does not matter, since what is marked in the end is what can be
reached. -/
def markFrom (p : Program) (seen : Array Bool) (work : List Nat) : Array Bool :=
  match work with
  | [] => seen
  | index :: rest =>
    if h : ∃ inside : index < seen.size, seen[index] = false then
      p.markFrom (seen.set index true h.1) (p.successors index ++ rest)
    else
      p.markFrom seen rest
termination_by (seen.count false, work.length)
decreasing_by
  · exact Prod.Lex.left _ _ (count_false_set_lt h.1 h.2)
  · exact Prod.Lex.right _ (Nat.lt_succ_self _)

/-- Which instructions can be reached from the first one. -/
def reached (p : Program) : Array Bool :=
  p.markFrom (Array.replicate p.code.size false) [0]

/-- How many instructions cannot be reached from the first one. -/
def unreachableCount (p : Program) : Nat :=
  p.reached.count false

end Abacus.Machine.Program
