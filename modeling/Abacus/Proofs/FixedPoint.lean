import Mathlib.Data.Nat.Init
import Abacus.Proofs.Embedding
import Abacus.Proofs.Settling
import Abacus.Proofs.Shape

/-!
# When the optimizer comes to a fixed point

The optimizer spends at most `Fragment.roundLimit` rounds on a fragment. On emitted code the first
round threads all jumps for good, and what may be left in the end are jumps to the next position.
They are left exactly where the code was emitted with too long a ladder: jumps in a row, each to the
next one (`Fragment.Ladder`). Threading makes all of them lead to the end of the ladder, and from
then on a round can drop only the last one.

A ladder comes from conditionals that are nested in the first blocks of each other, each with
nothing after it there, and have nothing in their second blocks. So there is none that is too long
unless the nesting is as deep (`Emit.optimize_twice`). Of such conditionals one more than there are
rounds is enough to stop the optimizer early (`Emit.optimize_stops_early`); with code in the second
blocks, or after the inner conditionals, the jumps are not in a row, however deep the nesting is.
-/

namespace Abacus

open Machine Code Fragment
open Source hiding Program

namespace Code.Fragment

variable {f : Fragment} {k n depth : Nat} {l : Label}

/-- Jumps in a row, each of which leads to the next position. There is no jump after the last
one. -/
def Ladder (f : Fragment) (k n : Nat) : Prop :=
  (∀ i < n, f.JumpsTo (k + i) (k + i + 1)) ∧ ¬f.JumpAt (k + n)

instance (f : Fragment) (k n : Nat) : Decidable (f.Ladder k n) :=
  inferInstanceAs (Decidable ((∀ i < n, f.JumpsTo (k + i) (k + i + 1)) ∧ ¬f.JumpAt (k + n)))

namespace Shaped

theorem onward (hf : f.Shaped depth) (hclosed : f.Closed) : f.Onward := by
  rintro l o o' hl ⟨l', hjump, hl'⟩
  rcases hf.direction o l' hjump with ⟨-, -, -, hlabels⟩ | ⟨hskip, hlt, -⟩ | ⟨hnext, -⟩
  · exact absurd hl (hlabels l)
  · have heq := hclosed.offset_eq hskip hl'
    omega
  · have heq := hclosed.offset_eq hnext hl'
    omega

/-- A ladder is a row of jumps past conditionals. -/
private theorem le_of_ladder (hf : f.Shaped depth) (hclosed : f.Closed) (h : f.Ladder k n) :
    n ≤ depth := by
  refine hf.row_le k n fun i hi => ?_
  obtain ⟨l, hjump, hl⟩ := h.1 i hi
  refine ⟨l, hjump, ?_⟩
  rcases hf.direction _ l hjump with ⟨hback, hle, -, -⟩ | ⟨hskip, hlt, -⟩ | ⟨-, hkind⟩
  · have heq := hclosed.offset_eq hback hl
    omega
  · have heq := hclosed.offset_eq hskip hl
    omega
  · exact hkind

end Shaped

theorem Ladder.chain (h : f.Ladder k n) {i : Nat} (hi : i ≤ n) :
    Relation.ReflTransGen f.JumpsTo (k + i) (k + n) := by
  induction hi using Nat.decreasingInduction with
  | self => exact .refl
  | of_succ i hi ih => exact .head (h.1 i hi) ih

/-- From a label on a ladder the jumps lead to its end. -/
theorem Ladder.follow_mem (h : f.Ladder k n) (honward : f.Onward) (hwf : f.WellFormed)
    (hclosed : f.Closed) {i : Nat} (hi : i ≤ n) (hl : (l, k + i) ∈ f.labels) :
    (follow f.links l, k + n) ∈ f.labels :=
  honward.follow_mem hwf hclosed (h.chain hi) hl h.2

/-- Threading turns the ladders of emitted code, and nothing else, into rows of jumps that lead to
one place. -/
private theorem Shaped.runsTo_threadJumps_iff (hf : f.Shaped depth) (hclosed : f.Closed)
    (hn : 0 < n) :
    f.threadJumps.RunsTo k n ↔ f.Ladder k n := by
  have honward := hf.onward hclosed
  have hwf := hf.toWellFormed
  constructor
  · intro hruns
    have hjumps : ∀ i < n, ∃ l, Hole.jump (k + i) l ∈ f.holes ∧
        (follow f.links l, k + n) ∈ f.labels := by
      intro i hi
      obtain ⟨l, hjump, hl⟩ := hruns i hi
      obtain ⟨l', hjump', rfl⟩ := jump_mem_holes_threadJumps.mp hjump
      exact ⟨l', hjump', hl⟩
    have hend : ¬f.JumpAt (k + n) := by
      obtain ⟨l, -, hl⟩ := hjumps 0 hn
      exact (hclosed.links_eq_none_iff hwf hl).mp (getElem?_follow (honward.position_lt hclosed))
    refine ⟨fun i hi => ?_, hend⟩
    obtain ⟨l, hjump, hl⟩ := hjumps i hi
    rcases hf.direction _ l hjump with ⟨hback, hle, hstop, -⟩ | ⟨hskip, hlt, hnext⟩ | ⟨hnext, -⟩
    · -- the way back is no longer than one jump, and does not lead past the row
      rw [follow_of_not_linked ((hclosed.links_eq_none_iff hwf hback).mpr hstop)] at hl
      have heq := hclosed.offset_eq hback hl
      omega
    · -- only the last jump of the row has no jump after it, and then it leads too far
      have hlast : i + 1 = n := by
        by_contra hne
        obtain ⟨l', hjump', -⟩ := hjumps (i + 1) (by omega)
        exact hnext ⟨l', hjump'⟩
      have hle := position_le_follow (honward.position_lt hclosed) (l := l)
      rw [hclosed.offsetOf?_eq hskip, hclosed.offsetOf?_eq hl, Option.getD_some,
        Option.getD_some] at hle
      omega
    · exact ⟨l, hjump, hnext⟩
  · intro hladder i hi
    obtain ⟨l, hjump, hl⟩ := hladder.1 i hi
    exact ⟨_, jump_mem_holes_threadJumps.mpr ⟨l, hjump, rfl⟩,
      hladder.follow_mem honward hwf hclosed hi hl⟩

/-- What the optimizer makes of emitted code is direct, and it is a fixed point exactly if there was
no ladder with one jump more than there are rounds. -/
private theorem Shaped.exists_optimize (hf : f.Shaped depth) (hclosed : f.Closed) :
    ∃ g, f.optimize 1 = some g ∧ g.Direct ∧
      (g.optimize 1 = some g ↔ ¬∃ k, f.Ladder k (roundLimit + 1)) := by
  have hdirect := (hf.onward hclosed).direct_threadJumps hf.toWellFormed hclosed
  refine ⟨_, optimize_one hdirect, hdirect.iterate roundLimit, ?_⟩
  have hnext : ∀ (g : Fragment) (k : Nat), g.JumpsTo k (k + 1) ↔ g.RunsTo k 1 := by
    intro g k
    simp [RunsTo]
  rw [(hdirect.iterate roundLimit).optimize_eq_self_iff, ← not_exists]
  simp only [hnext]
  rw [hdirect.exists_runsTo_iterate Nat.one_pos, Nat.add_comm]
  simp only [hf.runsTo_threadJumps_iff hclosed (Nat.succ_pos roundLimit)]

end Code.Fragment

namespace Emit

variable {ctx : Context} {s s' : State} {f : Fragment} {b : List Stmt}

private theorem Context.Reachable.closed_block (hs : ctx.Reachable s)
    (h : block ctx b s = .ok f s') :
    f.Closed :=
  (hs.lowers_block h).code.closed

/-- **Optimizing twice.** The code of every block is optimized, and then none of the labels that it
names stands before a jump. Optimizing it once more changes nothing exactly if none of its jumps
leads to the next position, which is so exactly if the code as it was emitted has no ladder with one
jump more than there are rounds. There is no such ladder if conditionals are nested in the first
blocks of each other no deeper than there are rounds. -/
theorem optimize_twice (hs : ctx.Reachable s) (h : block ctx b s = .ok f s') :
    ∃ g, f.optimize 1 = some g ∧
      (∀ l ∈ g.wanted, ∀ o, (l, o) ∈ g.labels → ¬g.JumpAt o) ∧
      (g.optimize 1 = some g ↔ ∀ k, ¬g.JumpsTo k (k + 1)) ∧
      (g.optimize 1 = some g ↔ ¬∃ k, f.Ladder k (roundLimit + 1)) ∧
      (blockThenDepth b ≤ roundLimit → g.optimize 1 = some g) := by
  have hclosed := hs.closed_block h
  have hshaped := shapes_block ctx b h
  obtain ⟨g, hg, hdirect, hiff⟩ := hshaped.exists_optimize hclosed
  refine ⟨g, hg, hdirect.not_jumpAt, hdirect.optimize_eq_self_iff, hiff, fun hdepth => ?_⟩
  refine hiff.mpr ?_
  rintro ⟨k, hladder⟩
  exact Nat.not_succ_le_self _ (Nat.le_trans (hshaped.le_of_ladder hclosed hladder) hdepth)

/-- Conditionals in the first blocks of each other, with nothing else in them. -/
def nestedBranches : Nat → List Stmt
  | 0 => []
  | n + 1 => [.branch ⟨.var "t", .ne, .lit 0⟩ (nestedBranches n) [] 0]

private theorem yields_nestedBranches :
    Yields (fun _ => False) (block pairContext (nestedBranches 32)) pairState fun _ _ => True := by
  decide +kernel

theorem optimize_twice_nestedBranches :
    pairContext.Reachable pairState ∧ blockThenDepth (nestedBranches 32) ≤ roundLimit ∧
      ∃ f s' g, block pairContext (nestedBranches 32) pairState = .ok f s' ∧
        f.optimize 1 = some g ∧ g.optimize 1 = some g := by
  have hdepth : blockThenDepth (nestedBranches 32) ≤ roundLimit := by decide +kernel
  obtain ⟨f, s', hblock, -⟩ := yields_nestedBranches.exists_ok
  obtain ⟨g, hg, -, -, -, htwice⟩ := optimize_twice reachable_pairState hblock
  exact ⟨reachable_pairState, hdepth, f, s', g, hblock, hg, htwice hdepth⟩

/-- One conditional more makes a ladder that is too long. -/
private theorem yields_ladder :
    Yields (fun _ => False) (block pairContext (nestedBranches 33)) pairState fun f _ =>
      f.Ladder 33 33 := by
  decide +kernel

theorem optimize_stops_early :
    ∃ f s' g, pairContext.Reachable pairState ∧
      block pairContext (nestedBranches 33) pairState = .ok f s' ∧ f.optimize 1 = some g ∧
      g.optimize 1 ≠ some g ∧ ∃ k, g.JumpsTo k (k + 1) := by
  have hs := reachable_pairState
  obtain ⟨f, s', hblock, hladder⟩ := yields_ladder.exists_ok
  obtain ⟨g, hg, hdirect, hiff⟩ :=
    (shapes_block _ _ hblock).exists_optimize (hs.closed_block hblock)
  have hne : g.optimize 1 ≠ some g := fun heq => hiff.mp heq ⟨33, hladder⟩
  refine ⟨f, s', g, hs, hblock, hg, hne, ?_⟩
  by_contra hnone
  exact hne (hdirect.optimize_eq_self_iff.mpr (not_exists.mp hnone))

end Emit

end Abacus
