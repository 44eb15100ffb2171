import Mathlib.Data.Nat.Find
import Mathlib.Data.Set.Card
import Abacus.Proofs.Dropping

/-!
# What dropping jumps does to an arbitrary fragment

The jumps that are dropped are those to a label right after them (`Fragment.JumpsNext`). They may
stand side by side, with labels before each of them, an index may have several holes, and a label
several definitions. All of this goes through one table of new positions, and
`Fragment.dropFallthroughs_exact` says what becomes of it, for every fragment whose labels and holes
are in range: each position gets the number of positions below it that are kept, so that a label
stands before the first kept instruction at or after its old place.
-/

namespace Abacus.Code.Fragment

open Machine

variable {f : Fragment} {k o : Nat}

/-- How many of the indices below a position are not those of jumps to the next one. -/
def newPosition (f : Fragment) (o : Nat) : Nat := (List.range o).countP fun k => ¬f.JumpsNext k

/-- What is left of a fragment without its jumps to the next position. -/
structure LeavesOut (f g : Fragment) : Prop where
  code : g.code = (f.code.zipIdx.filter fun x => ¬f.JumpsNext x.2).map Prod.fst
  holes : g.holes = (f.holes.filter fun h => ¬f.JumpsNext h.index).map (Hole.move f.newPosition)
  labels : g.labels = f.labels.map fun (l, o) => (l, f.newPosition o)
  /-- A hole that is left is at the instruction it was at. -/
  hole_stays : ∀ h ∈ f.holes, ¬f.JumpsNext h.index →
    ∃ i ∈ f.code[h.index]?, g.code[f.newPosition h.index]? = some i
  /-- A label stands before the first kept instruction at or after its place, or at the end. -/
  label_stays : ∀ x ∈ f.labels, ∃ k, x.2 ≤ k ∧ k ≤ f.size ∧ ¬f.JumpsNext k ∧
    (∀ j, x.2 ≤ j → j < k → f.JumpsNext j) ∧ g.code[f.newPosition x.2]? = f.code[k]? ∧
    (k = f.size → f.newPosition x.2 = g.size)

private theorem contains_fallthroughs_eq (f : Fragment) (k : Nat) :
    f.fallthroughs.contains k = decide (f.JumpsNext k) := by
  rw [Bool.eq_iff_iff, contains_fallthroughs_iff, decide_eq_true_iff]

private theorem keptBelow_eq_newPosition (f : Fragment) (o : Nat) :
    keptBelow f.fallthroughs.contains o = f.newPosition o := by
  rw [newPosition]
  induction o with
  | zero => rfl
  | succ o ih =>
    rw [keptBelow, ih, contains_fallthroughs_eq, List.range_succ, List.countP_append,
      List.countP_singleton]
    by_cases ho : f.JumpsNext o <;> simp [ho]

/-- Every jump to the next position is dropped once. -/
private theorem size_fallthroughs (f : Fragment) :
    f.fallthroughs.size = {k | f.JumpsNext k}.ncard := by
  have hnodup : f.fallthroughs.toList.Nodup :=
    Std.HashSet.distinct_toList.imp fun hne heq => by simp [heq] at hne
  have hmem : {k | f.JumpsNext k} = (f.fallthroughs.toList.toFinset : Set Nat) := by
    ext k
    rw [Finset.mem_coe, List.mem_toFinset, Std.HashSet.mem_toList, ← Std.HashSet.contains_iff_mem]
    exact contains_fallthroughs_iff.symm
  rw [hmem, Set.ncard_coe_finset, List.toFinset_card_of_nodup hnodup, Std.HashSet.length_toList]

private theorem JumpsNext.lt_size (h : f.JumpsNext k) (hf : f.InRange) : k < f.size := by
  obtain ⟨l, hjump, -⟩ := h
  exact hf.index_lt _ hjump

/-- From any position on there is a first one that is kept, the end if no other. -/
private theorem exists_first_kept (hf : f.InRange) (ho : o ≤ f.size) :
    ∃ k, o ≤ k ∧ k ≤ f.size ∧ ¬f.JumpsNext k ∧ ∀ j, o ≤ j → j < k → f.JumpsNext j := by
  have hend : o ≤ f.size ∧ ¬f.JumpsNext f.size :=
    ⟨ho, fun h => Nat.lt_irrefl _ (h.lt_size hf)⟩
  have hexists : ∃ k, o ≤ k ∧ ¬f.JumpsNext k := ⟨f.size, hend⟩
  obtain ⟨hle, hkept⟩ := Nat.find_spec hexists
  refine ⟨Nat.find hexists, hle, Nat.find_min' hexists hend, hkept, fun j hj hlt => ?_⟩
  by_contra hnot
  exact Nat.find_min hexists hlt ⟨hj, hnot⟩

/-- Positions with nothing kept in between get the same number. -/
private theorem newPosition_eq (hle : o ≤ k) (h : ∀ j, o ≤ j → j < k → f.JumpsNext j) :
    f.newPosition o = f.newPosition k := by
  induction k, hle using Nat.le_induction with
  | base => rfl
  | succ k hle ih =>
    rw [ih fun j hj hlt => h j hj (Nat.lt_succ_of_lt hlt), newPosition, newPosition,
      List.range_succ, List.countP_append, List.countP_singleton]
    simp [h k hle (Nat.lt_succ_self k)]

/-- A kept instruction is found at its new position. -/
private theorem getElem?_without {i : Instr} (hi : f.code[k]? = some i) (hkept : ¬f.JumpsNext k) :
    (f.without f.fallthroughs.contains).code[f.newPosition k]? = some i := by
  rw [← keptBelow_eq_newPosition]
  exact getElem?_keep hi (by simpa [contains_fallthroughs_eq] using hkept)

private theorem size_without_eq (f : Fragment) :
    (f.without f.fallthroughs.contains).size = f.newPosition f.size := by
  rw [size_without, keptBelow_eq_newPosition]

private theorem leavesOut_without (hf : f.InRange) :
    f.LeavesOut (f.without f.fallthroughs.contains) where
  code := by simp [without, keep_eq_map_filter, contains_fallthroughs_eq]
  holes := by simp [without, contains_fallthroughs_eq, funext f.keptBelow_eq_newPosition]
  labels := by simp [without, keptBelow_eq_newPosition]
  hole_stays h hh hkept := by
    have hi := List.getElem?_eq_getElem (hf.index_lt h hh)
    exact ⟨_, hi, getElem?_without hi hkept⟩
  label_stays x hx := by
    obtain ⟨k, hle, hend, hkept, hdropped⟩ := exists_first_kept hf (hf.label_le x hx)
    refine ⟨k, hle, hend, hkept, hdropped, ?_⟩
    rw [newPosition_eq hle hdropped]
    rcases Nat.lt_or_eq_of_le hend with hlt | rfl
    · have hi := List.getElem?_eq_getElem hlt
      exact ⟨(getElem?_without hi hkept).trans hi.symm, fun heq => absurd heq (Nat.ne_of_lt hlt)⟩
    · have hsize := f.size_without_eq
      refine ⟨?_, fun _ => hsize.symm⟩
      rw [List.getElem?_eq_none (Nat.le_of_eq hsize), List.getElem?_eq_none (Nat.le_refl f.size)]

/-- **Renumbering.** Let the labels of a fragment stand within its code or at its end, and its holes
at its instructions. Dropping then always has a result. The instructions left are those that are no
jumps to the next position, in their order; every other position gets the number of kept ones below
it, so that the holes left are at the instructions they were at and a label stands before the first
kept instruction from its place on. The count reported is that of the jumps dropped. -/
theorem dropFallthroughs_exact (hlabels : ∀ x ∈ f.labels, x.2 ≤ f.size)
    (hholes : ∀ h ∈ f.holes, h.index < f.size) :
    ∃ g, f.dropFallthroughs = some (g, {k | f.JumpsNext k}.ncard) ∧ f.LeavesOut g := by
  have hf : f.InRange := ⟨⟨hlabels⟩, hholes⟩
  refine ⟨_, ?_, leavesOut_without hf⟩
  rw [dropFallthroughs_eq hf, size_fallthroughs]

/-- The first two instructions are jumps to the next position: the last definition of a label counts
for the first of them, and one of two holes does for the second. -/
def crowded : Fragment where
  code := [.jmp 0, .jmp 0, .inc ⟨1⟩, .jmp 0]
  holes := [.jump 0 ⟨.endIf, 0⟩, .jump 1 ⟨.loopExit, 1⟩, .jump 1 ⟨.loopBody, 2⟩,
    .jump 3 ⟨.endIf, 0⟩]
  labels := [(⟨.endIf, 0⟩, 4), (⟨.endIf, 0⟩, 1), (⟨.loopBody, 2⟩, 2), (⟨.loopExit, 1⟩, 4)]

private theorem jumpsNext_crowded_iff (k : Nat) : crowded.JumpsNext k ↔ k = 0 ∨ k = 1 := by
  have hbelow : ∀ k < 4, crowded.JumpsNext k ↔ k = 0 ∨ k = 1 := by decide
  rcases Nat.lt_or_ge k 4 with hlt | hge
  · exact hbelow k hlt
  · have hf : crowded.InRange := ⟨⟨by decide⟩, by decide⟩
    exact iff_of_false (fun h => Nat.not_lt.mpr hge (h.lt_size hf)) (by omega)

theorem dropFallthroughs_crowded :
    ∃ g, crowded.dropFallthroughs = some (g, 2) ∧ crowded.LeavesOut g ∧
      g.code = [.inc ⟨1⟩, .jmp 0] ∧ g.holes = [.jump 1 ⟨.endIf, 0⟩] ∧
      g.labels =
        [(⟨.endIf, 0⟩, 2), (⟨.endIf, 0⟩, 0), (⟨.loopBody, 2⟩, 0), (⟨.loopExit, 1⟩, 2)] := by
  obtain ⟨g, hdrop, hg⟩ := @dropFallthroughs_exact crowded (by decide) (by decide)
  have hset : {k | crowded.JumpsNext k} = {0, 1} := Set.ext jumpsNext_crowded_iff
  rw [hset, Set.ncard_pair (by decide)] at hdrop
  exact ⟨g, hdrop, hg, hg.code.trans (by decide), hg.holes.trans (by decide),
    hg.labels.trans (by decide)⟩

end Abacus.Code.Fragment
