import Mathlib.Data.List.Induction
import Abacus.Code.Thread
import Abacus.Code.Fallthrough
import Abacus.Proofs.Placement

/-!
# The tables of the optimizer

The passes of the optimizer look labels and jumps up in tables that are made of a fragment's lists.
Here the same look-ups are made in the lists themselves, and the two agree for every fragment
(`Fragment.getElem?_offsets`, `Fragment.getElem?_links`, `Fragment.contains_fallthroughs_iff`). In
an arbitrary fragment a label may be defined twice and an index may have several jumps; it is always
the last one that counts.
-/

namespace Abacus.Code

/-- The target of a hole that is a jump at an index. -/
def Hole.targetAt? (k : Nat) : Hole → Option Label
  | .jump index target => if index = k then some target else none
  | .test _ _ _ => none

/-- Only a jump hole has a target at its index. -/
private theorem Hole.targetAt?_eq_some_iff {k : Nat} {l : Label} {h : Hole} :
    h.targetAt? k = some l ↔ h = .jump k l := by
  cases h <;> simp [targetAt?]

namespace Fragment

variable {f : Fragment} {k o : Nat} {l l' : Label}

/-- Where a label is defined; the last definition counts. -/
def lastOffset? (f : Fragment) (l : Label) : Option Nat := f.labels.reverse.lookup l

/-- Where the jump at an index leads; the last hole counts. -/
def lastTarget? (f : Fragment) (k : Nat) : Option Label :=
  f.holes.reverse.findSome? (Hole.targetAt? k)

/-- The target of the jump that a label stands before. -/
def link? (f : Fragment) (l : Label) : Option Label := (f.lastOffset? l).bind f.lastTarget?

/-- There is a jump at an index to a label that is defined right after it. -/
def JumpsNext (f : Fragment) (k : Nat) : Prop :=
  ∃ l, Hole.jump k l ∈ f.holes ∧ f.lastOffset? l = some (k + 1)

instance (f : Fragment) : DecidablePred f.JumpsNext := fun k =>
  decidable_of_iff (∃ h ∈ f.holes, ∃ l ∈ h.targetAt? k, f.lastOffset? l = some (k + 1))
    ⟨fun ⟨_, hh, l, hl, hoffset⟩ => ⟨l, Hole.targetAt?_eq_some_iff.mp hl ▸ hh, hoffset⟩,
      fun ⟨l, hjump, hoffset⟩ => ⟨_, hjump, l, Hole.targetAt?_eq_some_iff.mpr rfl, hoffset⟩⟩

/-! ### Look-ups in the lists -/

/-- The last offset of a label is one of its offsets. -/
theorem mem_labels_of_lastOffset? (h : f.lastOffset? l = some o) : (l, o) ∈ f.labels := by
  obtain ⟨after, before, heq, -⟩ := List.lookup_eq_some_iff.mp h
  rw [← List.mem_reverse, heq]
  simp

/-- A label without an offset is not defined. -/
theorem lastOffset?_eq_none_iff : f.lastOffset? l = none ↔ l ∉ f.defined := by
  rw [lastOffset?, List.lookup_eq_none_iff, defined, List.mem_map]
  simp only [List.mem_reverse, bne_iff_ne, ne_comm, not_exists, not_and]

/-- The last target of a jump is one of its targets. -/
theorem jump_mem_of_lastTarget? (h : f.lastTarget? k = some l) : Hole.jump k l ∈ f.holes := by
  obtain ⟨hole, hmem, htarget⟩ := List.exists_of_findSome?_eq_some h
  rw [← Hole.targetAt?_eq_some_iff.mp htarget]
  exact List.mem_reverse.mp hmem

/-- An index without a target has no jump hole. -/
theorem lastTarget?_eq_none_iff : f.lastTarget? k = none ↔ ∀ l, Hole.jump k l ∉ f.holes := by
  rw [lastTarget?, List.findSome?_eq_none_iff]
  constructor
  · intro hnone l hjump
    have htarget := hnone _ (List.mem_reverse.mpr hjump)
    rw [Hole.targetAt?_eq_some_iff.mpr rfl] at htarget
    cases htarget
  · intro hnone hole hmem
    rw [Option.eq_none_iff_forall_ne_some]
    intro l htarget
    exact hnone l (Hole.targetAt?_eq_some_iff.mp htarget ▸ List.mem_reverse.mp hmem)

/-- A label that leads to another one stands before a jump to it. -/
theorem exists_jump_of_link? (h : f.link? l = some l') :
    ∃ o, f.lastOffset? l = some o ∧ Hole.jump o l' ∈ f.holes := by
  obtain ⟨o, ho, htarget⟩ := Option.bind_eq_some_iff.mp h
  exact ⟨o, ho, jump_mem_of_lastTarget? htarget⟩

/-! ### Look-ups in the tables -/

/-- The table of offsets has the last one of each label. -/
theorem getElem?_offsets (f : Fragment) (l : Label) : f.offsets[l]? = f.lastOffset? l := by
  rw [offsets, Std.HashMap.ofList_equiv_foldl.getElem?_eq, lastOffset?]
  -- the last definition is the one that was inserted last
  induction f.labels using List.reverseRecOn with
  | nil => simp
  | append_singleton labels x ih =>
    rw [List.foldl_append, List.foldl_cons, List.foldl_nil, Std.HashMap.getElem?_insert, ih,
      List.reverse_append, List.reverse_singleton, List.singleton_append, List.lookup_cons]
    by_cases heq : x.1 = l
    · simp [heq]
    · rw [beq_false_of_ne heq, beq_false_of_ne (Ne.symm heq)]
      rfl

/-- The table of jump targets has the last one at each index. -/
private theorem getElem?_jumpTargets (f : Fragment) (k : Nat) :
    f.jumpTargets[k]? = f.lastTarget? k := by
  rw [jumpTargets, lastTarget?]
  induction f.holes using List.reverseRecOn with
  | nil => simp
  | append_singleton holes h ih =>
    rw [List.foldl_append, List.foldl_cons, List.foldl_nil, List.reverse_append,
      List.reverse_singleton, List.singleton_append, List.findSome?_cons, ← ih]
    cases h with
    | jump index target =>
      rw [Hole.targetAt?, Std.HashMap.getElem?_insert]
      by_cases heq : index = k <;> simp [heq]
    | test => rfl

/-- The table of links has the label that each label leads to. -/
theorem getElem?_links (f : Fragment) (l : Label) : f.links[l]? = f.link? l := by
  rw [links, Std.HashMap.getElem?_filterMap', getElem?_offsets, link?]
  exact congrArg _ (funext f.getElem?_jumpTargets)

/-- The jumps to the next instruction are found. -/
theorem contains_fallthroughs_iff : f.fallthroughs.contains k ↔ f.JumpsNext k := by
  unfold fallthroughs JumpsNext
  simp only [← getElem?_offsets]
  induction f.holes using List.reverseRecOn with
  | nil => simp
  | append_singleton holes h ih =>
    have hsplit : (∃ l, Hole.jump k l ∈ holes ++ [h] ∧ f.offsets[l]? = some (k + 1)) ↔
        (∃ l, h = Hole.jump k l ∧ f.offsets[l]? = some (k + 1)) ∨
          ∃ l, Hole.jump k l ∈ holes ∧ f.offsets[l]? = some (k + 1) := by
      simp [or_and_right, exists_or, or_comm, eq_comm]
    rw [List.foldl_append, List.foldl_cons, List.foldl_nil, hsplit, ← ih]
    cases h with
    | jump index target =>
      dsimp only
      split
      next hnext =>
        rw [Std.HashSet.contains_insert, Bool.or_eq_true, beq_iff_eq]
        refine or_congr_left ⟨?_, ?_⟩
        · rintro rfl
          exact ⟨target, rfl, hnext⟩
        · rintro ⟨l, ⟨⟩, -⟩
          rfl
      next hnext =>
        refine (or_iff_right ?_).symm
        rintro ⟨l, ⟨⟩, hl⟩
        exact hnext hl
    | test => simp

end Fragment

end Abacus.Code
