import Mathlib.Logic.Relation
import Abacus.Proofs.Dropping

/-!
# Where chains of jumps end

The passes of the optimizer work with tables of a fragment's labels and jumps. In a fragment that is
well formed and closed a label has one definition and an index one hole, so that all of them are in
the tables (`Fragment.Closed.links_eq_some_iff`, `Fragment.Closed.contains_fallthroughs_iff`).

Where the jumps that stand at labels lead forward only (`Fragment.Onward`), no chain of jumps is a
cycle. Threading then makes a fragment direct (`Fragment.Onward.direct_threadJumps`): none of the
labels that it names stands before a jump. A direct fragment has nothing left to thread.
-/

namespace Abacus.Code

open Machine

/-! ### Following links that lead forward -/

section Follow

variable {links : Std.HashMap Label Label} {position : Label → Nat} {l l' : Label}

/-- A label without a link is the end of its chain. -/
theorem follow_of_not_linked (h : links[l]? = none) : follow links l = l := by
  rw [follow, dif_neg]
  rw [Std.HashMap.mem_iff_isSome_getElem?, h]
  exact Bool.false_ne_true

/-- A link is taken once, and then it is gone. -/
private theorem follow_of_link (h : links[l]? = some l') :
    follow links l = follow (links.erase l) l' := by
  obtain ⟨linked, rfl⟩ := Std.HashMap.getElem?_eq_some_iff.mp h
  rw [follow, dif_pos linked]

/-- To take a link away leaves those of later labels. -/
private theorem getElem?_erase_of_lt (hlt : position l < position l') :
    (links.erase l)[l']? = links[l']? := by
  rw [Std.HashMap.getElem?_erase, if_neg]
  intro heq
  rw [eq_of_beq heq] at hlt
  exact Nat.lt_irrefl _ hlt

/-- What is linked without a link is linked with it. -/
private theorem getElem?_of_erase {l₀ : Label} (h : (links.erase l₀)[l]? = some l') :
    links[l]? = some l' := by
  rw [Std.HashMap.getElem?_erase] at h
  split at h
  · exact absurd h (by simp)
  · exact h

/-- Chains lead forward. -/
theorem position_le_follow (hforward : ∀ l l', links[l]? = some l' → position l < position l') :
    position l ≤ position (follow links l) :=
  Fragment.follow_induction
    (fun l₁ l₂ hlink hle => Nat.le_trans hle (Nat.le_of_lt (hforward l₁ l₂ hlink))) (Nat.le_refl _)

/-- Links at earlier positions do not matter. -/
private theorem follow_congr (hforward : ∀ l l', links[l]? = some l' → position l < position l') :
    ∀ {links' : Std.HashMap Label Label},
      (∀ x, position l ≤ position x → links'[x]? = links[x]?) →
        follow links' l = follow links l := by
  induction links, l using follow.induct with
  | case1 links l linked next ih =>
    intro links' h
    have hnext : links[l]? = some next := Std.HashMap.getElem?_eq_some_getElem linked
    have hlt := hforward l next hnext
    rw [follow_of_link hnext, follow_of_link ((h l (Nat.le_refl _)).trans hnext)]
    refine ih (fun l₁ l₂ hlink => hforward l₁ l₂ (getElem?_of_erase hlink)) fun x hx => ?_
    have hlt' := Nat.lt_of_lt_of_le hlt hx
    rw [getElem?_erase_of_lt hlt', getElem?_erase_of_lt hlt', h x (Nat.le_of_lt hlt')]
  | case2 links l linked =>
    intro links' h
    have hnone : links[l]? = none := Std.HashMap.getElem?_eq_none linked
    rw [follow_of_not_linked hnone, follow_of_not_linked ((h l (Nat.le_refl _)).trans hnone)]

/-- A label and the one it is linked to have the same end. -/
private theorem follow_eq_follow (hforward : ∀ l l', links[l]? = some l' → position l < position l')
    (h : links[l]? = some l') : follow links l = follow links l' := by
  rw [follow_of_link h]
  exact follow_congr hforward fun x hx =>
    getElem?_erase_of_lt (Nat.lt_of_lt_of_le (hforward l l' h) hx)

/-- A chain ends at a label that is not linked any further. -/
theorem getElem?_follow (hforward : ∀ l l', links[l]? = some l' → position l < position l') :
    links[follow links l]? = none := by
  induction links, l using follow.induct with
  | case1 links l linked next ih =>
    have hnext : links[l]? = some next := Std.HashMap.getElem?_eq_some_getElem linked
    have hforward' : ∀ l₁ l₂, (links.erase l)[l₁]? = some l₂ → position l₁ < position l₂ :=
      fun l₁ l₂ hlink => hforward l₁ l₂ (getElem?_of_erase hlink)
    have hlt : position l < position (follow (links.erase l) next) :=
      Nat.lt_of_lt_of_le (hforward l next hnext) (position_le_follow hforward')
    rw [follow_of_link hnext, ← getElem?_erase_of_lt hlt]
    exact ih hforward'
  | case2 links l linked =>
    have hnone : links[l]? = none := Std.HashMap.getElem?_eq_none linked
    rwa [follow_of_not_linked hnone]

end Follow

namespace Fragment

variable {f : Fragment} {k o o' : Nat} {l l' : Label}

/-! ### Jumps and where they lead -/

/-- There is a jump at a position. -/
def JumpAt (f : Fragment) (k : Nat) : Prop := ∃ l, Hole.jump k l ∈ f.holes

/-- The jump at a position leads to another position. -/
def JumpsTo (f : Fragment) (k o : Nat) : Prop := ∃ l, Hole.jump k l ∈ f.holes ∧ (l, o) ∈ f.labels

instance (f : Fragment) (k : Nat) : Decidable (f.JumpAt k) :=
  decidable_of_iff (∃ hole ∈ f.holes, ∃ l ∈ hole.labels, hole = .jump k l)
    ⟨fun ⟨_, hmem, l, _, heq⟩ => ⟨l, heq ▸ hmem⟩,
      fun ⟨l, hmem⟩ => ⟨_, hmem, l, List.mem_singleton.mpr rfl, rfl⟩⟩

instance (f : Fragment) (k o : Nat) : Decidable (f.JumpsTo k o) :=
  decidable_of_iff (∃ x ∈ f.labels, x.2 = o ∧ Hole.jump k x.1 ∈ f.holes)
    ⟨fun ⟨x, hx, heq, hjump⟩ => ⟨x.1, hjump, heq ▸ hx⟩,
      fun ⟨l, hjump, hl⟩ => ⟨(l, o), hl, rfl, hjump⟩⟩

/-- A jump that leads somewhere is a jump. -/
theorem JumpsTo.jumpAt (h : f.JumpsTo k o) : f.JumpAt k := h.imp fun _ => And.left

/-- Jumps stand within the code. -/
theorem WellFormed.lt_of_jumpAt (hf : f.WellFormed) (h : f.JumpAt k) : k < f.size := by
  obtain ⟨l, hjump⟩ := h
  exact hf.index_lt hjump

/-- A label stands at one position. -/
theorem Closed.offset_eq (hf : f.Closed) (h : (l, o) ∈ f.labels) (h' : (l, o') ∈ f.labels) :
    o = o' :=
  Option.some.inj ((hf.offsetOf?_eq h).symm.trans (hf.offsetOf?_eq h'))

/-- A jump names one label. -/
private theorem WellFormed.target_eq (hf : f.WellFormed) (h : Hole.jump k l ∈ f.holes)
    (h' : Hole.jump k l' ∈ f.holes) : l = l' := by
  injection hf.hole_eq h h' rfl

/-- Labels that jumps name stand somewhere. -/
private theorem Closed.exists_offset (hf : f.Closed) (h : Hole.jump k l ∈ f.holes) :
    ∃ o, (l, o) ∈ f.labels := by
  obtain ⟨⟨_, o⟩, hl, rfl⟩ := List.mem_map.mp
    (hf.wanted_defined l (List.mem_flatMap.mpr ⟨_, h, List.mem_singleton.mpr rfl⟩))
  exact ⟨o, hl⟩

/-- A jump leads to one position. -/
theorem JumpsTo.eq (h : f.JumpsTo k o) (h' : f.JumpsTo k o') (hwf : f.WellFormed) (hf : f.Closed) :
    o = o' := by
  obtain ⟨l, hjump, hl⟩ := h
  obtain ⟨l', hjump', hl'⟩ := h'
  obtain rfl := hwf.target_eq hjump hjump'
  exact hf.offset_eq hl hl'

/-! ### The tables of the passes -/

/-- The last position of a label is the only one. -/
private theorem Closed.lastOffset?_eq_some_iff (hf : f.Closed) :
    f.lastOffset? l = some o ↔ (l, o) ∈ f.labels := by
  refine ⟨mem_labels_of_lastOffset?, fun hl => ?_⟩
  rcases hoffset : f.lastOffset? l with _ | o'
  · exact absurd (List.mem_map.mpr ⟨_, hl, rfl⟩) (lastOffset?_eq_none_iff.mp hoffset)
  · rw [hf.offset_eq hl (mem_labels_of_lastOffset? hoffset)]

/-- The last target of a jump is the only one. -/
private theorem WellFormed.lastTarget?_eq_some_iff (hf : f.WellFormed) :
    f.lastTarget? k = some l ↔ Hole.jump k l ∈ f.holes := by
  refine ⟨jump_mem_of_lastTarget?, fun hjump => ?_⟩
  rcases htarget : f.lastTarget? k with _ | l'
  · exact absurd hjump (lastTarget?_eq_none_iff.mp htarget l)
  · rw [hf.target_eq hjump (jump_mem_of_lastTarget? htarget)]

/-- A label is linked to another one if it stands before a jump to it. -/
theorem Closed.links_eq_some_iff (hf : f.Closed) (hwf : f.WellFormed) :
    f.links[l]? = some l' ↔ ∃ o, (l, o) ∈ f.labels ∧ Hole.jump o l' ∈ f.holes := by
  rw [getElem?_links, link?, Option.bind_eq_some_iff]
  simp only [hf.lastOffset?_eq_some_iff, hwf.lastTarget?_eq_some_iff]

/-- A label is not linked if it stands before no jump. -/
theorem Closed.links_eq_none_iff (hf : f.Closed) (hwf : f.WellFormed) (hl : (l, o) ∈ f.labels) :
    f.links[l]? = none ↔ ¬f.JumpAt o := by
  rw [Option.eq_none_iff_forall_ne_some]
  constructor
  · rintro hnone ⟨l', hjump⟩
    exact hnone l' ((hf.links_eq_some_iff hwf).mpr ⟨o, hl, hjump⟩)
  · intro hnone l' hlink
    obtain ⟨o', hl', hjump⟩ := exists_jump_of_links hlink
    exact hnone ⟨l', hf.offset_eq hl' hl ▸ hjump⟩

/-- What is dropped are exactly the jumps to the next position. -/
theorem Closed.contains_fallthroughs_iff (hf : f.Closed) :
    f.fallthroughs.contains k ↔ f.JumpsTo k (k + 1) :=
  Fragment.contains_fallthroughs_iff.trans
    (exists_congr fun _ => and_congr_right fun _ => hf.lastOffset?_eq_some_iff)

/-! ### Direct fragments -/

/-- Jumps that stand at labels lead forward. -/
def Onward (f : Fragment) : Prop := ∀ l o o', (l, o) ∈ f.labels → f.JumpsTo o o' → o < o'

/-- No label that a fragment names stands before a jump. -/
structure Direct (f : Fragment) : Prop extends f.WellFormed, f.Closed where
  not_jumpAt : ∀ l ∈ f.wanted, ∀ o, (l, o) ∈ f.labels → ¬f.JumpAt o

/-- Where jumps at labels lead forward, so do links. -/
theorem Onward.position_lt (h : f.Onward) (hf : f.Closed) (l l' : Label)
    (hlink : f.links[l]? = some l') : (f.offsetOf? l).getD 0 < (f.offsetOf? l').getD 0 := by
  obtain ⟨o, hl, hjump⟩ := exists_jump_of_links hlink
  obtain ⟨o', hl'⟩ := hf.exists_offset hjump
  rw [hf.offsetOf?_eq hl, hf.offsetOf?_eq hl']
  exact h l o o' hl ⟨l', hjump, hl'⟩

/-- A label from which a chain of jumps leads to something else is replaced by one that stands
there. -/
theorem Onward.follow_mem (honward : f.Onward) (hwf : f.WellFormed) (hclosed : f.Closed)
    (hchain : Relation.ReflTransGen f.JumpsTo o o') (hl : (l, o) ∈ f.labels) (hend : ¬f.JumpAt o') :
    (follow f.links l, o') ∈ f.labels := by
  induction hchain using Relation.ReflTransGen.head_induction_on generalizing l with
  | refl => rwa [follow_of_not_linked ((hclosed.links_eq_none_iff hwf hl).mpr hend)]
  | head hjumps _ ih =>
    obtain ⟨l', hjump, hl'⟩ := hjumps
    have hlink := (hclosed.links_eq_some_iff hwf).mpr ⟨_, hl, hjump⟩
    rw [follow_eq_follow (honward.position_lt hclosed) hlink]
    exact ih hl'

/-- Threading sends each jump to the end of the chain from its label. -/
theorem jump_mem_holes_threadJumps :
    Hole.jump k l ∈ f.threadJumps.holes ↔
      ∃ l', Hole.jump k l' ∈ f.holes ∧ follow f.links l' = l := by
  constructor
  · intro hjump
    obtain ⟨hole, hhole, heq⟩ := List.mem_map.mp hjump
    cases hole with
    | jump index target =>
      cases heq
      exact ⟨target, hhole, rfl⟩
    | test => cases heq
  · rintro ⟨l', hjump, rfl⟩
    exact List.mem_map.mpr ⟨_, hjump, rfl⟩

/-- Threading leaves the jumps in their places. -/
theorem jumpAt_threadJumps : f.threadJumps.JumpAt k ↔ f.JumpAt k := by
  simp [JumpAt, jump_mem_holes_threadJumps]

/-- After threading, labels that are named stand before no jumps. -/
theorem Onward.direct_threadJumps (h : f.Onward) (hwf : f.WellFormed) (hf : f.Closed) :
    f.threadJumps.Direct where
  toWellFormed := hwf.threadJumps
  toClosed := ⟨hf.nodup, fun l hl => hf.wanted_defined l (wanted_threadJumps hl)⟩
  not_jumpAt l hl o hlo hjump := by
    obtain ⟨hole, hhole, hl⟩ := List.mem_flatMap.mp hl
    obtain ⟨hole, -, rfl⟩ := List.mem_map.mp hhole
    rw [Hole.labels_retarget] at hl
    obtain ⟨l, -, rfl⟩ := List.mem_map.mp hl
    have hnone := getElem?_follow (h.position_lt hf) (l := l)
    exact (hf.links_eq_none_iff hwf hlo).mp hnone (jumpAt_threadJumps.mp hjump)

/-- Where no label that is named stands before a jump, there is nothing to thread. -/
theorem Direct.threadJumps_eq (hf : f.Direct) : f.threadJumps = f := by
  have hself : ∀ l ∈ f.wanted, follow f.links l = l := by
    intro l hl
    obtain ⟨⟨_, o⟩, hlo, rfl⟩ := List.mem_map.mp (hf.wanted_defined l hl)
    exact follow_of_not_linked
      ((hf.links_eq_none_iff hf.toWellFormed hlo).mpr (hf.not_jumpAt _ hl o hlo))
  refine Fragment.ext rfl ((List.map_congr_left fun hole hhole => ?_).trans (List.map_id _)) rfl
  have hself := fun l hl => hself l (List.mem_flatMap.mpr ⟨hole, hhole, hl⟩)
  cases hole with
  | jump k l => exact congrArg (Hole.jump k) (hself l (List.mem_singleton.mpr rfl))
  | test k l l' =>
    exact congrArg₂ (Hole.test k) (hself l (by simp [Hole.labels]))
      (hself l' (by simp [Hole.labels]))

end Fragment

end Abacus.Code
