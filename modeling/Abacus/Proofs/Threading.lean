import Abacus.Proofs.Correspondence
import Abacus.Proofs.Tables

/-!
# Threading jumps keeps the meaning of a program

A label stands before a jump exactly where the chain of links goes on, so following the chain is
running the program: from the address of a label, jumps alone lead to the address of the label that
takes its place (`Fragment.reaches_follow`). A step of the threaded program is then matched by a
step of the original and the jumps after it.
-/

namespace Abacus.Code

open Machine

namespace Fragment

/-! ### The chain of links -/

/-- A linked label stands before a jump to the label it is linked to. -/
theorem exists_jump_of_links {f : Fragment} {l l' : Label} (h : f.links[l]? = some l') :
    ∃ o, (l, o) ∈ f.labels ∧ Hole.jump o l' ∈ f.holes := by
  rw [getElem?_links] at h
  obtain ⟨o, ho, hjump⟩ := exists_jump_of_link? h
  exact ⟨o, mem_labels_of_lastOffset? ho, hjump⟩

/-- What holds of a label and goes along the links holds at the end of its chain. -/
theorem follow_induction {P : Label → Prop} {links : Std.HashMap Label Label} {l : Label}
    (hstep : ∀ l l', links[l]? = some l' → P l → P l') (hl : P l) : P (follow links l) := by
  induction links, l using follow.induct with
  | case1 links l linked next ih =>
    rw [follow, dif_pos linked]
    refine ih (fun l l' hlink => hstep l l' ?_) (hstep l next ?_ hl)
    · rw [Std.HashMap.getElem?_erase] at hlink
      split at hlink
      · exact absurd hlink (by simp)
      · exact hlink
    · exact Std.HashMap.getElem?_eq_some_getElem linked
  | case2 links l linked =>
    rw [follow, dif_neg linked]
    exact hl

/-! ### Threaded fragments -/

theorem WellFormed.threadJumps {f : Fragment} (hf : f.WellFormed) : f.threadJumps.WellFormed where
  label_le := hf.label_le
  hole_fits := by
    intro h hh
    obtain ⟨h', hh', rfl⟩ := List.mem_map.mp hh
    simpa [Fragment.threadJumps] using hf.hole_fits h' hh'
  hole_exists := by
    intro k i hi htargets
    obtain ⟨h, hh, hindex⟩ := hf.hole_exists k i hi htargets
    exact ⟨_, List.mem_map_of_mem hh, by rw [Hole.index_retarget, hindex]⟩
  hole_unique := by
    have hcomp : Hole.index ∘ Hole.retarget (follow f.links) = Hole.index := by
      funext h
      simp
    rw [Fragment.threadJumps, List.map_map, hcomp]
    exact hf.hole_unique

@[simp]
theorem defined_threadJumps (f : Fragment) : f.threadJumps.defined = f.defined := rfl

/-- Threading names no labels that were not named before. -/
theorem wanted_threadJumps {f : Fragment} {l : Label} (hl : l ∈ f.threadJumps.wanted) :
    l ∈ f.wanted := by
  obtain ⟨h, hh, hl⟩ := List.mem_flatMap.mp hl
  obtain ⟨h', hh', rfl⟩ := List.mem_map.mp hh
  rw [Hole.labels_retarget] at hl
  obtain ⟨l', hl', rfl⟩ := List.mem_map.mp hl
  refine follow_induction (P := (· ∈ f.wanted)) (fun _ l₂ hlink _ => ?_) ?_
  · obtain ⟨o, -, hjump⟩ := exists_jump_of_links hlink
    exact List.mem_flatMap.mpr ⟨_, hjump, List.mem_singleton.mpr rfl⟩
  · exact List.mem_flatMap.mpr ⟨h', hh', hl'⟩

/-- Following the chain of links is running the jumps. -/
theorem reaches_follow {f : Fragment} {p : Program} {address : Label → Nat} {a : Nat}
    (hf : f.Placed p address a) (l : Label) (file : File) :
    p.Reaches ⟨address l, file⟩ ⟨address (follow f.links l), file⟩ := by
  refine follow_induction (P := fun l' => p.Reaches ⟨address l, file⟩ ⟨address l', file⟩)
    (fun l₁ l₂ hlink hreach => ?_) (Program.Reaches.refl _)
  obtain ⟨o, hlabel, hjump⟩ := exists_jump_of_links hlink
  refine hreach.trans (Program.Reaches.single (Program.step_jmp ?_))
  rw [hf.label l₁ o hlabel]
  exact hf.jump o l₂ hjump

/-! ### Threading within a program -/

/-- Every hole of a program is there in the threaded one, with labels that its own lead to. -/
private theorem exists_retarget_mem {before f after : Fragment} {p : Program}
    (hp : Linked p (before ++ f ++ after)) {h : Hole} (hh : h ∈ (before ++ f ++ after).holes) :
    ∃ ρ : Label → Label, h.retarget ρ ∈ (before ++ f.threadJumps ++ after).holes ∧
      ∀ l file, p.Reaches ⟨(before ++ f ++ after).address p.base.first l, file⟩
        ⟨(before ++ f ++ after).address p.base.first (ρ l), file⟩ := by
  simp only [holes_append, List.mem_append, List.mem_map] at hh ⊢
  rcases hh with (hh | ⟨h, hh, rfl⟩) | ⟨h, hh, rfl⟩
  · exact ⟨id, .inl (.inl (by cases h <;> exact hh)), fun _ _ => .refl _⟩
  · exact ⟨follow f.links, .inl (.inr ⟨_, List.mem_map_of_mem hh, by cases h <;> rfl⟩),
      reaches_follow hp.placed.left.right⟩
  · exact ⟨id, .inr ⟨h, hh, by cases h <;> rfl⟩, fun _ _ => .refl _⟩

/-- Wherever a fragment stands in a program, threading its jumps makes a tighter program. -/
theorem tightens_threadJumps {before f after : Fragment} {p q : Program}
    (hwf : (before ++ f ++ after).WellFormed) (hp : Linked p (before ++ f ++ after))
    (hq : Linked q (before ++ f.threadJumps ++ after)) (hbase : q.base = p.base) :
    q.Tightens p := by
  have hsize : (before ++ f.threadJumps ++ after).size = (before ++ f ++ after).size := by
    simp only [size_append]
    rfl
  have haddress : (before ++ f.threadJumps ++ after).address = (before ++ f ++ after).address := rfl
  have hleads : ∀ l l', (∀ file, p.Reaches ⟨(before ++ f ++ after).address p.base.first l, file⟩
        ⟨(before ++ f ++ after).address p.base.first l', file⟩) →
      Leads p q (before ++ f ++ after) (before ++ f.threadJumps ++ after) (· = ·) l l' := by
    intro l l' hreach file
    refine ⟨_, _, hreach file, ?_, rfl⟩
    rw [haddress, hbase, address]
  suffices hcorr : Correspondence p q (before ++ f ++ after) (before ++ f.threadJumps ++ after)
    (· = ·) from hcorr.tightens
  refine ⟨hp, hq, rfl, ?_⟩
  rintro i _ rfl file
  refine ⟨i, .refl _, ?_⟩
  rcases Nat.lt_trichotomy i (before ++ f ++ after).size with hlt | heq | hgt
  · have hi := List.getElem?_eq_getElem hlt
    rcases hwf.toHoled.cases hi with htargets | ⟨h, hh, rfl, hfit⟩
    · exact .straight hi hi htargets rfl
    · obtain ⟨ρ, hh', hreach⟩ := exists_retarget_mem hp hh
      cases h with
      | jump k l => exact .jump hh hh' (hleads l _ (hreach l))
      | test k l m =>
        obtain ⟨r, t, t', htest⟩ := hfit.exists_eq_tst
        rw [htest] at hi
        exact .test hh hi hh' hi (hleads l _ (hreach l)) (hleads m _ (hreach m))
  · exact .finish heq (heq.trans hsize.symm)
  · exact .beyond hgt (by rwa [hsize])

end Fragment

end Abacus.Code
