import Abacus.Proofs.Emission
import Abacus.Proofs.Linking
import Abacus.Proofs.Soundness

/-!
# Linked programs are sound

A program linked from a closed fragment jumps to labels of the fragment only, and its only halt is
the one at the end. So where its registers are in the register file it is sound
(`Code.Linked.sound`), and where its size is within the limit too, the check accepts it
(`Code.Linked.check_eq`).
-/

namespace Abacus.Code

open Machine Fragment

namespace Linked

variable {p : Program} {f : Fragment} {k : Nat} {i : Instr}

/-- What linking makes of an instruction: it keeps its kind and register, and its targets are
addresses of labels that the fragment names. -/
structure Links (f : Fragment) (first : Nat) (j i : Instr) : Prop where
  register?_eq : i.register? = j.register?
  hlt_iff : i = .hlt ↔ j = .hlt
  targets : ∀ a ∈ i.targets, ∃ l ∈ f.wanted, a = f.address first l

theorem exists_links (h : Linked p f) (hf : f.Holed) (hk : p.code[k]? = some i)
    (hlt : k < f.size) : ∃ j ∈ f.code, Links f p.base.first j i := by
  have hj : f.code[k]? = some (f.code.get ⟨k, hlt⟩) := List.getElem?_eq_getElem hlt
  refine ⟨_, List.mem_of_getElem? hj, ?_⟩
  generalize f.code.get ⟨k, hlt⟩ = j at hj
  rw [← fetch?_first_add] at hk
  rcases hf.cases hj with htargets | ⟨hole, hhole, rfl, hfit⟩
  · rw [h.placed.straight k j hj htargets] at hk
    cases hk
    exact ⟨rfl, .rfl, by simp [htargets]⟩
  · rw [h.placed.fetch?_hole hhole hj hfit] at hk
    cases hk
    refine ⟨Hole.register?_patch .., Hole.patch_eq_hlt_iff, fun a ha => ?_⟩
    rw [Hole.targets_patch hfit] at ha
    obtain ⟨l, hl, rfl⟩ := List.mem_map.mp ha
    exact ⟨l, List.mem_flatMap.mpr ⟨hole, hhole, hl⟩, rfl⟩

/-- An instruction of a linked program comes from the fragment, or is the halt after it. -/
theorem links_or_halt (h : Linked p f) (hf : f.Holed) (hk : p.code[k]? = some i) :
    (∃ j ∈ f.code, Links f p.base.first j i) ∨ k + 1 = p.code.size ∧ i = .hlt := by
  have hlt : k < f.size + 1 := h.size ▸ (Array.getElem?_eq_some_iff.mp hk).1
  rcases Nat.lt_succ_iff_lt_or_eq.mp hlt with hlt | rfl
  · exact .inl (h.exists_links hf hk hlt)
  · rw [← fetch?_first_add, h.halt] at hk
    exact .inr ⟨h.size.symm, (Option.some.inj hk).symm⟩

/-- The addresses of labels lie in the program, the one of its last halt included. -/
private theorem hasAddress_address (h : Linked p f) (hf : f.WellFormed) (hclosed : f.Closed)
    {l : Label} (hl : l ∈ f.wanted) : p.HasAddress (f.address p.base.first l) := by
  obtain ⟨⟨l, o⟩, hmem, rfl⟩ := List.mem_map.mp (hclosed.wanted_defined l hl)
  have hle := hf.label_le _ hmem
  rw [hclosed.address_eq hmem, Program.HasAddress, h.size]
  omega

theorem sound (h : Linked p f) (hf : f.WellFormed) (hclosed : f.Closed)
    (hhlt : Instr.hlt ∉ f.code) (hregisters : ∀ r ∈ f.registers, File.Has p.registers r) :
    p.Sound where
  trailing_halt := by
    rw [Array.back?_eq_getElem?, h.size, Nat.add_sub_cancel, ← fetch?_first_add, h.halt]
  halt_last k hk := by
    rcases h.links_or_halt hf.toHoled hk with ⟨j, hj, hlinks⟩ | ⟨hlast, -⟩
    · exact absurd (hlinks.hlt_iff.mp rfl ▸ hj) hhlt
    · exact hlast
  targets i hi a ha := by
    obtain ⟨k, hk⟩ := Array.mem_iff_getElem?.mp hi
    rcases h.links_or_halt hf.toHoled hk with ⟨j, -, hlinks⟩ | ⟨-, rfl⟩
    · obtain ⟨l, hl, rfl⟩ := hlinks.targets a ha
      exact h.hasAddress_address hf hclosed hl
    · cases ha
  registers i hi r hr := by
    obtain ⟨k, hk⟩ := Array.mem_iff_getElem?.mp hi
    rcases h.links_or_halt hf.toHoled hk with ⟨j, hj, hlinks⟩ | ⟨-, rfl⟩
    · rw [hlinks.register?_eq] at hr
      exact hregisters r (List.mem_filterMap.mpr ⟨j, hj, hr⟩)
    · cases hr

theorem check_eq (h : Linked p f) (hf : f.WellFormed) (hclosed : f.Closed)
    (hhlt : Instr.hlt ∉ f.code) (hregisters : ∀ r ∈ f.registers, File.Has p.registers r)
    {limit : Option Nat} (hlimit : ∀ n ∈ limit, f.size < n) :
    p.check limit false = .ok (p.inspect limit) := by
  have hdefects : p.defects limit = [] :=
    Program.defects_eq_nil_iff.mpr ⟨fun n hn => h.size ▸ hlimit n hn,
      h.sound hf hclosed hhlt hregisters⟩
  simp [Program.check, Program.inspect, Report.valid, hdefects]

end Linked

end Abacus.Code
