import Abacus.Proofs.Linking

/-!
# What linking goes through

Linking succeeds only where no label is defined twice, every hole fits the instruction it stands on
and every label that is named is defined (`resolved_of_link`). This is said of any fragments at all,
well formed or not. On success each instruction is filled by its holes in turn.

So a fragment with a hole for each of its jumps and tests keeps its meaning wherever it stands in
the linked code (`Resolved.placed_of_holed`): holes of the code around it can at most fill its
instructions first, and its own holes fill them again.
-/

namespace Abacus.Code

open Machine

variable {table table' : Std.HashMap Label Nat} {address : Label → Nat} {p : Program}
  {base : AddressBase} {registers : Array Nat} {symbols : List (String × Register)}
  {fragments : List Fragment} {before f after : Fragment}

/-! ### Labels -/

/-- Labels that get their addresses are different ones, and new to the table. -/
private theorem nodup_of_foldlM_labelAddresses {first : Nat} {labels : List (Label × Nat)}
    (h : labels.foldlM
        (fun (addresses : Std.HashMap Label Nat) (x : Label × Nat) =>
          if addresses.contains x.1 then Except.error (LinkProblem.duplicate x.1)
          else Except.ok (addresses.insert x.1 (first + x.2))) table = .ok table') :
    (labels.map Prod.fst).Nodup ∧ (∀ l ∈ labels.map Prod.fst, l ∉ table) ∧
      ∀ l, l ∈ table' ↔ l ∈ table ∨ l ∈ labels.map Prod.fst := by
  induction labels generalizing table with
  | nil =>
    cases h
    simp
  | cons head rest ih =>
    rw [List.foldlM_cons] at h
    by_cases hknown : table.contains head.1 = true
    · rw [if_pos hknown] at h
      cases h
    · rw [if_neg hknown] at h
      obtain ⟨hnodup, hnew, hmem⟩ := ih h
      rw [Std.HashMap.contains_iff_mem] at hknown
      simp only [Std.HashMap.mem_insert, beq_iff_eq, not_or] at hnew hmem
      refine ⟨?_, ?_, fun l => ?_⟩
      · rw [List.map_cons, List.nodup_cons]
        exact ⟨fun hl => (hnew _ hl).1 rfl, hnodup⟩
      · intro l hl
        rw [List.map_cons, List.mem_cons] at hl
        rcases hl with rfl | hl
        · exact hknown
        · exact (hnew l hl).2
      · rw [hmem, List.map_cons, List.mem_cons, eq_comm]
        tauto

private theorem nodup_of_labelAddresses {first : Nat}
    (h : labelAddresses first f.labels = .ok table) :
    f.defined.Nodup ∧ ∀ l, l ∈ table ↔ l ∈ f.defined := by
  obtain ⟨hnodup, -, hmem⟩ := nodup_of_foldlM_labelAddresses h
  refine ⟨hnodup, fun l => (hmem l).trans ?_⟩
  simp [Fragment.defined]

/-! ### Holes -/

private theorem mem_of_resolveLabel {l : Label} {n : Nat} (h : resolveLabel table l = .ok n) :
    l ∈ table := by
  unfold resolveLabel at h
  split at h
  next a ha =>
    by_contra hl
    rw [Std.HashMap.getElem?_eq_none hl] at ha
    cases ha
  next => cases h

/-- A hole is filled only if it fits, and if all its labels have addresses. -/
private theorem Hole.of_fill {h : Hole} {found : Option Instr} {i : Instr}
    (hfill : h.fill table found = .ok i) :
    (∃ j, found = some j ∧ h.Fits j) ∧ ∀ l ∈ h.labels, l ∈ table := by
  unfold Hole.fill at hfill
  split at hfill
  next k l t =>
    cases hl : resolveLabel table l with
    | error e =>
      rw [hl] at hfill
      cases hfill
    | ok n =>
      refine ⟨⟨_, rfl, trivial⟩, ?_⟩
      simpa [labels] using mem_of_resolveLabel hl
  next k l l' r t t' =>
    cases hl : resolveLabel table l with
    | error e =>
      rw [hl] at hfill
      cases hfill
    | ok n =>
      cases hl' : resolveLabel table l' with
      | error e =>
        rw [hl, hl'] at hfill
        cases hfill
      | ok n' =>
        refine ⟨⟨_, rfl, trivial⟩, ?_⟩
        simpa [labels] using ⟨mem_of_resolveLabel hl, mem_of_resolveLabel hl'⟩
  next => cases hfill

/-- Holes are filled only if each of them fits and all labels have addresses. -/
private theorem of_fillHoles {holes : List Hole} {code code' : Array Instr}
    (h : fillHoles table holes code = .ok code') :
    ∀ hole ∈ holes, (∃ i ∈ code[hole.index]?, hole.Fits i) ∧ ∀ l ∈ hole.labels, l ∈ table := by
  induction holes generalizing code with
  | nil => simp
  | cons first rest ih =>
    unfold fillHoles at h
    rw [List.foldlM_cons] at h
    rcases hfill : first.fill table code[first.index]? with e | i
    · rw [hfill] at h
      cases h
    rw [hfill] at h
    obtain ⟨⟨j, hj, hfits⟩, hlabels⟩ := Hole.of_fill hfill
    -- what was filled in is of the kind of what stood there
    have hi : i = first.patch (fun l => table[l]?.getD 0) j := by
      have htable : ∀ l ∈ first.labels, table[l]? = some (table[l]?.getD 0) := by
        intro l hl
        simp [Std.HashMap.getElem?_eq_some_getElem (hlabels l hl)]
      have hok := hj ▸ Hole.fill_eq_ok hfits htable
      exact Except.ok.inj (hfill.symm.trans hok)
    intro hole hhole
    rcases List.mem_cons.mp hhole with rfl | hhole
    · exact ⟨⟨j, hj, hfits⟩, hlabels⟩
    · obtain ⟨⟨i', hi', hfits'⟩, hlabels'⟩ := ih h hole hhole
      refine ⟨?_, hlabels'⟩
      have hi' : (code.setIfInBounds first.index i)[hole.index]? = some i' := hi'
      rw [Array.getElem?_setIfInBounds] at hi'
      by_cases heq : first.index = hole.index
      · rw [if_pos heq, if_pos (heq ▸ (Array.getElem?_eq_some_iff.mp hj).1)] at hi'
        obtain rfl := Option.some.inj hi'
        exact ⟨j, heq ▸ hj, Hole.fits_patch.mp (hi ▸ hfits')⟩
      · rw [if_neg heq] at hi'
        exact ⟨i', hi', hfits'⟩

/-! ### Linked programs -/

/-- A program that is a fragment and a halt, each instruction filled by its holes in turn. -/
structure Resolved (p : Program) (whole : Fragment) : Prop where
  closed : whole.Closed
  getElem? : ∀ k, p.code[k]? =
    (whole.code ++ [.hlt])[k]?.map (patchAt (whole.address p.base.first) whole.holes k)

/-- Linking succeeds only on code that is closed and whose holes fit. -/
theorem closed_of_link (h : link base registers symbols fragments = .ok p) :
    (Fragment.join fragments).Closed ∧ ∀ hole ∈ (Fragment.join fragments).holes,
      ∃ i ∈ (Fragment.join fragments).code[hole.index]?, hole.Fits i := by
  unfold link at h
  extract_lets whole at h
  rcases htable : labelAddresses base.first whole.labels with e | table
  · rw [htable] at h
    cases h
  rw [htable] at h
  rcases hcode : fillHoles table whole.holes (whole.code.toArray.push .hlt) with e | code
  · simp only [hcode, bind, Except.bind] at h
    cases h
  obtain ⟨hnodup, hmem⟩ := nodup_of_labelAddresses htable
  have hholes := of_fillHoles hcode
  refine ⟨⟨hnodup, fun l hl => ?_⟩, fun hole hhole => ?_⟩
  · obtain ⟨hole, hhole, hl⟩ := List.mem_flatMap.mp hl
    exact (hmem l).mp ((hholes hole hhole).2 l hl)
  · obtain ⟨i, hi, hfits⟩ := (hholes hole hhole).1
    have hi : (whole.code ++ [.hlt])[hole.index]? = some i := by simpa using hi
    refine ⟨i, ?_, hfits⟩
    rcases Nat.lt_or_ge hole.index whole.code.length with hlt | hge
    · rwa [List.getElem?_append_left hlt] at hi
    · -- no hole fits the halt
      rw [List.getElem?_append_right hge] at hi
      obtain rfl : i = .hlt := List.mem_singleton.mp (List.mem_of_getElem? hi)
      cases hole <;> exact hfits.elim

theorem resolved_of_link (h : link base registers symbols fragments = .ok p) :
    Resolved p (Fragment.join fragments) ∧
      p.base = base ∧ p.registers = registers ∧ p.symbols = symbols := by
  obtain ⟨hclosed, hfits⟩ := closed_of_link h
  obtain ⟨p', hlink, hget, hregisters, hsymbols, hbase⟩ :=
    exists_link_eq hclosed hfits base registers symbols
  obtain rfl : p' = p := Except.ok.inj (hlink.symm.trans h)
  exact ⟨⟨hclosed, hbase ▸ hget⟩, hbase, hregisters, hsymbols⟩

/-! ### Parts of linked programs -/

private theorem Hole.patch_patch {h h' : Hole} {i : Instr} (hfits : h.Fits i) :
    h.patch address (h'.patch address i) = h.patch address i := by
  rcases h with ⟨k, l⟩ | ⟨k, l, l'⟩
  · obtain ⟨t, rfl⟩ := hfits.exists_eq_jmp
    rcases h' with _ | _ <;> rfl
  · obtain ⟨r, t, t', rfl⟩ := hfits.exists_eq_tst
    rcases h' with _ | _ <;> rfl

/-- A hole that fits fills an instruction in the same way after others did. -/
theorem Hole.patch_patchAt {h : Hole} {i : Instr} (hfits : h.Fits i) (holes : List Hole) (k : Nat) :
    h.patch address (patchAt address holes k i) = h.patch address i := by
  induction holes generalizing i with
  | nil => rfl
  | cons first rest ih =>
    rw [patchAt, List.foldl_cons]
    split
    · exact (ih (Hole.fits_patch.mpr hfits)).trans (Hole.patch_patch hfits)
    · exact ih hfits

theorem patchAt_append (holes holes' : List Hole) (k : Nat) (i : Instr) :
    patchAt address (holes ++ holes') k i =
      patchAt address holes' k (patchAt address holes k i) :=
  List.foldl_append ..

private theorem patchAt_move (n : Nat) (holes : List Hole) (k : Nat) (i : Instr) :
    patchAt address (holes.map (Hole.move (n + ·))) (n + k) i = patchAt address holes k i := by
  have hpatch : ∀ (h : Hole) (i : Instr), (h.move (n + ·)).patch address i = h.patch address i := by
    intro h i
    rcases h with _ | _ <;> rcases i with _ | _ | _ | _ | _ <;> rfl
  induction holes generalizing i with
  | nil => rfl
  | cons h rest ih =>
    simp only [patchAt, List.map_cons, List.foldl_cons, Hole.index_move, hpatch,
      Nat.add_left_cancel_iff] at ih ⊢
    exact ih _

/-- An instruction of a part is filled by the holes before the part, and then by the part's own. -/
theorem Resolved.fetch? (h : Resolved p (before ++ f ++ after)) {k : Nat} {i : Instr}
    (hi : f.code[k]? = some i) :
    p.fetch? (p.base.first + before.size + k) =
      some (patchAt ((before ++ f ++ after).address p.base.first) f.holes k
        (patchAt ((before ++ f ++ after).address p.base.first) before.holes (before.size + k)
          i)) := by
  have hk : k < f.size := (List.getElem?_eq_some_iff.mp hi).1
  have hcode : ((before ++ f ++ after).code ++ [.hlt])[before.size + k]? = some i := by
    rw [Fragment.code_append, Fragment.code_append, List.append_assoc, List.append_assoc,
      List.getElem?_append_right (Nat.le_add_right before.size k), Fragment.size,
      Nat.add_sub_cancel_left, List.getElem?_append_left hk, hi]
  have hafter : ∀ hole ∈ after.holes.map (Hole.move ((before ++ f).size + ·)),
      hole.index ≠ before.size + k := by
    intro hole hhole
    obtain ⟨hole, -, rfl⟩ := List.mem_map.mp hhole
    rw [Hole.index_move, Fragment.size_append]
    omega
  rw [Nat.add_assoc, fetch?_first_add, h.getElem?, hcode, Option.map_some, Fragment.holes_append,
    Fragment.holes_append, patchAt_append, patchAt_append, patchAt_of_forall_ne hafter,
    patchAt_move]

/-- **A part of linked code.** A fragment is placed where it stands in the code, whatever the
fragments around it are. -/
theorem Resolved.placed_of_holed (h : Resolved p (before ++ f ++ after)) (hf : f.Holed) :
    f.Placed p ((before ++ f ++ after).address p.base.first) (p.base.first + before.size) where
  straight k i hi htargets := by
    rw [h.fetch? hi, patchAt_of_targets_eq_nil htargets, patchAt_of_targets_eq_nil htargets]
  jump k l hhole := by
    obtain ⟨i, hi, hfits⟩ := hf.hole_fits _ hhole
    have hfill := patchAt_of_mem ((before ++ f ++ after).address p.base.first) hf.hole_unique hhole
    obtain ⟨t, rfl⟩ := hfits.exists_eq_jmp
    exact (h.fetch? hi).trans (congrArg some ((hfill _).trans (Hole.patch_patchAt hfits _ _)))
  test k l l' hhole r t t' hi := by
    have hfill := patchAt_of_mem ((before ++ f ++ after).address p.base.first) hf.hole_unique hhole
    have hfits : (Hole.test k l l').Fits (.tst r t t') := trivial
    exact (h.fetch? hi).trans (congrArg some ((hfill _).trans (Hole.patch_patchAt hfits _ _)))
  label l o hl := by
    rw [Nat.add_assoc]
    refine h.closed.address_eq ?_ p.base.first
    simp only [Fragment.labels_append, List.mem_append, List.mem_map]
    exact .inl (.inr ⟨(l, o), hl, rfl⟩)

theorem Resolved.placed (h : Resolved p (before ++ f ++ after)) (hf : f.WellFormed) :
    f.Placed p ((before ++ f ++ after).address p.base.first) (p.base.first + before.size) :=
  h.placed_of_holed hf.toHoled

end Abacus.Code
