import Abacus.Code.Link
import Abacus.Proofs.Placement

/-!
# Linking succeeds on closed code

Linking gives every label one address and writes it into the holes that name the label, whichever
order the holes come in (`fillHoles_ok`). For a fragment that is well formed and closed nothing can
go wrong (`link_ok`), and the program holds the fragment from its first address on, with a halt
right after it (`Linked`).
-/

namespace Abacus.Code

open Machine

/-! ### Addresses of labels -/

/-- The address of a label in a fragment that starts at `first`. -/
def Fragment.address (f : Fragment) (first : Nat) (l : Label) : Nat :=
  first + (f.offsetOf? l).getD 0

/-- A label has the offset where it stands. -/
theorem Fragment.Closed.offsetOf?_eq {f : Fragment} (hf : f.Closed) {l : Label} {o : Nat}
    (hl : (l, o) ∈ f.labels) : f.offsetOf? l = some o := by
  have hnodup := hf.nodup
  rw [Fragment.defined] at hnodup
  unfold Fragment.offsetOf?
  generalize f.labels = labels at hl hnodup
  induction labels with
  | nil => cases hl
  | cons head rest ih =>
    obtain ⟨l', o'⟩ := head
    rw [List.map_cons, List.nodup_cons] at hnodup
    rcases List.mem_cons.mp hl with heq | hmem
    · obtain ⟨rfl, rfl⟩ := Prod.mk.inj heq
      simp
    · have hne : l ≠ l' := by
        rintro rfl
        exact hnodup.1 (List.mem_map.mpr ⟨_, hmem, rfl⟩)
      rw [List.lookup_cons, beq_false_of_ne hne]
      exact ih hmem hnodup.2

/-- A label has the address where it stands. -/
theorem Fragment.Closed.address_eq {f : Fragment} (hf : f.Closed) {l : Label} {o : Nat}
    (hl : (l, o) ∈ f.labels) (first : Nat) : f.address first l = first + o := by
  rw [Fragment.address, hf.offsetOf?_eq hl, Option.getD_some]

/-- Different labels get their addresses beside those that a table holds already. -/
private theorem foldlM_labelAddresses (first : Nat) {labels : List (Label × Nat)}
    (table : Std.HashMap Label Nat) (hnodup : (labels.map Prod.fst).Nodup)
    (hnew : ∀ l ∈ labels.map Prod.fst, l ∉ table) :
    ∃ table', labels.foldlM
        (fun (addresses : Std.HashMap Label Nat) (x : Label × Nat) =>
          if addresses.contains x.1 then Except.error (LinkProblem.duplicate x.1)
          else Except.ok (addresses.insert x.1 (first + x.2))) table = .ok table' ∧
      ∀ l, table'[l]? = ((labels.lookup l).map (first + ·)).or table[l]? := by
  induction labels generalizing table with
  | nil => exact ⟨table, rfl, by simp⟩
  | cons head rest ih =>
    obtain ⟨l₀, o₀⟩ := head
    rw [List.map_cons, List.nodup_cons] at hnodup
    obtain ⟨table', hok, hget⟩ := ih (table.insert l₀ (first + o₀)) hnodup.2 (by
      intro l hl
      rw [Std.HashMap.mem_insert, beq_iff_eq, not_or]
      exact ⟨fun heq => hnodup.1 (heq ▸ hl), hnew l (List.mem_cons_of_mem _ hl)⟩)
    refine ⟨table', ?_, fun l => ?_⟩
    · have hcontains : table.contains l₀ = false := by
        rw [← Bool.not_eq_true, Std.HashMap.contains_iff_mem]
        exact hnew l₀ List.mem_cons_self
      rw [List.foldlM_cons, hcontains]
      exact hok
    · rw [hget, Std.HashMap.getElem?_insert, List.lookup_cons]
      by_cases heq : l = l₀
      · subst heq
        have hrest : rest.lookup l = none := by
          rw [List.lookup_eq_none_iff]
          intro x hx
          rw [bne_iff_ne]
          rintro rfl
          exact hnodup.1 (List.mem_map.mpr ⟨_, hx, rfl⟩)
        simp [hrest]
      · rw [beq_false_of_ne heq, beq_false_of_ne (Ne.symm heq)]
        rfl

/-- The table of addresses has that of each label. -/
private theorem labelAddresses_ok {f : Fragment} (hf : f.Closed) (first : Nat) :
    ∃ table, labelAddresses first f.labels = .ok table ∧
      ∀ l ∈ f.defined, table[l]? = some (f.address first l) := by
  obtain ⟨table, hok, hget⟩ := foldlM_labelAddresses first ∅ hf.nodup (by simp)
  refine ⟨table, hok, fun l hl => ?_⟩
  obtain ⟨⟨l', o⟩, hx, rfl⟩ := List.mem_map.mp hl
  have hlookup : f.labels.lookup l' = some o := hf.offsetOf?_eq hx
  rw [hget, hf.address_eq hx, hlookup]
  rfl

/-! ### Filling holes -/

namespace Hole

/-- The instruction with a hole's labels for targets. -/
def patch (address : Label → Nat) : Hole → Instr → Instr
  | .jump _ l, .jmp _ => .jmp (address l)
  | .test _ l l', .tst r _ _ => .tst r (address l) (address l')
  | _, i => i

/-- A hole fits an instruction whatever its targets are. -/
theorem fits_patch {address : Label → Nat} {h h' : Hole} {i : Instr} :
    h'.Fits (h.patch address i) ↔ h'.Fits i := by
  cases h <;> cases i <;> cases h' <;> rfl

private theorem patch_of_targets_eq_nil {address : Label → Nat} {h : Hole} {i : Instr}
    (hi : i.targets = []) : h.patch address i = i := by
  cases i with
  | jmp t => cases hi
  | tst r t t' => cases hi
  | _ => cases h <;> rfl

@[simp]
theorem register?_patch (address : Label → Nat) (h : Hole) (i : Instr) :
    (h.patch address i).register? = i.register? := by
  cases h <;> cases i <;> rfl

theorem patch_eq_hlt_iff {address : Label → Nat} {h : Hole} {i : Instr} :
    h.patch address i = .hlt ↔ i = .hlt := by
  cases h <;> cases i <;> simp [patch]

/-- A hole that is filled gives the instruction the addresses of its labels. -/
theorem targets_patch {address : Label → Nat} {h : Hole} {i : Instr} (hfit : h.Fits i) :
    (h.patch address i).targets = h.labels.map address := by
  cases h with
  | jump k l =>
    obtain ⟨t, rfl⟩ := hfit.exists_eq_jmp
    rfl
  | test k l l' =>
    obtain ⟨r, t, t', rfl⟩ := hfit.exists_eq_tst
    rfl

/-- A hole is filled if it fits and its labels have addresses. -/
theorem fill_eq_ok {table : Std.HashMap Label Nat} {address : Label → Nat} {h : Hole} {i : Instr}
    (hfit : h.Fits i) (htable : ∀ l ∈ h.labels, table[l]? = some (address l)) :
    h.fill table (some i) = .ok (h.patch address i) := by
  cases h with
  | jump k l =>
    obtain ⟨t, rfl⟩ := hfit.exists_eq_jmp
    have hl := htable l (List.mem_singleton.mpr rfl)
    simp only [fill, resolveLabel, hl, patch]
    rfl
  | test k l l' =>
    obtain ⟨r, t, t', rfl⟩ := hfit.exists_eq_tst
    have hl := htable l (by simp [labels])
    have hl' := htable l' (by simp [labels])
    simp only [fill, resolveLabel, hl, hl', patch]
    rfl

end Hole

/-- Where a fragment is placed, its holes are filled. -/
theorem Fragment.Placed.fetch?_hole {p : Program} {address : Label → Nat} {a : Nat} {f : Fragment}
    (hp : f.Placed p address a) {h : Hole} {i : Instr} (hh : h ∈ f.holes)
    (hi : f.code[h.index]? = some i) (hfit : h.Fits i) :
    p.fetch? (a + h.index) = some (h.patch address i) := by
  cases h with
  | jump k l =>
    obtain ⟨t, rfl⟩ := hfit.exists_eq_jmp
    exact hp.jump k l hh
  | test k l l' =>
    obtain ⟨r, t, t', rfl⟩ := hfit.exists_eq_tst
    exact hp.test k l l' hh r t t' hi

/-- The instruction at an index after holes are filled in turn. -/
def patchAt (address : Label → Nat) (holes : List Hole) (k : Nat) (i : Instr) : Instr :=
  holes.foldl (fun i h => if h.index = k then h.patch address i else i) i

/-- Holes that fit and name labels of the table are filled, each instruction by its own holes. -/
theorem fillHoles_ok {table : Std.HashMap Label Nat} {address : Label → Nat} {holes : List Hole}
    (code : Array Instr) (hfits : ∀ h ∈ holes, ∃ i ∈ code[h.index]?, h.Fits i)
    (htable : ∀ h ∈ holes, ∀ l ∈ h.labels, table[l]? = some (address l)) :
    ∃ code', fillHoles table holes code = .ok code' ∧
      ∀ k, code'[k]? = code[k]?.map (patchAt address holes k) := by
  induction holes generalizing code with
  | nil => exact ⟨code, rfl, fun k => by cases code[k]? <;> rfl⟩
  | cons h rest ih =>
    obtain ⟨i, hi, hfit⟩ := hfits h List.mem_cons_self
    have hi : code[h.index]? = some i := hi
    have hset : ∀ k, (code.setIfInBounds h.index (h.patch address i))[k]?
        = code[k]?.map fun j => if h.index = k then h.patch address j else j := by
      intro k
      rw [Array.getElem?_setIfInBounds]
      by_cases hk : h.index = k
      · subst hk
        rw [if_pos rfl, if_pos (Array.getElem?_eq_some_iff.mp hi).1, hi]
        simp
      · simp [hk]
    obtain ⟨code', hok, hget⟩ := ih (code.setIfInBounds h.index (h.patch address i))
      (fun h' hh' => by
        obtain ⟨j, hj, hfit'⟩ := hfits h' (List.mem_cons_of_mem _ hh')
        have hj : code[h'.index]? = some j := hj
        rw [hset, hj]
        refine ⟨_, rfl, ?_⟩
        split
        · exact Hole.fits_patch.mpr hfit'
        · exact hfit')
      (fun h' hh' => htable h' (List.mem_cons_of_mem _ hh'))
    refine ⟨code', ?_, fun k => ?_⟩
    · have hfill := Hole.fill_eq_ok hfit (htable h List.mem_cons_self)
      simp only [fillHoles, List.foldlM_cons, hi, hfill]
      exact hok
    · rw [hget, hset, Option.map_map]
      rfl

/-- Instructions without targets are not changed. -/
theorem patchAt_of_targets_eq_nil {address : Label → Nat} {k : Nat} {i : Instr}
    (hi : i.targets = []) (holes : List Hole) : patchAt address holes k i = i := by
  induction holes with
  | nil => rfl
  | cons h rest ih =>
    rw [patchAt, List.foldl_cons]
    split
    · rw [Hole.patch_of_targets_eq_nil hi]
      exact ih
    · exact ih

/-- Instructions without holes are not changed. -/
theorem patchAt_of_forall_ne {address : Label → Nat} {k : Nat} {holes : List Hole}
    (hne : ∀ h ∈ holes, h.index ≠ k) (i : Instr) : patchAt address holes k i = i := by
  induction holes with
  | nil => rfl
  | cons h rest ih =>
    rw [patchAt, List.foldl_cons, if_neg (hne h List.mem_cons_self)]
    exact ih fun h' hh' => hne h' (List.mem_cons_of_mem _ hh')

/-- An instruction that has one hole is filled by it. -/
theorem patchAt_of_mem (address : Label → Nat) {holes : List Hole}
    (hunique : (holes.map Hole.index).Nodup) {h : Hole} (hh : h ∈ holes) (i : Instr) :
    patchAt address holes h.index i = h.patch address i := by
  induction holes generalizing i with
  | nil => cases hh
  | cons h₀ rest ih =>
    rw [List.map_cons, List.nodup_cons] at hunique
    rw [patchAt, List.foldl_cons]
    rcases List.mem_cons.mp hh with rfl | hh
    · rw [if_pos rfl]
      refine patchAt_of_forall_ne (fun h' hh' heq => hunique.1 ?_) _
      exact heq ▸ List.mem_map_of_mem hh'
    · have hne : h₀.index ≠ h.index := fun heq => hunique.1 (heq ▸ List.mem_map_of_mem hh)
      rw [if_neg hne]
      exact ih hunique.2 hh i

/-! ### Linked programs -/

/-- A program that is a fragment from its first address on, and a halt. -/
structure Linked (p : Program) (f : Fragment) : Prop where
  placed : f.Placed p (f.address p.base.first) p.base.first
  halt : p.fetch? (p.base.first + f.size) = some .hlt
  size : p.code.size = f.size + 1

/-- Addresses are indices from the first address on. -/
theorem fetch?_first_add (p : Program) (k : Nat) : p.fetch? (p.base.first + k) = p.code[k]? := by
  simp [Program.fetch?]

/-- A program whose instructions are those of a fragment with a halt after them, the holes filled,
is linked from the fragment. -/
theorem linked_of_getElem? {p : Program} {f : Fragment} (hf : f.Holed) (hclosed : f.Closed)
    (hget : ∀ k, p.code[k]? =
      (f.code ++ [.hlt])[k]?.map (patchAt (f.address p.base.first) f.holes k)) : Linked p f := by
  have hin : ∀ {k i}, f.code[k]? = some i →
      p.fetch? (p.base.first + k) = some (patchAt (f.address p.base.first) f.holes k i) := by
    intro k i hi
    have hk : k < f.code.length := (List.getElem?_eq_some_iff.mp hi).1
    rw [fetch?_first_add, hget, List.getElem?_append_left hk, hi, Option.map_some]
  have hlast : p.code[f.size]? = some .hlt := by
    rw [hget, Fragment.size, List.getElem?_concat_length, Option.map_some,
      patchAt_of_targets_eq_nil rfl]
  -- what is missing one past the halt gives the size of the code
  have hbeyond : p.code[f.size + 1]? = none := by
    rw [hget, List.getElem?_eq_none (by simp [Fragment.size]), Option.map_none]
  refine ⟨⟨?_, ?_, ?_, fun l o hl => hclosed.address_eq hl _⟩, ?_, ?_⟩
  · intro k i hi htargets
    rw [hin hi, patchAt_of_targets_eq_nil htargets]
  · intro k l hh
    obtain ⟨i, hi, hfit⟩ := hf.hole_fits _ hh
    have hi : f.code[k]? = some i := hi
    obtain ⟨t, rfl⟩ := hfit.exists_eq_jmp
    have hpatch := patchAt_of_mem (f.address p.base.first) hf.hole_unique hh (.jmp t)
    rw [hin hi]
    exact congrArg some hpatch
  · intro k l l' hh r t t' hi
    have hpatch := patchAt_of_mem (f.address p.base.first) hf.hole_unique hh (.tst r t t')
    rw [hin hi]
    exact congrArg some hpatch
  · rw [fetch?_first_add, hlast]
  · have hlt := (Array.getElem?_eq_some_iff.mp hlast).1
    have hge := Array.getElem?_eq_none_iff.mp hbeyond
    omega

/-- Fragments that are closed together and whose holes fit make a program of their instructions with
a halt after them, the holes filled. -/
theorem exists_link_eq {fragments : List Fragment} (hclosed : (Fragment.join fragments).Closed)
    (hfits : ∀ h ∈ (Fragment.join fragments).holes,
      ∃ i ∈ (Fragment.join fragments).code[h.index]?, h.Fits i)
    (base : AddressBase) (registers : Array Nat) (symbols : List (String × Register)) :
    ∃ p, link base registers symbols fragments = .ok p ∧
      (∀ k, p.code[k]? = ((Fragment.join fragments).code ++ [.hlt])[k]?.map
        (patchAt ((Fragment.join fragments).address base.first)
          (Fragment.join fragments).holes k)) ∧
      p.registers = registers ∧ p.symbols = symbols ∧ p.base = base := by
  generalize hf : Fragment.join fragments = f at hclosed hfits ⊢
  obtain ⟨table, htable, haddress⟩ := labelAddresses_ok hclosed base.first
  have hfits' : ∀ h ∈ f.holes, ∃ i ∈ (f.code.toArray.push .hlt)[h.index]?, h.Fits i := by
    intro h hh
    obtain ⟨i, hi, hfit⟩ := hfits h hh
    have hi : f.code[h.index]? = some i := hi
    have hlt : h.index < f.code.length := (List.getElem?_eq_some_iff.mp hi).1
    exact ⟨i, by simp [List.getElem?_append_left hlt, hi], hfit⟩
  obtain ⟨code, hcode, hget⟩ := fillHoles_ok (f.code.toArray.push .hlt) hfits' fun h hh l hl =>
    haddress l (hclosed.wanted_defined l (List.mem_flatMap.mpr ⟨h, hh, hl⟩))
  refine ⟨⟨code, registers, symbols, base⟩, ?_, by simpa using hget, rfl, rfl, rfl⟩
  simp only [link, hf, htable, hcode, bind, Except.bind]
  rfl

/-- **Linking.** Fragments that are well formed and closed together make a program. -/
theorem link_ok {fragments : List Fragment} (hwf : (Fragment.join fragments).WellFormed)
    (hclosed : (Fragment.join fragments).Closed) (base : AddressBase) (registers : Array Nat)
    (symbols : List (String × Register)) :
    ∃ p, link base registers symbols fragments = .ok p ∧ Linked p (Fragment.join fragments) ∧
      p.registers = registers ∧ p.symbols = symbols ∧ p.base = base := by
  obtain ⟨p, hlink, hget, hregisters, hsymbols, rfl⟩ :=
    exists_link_eq hclosed hwf.hole_fits base registers symbols
  exact ⟨p, hlink, linked_of_getElem? hwf.toHoled hclosed hget, hregisters, hsymbols, rfl⟩

end Abacus.Code
