import Mathlib.Data.List.Nodup
import Abacus.Code.Fragment
import Abacus.Proofs.Execution

/-!
# Fragments in their place

A fragment is well formed when every jump and test of it is open exactly once and its labels stand
within its code; it is closed when moreover its labels are different ones and every label that it
names is its own. Both are said of a fragment by itself.

`Fragment.Placed` says that a program holds a fragment from some address on, its open targets filled
with the addresses of labels. A placed concatenation is its two parts, each placed
(`Fragment.Placed.append`), so what is proved about a fragment holds wherever it ends up.
-/

namespace Abacus.Code

open Machine

namespace Hole

/-- The labels that a hole names. -/
def labels : Hole → List Label
  | .jump _ target => [target]
  | .test _ ifNonzero ifZero => [ifNonzero, ifZero]

/-- Whether a hole is of the kind of an instruction. -/
def Fits : Hole → Instr → Prop
  | .jump _ _, .jmp _ => True
  | .test _ _ _, .tst _ _ _ => True
  | _, _ => False

instance : (h : Hole) → (i : Instr) → Decidable (h.Fits i)
  | .jump _ _, .jmp _ => isTrue trivial
  | .test _ _ _, .tst _ _ _ => isTrue trivial
  | .jump _ _, .inc _ | .jump _ _, .dec _ | .jump _ _, .tst _ _ _ | .jump _ _, .hlt => isFalse id
  | .test _ _ _, .inc _ | .test _ _ _, .dec _ | .test _ _ _, .jmp _ | .test _ _ _, .hlt =>
    isFalse id

/-- Jump holes fit jumps only. -/
theorem Fits.exists_eq_jmp {k : Nat} {l : Label} {i : Instr} (h : (Hole.jump k l).Fits i) :
    ∃ t, i = .jmp t := by
  cases i with
  | jmp t => exact ⟨t, rfl⟩
  | _ => exact h.elim

/-- Test holes fit tests only. -/
theorem Fits.exists_eq_tst {k : Nat} {l l' : Label} {i : Instr} (h : (Hole.test k l l').Fits i) :
    ∃ r t t', i = .tst r t t' := by
  cases i with
  | tst r t t' => exact ⟨r, t, t', rfl⟩
  | _ => exact h.elim

/-- A hole that is moved stands at the moved index. -/
@[simp]
theorem index_move (f : Nat → Nat) (h : Hole) : (h.move f).index = f h.index := by
  cases h <;> rfl

/-- A hole that is moved names the labels it named. -/
@[simp]
theorem labels_move (f : Nat → Nat) (h : Hole) : (h.move f).labels = h.labels := by
  cases h <;> rfl

/-- A hole that is moved fits the instructions it did. -/
@[simp]
theorem fits_move {f : Nat → Nat} {h : Hole} {i : Instr} : (h.move f).Fits i ↔ h.Fits i := by
  cases h <;> cases i <;> rfl

/-- A hole with other targets stands where it stood. -/
@[simp]
theorem index_retarget (f : Label → Label) (h : Hole) : (h.retarget f).index = h.index := by
  cases h <;> rfl

/-- The labels of a hole are replaced one by one. -/
@[simp]
theorem labels_retarget (f : Label → Label) (h : Hole) :
    (h.retarget f).labels = h.labels.map f := by
  cases h <;> rfl

/-- A hole with other targets fits the instructions it did. -/
@[simp]
theorem fits_retarget {f : Label → Label} {h : Hole} {i : Instr} :
    (h.retarget f).Fits i ↔ h.Fits i := by
  cases h <;> cases i <;> rfl

end Hole

namespace Fragment

/-- The labels that a fragment defines, in order. -/
def defined (f : Fragment) : List Label := f.labels.map Prod.fst

/-- The labels that a fragment names, in order. -/
def wanted (f : Fragment) : List Label := f.holes.flatMap Hole.labels

/-- The labels of two fragments in a row are those of the first and then those of the second. -/
@[simp]
theorem defined_append (f g : Fragment) : (f ++ g).defined = f.defined ++ g.defined := by
  simp [defined]

/-- Two fragments in a row name what the first names and then what the second names. -/
@[simp]
theorem wanted_append (f g : Fragment) : (f ++ g).wanted = f.wanted ++ g.wanted := by
  simp [wanted, List.flatMap_map]

/-- Every instruction with targets has one hole of its kind, and there are no other holes. -/
structure Holed (f : Fragment) : Prop where
  hole_fits : ∀ h ∈ f.holes, ∃ i ∈ f.code[h.index]?, h.Fits i
  hole_exists : ∀ k, ∀ i ∈ f.code[k]?, i.targets ≠ [] → ∃ h ∈ f.holes, h.index = k
  hole_unique : (f.holes.map Hole.index).Nodup

/-- Labels stand within the code or at its end. -/
structure Labelled (f : Fragment) : Prop where
  label_le : ∀ l ∈ f.labels, l.2 ≤ f.size

/-- Labels stand within the code or at its end, and holes at instructions. -/
structure InRange (f : Fragment) : Prop extends f.Labelled where
  index_lt : ∀ h ∈ f.holes, h.index < f.size

/-- Every instruction with targets has one hole of its kind, there are no other holes, and labels
stand within the code or at its end. -/
structure WellFormed (f : Fragment) : Prop extends f.Holed, f.Labelled

/-- The labels of a fragment are different ones, and it names no others. -/
structure Closed (f : Fragment) : Prop where
  nodup : f.defined.Nodup
  wanted_defined : ∀ l ∈ f.wanted, l ∈ f.defined

/-- Holes stand at instructions, since they fit them. -/
theorem Holed.index_lt {f : Fragment} (hf : f.Holed) {h : Hole} (hh : h ∈ f.holes) :
    h.index < f.size := by
  obtain ⟨i, hi, -⟩ := hf.hole_fits h hh
  exact (List.getElem?_eq_some_iff.mp hi).1

/-- In a well-formed fragment holes stand at instructions, since they fit them. -/
theorem WellFormed.inRange {f : Fragment} (hf : f.WellFormed) : f.InRange where
  toLabelled := hf.toLabelled
  index_lt _ hh := hf.index_lt hh

/-- An instruction has no targets, or a hole of its kind. -/
theorem Holed.cases {f : Fragment} (hf : f.Holed) {k : Nat} {i : Instr} (hi : f.code[k]? = some i) :
    i.targets = [] ∨ ∃ h ∈ f.holes, h.index = k ∧ h.Fits i := by
  by_cases htargets : i.targets = []
  · exact .inl htargets
  · obtain ⟨h, hh, rfl⟩ := hf.hole_exists k i hi htargets
    obtain ⟨i', hi', hfits⟩ := hf.hole_fits h hh
    obtain rfl : i = i' := Option.some.inj (hi.symm.trans hi')
    exact .inr ⟨h, hh, rfl, hfits⟩

/-- Two holes for one instruction are one hole. -/
theorem Holed.hole_eq {f : Fragment} (hf : f.Holed) {h h' : Hole} (hh : h ∈ f.holes)
    (hh' : h' ∈ f.holes) (heq : h.index = h'.index) : h = h' :=
  List.inj_on_of_nodup_map hf.hole_unique hh hh' heq

/-! ### Well-formedness of the pieces of code -/

/-- Well-formed fragments make a well-formed one: the holes and labels of the second are moved past
the first. -/
theorem WellFormed.append {f g : Fragment} (hf : f.WellFormed) (hg : g.WellFormed) :
    (f ++ g).WellFormed where
  label_le := by
    intro l hl
    simp only [labels_append, List.mem_append, List.mem_map, size_append] at hl ⊢
    rcases hl with hl | ⟨l', hl', rfl⟩
    · have := hf.label_le l hl
      omega
    · have := hg.label_le l' hl'
      simp only
      omega
  hole_fits := by
    intro h hh
    simp only [holes_append, List.mem_append, List.mem_map, code_append] at hh ⊢
    rcases hh with hh | ⟨h', hh', rfl⟩
    · obtain ⟨i, hi, hfit⟩ := hf.hole_fits h hh
      exact ⟨i, by rwa [List.getElem?_append_left (hf.index_lt hh)], hfit⟩
    · obtain ⟨i, hi, hfit⟩ := hg.hole_fits h' hh'
      refine ⟨i, ?_, Hole.fits_move.mpr hfit⟩
      rw [Hole.index_move, List.getElem?_append_right (Nat.le_add_right f.size _)]
      simpa [size] using hi
  hole_exists := by
    intro k i hi htargets
    simp only [code_append, holes_append, List.mem_append, List.mem_map] at hi ⊢
    rcases Nat.lt_or_ge k f.size with hk | hk
    · rw [List.getElem?_append_left hk] at hi
      obtain ⟨h, hh, hindex⟩ := hf.hole_exists k i hi htargets
      exact ⟨h, .inl hh, hindex⟩
    · rw [List.getElem?_append_right hk] at hi
      obtain ⟨h, hh, hindex⟩ := hg.hole_exists _ i hi htargets
      refine ⟨h.move (f.size + ·), .inr ⟨h, hh, rfl⟩, ?_⟩
      rw [Hole.index_move, hindex]
      simp only [size] at hk ⊢
      omega
  hole_unique := by
    -- the holes of the second part are moved past the first
    rw [holes_append, List.map_append, List.map_map, List.nodup_append]
    refine ⟨hf.hole_unique, ?_, ?_⟩
    · have hcomp : Hole.index ∘ Hole.move (f.size + ·) = (f.size + ·) ∘ Hole.index := by
        funext h
        simp
      rw [hcomp, ← List.map_map]
      exact hg.hole_unique.map fun _ _ => Nat.add_left_cancel
    · intro a ha b hb
      obtain ⟨h, hh, rfl⟩ := List.mem_map.mp ha
      obtain ⟨h', hh', rfl⟩ := List.mem_map.mp hb
      have := hf.index_lt hh
      simp only [Function.comp_apply, Hole.index_move]
      omega

/-- Code without targets has no holes to fill. -/
theorem wellFormed_of_straight {f : Fragment} (hholes : f.holes = []) (hlabels : f.labels = [])
    (hcode : ∀ i ∈ f.code, i.targets = []) : f.WellFormed where
  label_le := by simp [hlabels]
  hole_fits := by simp [hholes]
  hole_exists := fun _ i hi htargets => absurd (hcode i (List.mem_of_getElem? hi)) htargets
  hole_unique := by simp [hholes]

/-- Without any code there is nothing to be wrong with. -/
theorem wellFormed_empty : (∅ : Fragment).WellFormed :=
  wellFormed_of_straight rfl rfl (by intro i hi; cases hi)

/-- Increments have no targets. -/
theorem wellFormed_inc (r : Register) : (inc r).WellFormed :=
  wellFormed_of_straight rfl rfl (by simp [inc, Instr.targets])

/-- Decrements have no targets. -/
theorem wellFormed_dec (r : Register) : (dec r).WellFormed :=
  wellFormed_of_straight rfl rfl (by simp [dec, Instr.targets])

/-- A label alone stands at the end of its code, which is empty. -/
theorem wellFormed_define (l : Label) : (define l).WellFormed where
  label_le := by simp [define, size]
  hole_fits := by simp [define]
  hole_exists := by simp [define]
  hole_unique := by simp [define]

/-- A jump has one hole, which fits it. -/
theorem wellFormed_jump (l : Label) : (jump l).WellFormed where
  label_le := by simp [jump]
  hole_fits := by simp [jump, Hole.index, Hole.Fits]
  hole_exists := by
    intro k i hi _
    obtain ⟨hk, -⟩ := List.getElem?_eq_some_iff.mp hi
    exact ⟨_, List.mem_singleton.mpr rfl, by simp [jump] at hk; simp [Hole.index, hk]⟩
  hole_unique := by simp [jump]

/-- A test has one hole, which fits it. -/
theorem wellFormed_test (r : Register) (l l' : Label) : (test r l l').WellFormed where
  label_le := by simp [test]
  hole_fits := by simp [test, Hole.index, Hole.Fits]
  hole_exists := by
    intro k i hi _
    obtain ⟨hk, -⟩ := List.getElem?_eq_some_iff.mp hi
    exact ⟨_, List.mem_singleton.mpr rfl, by simp [test] at hk; simp [Hole.index, hk]⟩
  hole_unique := by simp [test]

/-! ### Fragments in a program -/

/-- A program holds a fragment from an address on, with the addresses of labels for its open
targets. -/
structure Placed (p : Program) (address : Label → Nat) (a : Nat) (f : Fragment) : Prop where
  straight : ∀ k, ∀ i ∈ f.code[k]?, i.targets = [] → p.fetch? (a + k) = some i
  jump : ∀ k l, Hole.jump k l ∈ f.holes → p.fetch? (a + k) = some (.jmp (address l))
  test : ∀ k l l', Hole.test k l l' ∈ f.holes → ∀ r t t', f.code[k]? = some (.tst r t t') →
    p.fetch? (a + k) = some (.tst r (address l) (address l'))
  label : ∀ l o, (l, o) ∈ f.labels → address l = a + o

namespace Placed

variable {p : Program} {address : Label → Nat} {a : Nat} {f g : Fragment} {r : Register}
  {l l' : Label}

/-- Where two fragments in a row are placed, the first one is. -/
theorem left (h : (f ++ g).Placed p address a) : f.Placed p address a where
  straight k i hi :=
    h.straight k i (by rwa [code_append, List.getElem?_append_left
      (List.getElem?_eq_some_iff.mp hi).1])
  jump k l hk := h.jump k l (by simp [hk])
  test k l l' hk r t t' hi :=
    h.test k l l' (by simp [hk]) r t t' (by rwa [code_append, List.getElem?_append_left
      (List.getElem?_eq_some_iff.mp hi).1])
  label l o hl := h.label l o (by simp [hl])

/-- Where two fragments in a row are placed, the second one is placed right after the first. -/
theorem right (h : (f ++ g).Placed p address a) : g.Placed p address (a + f.size) where
  straight k i hi htargets := by
    rw [Nat.add_assoc]
    refine h.straight _ i ?_ htargets
    rw [code_append, List.getElem?_append_right (Nat.le_add_right f.size k)]
    simpa [size] using hi
  jump k l hk := by
    rw [Nat.add_assoc]
    refine h.jump _ l ?_
    simp only [holes_append, List.mem_append, List.mem_map]
    exact .inr ⟨_, hk, rfl⟩
  test k l l' hk r t t' hi := by
    rw [Nat.add_assoc]
    refine h.test _ l l' ?_ r t t' ?_
    · simp only [holes_append, List.mem_append, List.mem_map]
      exact .inr ⟨_, hk, rfl⟩
    · rw [code_append, List.getElem?_append_right (Nat.le_add_right f.size k)]
      simpa [size] using hi
  label l o hl := by
    rw [Nat.add_assoc]
    refine h.label l _ ?_
    simp only [labels_append, List.mem_append, List.mem_map]
    exact .inr ⟨_, hl, rfl⟩

/-- A concatenation that is placed is its parts, each placed. -/
theorem append (h : (f ++ g).Placed p address a) :
    f.Placed p address a ∧ g.Placed p address (a + f.size) :=
  ⟨h.left, h.right⟩

/-- The instruction where an increment is placed. -/
theorem fetch_inc (h : (inc r).Placed p address a) : p.fetch? a = some (.inc r) :=
  h.straight 0 (.inc r) rfl rfl

/-- The instruction where a decrement is placed. -/
theorem fetch_dec (h : (dec r).Placed p address a) : p.fetch? a = some (.dec r) :=
  h.straight 0 (.dec r) rfl rfl

/-- The instruction where a jump is placed leads to the address of its label. -/
theorem fetch_jump (h : (Fragment.jump l).Placed p address a) :
    p.fetch? a = some (.jmp (address l)) :=
  h.jump 0 l (List.mem_singleton.mpr rfl)

/-- The instruction where a test is placed leads to the addresses of its labels. -/
theorem fetch_test (h : (Fragment.test r l l').Placed p address a) :
    p.fetch? a = some (.tst r (address l) (address l')) :=
  h.test 0 l l' (List.mem_singleton.mpr rfl) r 0 0 rfl

/-- A label has the address that it is placed at. -/
theorem address_define (h : (define l).Placed p address a) : address l = a :=
  h.label l 0 (List.mem_singleton.mpr rfl)

end Placed

/-! ### The pieces of code, read off -/

section Pieces

variable (r : Register) (l l' : Label)

/-- No code takes no room. -/
@[simp]
theorem size_empty : (∅ : Fragment).size = 0 := rfl

/-- Labels take no room. -/
@[simp]
theorem size_define : (define l).size = 0 := rfl

/-- An increment takes the room of one instruction. -/
@[simp]
theorem size_inc : (inc r).size = 1 := rfl

/-- A decrement takes the room of one instruction. -/
@[simp]
theorem size_dec : (dec r).size = 1 := rfl

/-- A jump takes the room of one instruction. -/
@[simp]
theorem size_jump : (jump l).size = 1 := rfl

/-- A test takes the room of one instruction. -/
@[simp]
theorem size_test : (test r l l').size = 1 := rfl

@[simp]
theorem code_empty : (∅ : Fragment).code = [] := rfl

@[simp]
theorem code_define : (define l).code = [] := rfl

@[simp]
theorem code_inc : (inc r).code = [.inc r] := rfl

@[simp]
theorem code_dec : (dec r).code = [.dec r] := rfl

/-- The target of a jump is left open. -/
@[simp]
theorem code_jump : (jump l).code = [.jmp 0] := rfl

/-- The targets of a test are left open. -/
@[simp]
theorem code_test : (test r l l').code = [.tst r 0 0] := rfl

@[simp]
theorem defined_empty : (∅ : Fragment).defined = [] := rfl

/-- A label is what its definition defines. -/
@[simp]
theorem defined_define : (define l).defined = [l] := rfl

@[simp]
theorem defined_inc : (inc r).defined = [] := rfl

@[simp]
theorem defined_dec : (dec r).defined = [] := rfl

/-- A jump defines no label: it names one. -/
@[simp]
theorem defined_jump : (jump l).defined = [] := rfl

/-- A test defines no labels: it names two. -/
@[simp]
theorem defined_test : (test r l l').defined = [] := rfl

@[simp]
theorem wanted_empty : (∅ : Fragment).wanted = [] := rfl

/-- The definition of a label does not name it. -/
@[simp]
theorem wanted_define : (define l).wanted = [] := rfl

@[simp]
theorem wanted_inc : (inc r).wanted = [] := rfl

@[simp]
theorem wanted_dec : (dec r).wanted = [] := rfl

/-- A jump names its target. -/
@[simp]
theorem wanted_jump : (jump l).wanted = [l] := rfl

/-- A test names both of its targets. -/
@[simp]
theorem wanted_test : (test r l l').wanted = [l, l'] := rfl

end Pieces

end Fragment

end Abacus.Code
