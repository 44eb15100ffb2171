import Mathlib.Data.List.Induction
import Abacus.Code.Bounded
import Abacus.Proofs.Resolution

/-!
# Linking arbitrary fragments

Fragments need not come from emitted code: their holes and labels may stand anywhere, also in the
code of a later fragment, an instruction may have several holes, and a jump may have none. `layout`
says where each fragment starts when they stand one after another, and with it `Linkable` and
`LinkedAs` say what linking asks of the fragments and what it makes of them, without joining them.
As long as no position leaves the machine words, linking succeeds on just the linkable fragments,
and its result is the program described (`linkBounded_exact`).
-/

namespace Abacus.Code

open Machine

variable {fragments : List Fragment} {base : AddressBase} {registers : Array Nat}
  {symbols : List (String × Register)} {p : Program}

/-! ### Fragments one after another -/

/-- Every fragment with the number of instructions before it, the first of them after `start`. -/
def layout (start : Nat) : List Fragment → List (Nat × Fragment)
  | [] => []
  | f :: rest => (start, f) :: layout (start + f.size) rest

/-- All instructions. -/
def allCode (fragments : List Fragment) : List Instr := fragments.flatMap Fragment.code

/-- All holes, at the indices that they come to stand at. -/
def allHoles (fragments : List Fragment) : List Hole :=
  (layout 0 fragments).flatMap fun x => x.2.holes.map (Hole.move (x.1 + ·))

/-- All labels, with the indices that they come to stand before. -/
def allLabels (fragments : List Fragment) : List (Label × Nat) :=
  (layout 0 fragments).flatMap fun x => x.2.labels.map fun l => (l.1, x.1 + l.2)

/-- What linking asks of fragments: no label is defined twice, every hole is at an instruction of
its kind, and every label that a hole names is defined. -/
structure Linkable (fragments : List Fragment) : Prop where
  nodup : (fragments.flatMap Fragment.defined).Nodup
  fits : ∀ h ∈ allHoles fragments, ∃ i ∈ (allCode fragments)[h.index]?, h.Fits i
  defined : ∀ l ∈ fragments.flatMap Fragment.wanted, l ∈ fragments.flatMap Fragment.defined

instance (fragments : List Fragment) : Decidable (Linkable fragments) :=
  decidable_of_iff
    ((fragments.flatMap Fragment.defined).Nodup ∧
      (∀ h ∈ allHoles fragments, ∃ i ∈ (allCode fragments)[h.index]?, h.Fits i) ∧
      ∀ l ∈ fragments.flatMap Fragment.wanted, l ∈ fragments.flatMap Fragment.defined)
    ⟨fun ⟨hnodup, hfits, hdefined⟩ => ⟨hnodup, hfits, hdefined⟩,
      fun h => ⟨h.nodup, h.fits, h.defined⟩⟩

/-- What an instruction becomes when its hole, if it has one, is filled: the labels become targets,
and nothing else changes. -/
inductive Filled (target : Label → Nat → Prop) : Option Hole → Instr → Instr → Prop
  | unchanged (i : Instr) : Filled target none i i
  | jump {k : Nat} {l : Label} {t a : Nat} (h : target l a) :
    Filled target (some (.jump k l)) (.jmp t) (.jmp a)
  | test {k : Nat} {l l' : Label} {r : Register} {t t' a a' : Nat} (h : target l a)
    (h' : target l' a') : Filled target (some (.test k l l')) (.tst r t t') (.tst r a a')

/-- What linking makes of fragments: all their instructions and one halt. Of the holes that an
instruction has, the last one counts. -/
structure LinkedAs (base : AddressBase) (fragments : List Fragment) (p : Program) : Prop where
  size : p.code.size = (allCode fragments).length + 1
  halt : p.code[(allCode fragments).length]? = some .hlt
  filled : ∀ k, ∀ i ∈ (allCode fragments)[k]?, ∃ i' ∈ p.code[k]?,
    Filled (fun l a => ∃ o, (l, o) ∈ allLabels fragments ∧ a = base.first + o)
      ((allHoles fragments).filter (·.index = k)).getLast? i i'

/-! ### The joined fragment -/

/-- What fragments one after another have of something is what each of them has. -/
private theorem join_eq_flatMap {α : Type} {part : Fragment → List α} (hempty : part ∅ = [])
    (happend : ∀ f g, part (f ++ g) = part f ++ part g) (fragments : List Fragment) :
    part (Fragment.join fragments) = fragments.flatMap part := by
  induction fragments with
  | nil => exact hempty
  | cons f rest ih =>
    change part (f ++ Fragment.join rest) = _
    rw [happend, ih, List.flatMap_cons]

private theorem code_join (fragments : List Fragment) :
    (Fragment.join fragments).code = allCode fragments :=
  join_eq_flatMap rfl Fragment.code_append fragments

private theorem defined_join (fragments : List Fragment) :
    (Fragment.join fragments).defined = fragments.flatMap Fragment.defined :=
  join_eq_flatMap rfl Fragment.defined_append fragments

private theorem wanted_join (fragments : List Fragment) :
    (Fragment.join fragments).wanted = fragments.flatMap Fragment.wanted :=
  join_eq_flatMap rfl Fragment.wanted_append fragments

private theorem map_move_holes_join (start : Nat) (fragments : List Fragment) :
    (Fragment.join fragments).holes.map (Hole.move (start + ·)) =
      (layout start fragments).flatMap fun x => x.2.holes.map (Hole.move (x.1 + ·)) := by
  induction fragments generalizing start with
  | nil => rfl
  | cons f rest ih =>
    change (f ++ Fragment.join rest).holes.map _ = _
    rw [layout, List.flatMap_cons, ← ih, Fragment.holes_append, List.map_append, List.map_map]
    congr 2
    funext h
    cases h <;> simp [Hole.move, Nat.add_assoc]

private theorem map_move_labels_join (start : Nat) (fragments : List Fragment) :
    ((Fragment.join fragments).labels.map fun l => (l.1, start + l.2)) =
      (layout start fragments).flatMap fun x => x.2.labels.map fun l => (l.1, x.1 + l.2) := by
  induction fragments generalizing start with
  | nil => rfl
  | cons f rest ih =>
    change (f ++ Fragment.join rest).labels.map _ = _
    rw [layout, List.flatMap_cons, ← ih, Fragment.labels_append, List.map_append, List.map_map]
    congr 2
    funext l
    simp [Nat.add_assoc]

private theorem holes_join (fragments : List Fragment) :
    (Fragment.join fragments).holes = allHoles fragments := by
  have hunmoved : Hole.move (0 + ·) = id := by
    funext h
    cases h <;> simp [Hole.move]
  rw [allHoles, ← map_move_holes_join, hunmoved, List.map_id]

private theorem labels_join (fragments : List Fragment) :
    (Fragment.join fragments).labels = allLabels fragments := by
  rw [allLabels, ← map_move_labels_join]
  simp

private theorem linkable_iff : Linkable fragments ↔ (Fragment.join fragments).Closed ∧
    ∀ h ∈ (Fragment.join fragments).holes,
      ∃ i ∈ (Fragment.join fragments).code[h.index]?, h.Fits i := by
  rw [holes_join, code_join]
  constructor
  · intro h
    refine ⟨⟨?_, ?_⟩, h.fits⟩
    · rw [defined_join]
      exact h.nodup
    · rw [defined_join, wanted_join]
      exact h.defined
  · rintro ⟨⟨hnodup, hdefined⟩, hfits⟩
    rw [defined_join] at hnodup hdefined
    rw [wanted_join] at hdefined
    exact ⟨hnodup, hfits, hdefined⟩

/-! ### The last hole of an instruction -/

/-- Holes that fit an instruction leave it as the last of them fills it. -/
private theorem filled_patchAt {target : Label → Nat → Prop} {address : Label → Nat}
    {holes : List Hole} {k : Nat} {i : Instr} (hfits : ∀ h ∈ holes, h.index = k → h.Fits i)
    (haddress : ∀ h ∈ holes, ∀ l ∈ h.labels, target l (address l)) :
    Filled target (holes.filter (·.index = k)).getLast? i (patchAt address holes k i) := by
  induction holes using List.reverseRecOn with
  | nil => exact .unchanged i
  | append_singleton holes h ih =>
    have hfits' := fun h' hh' => hfits h' (List.mem_append_left _ hh')
    have haddress' := fun h' hh' => haddress h' (List.mem_append_left _ hh')
    have hlast := haddress h (List.mem_append_right _ List.mem_cons_self)
    rw [patchAt_append, List.filter_append]
    by_cases hk : h.index = k
    · have hfit := hfits h (List.mem_append_right _ List.mem_cons_self) hk
      have hfilter : [h].filter (·.index = k) = [h] := by simp [hk]
      have hpatch : patchAt address [h] k (patchAt address holes k i) = h.patch address i := by
        rw [patchAt, List.foldl_cons, if_pos hk]
        exact Hole.patch_patchAt hfit holes k
      rw [hfilter, List.getLast?_concat, hpatch]
      cases h with
      | jump _ l =>
        obtain ⟨t, rfl⟩ := hfit.exists_eq_jmp
        exact .jump (hlast l (by simp [Hole.labels]))
      | test _ l l' =>
        obtain ⟨r, t, t', rfl⟩ := hfit.exists_eq_tst
        exact .test (hlast l (by simp [Hole.labels])) (hlast l' (by simp [Hole.labels]))
    · have hfilter : [h].filter (·.index = k) = [] := by simp [hk]
      have hpatch : patchAt address [h] k (patchAt address holes k i) =
          patchAt address holes k i := by
        rw [patchAt, List.foldl_cons, if_neg hk]
        rfl
      rw [hfilter, List.append_nil, hpatch]
      exact ih hfits' haddress'

/-- What linking gives is the program described. -/
private theorem linkedAs_of_link (h : link base registers symbols fragments = .ok p) :
    LinkedAs base fragments p := by
  obtain ⟨hclosed, hfits⟩ := closed_of_link h
  obtain ⟨⟨-, hget⟩, rfl, -, -⟩ := resolved_of_link h
  rw [code_join] at hget hfits
  have hlast : p.code[(allCode fragments).length]? = some .hlt := by
    rw [hget, List.getElem?_concat_length, Option.map_some, patchAt_of_targets_eq_nil rfl]
  have hbeyond : p.code[(allCode fragments).length + 1]? = none := by
    rw [hget, List.getElem?_eq_none (by simp), Option.map_none]
  refine ⟨?_, hlast, fun k i hi => ?_⟩
  · have hlt := (Array.getElem?_eq_some_iff.mp hlast).1
    have hge := Array.getElem?_eq_none_iff.mp hbeyond
    omega
  · have hk : k < (allCode fragments).length := (List.getElem?_eq_some_iff.mp hi).1
    refine ⟨_, by rw [hget, List.getElem?_append_left hk, hi]; rfl, ?_⟩
    rw [← holes_join, ← labels_join]
    refine filled_patchAt (fun hole hhole heq => ?_) fun hole hhole l hl => ?_
    · obtain ⟨j, hj, hfit⟩ := hfits hole hhole
      rw [heq, hi] at hj
      cases hj
      exact hfit
    · have hl := hclosed.wanted_defined l (List.mem_flatMap.mpr ⟨hole, hhole, hl⟩)
      obtain ⟨⟨l, o⟩, hmem, rfl⟩ := List.mem_map.mp hl
      exact ⟨o, hmem, hclosed.address_eq hmem _⟩

private theorem linkBounded_of_words (hholes : ∀ h ∈ allHoles fragments, h.index < wordBound)
    (hlabels : ∀ l ∈ allLabels fragments, base.first + l.2 < wordBound) (registers : Array Nat)
    (symbols : List (String × Register)) :
    linkBounded base registers symbols fragments =
      (link base registers symbols fragments).mapError .unresolved := by
  rw [← holes_join] at hholes
  rw [← labels_join] at hlabels
  refine linkBounded_eq_link registers symbols ?_ hlabels
  rw [Fragment.inWords, Bool.and_eq_true, List.all_eq_true, List.all_eq_true]
  refine ⟨fun h hh => decide_eq_true (hholes h hh), fun l hl => decide_eq_true ?_⟩
  exact Nat.lt_of_add_left_lt (hlabels l hl)

/-- **Linking, exactly.** Fragments can be linked just if they are linkable, and the program is then
all their code and a halt, with the targets of each instruction those of its last hole. -/
theorem linkBounded_exact (hholes : ∀ h ∈ allHoles fragments, h.index < wordBound)
    (hlabels : ∀ l ∈ allLabels fragments, base.first + l.2 < wordBound) :
    ((∃ p, linkBounded base registers symbols fragments = .ok p) ↔ Linkable fragments) ∧
      ∀ p, linkBounded base registers symbols fragments = .ok p →
        LinkedAs base fragments p ∧
          p.registers = registers ∧ p.symbols = symbols ∧ p.base = base := by
  have hbounded : ∀ p, linkBounded base registers symbols fragments = .ok p →
      link base registers symbols fragments = .ok p := by
    intro p hp
    rw [linkBounded_of_words hholes hlabels] at hp
    cases hlink : link base registers symbols fragments with
    | error e =>
      rw [hlink] at hp
      cases hp
    | ok q =>
      rw [hlink] at hp
      cases hp
      rfl
  refine ⟨⟨fun ⟨p, hp⟩ => linkable_iff.mpr (closed_of_link (hbounded p hp)), fun h => ?_⟩,
    fun p hp => ?_⟩
  · obtain ⟨hclosed, hfits⟩ := linkable_iff.mp h
    obtain ⟨p, hlink, -⟩ := exists_link_eq hclosed hfits base registers symbols
    refine ⟨p, ?_⟩
    rw [linkBounded_of_words hholes hlabels, hlink]
    rfl
  · obtain ⟨-, hbase, hregisters, hsymbols⟩ := resolved_of_link (hbounded p hp)
    exact ⟨linkedAs_of_link (hbounded p hp), hregisters, hsymbols, hbase⟩

/-- Two fragments. The first one has two holes for its first instruction, one for the test of the
second fragment, and a label behind the code of both. The second one jumps to a fixed address. -/
def tangled : List Fragment :=
  [{ code := [.jmp 7, .inc ⟨1⟩]
     holes := [.test 2 ⟨.loopExit, 0⟩ ⟨.loopBody, 1⟩, .jump 0 ⟨.loopExit, 0⟩,
       .jump 0 ⟨.loopBody, 1⟩]
     labels := [(⟨.loopExit, 0⟩, 5)] },
   { code := [.tst ⟨1⟩ 0 0, .jmp 9]
     labels := [(⟨.loopBody, 1⟩, 0)] }]

/-- The last of the two holes counts, and the jump without a hole stays. -/
theorem linkBounded_tangled :
    Linkable tangled ∧ ∃ p, linkBounded .one #[3] [] tangled = .ok p ∧ LinkedAs .one tangled p ∧
      p.code[0]? = some (.jmp 3) ∧ p.code[3]? = some (.jmp 9) := by
  have hexact := @linkBounded_exact tangled .one #[3] [] (by decide) (by decide)
  have hlinkable : Linkable tangled := by decide
  obtain ⟨p, hp⟩ := hexact.1.mpr hlinkable
  have hlinked := (hexact.2 p hp).1
  refine ⟨hlinkable, p, hp, hlinked, ?_, ?_⟩
  · obtain ⟨i, hi, hfilled⟩ := hlinked.filled 0 _ rfl
    cases hfilled with
    | jump h =>
      obtain ⟨o, ho, rfl⟩ := h
      obtain rfl : o = 2 := by simpa [allLabels, layout, tangled, Fragment.size] using ho
      exact hi
  · obtain ⟨i, hi, hfilled⟩ := hlinked.filled 3 _ rfl
    cases hfilled
    exact hi

end Abacus.Code
