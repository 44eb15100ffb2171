import Mathlib.Logic.Relation
import Abacus.Proofs.Weaving

/-!
# Control flow in emitted code

The control flow of a fragment is that of a program, with labels instead of addresses
(`Fragment.Flows`). The code of a part stands in the whole with its own holes and labels
(`Fragment.PartOf`), so a part can be followed without looking at what is around it. In emitted code
every position can be reached from the first one (`Emit.Woven.through`): each of the patterns makes
its own parts reachable, through its tests and jumps, and goes on to what comes after it.
-/

namespace Abacus

open Machine Code Fragment
open Source hiding Program

namespace Code.Fragment

variable {f g : Fragment} {a b c i j k o : Nat} {l l' : Label} {r : Register}

/-! ### Control flow -/

/-- One position may follow another: it comes next after an instruction without targets, or a label
that stands there is named by the hole. Nothing follows a halt. -/
inductive Flows (f : Fragment) : Nat → Nat → Prop
  | next {k : Nat} {i : Instr} : f.code[k]? = some i → i.targets = [] → i ≠ .hlt →
      Flows f k (k + 1)
  | label {h : Hole} {l : Label} {o : Nat} : h ∈ f.holes → l ∈ h.labels → (l, o) ∈ f.labels →
      Flows f h.index o

/-- Control flow leads from one position to another. -/
def CanReach (f : Fragment) : Nat → Nat → Prop := Relation.ReflTransGen f.Flows

/-- All positions from one to another are reached from the start. -/
def Sweeps (f : Fragment) (a b : Nat) : Prop := ∀ k, a ≤ k → k ≤ b → f.CanReach 0 k

namespace Sweeps

/-- A position that is reached is swept. -/
theorem single (h : f.CanReach 0 a) : f.Sweeps a a := by
  intro k hle hle'
  obtain rfl := Nat.le_antisymm hle hle'
  exact h

/-- A sweep up to a position is one up to any before it. -/
theorem mono (h : f.Sweeps a b) (hle : c ≤ b) : f.Sweeps a c :=
  fun k hk hk' => h k hk (Nat.le_trans hk' hle)

/-- Two sweeps that meet are one. -/
private theorem union (h : f.Sweeps a b) (h' : f.Sweeps i c) (hle : i ≤ b + 1) : f.Sweeps a c := by
  intro k hk hk'
  rcases Nat.lt_or_ge b k with hlt | hge
  · exact h' k (by omega) hk'
  · exact h k hk hge

end Sweeps

/-! ### Parts of fragments -/

/-- A fragment is a part of another one, from some position on. -/
structure PartOf (g f : Fragment) (a : Nat) : Prop where
  code : ∀ k i, g.code[k]? = some i → f.code[a + k]? = some i
  hole : ∀ h ∈ g.holes, h.move (a + ·) ∈ f.holes
  label : ∀ l o, (l, o) ∈ g.labels → (l, a + o) ∈ f.labels

namespace PartOf

/-- Every fragment is part of itself. -/
theorem refl (f : Fragment) : f.PartOf f 0 where
  code k i hi := by rwa [Nat.zero_add]
  hole h hh := by
    have hmove : h.move (0 + ·) = h := by cases h <;> simp [Hole.move]
    rwa [hmove]
  label l o hl := by rwa [Nat.zero_add]

/-- A concatenation is its two parts. -/
theorem append {h : Fragment} (hpart : (g ++ h).PartOf f a) :
    g.PartOf f a ∧ h.PartOf f (a + g.size) := by
  refine ⟨⟨fun k i hi => ?_, fun x hx => ?_, fun l o hl => ?_⟩,
    ⟨fun k i hi => ?_, fun x hx => ?_, fun l o hl => ?_⟩⟩
  · refine hpart.code k i ?_
    rwa [code_append, List.getElem?_append_left (List.getElem?_eq_some_iff.mp hi).1]
  · exact hpart.hole x (List.mem_append_left _ hx)
  · exact hpart.label l o (List.mem_append_left _ hl)
  · rw [Nat.add_assoc]
    refine hpart.code _ i ?_
    rw [code_append, List.getElem?_append_right (Nat.le_add_right g.size k)]
    simpa [size] using hi
  · have hmove : x.move (a + g.size + ·) = (x.move (g.size + ·)).move (a + ·) := by
      cases x <;> simp [Hole.move, Nat.add_assoc]
    rw [hmove]
    exact hpart.hole _ (List.mem_append_right _ (List.mem_map_of_mem hx))
  · rw [Nat.add_assoc]
    exact hpart.label l _ (List.mem_append_right _ (List.mem_map.mpr ⟨_, hl, rfl⟩))

/-- From an instruction without targets that is no halt the code goes on to the next one. -/
theorem next (hpart : g.PartOf f a) {i : Instr} (hi : g.code[0]? = some i)
    (htargets : i.targets = []) (hhalt : i ≠ .hlt) : f.Flows a (a + 1) :=
  .next (hpart.code 0 i hi) htargets hhalt

/-- A label stands where its definition does. -/
theorem define (hpart : (define l).PartOf f a) : (l, a) ∈ f.labels :=
  hpart.label l 0 (List.mem_singleton.mpr rfl)

/-- A jump leads to the label it names. -/
theorem jump (hpart : (jump l).PartOf f a) (hl : (l, o) ∈ f.labels) : f.Flows a o :=
  .label (hpart.hole _ (List.mem_singleton.mpr rfl)) (List.mem_singleton.mpr rfl) hl

/-- A test leads to its first label. -/
private theorem test_nonzero (hpart : (test r l l').PartOf f a) (hl : (l, o) ∈ f.labels) :
    f.Flows a o :=
  .label (hpart.hole _ (List.mem_singleton.mpr rfl)) List.mem_cons_self hl

/-- A test leads to its second label. -/
private theorem test_zero (hpart : (test r l l').PartOf f a) (hl : (l', o) ∈ f.labels) :
    f.Flows a o :=
  .label (hpart.hole _ (List.mem_singleton.mpr rfl)) (List.mem_cons_of_mem _ List.mem_cons_self) hl

end PartOf

/-! ### Fragments that are reached as a whole -/

/-- Wherever the fragment stands, all of it and what comes after it is reached if its start is. -/
def Through (g : Fragment) : Prop :=
  ∀ ⦃f : Fragment⦄ ⦃a : Nat⦄, g.PartOf f a → f.CanReach 0 a → f.Sweeps a (a + g.size)

/-- The end of the first fragment is the start of the second. -/
theorem Through.append {h : Fragment} (hg : g.Through) (hh : h.Through) : (g ++ h).Through := by
  intro f a hpart ha
  obtain ⟨hleft, hright⟩ := hpart.append
  have hfirst := hg hleft ha
  have hsecond := hh hright (hfirst _ (Nat.le_add_right a g.size) (Nat.le_refl _))
  rw [size_append, ← Nat.add_assoc]
  exact hfirst.union hsecond (Nat.le_succ _)

/-- The start of an empty fragment is what comes after it. -/
private theorem through_empty : (∅ : Fragment).Through := fun _ _ _ ha => .single ha

/-- After an increment comes the next instruction. -/
private theorem through_inc (r : Register) : (inc r).Through := fun _ a hpart ha =>
  (Sweeps.single ha).union (.single (ha.tail (hpart.next rfl rfl (by simp)))) (Nat.le_refl (a + 1))

/-- After a decrement comes the next instruction. -/
private theorem through_dec (r : Register) : (dec r).Through := fun _ a hpart ha =>
  (Sweeps.single ha).union (.single (ha.tail (hpart.next rfl rfl (by simp)))) (Nat.le_refl (a + 1))

/-- After increments in a row comes the next instruction. -/
private theorem through_join_inc (targets : List Register) : (join (targets.map inc)).Through := by
  induction targets with
  | nil => exact through_empty
  | cons t rest ih => exact (through_inc t).append ih

end Code.Fragment

/-! ### The patterns of emitted code -/

namespace Emit

/-- A guarded decrement is reached by the first label of its test, and what comes after it by the
second one. -/
private theorem through_guarded (r : Register) (step skip : Label) :
    (test r step skip ++ define step ++ dec r ++ define skip).Through := by
  intro f a h ha
  obtain ⟨h, -⟩ := h.append
  obtain ⟨h, hdec⟩ := h.append
  obtain ⟨htest, hstep⟩ := h.append
  simp only [size_append, size_test, size_define, size_dec, Nat.add_zero] at *
  have hsecond := through_dec r hdec (ha.tail (htest.test_nonzero hstep.define))
  exact (Sweeps.single ha).union hsecond (Nat.le_refl (a + 1))

/-- The loop of a transfer is reached by the first label of its test, and left by the second one. -/
private theorem through_transfer (top step done : Label) (source : Register)
    (targets : List Register) :
    (define top ++ test source step done ++ define step ++ dec source ++ join (targets.map inc)
      ++ jump top ++ define done).Through := by
  intro f a h ha
  obtain ⟨h, hdone⟩ := h.append
  obtain ⟨h, -⟩ := h.append
  obtain ⟨h, hincs⟩ := h.append
  obtain ⟨h, hdec⟩ := h.append
  obtain ⟨h, hstep⟩ := h.append
  obtain ⟨-, htest⟩ := h.append
  simp only [size_append, size_test, size_define, size_dec, size_jump, Nat.zero_add,
    Nat.add_zero] at *
  have hround : f.Sweeps (a + 1) (a + 2) :=
    through_dec source hdec (ha.tail (htest.test_nonzero hstep.define))
  have hadded := through_join_inc targets hincs (hround _ (by omega) (by omega))
  have hend := Sweeps.single (ha.tail (htest.test_zero hdone.define))
  refine ((((Sweeps.single ha).union hround ?_).union hadded ?_).union hend ?_).mono ?_ <;> omega

/-- The loop of a deduction is reached by the labels of two tests, and left by that of the count. -/
private theorem through_deduct (top check step rest done : Label) (count target : Register) :
    (define top ++ test count check done ++ define check ++ test target step rest ++ define step
      ++ dec target ++ dec count ++ jump top ++ define rest ++ dec count ++ jump top
      ++ define done).Through := by
  intro f a h ha
  obtain ⟨h, hdone⟩ := h.append
  obtain ⟨h, -⟩ := h.append
  obtain ⟨h, hdrain⟩ := h.append
  obtain ⟨h, hrest⟩ := h.append
  obtain ⟨h, -⟩ := h.append
  obtain ⟨h, hcount⟩ := h.append
  obtain ⟨h, htarget⟩ := h.append
  obtain ⟨h, hstep⟩ := h.append
  obtain ⟨h, htest'⟩ := h.append
  obtain ⟨h, hcheck⟩ := h.append
  obtain ⟨-, htest⟩ := h.append
  simp only [size_append, size_test, size_define, size_dec, size_jump, Nat.zero_add,
    Nat.add_zero] at *
  have hchecked := ha.tail (htest.test_nonzero hcheck.define)
  have htaken : f.Sweeps (a + 2) (a + 3) :=
    through_dec target htarget (hchecked.tail (htest'.test_nonzero hstep.define))
  have hcounted : f.Sweeps (a + 3) (a + 4) :=
    through_dec count hcount (htaken _ (by omega) (by omega))
  have hdrained : f.Sweeps (a + 5) (a + 6) :=
    through_dec count hdrain (hchecked.tail (htest'.test_zero hrest.define))
  have hend := ha.tail (htest.test_zero hdone.define)
  refine ((((((Sweeps.single ha).union (.single hchecked) ?_).union htaken ?_).union
    hcounted ?_).union hdrained ?_).union (.single hend) ?_).mono ?_ <;> omega

/-- Both blocks of a conditional are reached by its test, and the end by the jump after the first
block or from the second one. -/
private theorem through_branch {yes no : Fragment} (zeroTest : ZeroTest) (r : Register)
    (thenLabel elseLabel endLabel : Label) (hyes : yes.Through) (hno : no.Through) :
    (zeroTest.code r thenLabel elseLabel ++ define thenLabel ++ yes ++ jump endLabel
      ++ define elseLabel ++ no ++ define endLabel).Through := by
  intro f a h ha
  obtain ⟨h, -⟩ := h.append
  obtain ⟨h, hsecond⟩ := h.append
  obtain ⟨h, helse⟩ := h.append
  obtain ⟨h, -⟩ := h.append
  obtain ⟨h, hfirst⟩ := h.append
  obtain ⟨htest, hthen⟩ := h.append
  have hsize : (zeroTest.code r thenLabel elseLabel).size = 1 := by cases zeroTest <;> rfl
  simp only [size_append, size_define, size_jump, hsize, Nat.add_zero] at *
  -- the test leads to both blocks, whichever of them it takes for zero
  have hboth : f.CanReach 0 (a + 1) ∧ f.CanReach 0 (a + (1 + yes.size + 1)) := by
    cases zeroTest with
    | isZero =>
      exact ⟨ha.tail (htest.test_zero hthen.define), ha.tail (htest.test_nonzero helse.define)⟩
    | isNonzero =>
      exact ⟨ha.tail (htest.test_nonzero hthen.define), ha.tail (htest.test_zero helse.define)⟩
  have hyes' := hyes hfirst hboth.1
  have hno' := hno hsecond hboth.2
  refine (((Sweeps.single ha).union hyes' ?_).union hno' ?_).mono ?_ <;> omega

/-- The body of a loop is reached by its first test, the header by the jump after the body, and the
step by the test in the header. -/
private theorem through_rounds {start body : Fragment} (counter : Register) (v : Option Symbol)
    (entry header step bodyLabel exit : Label) (hstart : start.Through) (hbody : body.Through) :
    (test counter entry exit ++ define entry ++ start ++ jump bodyLabel ++ define header
      ++ test counter step exit ++ define step ++ advance v ++ define bodyLabel ++ body
      ++ dec counter ++ jump header ++ define exit).Through := by
  have hadvance : (advance v).Through := by
    rcases v with _ | x
    · exact through_empty
    · exact through_inc x.register
  intro f a h ha
  obtain ⟨h, hexit⟩ := h.append
  obtain ⟨h, hback⟩ := h.append
  obtain ⟨h, hcounter⟩ := h.append
  obtain ⟨h, hround⟩ := h.append
  obtain ⟨h, hbodyLabel⟩ := h.append
  obtain ⟨h, hcount⟩ := h.append
  obtain ⟨h, hstep⟩ := h.append
  obtain ⟨h, htest'⟩ := h.append
  obtain ⟨h, hheader⟩ := h.append
  obtain ⟨h, hjump⟩ := h.append
  obtain ⟨h, hclear⟩ := h.append
  obtain ⟨htest, hentry⟩ := h.append
  simp only [size_append, size_test, size_define, size_dec, size_jump, Nat.add_zero] at *
  -- the body is first reached by the jump into the loop, and the header only from its end
  have hstarted := hstart hclear (ha.tail (htest.test_nonzero hentry.define))
  have hrun := hbody hround
    ((hstarted _ (by omega) (by omega)).tail (hjump.jump hbodyLabel.define))
  have hcounted := through_dec counter hcounter (hrun _ (by omega) (by omega))
  rw [size_dec] at hcounted
  have hheaded := (hcounted _ (by omega) (by omega)).tail (hback.jump hheader.define)
  have hstepped := hadvance hcount (hheaded.tail (htest'.test_nonzero hstep.define))
  have hend := ha.tail (htest.test_zero hexit.define)
  refine (((((((Sweeps.single ha).union hstarted ?_).union (.single hheaded) ?_).union
    hstepped ?_).union hrun ?_).union hcounted ?_).union (.single hend) ?_).mono ?_ <;> omega

/-- **Emitted code is reached as a whole.** -/
theorem Woven.through {n : Nat} {f : Fragment} (h : Woven n f) : f.Through := by
  induction h with
  | empty => exact through_empty
  | inc r => exact through_inc r
  | append _ _ ihf ihg => exact ihf.append ihg
  | guarded r step skip => exact through_guarded r step skip
  | transfer _ step done source targets => exact through_transfer _ step done source targets
  | deduct _ check step rest done count target =>
    exact through_deduct _ check step rest done count target
  | branch zeroTest r thenLabel elseLabel _ _ _ _ ihyes ihno =>
    exact through_branch zeroTest r thenLabel elseLabel _ ihyes ihno
  | rounds counter v entry step exit _ _ _ _ ihstart ihbody =>
    exact through_rounds counter v entry _ step _ exit ihstart ihbody

end Emit

end Abacus
