import Mathlib.Data.List.Induction
import Mathlib.Data.Set.Card
import Mathlib.Logic.Function.Iterate
import Mathlib.Logic.Relation
import Abacus.Machine.Reach
import Abacus.Proofs.Execution

/-!
# Which instructions can be reached

The control flow of a program (`Program.Flows`) says which index may follow which, whatever the
registers hold; `Program.CanReach` is what it leads to in any number of steps. Marking computes this
from a list of indices still to be looked at. A round of it (`Program.sweep`) takes one index off
the list and puts at most two on it, and two only if it has marked one, so the list runs empty
(`Program.iterate_sweep`). What is marked in the end are the indices that can be reached
(`Program.reached_eq_some_true_iff`): marks are only ever put where control flow leads to, and what
may follow a mark is marked already or still on the list.

A run follows the control flow, so it never comes to an index without a mark
(`Program.unreachableCount_exact`).
-/

namespace Abacus.Machine

/-- An instruction that does not end the run goes on to the next address or to one of its
targets. -/
theorem Instr.address_of_perform {instr : Instr} {c c' : Config} (h : instr.perform c = .next c') :
    (c'.address = c.address + 1 ∧ ∃ r, instr = .inc r ∨ instr = .dec r) ∨
      c'.address ∈ instr.targets := by
  unfold perform at h
  split at h
  next r =>
    split at h
    next => cases h
    next =>
      split at h
      · cases h
        exact .inl ⟨rfl, r, .inl rfl⟩
      · cases h
  next r =>
    split at h
    next => cases h
    next => cases h
    next =>
      cases h
      exact .inl ⟨rfl, r, .inr rfl⟩
  next target =>
    cases h
    exact .inr (List.mem_singleton.mpr rfl)
  next r ifNonzero ifZero =>
    split at h
    next => cases h
    next =>
      cases h
      exact .inr (List.mem_cons_of_mem _ List.mem_cons_self)
    next =>
      cases h
      exact .inr List.mem_cons_self
  next => cases h

namespace Program

variable {p : Program} {i j k n a : Nat} {seen : Array Bool} {work : List Nat}

/-! ### Control flow -/

/-- One index may follow another: it comes next after an increment or a decrement, or it is that of
a target. Only indices of instructions follow others. -/
inductive Flows (p : Program) (i : Nat) : Nat → Prop
  | next {r : Register} : p.code[i]? = some (.inc r) ∨ p.code[i]? = some (.dec r) →
      i + 1 < p.code.size → Flows p i (i + 1)
  | target {instr : Instr} {j : Nat} : p.code[i]? = some instr →
      p.base.first + j ∈ instr.targets → j < p.code.size → Flows p i j

/-- Control flow leads from one index to another. -/
def CanReach (p : Program) : Nat → Nat → Prop := Relation.ReflTransGen p.Flows

/-- Addresses are indices from the first address on. -/
private theorem indexOf?_eq_some_iff :
    p.indexOf? a = some j ↔ a = p.base.first + j ∧ j < p.code.size := by
  unfold indexOf?
  split
  next h =>
    rw [Option.some_inj]
    omega
  next h =>
    simp only [reduceCtorEq, false_iff]
    omega

/-- Control flow stays within the code. -/
theorem Flows.lt (h : p.Flows i j) : j < p.code.size := by
  cases h with
  | next _ hlt => exact hlt
  | target _ _ hlt => exact hlt

/-- The successors of an index that lie in the program are those that may follow it. -/
private theorem mem_successors_iff (hj : j < p.code.size) : j ∈ p.successors i ↔ p.Flows i j := by
  constructor
  · intro hmem
    unfold successors at hmem
    split at hmem
    next r hi =>
      obtain rfl := List.mem_singleton.mp hmem
      exact .next (.inl hi) hj
    next r hi =>
      obtain rfl := List.mem_singleton.mp hmem
      exact .next (.inr hi) hj
    next target hi =>
      obtain ⟨rfl, -⟩ := indexOf?_eq_some_iff.mp (Option.mem_toList.mp hmem)
      exact .target hi (List.mem_singleton.mpr rfl) hj
    next r ifNonzero ifZero hi =>
      rcases List.mem_append.mp hmem with hmem | hmem
      · obtain ⟨rfl, -⟩ := indexOf?_eq_some_iff.mp (Option.mem_toList.mp hmem)
        exact .target hi List.mem_cons_self hj
      · obtain ⟨rfl, -⟩ := indexOf?_eq_some_iff.mp (Option.mem_toList.mp hmem)
        exact .target hi (List.mem_cons_of_mem _ List.mem_cons_self) hj
    next => cases hmem
    next => cases hmem
  · intro hflows
    cases hflows with
    | next hi _ => rcases hi with hi | hi <;> simp [successors, hi]
    | @target instr _ hi htarget _ =>
      have hindex : p.indexOf? (p.base.first + j) = some j := indexOf?_eq_some_iff.mpr ⟨rfl, hj⟩
      cases instr with
      | jmp a =>
        obtain rfl := List.mem_singleton.mp htarget
        simp [successors, hi, hindex]
      | tst r ifNonzero ifZero =>
        rcases List.mem_pair.mp htarget with rfl | rfl <;> simp [successors, hi, hindex]
      | inc | dec | hlt => cases htarget

/-- At most two positions follow one. -/
private theorem length_successors_le (p : Program) (i : Nat) : (p.successors i).length ≤ 2 := by
  have hindex : ∀ a, (p.indexOf? a).toList.length ≤ 1 := by
    intro a
    cases p.indexOf? a <;> simp
  unfold successors
  split
  · simp
  · simp
  · exact Nat.le_succ_of_le (hindex _)
  · rw [List.length_append]
    exact Nat.add_le_add (hindex _) (hindex _)
  · simp
  · simp

/-! ### Rounds of marking -/

/-- One round of marking: the first index is taken off the list. If it lies in the program and is
not marked yet, it is marked and its successors are put on the list. -/
def sweep (p : Program) (state : Array Bool × List Nat) : Array Bool × List Nat :=
  match state.2 with
  | [] => state
  | index :: rest =>
    if h : ∃ inside : index < state.1.size, state.1[index] = false then
      (state.1.set index true h.1, p.successors index ++ rest)
    else
      (state.1, rest)

/-- Every round but one on an empty list takes something away, if places without a mark count
twice. -/
private theorem sweep_lt (p : Program) (seen : Array Bool) (index : Nat) (rest : List Nat) :
    2 * (p.sweep (seen, index :: rest)).1.count false +
        (p.sweep (seen, index :: rest)).2.length <
      2 * seen.count false + (index :: rest).length := by
  by_cases h : ∃ inside : index < seen.size, seen[index] = false
  · have hlt := count_false_set_lt h.1 h.2
    have hle := p.length_successors_le index
    simp only [sweep, dif_pos h, List.length_append, List.length_cons]
    omega
  · simp only [sweep, dif_neg h, List.length_cons]
    omega

private theorem markFrom_nil (p : Program) (seen : Array Bool) : p.markFrom seen [] = seen := by
  rw [markFrom]

/-- The exploration goes on from where a sweep has come to. -/
private theorem markFrom_sweep (p : Program) (seen : Array Bool) (index : Nat) (rest : List Nat) :
    p.markFrom (p.sweep (seen, index :: rest)).1 (p.sweep (seen, index :: rest)).2 =
      p.markFrom seen (index :: rest) := by
  by_cases h : ∃ inside : index < seen.size, seen[index] = false
  · simp only [sweep, dif_pos h]
    rw [markFrom.eq_2, dif_pos h]
  · simp only [sweep, dif_neg h]
    rw [markFrom.eq_2, dif_neg h]

/-- Marking comes to an end, and what is marked then is what `markFrom` gives. -/
theorem iterate_sweep (hn : 2 * seen.count false + work.length ≤ n) :
    p.sweep^[n] (seen, work) = (p.markFrom seen work, []) := by
  induction n generalizing seen work with
  | zero =>
    obtain rfl : work = [] := List.length_eq_zero_iff.mp (by omega)
    rw [markFrom_nil]
    rfl
  | succ n ih =>
    cases work with
    | nil =>
      rw [markFrom_nil]
      exact Function.iterate_fixed rfl (n + 1)
    | cons index rest =>
      have hlt := p.sweep_lt seen index rest
      rw [Function.iterate_succ_apply, ← markFrom_sweep]
      exact ih (Nat.le_of_lt_succ (Nat.lt_of_lt_of_le hlt hn))

/-! ### What is marked -/

/-- The exploration marks positions and adds none. -/
private theorem size_markFrom (p : Program) (seen : Array Bool) (work : List Nat) :
    (p.markFrom seen work).size = seen.size := by
  induction seen, work using markFrom.induct p with
  | case1 seen => rw [markFrom_nil]
  | case2 seen index rest hnew ih =>
    rw [markFrom, dif_pos hnew, ih, Array.size_set]
  | case3 seen index rest hold ih => rw [markFrom, dif_neg hold, ih]

/-- What holds of the marks there are and of what is on the list, and goes along the control flow,
holds of all marks. -/
private theorem markFrom_induction {P : Nat → Prop} (hsize : seen.size = p.code.size)
    (hflows : ∀ i j, p.Flows i j → P i → P j) (hseen : ∀ i, seen[i]? = some true → P i)
    (hwork : ∀ i ∈ work, i < p.code.size → P i) :
    ∀ i, (p.markFrom seen work)[i]? = some true → P i := by
  induction seen, work using markFrom.induct p with
  | case1 seen =>
    rw [markFrom_nil]
    exact hseen
  | case2 seen index rest hnew ih =>
    have hlt : index < p.code.size := hsize ▸ hnew.1
    have hindex : P index := hwork index List.mem_cons_self hlt
    rw [markFrom, dif_pos hnew]
    refine ih (by rw [Array.size_set, hsize]) (fun i hi => ?_) fun i hi hin => ?_
    · rw [Array.getElem?_set] at hi
      split at hi
      next heq => exact heq ▸ hindex
      next => exact hseen i hi
    · rcases List.mem_append.mp hi with hi | hi
      · exact hflows index i ((mem_successors_iff hin).mp hi) hindex
      · exact hwork i (List.mem_cons_of_mem _ hi) hin
  | case3 seen index rest hold ih =>
    rw [markFrom, dif_neg hold]
    exact ih hsize hseen fun i hi => hwork i (List.mem_cons_of_mem _ hi)

/-- If whatever may follow a mark is marked or on the list, then in the end it is marked. Everything
that was marked or on the list is marked then, as far as it lies in the program. -/
private theorem markFrom_closed (hsize : seen.size = p.code.size)
    (hfrontier : ∀ i j, seen[i]? = some true → p.Flows i j → seen[j]? = some true ∨ j ∈ work) :
    (∀ i : Nat, seen[i]? = some true → (p.markFrom seen work)[i]? = some true) ∧
    (∀ i ∈ work, i < p.code.size → (p.markFrom seen work)[i]? = some true) ∧
    ∀ i j, (p.markFrom seen work)[i]? = some true → p.Flows i j →
      (p.markFrom seen work)[j]? = some true := by
  induction seen, work using markFrom.induct p with
  | case1 seen =>
    rw [markFrom_nil]
    refine ⟨fun i hi => hi, fun i hi => absurd hi List.not_mem_nil, fun i j hi hflows => ?_⟩
    exact (hfrontier i j hi hflows).resolve_right List.not_mem_nil
  | case2 seen index rest hnew ih =>
    have hmark : ∀ i : Nat, (seen.set index true hnew.1)[i]? = some true ↔
        i = index ∨ seen[i]? = some true := by
      intro i
      rw [Array.getElem?_set]
      split
      next heq => simp [heq]
      next hne => simp [Ne.symm hne]
    rw [markFrom, dif_pos hnew]
    obtain ⟨hseen, hwork, hclosed⟩ := ih (by rw [Array.size_set, hsize]) (by
      intro i j hi hflows
      rw [hmark] at hi ⊢
      rw [List.mem_append]
      -- what follows the new mark is put on the list
      rcases hi with rfl | hi
      · exact .inr (.inl ((mem_successors_iff hflows.lt).mpr hflows))
      · rcases hfrontier i j hi hflows with hj | hj
        · exact .inl (.inr hj)
        · rcases List.mem_cons.mp hj with rfl | hj
          · exact .inl (.inl rfl)
          · exact .inr (.inr hj))
    refine ⟨fun i hi => hseen i ((hmark i).mpr (.inr hi)), fun i hi hin => ?_, hclosed⟩
    rcases List.mem_cons.mp hi with rfl | hi
    · exact hseen i ((hmark i).mpr (.inl rfl))
    · exact hwork i (List.mem_append_right _ hi) hin
  | case3 seen index rest hold ih =>
    -- an index of the program that is passed over has a mark already
    have hindex : index < p.code.size → seen[index]? = some true := by
      intro hlt
      have hlt' : index < seen.size := hsize ▸ hlt
      rw [Array.getElem?_eq_getElem hlt', Option.some_inj, ← Bool.not_eq_false]
      exact fun hfalse => hold ⟨hlt', hfalse⟩
    rw [markFrom, dif_neg hold]
    obtain ⟨hseen, hwork, hclosed⟩ := ih hsize (by
      intro i j hi hflows
      rcases hfrontier i j hi hflows with hj | hj
      · exact .inl hj
      · rcases List.mem_cons.mp hj with rfl | hj
        · exact .inl (hindex hflows.lt)
        · exact .inr hj)
    refine ⟨hseen, fun i hi hin => ?_, hclosed⟩
    rcases List.mem_cons.mp hi with rfl | hi
    · exact hseen i (hindex hin)
    · exact hwork i hi hin

/-- There is a mark for each instruction. -/
private theorem size_reached (p : Program) : p.reached.size = p.code.size := by
  rw [reached, size_markFrom, Array.size_replicate]

/-- **Marks are exact.** The instructions marked are those that can be reached from the first. -/
theorem reached_eq_some_true_iff :
    p.reached[i]? = some true ↔ i < p.code.size ∧ p.CanReach 0 i := by
  have hsize : (Array.replicate p.code.size false).size = p.code.size := Array.size_replicate
  have hnone : ∀ i : Nat, (Array.replicate p.code.size false)[i]? ≠ some true := by
    intro i
    rw [Array.getElem?_replicate]
    split <;> simp
  constructor
  · intro hi
    refine ⟨p.size_reached ▸ (Array.getElem?_eq_some_iff.mp hi).1, ?_⟩
    refine markFrom_induction hsize (fun _ _ hflows hreach => hreach.tail hflows)
      (fun j hj => absurd hj (hnone j)) (fun j hj _ => ?_) i hi
    rw [List.mem_singleton.mp hj]
    exact .refl
  · rintro ⟨hlt, hreach⟩
    obtain ⟨-, hwork, hclosed⟩ :=
      @markFrom_closed p _ [0] hsize fun i _ hi _ => absurd hi (hnone i)
    have hzero : p.reached[0]? = some true :=
      hwork 0 (List.mem_singleton.mpr rfl) (Nat.zero_lt_of_lt hlt)
    clear hlt
    induction hreach with
    | refl => exact hzero
    | tail _ hflows ih => exact hclosed _ _ ih hflows

/-- What is not marked cannot be reached. -/
private theorem reached_eq_some_false_iff :
    p.reached[i]? = some false ↔ i < p.code.size ∧ ¬p.CanReach 0 i := by
  have htrue := reached_eq_some_true_iff (p := p) (i := i)
  rcases Nat.lt_or_ge i p.code.size with hlt | hge
  · have hget := Array.getElem?_eq_getElem (p.size_reached.symm ▸ hlt)
    rw [hget, Option.some_inj] at htrue ⊢
    rw [← Bool.not_eq_true, htrue]
    tauto
  · have hnone : p.reached[i]? = none := Array.getElem?_eq_none (p.size_reached.symm ▸ hge)
    simp [hnone, Nat.not_lt.mpr hge]

/-- Where everything can be reached, nothing is counted as unreachable. -/
theorem unreachableCount_eq_zero (h : ∀ i < p.code.size, p.CanReach 0 i) :
    p.unreachableCount = 0 := by
  rw [unreachableCount, Array.count_eq_zero]
  intro hmem
  obtain ⟨i, hi⟩ := Array.mem_iff_getElem?.mp hmem
  obtain ⟨hlt, hdead⟩ := reached_eq_some_false_iff.mp hi
  exact hdead (h i hlt)

/-! ### Runs -/

/-- A step leads along the control flow, unless it leads out of the program. -/
private theorem flows_of_step {c c' : Config} (h : p.step c = .next c') :
    ∃ i < p.code.size, c.address = p.base.first + i ∧
      ∀ j < p.code.size, c'.address = p.base.first + j → p.Flows i j := by
  unfold step at h
  split at h
  next => cases h
  next instr hfetch =>
  unfold fetch? at hfetch
  split at hfetch
  next hle =>
    obtain ⟨hlt, -⟩ := Array.getElem?_eq_some_iff.mp hfetch
    refine ⟨c.address - p.base.first, hlt, by omega, fun j hj haddress => ?_⟩
    rcases Instr.address_of_perform h with ⟨hnext, r, hstraight⟩ | htarget
    · obtain rfl : j = c.address - p.base.first + 1 := by omega
      refine .next (r := r) ?_ hj
      rcases hstraight with rfl | rfl
      · exact .inl hfetch
      · exact .inr hfetch
    · exact .target hfetch (haddress ▸ htarget) hj
  next => cases hfetch

/-- A run that comes to an instruction has been at instructions all along. -/
private theorem Steps.exists_index {c c' : Config} (h : p.Steps n c c') (hlt : i < p.code.size)
    (hi : c'.address = p.base.first + i) : ∃ k < p.code.size, c.address = p.base.first + k := by
  cases h with
  | refl => exact ⟨i, hlt, hi⟩
  | head hstep _ =>
    obtain ⟨k, hk, hc, -⟩ := flows_of_step hstep
    exact ⟨k, hk, hc⟩

/-- Control flow leads wherever a run comes to an instruction. -/
theorem Steps.canReach {c c' : Config} (h : p.Steps n c c') (hk : c.address = p.base.first + k)
    (hlt : i < p.code.size) (hi : c'.address = p.base.first + i) : p.CanReach k i := by
  induction h generalizing k with
  | refl c =>
    obtain rfl : k = i := by omega
    exact .refl
  | head hstep hrest ih =>
    obtain ⟨k', -, hk', hflows⟩ := flows_of_step hstep
    obtain rfl : k = k' := by omega
    obtain ⟨k₁, hlt₁, hk₁⟩ := hrest.exists_index hlt hi
    exact .head (hflows k₁ hlt₁ hk₁) (ih hk₁ hi)

/-! ### Counting -/

private theorem count_false_eq_card (l : List Bool) :
    l.count false = ((Finset.range l.length).filter fun i => l[i]? = some false).card := by
  induction l using List.reverseRecOn with
  | nil => rfl
  | append_singleton l b ih =>
    have hfilter : ((Finset.range l.length).filter fun i => (l ++ [b])[i]? = some false) =
        (Finset.range l.length).filter fun i => l[i]? = some false :=
      Finset.filter_congr fun i hi => by rw [List.getElem?_append_left (Finset.mem_range.mp hi)]
    rw [List.count_append, List.length_append, List.length_singleton, Finset.range_add_one,
      Finset.filter_insert, List.getElem?_concat_length, hfilter, ih]
    cases b with
    | false => simp
    | true => simp

/-- The count of unreachable instructions is the number of them. -/
private theorem unreachableCount_eq_ncard (p : Program) :
    p.unreachableCount = {i | i < p.code.size ∧ ¬p.CanReach 0 i}.ncard := by
  have hset : {i | i < p.code.size ∧ ¬p.CanReach 0 i} =
      (((Finset.range p.reached.toList.length).filter fun i =>
        p.reached.toList[i]? = some false : Finset Nat) : Set Nat) := by
    ext i
    simp only [Set.mem_ofPred_eq, Finset.coe_filter, Finset.mem_range, Array.length_toList,
      Array.getElem?_toList, size_reached, reached_eq_some_false_iff]
    tauto
  rw [hset, Set.ncard_coe_finset, unreachableCount, ← Array.count_toList, count_false_eq_card]

/-- **The count of dead instructions is exact.** Marking is over after two rounds for each
instruction and one more; the list of what is still to be looked at is empty then. The number of
instructions without a mark is the number of those that cannot be reached from the first one. No run
ever comes to one of them, from whatever registers it starts and however long it is. -/
theorem unreachableCount_exact (p : Program) :
    p.sweep^[2 * p.code.size + 1] (Array.replicate p.code.size false, [0]) = (p.reached, []) ∧
    p.unreachableCount = {i | i < p.code.size ∧ ¬p.CanReach 0 i}.ncard ∧
    (∀ i : Nat, p.reached[i]? = some false ↔ i < p.code.size ∧ ¬p.CanReach 0 i) ∧
    ∀ (file : File) (n : Nat) (c : Config), p.Steps n (p.start file) c → ∀ i,
      c.address = p.base.first + i → p.reached[i]? ≠ some false := by
  refine ⟨iterate_sweep ?_, p.unreachableCount_eq_ncard, fun i => reached_eq_some_false_iff, ?_⟩
  · rw [Array.count_replicate_self]
    rfl
  · intro file n c hsteps i hi hdead
    obtain ⟨hlt, hunreached⟩ := reached_eq_some_false_iff.mp hdead
    exact hunreached (hsteps.canReach (Nat.add_zero _).symm hlt hi)

end Program

end Abacus.Machine
