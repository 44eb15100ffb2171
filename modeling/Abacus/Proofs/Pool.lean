import Abacus.RegisterPool
import Abacus.Proofs.Actions

/-!
# The registers of a pool

Because scratch registers come back in nested order, a pool is described by three numbers: how many
registers belong to variables, how many are in use, and how many were ever handed out. The scratch
registers in use are those up to the second number, the free ones are those between the second and
the third, and the next one handed out is the one after those in use (`RegisterPool.Packed`).
-/

namespace Abacus

open Machine (Register)

/-- The registers numbered after `first` up to `last`. -/
def registersBetween (first last : Nat) : List Register :=
  (List.range' (first + 1) (last - first)).map Register.mk

@[simp]
theorem registersBetween_self (n : Nat) : registersBetween n n = [] := by
  simp [registersBetween]

/-- The first register between two numbers, and then the others. -/
theorem registersBetween_eq_cons {first last : Nat} (h : first < last) :
    registersBetween first last = ⟨first + 1⟩ :: registersBetween (first + 1) last := by
  have hcount : last - first = last - (first + 1) + 1 := by omega
  rw [registersBetween, hcount, List.range'_succ, List.map_cons, registersBetween]

/-- The last register between two numbers comes after the others. -/
theorem registersBetween_succ {first last : Nat} (h : first ≤ last) :
    registersBetween first (last + 1) = registersBetween first last ++ [⟨last + 1⟩] := by
  have hcount : last + 1 - first = last - first + 1 := by omega
  have hnext : first + 1 + (last - first) = last + 1 := by omega
  rw [registersBetween, hcount, List.range'_1_concat, hnext, List.map_append, registersBetween]
  rfl

/-- The registers between two numbers are those with a larger number than the first, up to the
second. -/
@[simp]
theorem mem_registersBetween {first last : Nat} {r : Register} :
    r ∈ registersBetween first last ↔ first < r.id ∧ r.id ≤ last := by
  obtain ⟨n⟩ := r
  simp only [registersBetween, List.mem_map, List.mem_range'_1, Register.mk.injEq,
    exists_eq_right]
  omega

theorem nodup_registersBetween (first last : Nat) : (registersBetween first last).Nodup :=
  List.Pairwise.map _ (fun a b (hne : a ≠ b) heq => hne (congrArg Register.id heq))
    List.nodup_range'

namespace RegisterPool

/-- A pool of which only variables have taken registers. -/
def withNamed (capacity named : Nat) : RegisterPool :=
  { capacity, named, highWater := named }

/-- A register for a variable is the next one, unless there are none left. -/
theorem yields_takeNamed (capacity named : Nat) (name : String) :
    Yields (· = .poolExhausted (named + 1) capacity none) (takeNamed name)
      (withNamed capacity named) fun r pool =>
      r = ⟨named + 1⟩ ∧ pool = withNamed capacity (named + 1) ∧ named + 1 ≤ capacity := by
  unfold takeNamed
  refine .guard (fun h => absurd h (Nat.lt_irrefl named)) fun _ => ?_
  refine .guard (fun _ => rfl) fun h => ?_
  exact ⟨rfl, rfl, Nat.not_lt.mp h⟩

/-- The pool's registers up to `used` are in use, and those up to its high-water mark were. -/
structure Packed (pool : RegisterPool) (used : Nat) : Prop where
  named_le : pool.named ≤ used
  used_le : used ≤ pool.highWater
  highWater_le : pool.highWater ≤ pool.capacity
  live : pool.live = (registersBetween pool.named used).reverse
  free : pool.free = registersBetween used pool.highWater

/-- A pool after more registers were handed out and taken back. -/
structure Grows (pool pool' : RegisterPool) : Prop where
  capacity : pool'.capacity = pool.capacity
  named : pool'.named = pool.named
  highWater : pool.highWater ≤ pool'.highWater

theorem Grows.refl (pool : RegisterPool) : pool.Grows pool := ⟨rfl, rfl, Nat.le_refl _⟩

theorem Grows.trans {a b c : RegisterPool} (h : a.Grows b) (h' : b.Grows c) : a.Grows c :=
  ⟨h'.capacity.trans h.capacity, h'.named.trans h.named, Nat.le_trans h.highWater h'.highWater⟩

variable {pool : RegisterPool} {used : Nat}

/-- A register that was given back is handed out again first. -/
theorem takeScratch_of_free {r : Register} {free : List Register} (h : pool.free = r :: free) :
    takeScratch pool = .ok r { pool with free, live := r :: pool.live } := by
  obtain ⟨capacity, named, highWater, _, live⟩ := pool
  obtain rfl := h
  rfl

/-- If none was given back, the next new one is handed out, unless there are none left. -/
theorem takeScratch_of_free_nil (h : pool.free = []) :
    takeScratch pool =
      if pool.capacity < pool.highWater + 1 then
        .error (.poolExhausted (pool.highWater + 1) pool.capacity none) pool
      else
        .ok ⟨pool.highWater + 1⟩
          { pool with
            highWater := pool.highWater + 1
            live := ⟨pool.highWater + 1⟩ :: pool.live } := by
  obtain ⟨capacity, named, highWater, _, live⟩ := pool
  obtain rfl := h
  by_cases hroom : capacity < highWater + 1
  · rw [if_pos hroom]
    exact congrFun (if_pos hroom) _
  · rw [if_neg hroom]
    exact congrFun (if_neg hroom) _

/-- The last scratch register that was taken can be given back. -/
theorem release_of_live {r : Register} {rest : List Register} (hnamed : pool.isNamed r = false)
    (h : pool.live = r :: rest) :
    release r pool = .ok () { pool with free := r :: pool.free, live := rest } := by
  obtain ⟨capacity, named, highWater, free, _⟩ := pool
  obtain rfl := h
  have hnamed : ¬ isNamed _ r = true := Bool.eq_false_iff.mp hnamed
  exact (congrFun (if_neg hnamed) _).trans (congrFun (if_pos rfl) _)

/-- The next scratch register is the one after those in use, whether it is a new one or not. -/
theorem Packed.yields_takeScratch (h : pool.Packed used) :
    Yields (· = .poolExhausted (used + 1) pool.capacity none) takeScratch pool fun r pool' =>
      r = ⟨used + 1⟩ ∧ pool'.Packed (used + 1) ∧ pool.Grows pool' := by
  have hlive : ⟨used + 1⟩ :: pool.live = (registersBetween pool.named (used + 1)).reverse := by
    rw [h.live, registersBetween_succ h.named_le, List.reverse_append]
    rfl
  have hfree := h.free
  rcases Nat.lt_or_ge used pool.highWater with hlt | hge
  · -- a register that was given back is handed out again
    rw [registersBetween_eq_cons hlt] at hfree
    rw [Yields, takeScratch_of_free hfree]
    exact ⟨rfl, ⟨Nat.le_succ_of_le h.named_le, hlt, h.highWater_le, hlive, rfl⟩,
      rfl, rfl, Nat.le_refl _⟩
  · -- none was, so the high-water mark goes up
    obtain rfl : used = pool.highWater := Nat.le_antisymm h.used_le hge
    rw [registersBetween_self] at hfree
    rw [Yields, takeScratch_of_free_nil hfree]
    by_cases hroom : pool.capacity < pool.highWater + 1
    · rw [if_pos hroom]
    · rw [if_neg hroom]
      exact ⟨rfl, ⟨Nat.le_succ_of_le h.named_le, Nat.le_refl _, Nat.not_lt.mp hroom, hlive,
        hfree.trans (registersBetween_self _).symm⟩, rfl, rfl, Nat.le_succ _⟩

/-- The latest scratch register may be given back. -/
theorem Packed.yields_release (h : pool.Packed (used + 1)) (hnamed : pool.named ≤ used)
    (fails : Diagnostic → Prop) :
    Yields fails (release ⟨used + 1⟩) pool fun _ pool' => pool'.Packed used ∧ pool.Grows pool' := by
  have hlive := h.live
  rw [registersBetween_succ hnamed, List.reverse_append] at hlive
  have hscratch : pool.isNamed ⟨used + 1⟩ = false := by
    simp only [isNamed, decide_eq_false_iff_not]
    omega
  rw [Yields, release_of_live hscratch hlive]
  refine ⟨⟨hnamed, Nat.le_of_succ_le h.used_le, h.highWater_le, rfl, ?_⟩, rfl, rfl, Nat.le_refl _⟩
  rw [h.free, ← registersBetween_eq_cons h.used_le]

/-- When the variables are declared, their registers are in use and no others. -/
theorem packed_withNamed {capacity named : Nat} (h : named ≤ capacity) :
    (withNamed capacity named).Packed named where
  named_le := Nat.le_refl _
  used_le := Nat.le_refl _
  highWater_le := h
  live := by simp [withNamed]
  free := by simp [withNamed]

/-- Once no scratch register is in use, the register file reaches up to the high-water mark. -/
theorem Packed.finish (h : pool.Packed pool.named) : pool.finish = .ok pool.highWater := by
  have hlive := h.live
  rw [registersBetween_self] at hlive
  simp [RegisterPool.finish, hlive]

end RegisterPool

end Abacus
