import Abacus.Proofs.Requests

/-!
# The registers of a pool after any requests

However a fresh pool was used, it is described by three numbers: how many registers belong to
variables, how many scratch registers are in use, and the highest register that was handed out. The
registers in use and the free ones are two intervals of register numbers, and they decide which
request is granted next (`RegisterPool.afterAll_fresh`). A request that is refused changes nothing.

The invariant is `RegisterPool.Packed`; it holds of a fresh pool, one request keeps it
(`RegisterPool.Packed.after`), and so do any number of them (`RegisterPool.Packed.afterAll`).
-/

namespace Abacus.RegisterPool

open Machine (Register)

variable {pool pool' : RegisterPool} {used : Nat} {r : Register} {d : Diagnostic}

/-! ### What no request changes -/

private theorem takeNamed_error {name : String} (h : takeNamed name pool = .error d pool') :
    pool' = pool := by
  rw [takeNamed_eq] at h
  split at h
  · cases h
    rfl
  · split at h <;> cases h
    rfl

private theorem release_error (h : RegisterPool.release r pool = .error d pool') :
    pool' = pool := by
  rcases release_cases pool r with ⟨rest, -, -, hrelease⟩ | ⟨conflict, hrelease⟩
  · cases hrelease.symm.trans h
  · cases hrelease.symm.trans h
    rfl

private theorem capacity_after (pool : RegisterPool) (q : Request) :
    (pool.after q).capacity = pool.capacity := by
  cases q with
  | named name =>
    have heq := takeNamed_eq pool name
    by_cases hlate : pool.named < pool.highWater
    · rw [after, leaves_of_error (heq.trans (if_pos hlate))]
    by_cases hroom : pool.capacity < pool.named + 1
    · rw [after, leaves_of_error (heq.trans ((if_neg hlate).trans (if_pos hroom)))]
    · rw [after, leaves_of_ok (heq.trans ((if_neg hlate).trans (if_neg hroom)))]
  | scratch =>
    cases hfree : pool.free with
    | nil =>
      have heq := takeScratch_of_free_nil hfree
      by_cases hroom : pool.capacity < pool.highWater + 1
      · rw [after, leaves_of_error (heq.trans (if_pos hroom))]
      · rw [after, leaves_of_ok (heq.trans (if_neg hroom))]
    | cons r free => rw [after, leaves_of_ok (takeScratch_of_free hfree)]
  | release r =>
    rcases release_cases pool r with ⟨rest, -, -, hrelease⟩ | ⟨conflict, hrelease⟩
    · rw [after, leaves_of_ok hrelease]
    · rw [after, leaves_of_error hrelease]

private theorem capacity_afterAll (pool : RegisterPool) (requests : List Request) :
    (pool.afterAll requests).capacity = pool.capacity := by
  induction requests generalizing pool with
  | nil => rfl
  | cons q requests ih => exact (ih (pool.after q)).trans (pool.capacity_after q)

/-! ### What is granted -/

namespace Packed

/-- Any number of requests leave a pool packed. -/
theorem afterAll (h : pool.Packed used) (requests : List Request) :
    ∃ used', (pool.afterAll requests).Packed used' := by
  induction requests generalizing pool used with
  | nil => exact ⟨used, h⟩
  | cons q requests ih =>
    obtain ⟨_, hpacked, -⟩ := h.after q
    exact ih hpacked

/-- The registers in use are the variables' and the scratch registers handed out. -/
theorem used_eq (h : pool.Packed used) : used = pool.named + pool.live.length := by
  have hle := h.named_le
  rw [h.length_live]
  omega

private theorem takeScratch_ok_iff (h : pool.Packed used) :
    (∃ pool', takeScratch pool = .ok r pool') ↔ r = ⟨used + 1⟩ ∧ used < pool.capacity := by
  constructor
  · rintro ⟨pool', htake⟩
    obtain ⟨hr, hpacked, hgrows⟩ := h.of_takeScratch htake
    exact ⟨hr, hgrows.capacity ▸ Nat.le_trans hpacked.used_le hpacked.highWater_le⟩
  · rintro ⟨rfl, hroom⟩
    have hfree := h.free
    rcases Nat.lt_or_ge used pool.highWater with hlt | hge
    · rw [registersBetween_eq_cons hlt] at hfree
      exact ⟨_, takeScratch_of_free hfree⟩
    · -- all registers handed out so far are in use, and there is one more
      obtain rfl : used = pool.highWater := Nat.le_antisymm h.used_le hge
      rw [registersBetween_self] at hfree
      exact ⟨_, (takeScratch_of_free_nil hfree).trans (if_neg (Nat.not_lt.mpr hroom))⟩

private theorem release_ok_iff (h : pool.Packed used) :
    (∃ pool', RegisterPool.release r pool = .ok () pool') ↔ pool.named < used ∧ r = ⟨used⟩ := by
  constructor
  · rintro ⟨pool', hok⟩
    rcases release_cases pool r with ⟨rest, -, hlive, -⟩ | ⟨conflict, hrelease⟩
    · have hmem : r ∈ pool.live.head? := by rw [hlive]; rfl
      rw [h.live, List.head?_reverse] at hmem
      have hlt : pool.named < used := by
        refine Nat.lt_of_le_of_ne h.named_le fun heq => ?_
        rw [heq, registersBetween_self] at hmem
        cases hmem
      obtain ⟨n, rfl⟩ : ∃ n, used = n + 1 := ⟨used - 1, by omega⟩
      rw [registersBetween_succ (Nat.le_of_lt_succ hlt), List.getLast?_concat] at hmem
      exact ⟨hlt, (Option.some.inj hmem).symm⟩
    · cases hrelease.symm.trans hok
  · rintro ⟨hlt, rfl⟩
    obtain ⟨n, rfl⟩ : ∃ n, used = n + 1 := ⟨used - 1, by omega⟩
    have hnamed : pool.named ≤ n := Nat.le_of_lt_succ hlt
    have hlive := h.live
    rw [registersBetween_succ hnamed, List.reverse_append] at hlive
    have hscratch : pool.isNamed ⟨n + 1⟩ = false := by
      simp only [isNamed, decide_eq_false_iff_not]
      omega
    exact ⟨_, release_of_live hscratch hlive⟩

end Packed

private theorem takeNamed_ok_iff {name : String} :
    (∃ r pool', takeNamed name pool = .ok r pool') ↔
      pool.highWater ≤ pool.named ∧ pool.named < pool.capacity := by
  rw [takeNamed_eq]
  split
  next hlate => simp [Nat.not_le.mpr hlate]
  next hearly =>
    split
    next hroom => simp [Nat.not_lt.mpr (Nat.le_of_lt_succ hroom)]
    next hroom => simpa using ⟨Nat.not_lt.mp hearly, Nat.not_lt.mp hroom⟩

/-- **A pool after any requests.** Let `named` registers belong to variables and let there be a
number of scratch registers in use, in whatever way the pool came there. The scratch registers in
use are those right after the variables' registers, and those that were given back come after them,
up to the highest register that was ever handed out; both lists have the latest register first. That
highest register is one of the pool, and there are as many scratch registers up to it as were ever
in use at once.

So the next scratch register is the one after those in use, as long as there is one; only the latest
scratch register in use can be given back; and a variable gets a register exactly if there is one
left and no scratch register was ever handed out. A refused request leaves the pool as it was. -/
theorem afterAll_fresh (capacity : Nat) (requests : List Request) :
    let pool := ({ capacity } : RegisterPool).afterAll requests
    let used := pool.named + pool.live.length
    let peak := ({ capacity } : RegisterPool).peak requests
    (pool.live = (registersBetween pool.named used).reverse ∧
      pool.free = registersBetween used pool.highWater ∧
      used ≤ pool.highWater ∧ pool.highWater ≤ capacity ∧
      pool.highWater = pool.named + peak) ∧
    (∀ r, (∃ pool', takeScratch pool = .ok r pool') ↔ r = ⟨used + 1⟩ ∧ used < capacity) ∧
    (∀ r, (∃ pool', RegisterPool.release r pool = .ok () pool') ↔
      0 < pool.live.length ∧ r = ⟨used⟩) ∧
    (∀ name, (∃ r pool', takeNamed name pool = .ok r pool') ↔ peak = 0 ∧ pool.named < capacity) ∧
    (∀ name d pool', takeNamed name pool = .error d pool' → pool' = pool) ∧
    (∀ d pool', takeScratch pool = .error d pool' → pool' = pool) ∧
    ∀ r d pool', RegisterPool.release r pool = .error d pool' → pool' = pool := by
  intro pool used peak
  obtain ⟨used', hpacked⟩ := (packed_withNamed (Nat.zero_le capacity)).afterAll requests
  obtain rfl : used' = used := hpacked.used_eq
  have hcapacity : pool.capacity = capacity := capacity_afterAll _ requests
  have hnamed : pool.named ≤ pool.highWater := Nat.le_trans hpacked.named_le hpacked.used_le
  have hpeak : pool.highWater = pool.named + peak := by
    have hscratch : pool.highWater - pool.named = peak := scratch_eq_peak_of_fresh capacity requests
    omega
  refine ⟨⟨hpacked.live, hpacked.free, hpacked.used_le, hcapacity ▸ hpacked.highWater_le, hpeak⟩,
    fun r => hcapacity ▸ hpacked.takeScratch_ok_iff, fun r => ?_, fun name => ?_,
    fun _ _ _ => takeNamed_error, fun _ _ => takeScratch_error, fun _ _ _ => release_error⟩
  · refine hpacked.release_ok_iff.trans (and_congr_left fun _ => ?_)
    exact Nat.lt_add_right_iff_pos
  · rw [takeNamed_ok_iff, hcapacity]
    refine and_congr_left fun _ => ?_
    omega

end Abacus.RegisterPool
