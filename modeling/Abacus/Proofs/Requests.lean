import Abacus.Proofs.Pool

/-!
# Requests to a register pool

A pool is used by asking for registers and giving them back. `RegisterPool.after` is the pool that a
request leaves, whether or not the request is granted, and `RegisterPool.peak` the largest number of
scratch registers that are in use at once in the course of some requests. Since a register that was
given back is handed out again before a new one is taken, the scratch registers that a pool has
handed out are as many as were ever in use at once (`RegisterPool.Packed.scratch_eq_peak`).

What a request does depends on the capacity of the pool only in whether there is a register left
(`RegisterPool.takeScratch_withCapacity` and its neighbours).
-/

namespace Abacus

open Machine (Register)

namespace RegisterPool

/-- What a pool can be asked for. -/
inductive Request where
  /-- The next register, for a variable. -/
  | named (name : String)
  /-- A scratch register. -/
  | scratch
  /-- To take back a scratch register. -/
  | release (r : Register)
  deriving DecidableEq, Repr

/-- The state that an action leaves, also when it fails. -/
def leaves {α : Type} (act : EStateM Diagnostic RegisterPool α) (pool : RegisterPool) :
    RegisterPool :=
  match act pool with
  | .ok _ pool' => pool'
  | .error _ pool' => pool'

/-- The pool after a request. -/
def after (pool : RegisterPool) : Request → RegisterPool
  | .named name => leaves (takeNamed name) pool
  | .scratch => leaves takeScratch pool
  | .release r => leaves (RegisterPool.release r) pool

/-- The pool after requests in a row. -/
def afterAll (pool : RegisterPool) (requests : List Request) : RegisterPool :=
  requests.foldl after pool

/-- The largest number of scratch registers in use at once, before, between and after requests. -/
def peak (pool : RegisterPool) : List Request → Nat
  | [] => pool.live.length
  | q :: requests => max pool.live.length ((pool.after q).peak requests)

/-- Some requests and then some more. -/
theorem afterAll_append (pool : RegisterPool) (requests requests' : List Request) :
    pool.afterAll (requests ++ requests') = (pool.afterAll requests).afterAll requests' :=
  List.foldl_append ..

variable {pool pool' : RegisterPool} {used : Nat} {r : Register}

theorem leaves_of_ok {α : Type} {act : EStateM Diagnostic RegisterPool α} {a : α}
    (h : act pool = .ok a pool') : leaves act pool = pool' := by
  rw [leaves, h]

theorem leaves_of_error {α : Type} {act : EStateM Diagnostic RegisterPool α} {d : Diagnostic}
    (h : act pool = .error d pool') : leaves act pool = pool' := by
  rw [leaves, h]

/-! ### What each request does -/

/-- A register for a variable is the next one, as long as no scratch register was handed out and
there are enough. -/
theorem takeNamed_eq (pool : RegisterPool) (name : String) :
    takeNamed name pool =
      if pool.named < pool.highWater then
        .error (.conflict ⟨pool.highWater⟩ (.lateVariable name)) pool
      else if pool.capacity < pool.named + 1 then
        .error (.poolExhausted (pool.named + 1) pool.capacity none) pool
      else
        .ok ⟨pool.named + 1⟩
          { pool with named := pool.named + 1, highWater := pool.named + 1 } := by
  by_cases hlate : pool.named < pool.highWater
  · rw [if_pos hlate]
    exact congrFun (if_pos hlate) _
  · rw [if_neg hlate]
    by_cases hroom : pool.capacity < pool.named + 1
    · rw [if_pos hroom]
      exact (congrFun (if_neg hlate) _).trans (congrFun (if_pos hroom) _)
    · rw [if_neg hroom]
      exact (congrFun (if_neg hlate) _).trans (congrFun (if_neg hroom) _)

/-- In a pool of variables only, a register for one more is the next one if there is one. -/
theorem takeNamed_withNamed (capacity named : Nat) (name : String) :
    takeNamed name (withNamed capacity named) =
      if capacity < named + 1 then
        .error (.poolExhausted (named + 1) capacity none) (withNamed capacity named)
      else .ok ⟨named + 1⟩ (withNamed capacity (named + 1)) :=
  (takeNamed_eq _ name).trans (if_neg (Nat.lt_irrefl named))

/-- A scratch register is taken back if it is the latest one in use, and nothing else is. -/
theorem release_cases (pool : RegisterPool) (r : Register) :
    (∃ rest, pool.isNamed r = false ∧ pool.live = r :: rest ∧
        RegisterPool.release r pool = .ok () { pool with free := r :: pool.free, live := rest }) ∨
      ∃ conflict, RegisterPool.release r pool = .error (.conflict r conflict) pool := by
  obtain ⟨capacity, named, highWater, free, live⟩ := pool
  by_cases hnamed : isNamed ⟨capacity, named, highWater, free, live⟩ r = true
  · exact .inr ⟨_, congrFun (if_pos hnamed) _⟩
  · cases live with
    | nil => exact .inr ⟨_, congrFun (if_neg hnamed) _⟩
    | cons top rest =>
      by_cases htop : top = r
      · subst htop
        exact .inl ⟨rest, Bool.eq_false_iff.mpr hnamed, rfl,
          release_of_live (Bool.eq_false_iff.mpr hnamed) rfl⟩
      · by_cases hmem : r ∈ rest
        · exact .inr ⟨_, (congrFun (if_neg hnamed) _).trans
            ((congrFun (if_neg htop) _).trans (congrFun (if_pos hmem) _))⟩
        · exact .inr ⟨_, (congrFun (if_neg hnamed) _).trans
            ((congrFun (if_neg htop) _).trans (congrFun (if_neg hmem) _))⟩

/-! ### Scratch registers in use at once -/

/-- How many registers there are between two numbers. -/
private theorem length_registersBetween (first last : Nat) :
    (registersBetween first last).length = last - first := by
  simp [registersBetween]

/-- Where registers are packed, those in use are the ones after the variables'. -/
theorem Packed.length_live (h : pool.Packed used) : pool.live.length = used - pool.named := by
  rw [h.live, List.length_reverse, length_registersBetween]

/-- The scratch registers handed out are as many as the pool had handed out before or has in use
now. -/
def Accounts (pool pool' : RegisterPool) : Prop :=
  pool'.highWater - pool'.named = max (pool.highWater - pool.named) pool'.live.length

/-- A pool accounts for itself. -/
private theorem Packed.accounts_self (h : pool.Packed used) : pool.Accounts pool := by
  have hle := h.used_le
  rw [Accounts, h.length_live]
  omega

/-- Registers stay packed when one for a variable is requested. -/
private theorem Packed.after_named (h : pool.Packed used) (name : String) :
    ∃ used', (pool.after (.named name)).Packed used' ∧
      pool.Accounts (pool.after (.named name)) := by
  have heq := takeNamed_eq pool name
  by_cases hlate : pool.named < pool.highWater
  · rw [if_pos hlate] at heq
    rw [after, leaves_of_error heq]
    exact ⟨used, h, h.accounts_self⟩
  by_cases hroom : pool.capacity < pool.named + 1
  · rw [if_neg hlate, if_pos hroom] at heq
    rw [after, leaves_of_error heq]
    exact ⟨used, h, h.accounts_self⟩
  · -- no scratch register was handed out yet
    rw [if_neg hlate, if_neg hroom] at heq
    rw [after, leaves_of_ok heq]
    obtain rfl : used = pool.named := by
      have hle := h.named_le
      have hle' := h.used_le
      omega
    have hhigh : pool.highWater = pool.named := by
      have hle := h.used_le
      omega
    have hlive := h.live
    have hfree := h.free
    rw [hhigh] at hfree
    refine ⟨pool.named + 1, ⟨Nat.le_refl _, Nat.le_refl _, Nat.not_lt.mp hroom, ?_, ?_⟩, ?_⟩
    · simpa using hlive
    · simpa using hfree
    · simp [Accounts, hhigh, hlive]

/-- The exact high-water mark after a scratch register was handed out. -/
private theorem Packed.highWater_takeScratch (h : pool.Packed used)
    (htake : takeScratch pool = .ok r pool') :
    pool'.highWater = max pool.highWater (used + 1) := by
  have hfree := h.free
  rcases Nat.lt_or_ge used pool.highWater with hlt | hge
  · rw [registersBetween_eq_cons hlt] at hfree
    rw [takeScratch_of_free hfree] at htake
    cases htake
    dsimp only
    omega
  · obtain rfl : used = pool.highWater := Nat.le_antisymm h.used_le hge
    rw [registersBetween_self] at hfree
    rw [takeScratch_of_free_nil hfree] at htake
    split at htake
    · cases htake
    · cases htake
      dsimp only
      omega

/-- A request for a scratch register that fails changes nothing. -/
theorem takeScratch_error {d : Diagnostic} (h : takeScratch pool = .error d pool') :
    pool' = pool := by
  cases hfree : pool.free with
  | nil =>
    rw [takeScratch_of_free_nil hfree] at h
    split at h <;> cases h
    rfl
  | cons r free =>
    rw [takeScratch_of_free hfree] at h
    cases h

/-- A scratch register is the next one after those in use. -/
theorem Packed.of_takeScratch (h : pool.Packed used) (htake : takeScratch pool = .ok r pool') :
    r = ⟨used + 1⟩ ∧ pool'.Packed (used + 1) ∧ pool.Grows pool' := by
  have hyields := h.yields_takeScratch
  rwa [Yields, htake] at hyields

/-- The last scratch register is the one to give back. -/
theorem Packed.of_release (h : pool.Packed (used + 1)) (hnamed : pool.named ≤ used)
    (hrelease : RegisterPool.release ⟨used + 1⟩ pool = .ok () pool') :
    pool'.Packed used ∧ pool.Grows pool' := by
  have hyields := h.yields_release hnamed fun _ => False
  rwa [Yields, hrelease] at hyields

/-- Registers stay packed when a scratch register is requested. -/
private theorem Packed.after_scratch (h : pool.Packed used) :
    ∃ used', (pool.after .scratch).Packed used' ∧ pool.Accounts (pool.after .scratch) := by
  cases htake : takeScratch pool with
  | error d pool' =>
    obtain rfl := takeScratch_error htake
    rw [after, leaves_of_error htake]
    exact ⟨used, h, h.accounts_self⟩
  | ok r pool' =>
    obtain ⟨-, hpacked, hgrows⟩ := h.of_takeScratch htake
    rw [after, leaves_of_ok htake]
    refine ⟨used + 1, hpacked, ?_⟩
    have hle := h.named_le
    have hhigh := h.highWater_takeScratch htake
    rw [Accounts, hpacked.length_live, hgrows.named, hhigh]
    omega

/-- Registers stay packed when one is given back, if it can be. -/
private theorem Packed.after_release (h : pool.Packed used) (r : Register) :
    ∃ used', (pool.after (.release r)).Packed used' ∧
      pool.Accounts (pool.after (.release r)) := by
  rcases release_cases pool r with ⟨rest, hscratch, hlive, hrelease⟩ | ⟨conflict, hrelease⟩
  · -- the register is the latest in use
    have hpos : pool.named < used := by
      have hlength := h.length_live
      rw [hlive, List.length_cons] at hlength
      omega
    obtain ⟨used, rfl⟩ : ∃ n, used = n + 1 := ⟨used - 1, by omega⟩
    have hnamed : pool.named ≤ used := Nat.le_of_lt_succ hpos
    have hr : r = ⟨used + 1⟩ := by
      have hlive' := h.live
      rw [registersBetween_succ hnamed, List.reverse_append, hlive] at hlive'
      exact (List.cons.inj hlive').1
    subst hr
    obtain ⟨hpacked, -⟩ := h.of_release hnamed hrelease
    rw [after, leaves_of_ok hrelease]
    refine ⟨used, hpacked, ?_⟩
    have hle := h.used_le
    rw [Accounts, hpacked.length_live]
    dsimp only
    omega
  · rw [after, leaves_of_error hrelease]
    exact ⟨used, h, h.accounts_self⟩

/-- **One request.** The pool stays packed, and it hands out a new scratch register only when all
that it handed out before are in use. -/
theorem Packed.after (h : pool.Packed used) (q : Request) :
    ∃ used', (pool.after q).Packed used' ∧ pool.Accounts (pool.after q) := by
  cases q with
  | named name => exact h.after_named name
  | scratch => exact h.after_scratch
  | release r => exact h.after_release r

/-- The registers in use are no more than at the peak. -/
private theorem length_live_le_peak (pool : RegisterPool) (requests : List Request) :
    pool.live.length ≤ pool.peak requests := by
  cases requests with
  | nil => exact Nat.le_refl _
  | cons q requests => exact Nat.le_max_left _ _

/-- **Any requests.** The scratch registers that a pool has handed out are as many as it had handed
out before, or as were ever in use at once since. -/
theorem Packed.scratch_eq_peak (h : pool.Packed used) (requests : List Request) :
    (pool.afterAll requests).highWater - (pool.afterAll requests).named =
      max (pool.highWater - pool.named) (pool.peak requests) := by
  induction requests generalizing pool used with
  | nil => exact h.accounts_self
  | cons q requests ih =>
    obtain ⟨used', hpacked, haccounts⟩ := h.after q
    have hlive : pool.live.length ≤ pool.highWater - pool.named := by
      have hle := h.used_le
      rw [h.length_live]
      omega
    have hpeak := (pool.after q).length_live_le_peak requests
    rw [Accounts] at haccounts
    change ((pool.after q).afterAll requests).highWater -
      ((pool.after q).afterAll requests).named = _
    rw [ih hpacked, haccounts, peak]
    omega

/-- From the start on, they are as many as were ever in use at once. -/
theorem scratch_eq_peak_of_fresh (capacity : Nat) (requests : List Request) :
    (({ capacity } : RegisterPool).afterAll requests).highWater -
        (({ capacity } : RegisterPool).afterAll requests).named =
      ({ capacity } : RegisterPool).peak requests :=
  ((packed_withNamed (Nat.zero_le capacity)).scratch_eq_peak requests).trans (Nat.zero_max _)

/-- As many variables as there are registers for get one each. -/
theorem afterAll_named {capacity named : Nat} (names : List String)
    (h : named + names.length ≤ capacity) :
    (withNamed capacity named).afterAll (names.map .named) =
      withNamed capacity (named + names.length) := by
  induction names generalizing named with
  | nil => rfl
  | cons name names ih =>
    rw [List.length_cons] at h ⊢
    have htake := (takeNamed_withNamed capacity named name).trans (if_neg (by omega))
    change ((withNamed capacity named).after (.named name)).afterAll (names.map .named) = _
    rw [after, leaves_of_ok htake, ih (by omega), Nat.add_assoc, Nat.add_comm 1]

/-! ### Other capacities -/

/-- The pool with another number of registers. -/
def withCapacity (pool : RegisterPool) (n : Nat) : RegisterPool := { pool with capacity := n }

/-- A scratch register that was handed out is handed out under any other capacity too, unless it is
one more than there are. -/
theorem takeScratch_withCapacity (h : takeScratch pool = .ok r pool') {n : Nat}
    (hn : pool.highWater ≤ n) :
    takeScratch (pool.withCapacity n) =
      if pool'.highWater ≤ n then .ok r (pool'.withCapacity n)
      else .error (.poolExhausted (n + 1) n none) (pool.withCapacity n) := by
  cases hfree : pool.free with
  | cons r' free =>
    rw [takeScratch_of_free hfree] at h
    cases h
    have hfree' : (pool.withCapacity n).free = r :: free := hfree
    rw [takeScratch_of_free hfree', if_pos hn]
    rfl
  | nil =>
    have hfree' : (pool.withCapacity n).free = [] := hfree
    rw [takeScratch_of_free_nil hfree] at h
    rw [takeScratch_of_free_nil hfree']
    split at h
    · cases h
    · cases h
      by_cases hroom : n < pool.highWater + 1
      · -- every register there is has been handed out
        obtain rfl : n = pool.highWater := by omega
        rw [if_neg (Nat.not_succ_le_self _)]
        exact if_pos hroom
      · rw [if_pos (Nat.not_lt.mp hroom)]
        exact if_neg hroom

theorem highWater_le_of_takeScratch (h : takeScratch pool = .ok r pool') :
    pool.highWater ≤ pool'.highWater := by
  cases hfree : pool.free with
  | cons r' free =>
    rw [takeScratch_of_free hfree] at h
    cases h
    exact Nat.le_refl _
  | nil =>
    rw [takeScratch_of_free_nil hfree] at h
    split at h
    · cases h
    · cases h
      exact Nat.le_succ _

/-- A register is given back whatever the capacity. -/
theorem release_withCapacity (h : RegisterPool.release r pool = .ok () pool') :
    pool'.highWater = pool.highWater ∧
      ∀ n, RegisterPool.release r (pool.withCapacity n) = .ok () (pool'.withCapacity n) := by
  rcases release_cases pool r with ⟨rest, hscratch, hlive, hrelease⟩ | ⟨conflict, hrelease⟩
  · rw [hrelease] at h
    cases h
    exact ⟨rfl, fun n => release_of_live hscratch hlive⟩
  · rw [hrelease] at h
    cases h

end RegisterPool

end Abacus
