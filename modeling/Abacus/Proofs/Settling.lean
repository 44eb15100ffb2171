import Mathlib.Logic.Function.Iterate
import Abacus.Proofs.Chains
import Abacus.Proofs.Optimizing

/-!
# Rounds of the optimizer

The first round threads all jumps, and what is threaded stays so: each further round only drops the
jumps to the next position (`Fragment.settle_succ`). In a row of jumps that all lead to the position
after the row only the last one is dropped, which makes the row shorter by one
(`Fragment.Direct.exists_runsTo_dropNext`). After a number of rounds there is something left to drop
exactly if there was a longer row to begin with (`Fragment.Direct.exists_runsTo_iterate`).
-/

namespace Abacus.Code

open Machine

namespace Fragment

variable {f : Fragment} {k o n : Nat}

/-! ### One round -/

/-- The fragment without its jumps to the next position. -/
def dropNext (f : Fragment) : Fragment := f.without f.fallthroughs.contains

/-- In a direct fragment no jump leads to another one. -/
theorem JumpsTo.not_jumpAt (h : f.JumpsTo k o) (hf : f.Direct) : ¬f.JumpAt o := by
  obtain ⟨l, hjump, hl⟩ := h
  exact hf.not_jumpAt l (List.mem_flatMap.mpr ⟨_, hjump, List.mem_singleton.mpr rfl⟩) o hl

/-- What is no jump is not dropped. -/
private theorem Direct.contains_fallthroughs_eq_false (hf : f.Direct) (hk : ¬f.JumpAt k) :
    f.fallthroughs.contains k = false := by
  rw [Bool.eq_false_iff]
  exact fun hdropped => hk (hf.contains_fallthroughs_iff.mp hdropped).jumpAt

/-- The jumps that are left are those that were not dropped, each at its new position. -/
theorem jump_mem_holes_dropNext {l : Label} :
    Hole.jump k l ∈ f.dropNext.holes ↔ ∃ k', Hole.jump k' l ∈ f.holes ∧
      f.fallthroughs.contains k' = false ∧ keptBelow f.fallthroughs.contains k' = k := by
  constructor
  · intro hjump
    obtain ⟨hole, hhole, heq⟩ := List.mem_map.mp hjump
    obtain ⟨hmem, hkept⟩ := List.mem_filter.mp hhole
    cases hole with
    | jump k' l' =>
      cases heq
      exact ⟨k', hmem, by simpa [Hole.index] using hkept, rfl⟩
    | test => cases heq
  · rintro ⟨k', hjump, hkept, rfl⟩
    exact mem_holes_without hjump hkept

/-- The jumps that are left lead where they led before. -/
private theorem jumpsTo_dropNext_iff :
    f.dropNext.JumpsTo k o ↔ ∃ k' o', f.JumpsTo k' o' ∧ f.fallthroughs.contains k' = false ∧
      keptBelow f.fallthroughs.contains k' = k ∧ keptBelow f.fallthroughs.contains o' = o := by
  constructor
  · rintro ⟨l, hjump, hl⟩
    obtain ⟨k', hjump', hkept, hk⟩ := jump_mem_holes_dropNext.mp hjump
    obtain ⟨⟨_, o'⟩, hl', heq⟩ := List.mem_map.mp hl
    cases heq
    exact ⟨k', o', ⟨l, hjump', hl'⟩, hkept, hk, rfl⟩
  · rintro ⟨k', o', ⟨l, hjump, hl⟩, hkept, rfl, rfl⟩
    exact ⟨l, jump_mem_holes_dropNext.mpr ⟨k', hjump, hkept, rfl⟩, List.mem_map.mpr ⟨_, hl, rfl⟩⟩

/-- Dropping jumps keeps a fragment direct. -/
theorem Direct.dropNext (hf : f.Direct) : f.dropNext.Direct where
  toWellFormed := hf.toWellFormed.without _
  toClosed :=
    (replaces_without hf.toWellFormed (fallsThrough_fallthroughs f)).closed_alone hf.toClosed
  not_jumpAt l hl o hlo := by
    rintro ⟨l', hjump⟩
    obtain ⟨k, hjump', hkept, hk⟩ := jump_mem_holes_dropNext.mp hjump
    obtain ⟨⟨_, o'⟩, hlo', heq⟩ := List.mem_map.mp hlo
    cases heq
    -- the label stands before something else than a jump, which is kept
    have hjumpAt := hf.not_jumpAt l (wanted_without hl) o' hlo'
    obtain rfl := keptBelow_inj hkept (hf.contains_fallthroughs_eq_false hjumpAt) hk
    exact hjumpAt ⟨l', hjump'⟩

/-- Where no jump leads to the next position, nothing is dropped. -/
theorem Direct.dropNext_eq_self (hf : f.Direct) (h : ∀ k, ¬f.JumpsTo k (k + 1)) : f.dropNext = f :=
  without_eq_self hf.toWellFormed.inRange fun k _ => by
    rw [Bool.eq_false_iff]
    exact fun hdropped => h k (hf.contains_fallthroughs_iff.mp hdropped)

/-- Dropping makes no fragment longer. -/
private theorem size_dropNext_le (f : Fragment) : f.dropNext.size ≤ f.size :=
  (keep_sublist _ f.code).length_le

/-- A jump to the next position that is dropped makes a fragment shorter. -/
private theorem Direct.size_dropNext_lt (hf : f.Direct) (h : f.JumpsTo k (k + 1)) :
    f.dropNext.size < f.size := by
  rw [Fragment.dropNext, size_without]
  exact keptBelow_lt_self (hf.contains_fallthroughs_iff.mpr h) (hf.lt_of_jumpAt h.jumpAt)

/-! ### Rows of jumps -/

/-- Jumps in a row, all of which lead to the position after the row. -/
def RunsTo (f : Fragment) (k n : Nat) : Prop := ∀ i < n, f.JumpsTo (k + i) (k + n)

/-- What is kept and has the number of a position stands there, or right after it if the position
itself is dropped. -/
private theorem Direct.eq_or_eq_succ (hf : f.Direct) {x y : Nat}
    (hx : f.fallthroughs.contains x = false)
    (h : keptBelow f.fallthroughs.contains x = keptBelow f.fallthroughs.contains y) :
    f.fallthroughs.contains y = false ∧ x = y ∨ f.JumpsTo y (y + 1) ∧ x = y + 1 := by
  rcases hy : f.fallthroughs.contains y with _ | _
  · exact .inl ⟨rfl, keptBelow_inj hx hy h⟩
  · have hnext := hf.contains_fallthroughs_iff.mp hy
    have hkept := hf.contains_fallthroughs_eq_false (hnext.not_jumpAt hf)
    exact .inr ⟨hnext, keptBelow_inj hx hkept (h.trans (keptBelow_succ_of_dropped hy).symm)⟩

/-- A row gets shorter by one, its last jump. -/
theorem RunsTo.dropNext (h : f.RunsTo k (n + 1)) (hf : f.Direct) :
    f.dropNext.RunsTo (keptBelow f.fallthroughs.contains k) n := by
  have hkept : ∀ i < n, f.fallthroughs.contains (k + i) = false := by
    intro i hi
    rw [Bool.eq_false_iff]
    intro hdropped
    have heq := (hf.contains_fallthroughs_iff.mp hdropped).eq (h i (by omega)) hf.toWellFormed
      hf.toClosed
    omega
  have hlast : f.fallthroughs.contains (k + n) :=
    hf.contains_fallthroughs_iff.mpr (h n (Nat.lt_succ_self n))
  have hbelow : ∀ i ≤ n, keptBelow f.fallthroughs.contains (k + i) =
      keptBelow f.fallthroughs.contains k + i := by
    intro i hi
    rw [keptBelow_add, keptBelow_of_forall fun j hj => hkept j (by omega)]
  intro i hi
  refine jumpsTo_dropNext_iff.mpr ⟨k + i, k + (n + 1), h i (by omega), hkept i hi,
    hbelow i (Nat.le_of_lt hi), ?_⟩
  rw [← Nat.add_assoc, keptBelow_succ_of_dropped hlast, hbelow n (Nat.le_refl n)]

/-- The jumps of a row that is left stood in a row before: a dropped jump has no jump right after
it. -/
private theorem Direct.exists_row_of_dropNext (hf : f.Direct) (hn : 0 < n)
    (h : f.dropNext.RunsTo k n) :
    ∃ p, ∀ i < n, f.JumpAt (p + i) ∧ f.fallthroughs.contains (p + i) = false ∧
      keptBelow f.fallthroughs.contains (p + i) = k + i := by
  obtain ⟨p, o, hp, hkept, hbelow, -⟩ := jumpsTo_dropNext_iff.mp (h 0 hn)
  refine ⟨p, fun i hi => ?_⟩
  induction i with
  | zero => exact ⟨hp.jumpAt, hkept, hbelow⟩
  | succ i ih =>
    obtain ⟨-, hkept, hbelow⟩ := ih (by omega)
    obtain ⟨q, o, hq, hqkept, hqbelow, -⟩ := jumpsTo_dropNext_iff.mp (h (i + 1) hi)
    have hnext : keptBelow f.fallthroughs.contains q =
        keptBelow f.fallthroughs.contains (p + i + 1) := by
      rw [keptBelow_succ_of_kept hkept, hqbelow, hbelow, Nat.add_assoc]
    rcases hf.eq_or_eq_succ hqkept hnext with ⟨-, rfl⟩ | ⟨hdropped, rfl⟩
    · exact ⟨hq.jumpAt, hqkept, hqbelow⟩
    · exact absurd hq.jumpAt (hdropped.not_jumpAt hf)

/-- A row that is left was longer before. -/
private theorem Direct.exists_runsTo_of_dropNext (hf : f.Direct) (hn : 0 < n)
    (h : f.dropNext.RunsTo k n) :
    ∃ k', f.RunsTo k' (n + 1) := by
  obtain ⟨p, hrow⟩ := hf.exists_row_of_dropNext hn h
  obtain ⟨m, rfl⟩ : ∃ m, n = m + 1 := ⟨n - 1, by omega⟩
  obtain ⟨-, hlast, hbelow⟩ := hrow m (Nat.lt_succ_self m)
  have hend : keptBelow f.fallthroughs.contains (p + m + 1) = k + (m + 1) := by
    rw [keptBelow_succ_of_kept hlast, hbelow, Nat.add_assoc]
  -- the row led to a kept position, the one after the row or, if that was dropped, the next one
  have htarget : ∀ i < m + 1, f.fallthroughs.contains (p + m + 1) = false ∧
      f.JumpsTo (p + i) (p + m + 1) ∨
        f.JumpsTo (p + m + 1) (p + m + 2) ∧ f.JumpsTo (p + i) (p + m + 2) := by
    intro i hi
    obtain ⟨-, hkept, hbelow⟩ := hrow i hi
    obtain ⟨q, o, hq, hqkept, hqbelow, hobelow⟩ := jumpsTo_dropNext_iff.mp (h i hi)
    obtain rfl := keptBelow_inj hqkept hkept (hqbelow.trans hbelow.symm)
    have hokept := hf.contains_fallthroughs_eq_false (hq.not_jumpAt hf)
    rcases hf.eq_or_eq_succ hokept (hobelow.trans hend.symm) with ⟨hkept, rfl⟩ | ⟨hdropped, rfl⟩
    · exact .inl ⟨hkept, hq⟩
    · exact .inr ⟨hdropped, hq⟩
  have hdropped : f.JumpsTo (p + m + 1) (p + m + 2) := by
    rcases htarget m (Nat.lt_succ_self m) with ⟨-, hnext⟩ | ⟨hdropped, -⟩
    · exact absurd (hf.contains_fallthroughs_iff.mpr hnext) (by simp [hlast])
    · exact hdropped
  refine ⟨p, fun i hi => ?_⟩
  rcases Nat.lt_succ_iff_lt_or_eq.mp hi with hlt | rfl
  · rcases htarget i hlt with ⟨hkept, -⟩ | ⟨-, hto⟩
    · exact absurd (hf.contains_fallthroughs_iff.mpr hdropped) (by simp [hkept])
    · exact hto
  · exact hdropped

/-- A row of jumps is left just where there was one with a jump more. -/
theorem Direct.exists_runsTo_dropNext (hf : f.Direct) (hn : 0 < n) :
    (∃ k, f.dropNext.RunsTo k n) ↔ ∃ k, f.RunsTo k (n + 1) :=
  ⟨fun ⟨_, h⟩ => hf.exists_runsTo_of_dropNext hn h, fun ⟨_, h⟩ => ⟨_, h.dropNext hf⟩⟩

/-! ### All rounds -/

/-- Any number of rounds keeps a fragment direct. -/
theorem Direct.iterate (hf : f.Direct) (n : Nat) : (Fragment.dropNext^[n] f).Direct := by
  induction n generalizing f with
  | zero => exact hf
  | succ n ih => exact ih hf.dropNext

/-- No number of rounds makes a fragment longer. -/
private theorem size_iterate_dropNext_le (n : Nat) : (dropNext^[n] f).size ≤ f.size := by
  induction n generalizing f with
  | zero => exact Nat.le_refl _
  | succ n ih => exact Nat.le_trans ih (size_dropNext_le f)

/-- After `m` rounds there is a row of jumps where there was one that is longer by `m`. -/
theorem Direct.exists_runsTo_iterate (hf : f.Direct) (hn : 0 < n) (m : Nat) :
    (∃ k, (Fragment.dropNext^[m] f).RunsTo k n) ↔ ∃ k, f.RunsTo k (n + m) := by
  induction m generalizing f with
  | zero => rfl
  | succ m ih =>
    rw [Function.iterate_succ_apply, ih hf.dropNext, hf.exists_runsTo_dropNext (by omega),
      Nat.add_assoc]

/-- A round of the optimizer, and the rounds after it unless it has changed nothing. -/
private theorem settle_succ_eq (hf : f.threadJumps.WellFormed) (rounds : Nat) :
    f.settle (rounds + 1) =
      if f.threadJumps.fallthroughs.size = 0 ∧ f.threadJumps.holes = f.holes then
        some f.threadJumps.dropNext
      else f.threadJumps.dropNext.settle rounds := by
  rw [settle, dropFallthroughs_eq hf.inRange]
  rfl

/-- Once all jumps are threaded, the rounds only drop jumps to the next position. -/
theorem settle_succ (hf : f.threadJumps.Direct) (rounds : Nat) :
    f.settle (rounds + 1) = some (dropNext^[rounds + 1] f.threadJumps) := by
  induction rounds generalizing f with
  | zero =>
    rw [settle_succ_eq hf.toWellFormed]
    split <;> rfl
  | succ rounds ih =>
    rw [settle_succ_eq hf.toWellFormed, Function.iterate_succ_apply]
    split
    next hdone =>
      have hself : f.threadJumps.dropNext = f.threadJumps := by
        refine without_eq_self hf.toWellFormed.inRange fun k _ => ?_
        rw [Std.HashSet.contains_of_isEmpty]
        rw [Std.HashSet.isEmpty_eq_size_eq_zero, hdone.1]
        rfl
      rw [hself, Function.iterate_fixed hself]
    next =>
      have hthreaded := hf.dropNext.threadJumps_eq
      rw [ih (hthreaded.symm ▸ hf.dropNext), hthreaded]

/-- The optimizer drops jumps to the next position in as many rounds as it may make. -/
theorem optimize_one (hf : f.threadJumps.Direct) :
    f.optimize 1 = some (dropNext^[roundLimit] f.threadJumps) :=
  settle_succ hf 31

/-- The optimizer leaves a direct fragment as it is only if there is nothing to drop. -/
theorem Direct.optimize_eq_self_iff (hf : f.Direct) :
    f.optimize 1 = some f ↔ ∀ k, ¬f.JumpsTo k (k + 1) := by
  rw [optimize_one (hf.threadJumps_eq.symm ▸ hf), hf.threadJumps_eq, Option.some_inj]
  constructor
  · intro heq k hnext
    have hlt := hf.size_dropNext_lt hnext
    have hle : (Fragment.dropNext^[31] f.dropNext).size ≤ f.dropNext.size :=
      size_iterate_dropNext_le 31
    exact absurd (congrArg size heq) (Nat.ne_of_lt (Nat.lt_of_le_of_lt hle hlt))
  · intro hnone
    exact Function.iterate_fixed (hf.dropNext_eq_self hnone) roundLimit

end Fragment

end Abacus.Code
