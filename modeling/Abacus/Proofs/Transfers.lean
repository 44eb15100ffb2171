import Abacus.Emit.Transfer
import Abacus.Proofs.Execution
import Abacus.Proofs.Placement

/-!
# What transfers do to registers

Each piece of transfer code, wherever it stands in a program, runs to its end with one effect on the
register file, or overflows where the effect has no result. Loops are by induction on the count in
the register they empty, and rows of increments and of guarded decrements by induction on their
number.
-/

namespace Abacus.Emit

open Machine Code Fragment

variable {p : Program} {address : Label → Nat} {a : Nat} {file : File}

/-! ### Rows of increments -/

/-- One increment of each of some registers. -/
private theorem runs_join_inc {targets : List Register}
    (h : (join (targets.map inc)).Placed p address a) (htargets : ∀ t ∈ targets, file.Has t) :
    p.Runs ⟨a, file⟩ (a + targets.length) (file.addAll? targets 1) := by
  induction targets generalizing a file with
  | nil => exact Program.Reaches.refl _
  | cons t rest ih =>
    obtain ⟨hfirst, hrest⟩ := Placed.append h
    rw [File.addAll?_cons, List.length_cons, Nat.add_comm rest.length, ← Nat.add_assoc]
    refine (Program.runs_inc hfirst.fetch_inc (htargets t List.mem_cons_self)).bind ?_
    exact fun file' h => ih hrest fun t ht =>
      (File.has_of_add? h).mpr (htargets t (List.mem_cons_of_mem _ ht))

private theorem addUnits_succ (r : Register) (n : Nat) :
    addUnits r (n + 1) = inc r ++ addUnits r n := rfl

theorem runs_addUnits {r : Register} {n : Nat} (h : (addUnits r n).Placed p address a)
    (hr : file.Has r) (hb : file.Bounded) :
    p.Runs ⟨a, file⟩ (a + n) (file.add? r n) := by
  induction n generalizing a file with
  | zero =>
    rw [File.add?_zero hb hr]
    exact Program.Reaches.refl _
  | succ n ih =>
    rw [addUnits_succ] at h
    obtain ⟨hfirst, hrest⟩ := Placed.append h
    rw [Nat.add_comm n, ← File.add?_add? hr, ← Nat.add_assoc]
    refine (Program.runs_inc hfirst.fetch_inc hr).bind fun file' hadd => ?_
    obtain ⟨hlt, rfl⟩ := File.eq_put_of_assign? hadd
    exact ih hrest (File.has_put.mpr hr) (hb.put hr hlt)

/-! ### Emptying a register -/

@[simp]
theorem size_join_inc (targets : List Register) :
    (join (targets.map inc)).size = targets.length := by
  induction targets with
  | nil => rfl
  | cons t rest ih =>
    change (inc t ++ join (rest.map inc)).size = _
    rw [size_append, ih, size_inc, List.length_cons, Nat.add_comm]

/-- One round of emptying a register into others, and then the rest. -/
private theorem addAll?_round {source : Register} {targets : List Register}
    (hsource : file.Has source) (htargets : ∀ t ∈ targets, file.Has t) (hne : source ∉ targets)
    (n : Nat) :
    ((file.put source n).addAll? targets 1).bind
        (fun file => (file.put source 0).addAll? targets n) =
      (file.put source 0).addAll? targets (n + 1) := by
  rw [File.addAll?_put hsource htargets hne, File.addAll?_put hsource htargets hne,
    Nat.add_comm n, ← File.addAll?_addAll? htargets]
  cases h : file.addAll? targets 1 with
  | none => rfl
  | some file' =>
    have hhas : ∀ r, file'.Has r ↔ file.Has r := by
      intro r
      rw [File.Has, File.Has, File.size_of_addAll? h]
    rw [Option.map_some, Option.bind_some, Option.bind_some, File.put_put,
      File.addAll?_put ((hhas _).mpr hsource) (fun t ht => (hhas t).mpr (htargets t ht)) hne]

/-- The loop that empties a register into others. -/
theorem runs_drain {source : Register} (targets : List Register) {top step done : Label}
    (h : (define top ++ test source step done ++ define step ++ dec source
      ++ join (targets.map inc) ++ jump top ++ define done).Placed p address a)
    (hsource : file.Has source) (htargets : ∀ t ∈ targets, file.Has t) (hne : source ∉ targets)
    (hb : file.Bounded) :
    p.Runs ⟨a, file⟩ (a + (targets.length + 3))
      ((file.put source 0).addAll? targets (file.val source)) := by
  obtain ⟨h, hdone⟩ := h.append
  obtain ⟨h, hjump⟩ := h.append
  obtain ⟨h, hincs⟩ := h.append
  obtain ⟨h, hdec⟩ := h.append
  obtain ⟨h, hstep⟩ := h.append
  obtain ⟨htop, htest⟩ := h.append
  replace htop := htop.address_define
  replace htest := htest.fetch_test
  replace hstep := hstep.address_define
  replace hdec := hdec.fetch_dec
  replace hjump := hjump.fetch_jump
  replace hdone := hdone.address_define
  simp only [size_append, size_define, size_test, size_dec, size_jump, size_join_inc,
    Nat.add_zero, Nat.zero_add, Nat.reduceAdd] at htest hstep hdec hincs hjump hdone
  induction hn : file.val source generalizing file with
  | zero =>
    rw [File.put_eq_self hsource hn, File.addAll?_zero hb htargets]
    refine Program.Reaches.single ?_
    rw [Program.step_tst htest hsource, if_pos hn, hdone]
    congr 2
    omega
  | succ n ih =>
    have hsource' : (file.put source n).Has source := File.has_put.mpr hsource
    have htargets' : ∀ t ∈ targets, (file.put source n).Has t := fun t ht =>
      File.has_put.mpr (htargets t ht)
    have hb' : (file.put source n).Bounded := by
      have hlt := hb source hsource
      exact hb.put hsource (by omega)
    have hin : p.Reaches ⟨a, file⟩ ⟨a + 2, file.put source n⟩ := by
      refine .head (Program.step_tst htest hsource) (.head ?_ (.refl _))
      rw [if_neg (by omega), hstep]
      exact Program.step_dec hdec hsource hn
    rw [← addAll?_round hsource htargets hne]
    refine (hin.runs (runs_join_inc hincs htargets')).bind fun file' hround => ?_
    obtain ⟨hb'', hval⟩ := File.of_addAll? hsource' hb' htargets' hne hround
    have hhas : ∀ r, file'.Has r ↔ file.Has r := fun r => by
      rw [File.Has, File.Has, File.size_of_addAll? hround, File.size_put]
    have hback : p.Reaches ⟨a + 2 + targets.length, file'⟩ ⟨a, file'⟩ := by
      refine .single ((Program.step_jmp ?_).trans (congrArg (Outcome.next ⟨·, file'⟩) htop))
      rwa [Nat.add_assoc]
    exact hback.runs (ih ((hhas _).mpr hsource) (fun t ht => (hhas t).mpr (htargets t ht)) hb''
      (hval.trans (File.val_put_self hsource n)))

theorem runs_clear {r : Register} {top step done : Label}
    (h : (define top ++ test r step done ++ define step ++ dec r ++ jump top
      ++ define done).Placed p address a) (hr : file.Has r) (hb : file.Bounded) :
    p.Runs ⟨a, file⟩ (a + 3) (some (file.put r 0)) := by
  rw [← append_empty (define top ++ test r step done ++ define step ++ dec r)] at h
  exact runs_drain [] h hr (by simp) (by simp) hb

/-! ### Taking one count from another -/

/-- The loop that takes one count from another, instruction by instruction. -/
private theorem deduct_flat (count target : Register) (top check step rest done : Label) :
    define top ++ test count check done ++ define check ++ test target step rest ++ define step
        ++ dec target ++ dec count ++ jump top ++ define rest ++ dec count ++ jump top
        ++ define done =
      { code := [.tst count 0 0, .tst target 0 0, .dec target, .dec count, .jmp 0, .dec count,
          .jmp 0]
        holes := [.test 0 check done, .test 1 step rest, .jump 4 top, .jump 6 top]
        labels := [(top, 0), (check, 1), (step, 2), (rest, 5), (done, 7)] } := by
  simp [Fragment.ext_iff, define, test, dec, jump, Hole.move, size]

/-- The loop that takes one count from another, from its first address on. -/
structure DeductCode (p : Program) (a : Nat) (count target : Register) : Prop where
  fetch_test : p.fetch? a = some (.tst count (a + 1) (a + 7))
  fetch_check : p.fetch? (a + 1) = some (.tst target (a + 2) (a + 5))
  fetch_take : p.fetch? (a + 2) = some (.dec target)
  fetch_dec : p.fetch? (a + 3) = some (.dec count)
  fetch_back : p.fetch? (a + 4) = some (.jmp a)
  fetch_decRest : p.fetch? (a + 5) = some (.dec count)
  fetch_backRest : p.fetch? (a + 6) = some (.jmp a)

section Deduct

variable {count target : Register}

theorem DeductCode.of_placed {top check step rest done : Label}
    (h : (define top ++ test count check done ++ define check ++ test target step rest
      ++ define step ++ dec target ++ dec count ++ jump top ++ define rest ++ dec count
      ++ jump top ++ define done).Placed p address a) : DeductCode p a count target := by
  rw [deduct_flat] at h
  have htop : address top = a := h.label top 0 (by simp)
  have hcheck : address check = a + 1 := h.label check 1 (by simp)
  have hstep : address step = a + 2 := h.label step 2 (by simp)
  have hrest : address rest = a + 5 := h.label rest 5 (by simp)
  have hdone : address done = a + 7 := h.label done 7 (by simp)
  constructor
  · rw [← hcheck, ← hdone]
    exact h.test 0 check done (by simp) count 0 0 rfl
  · rw [← hstep, ← hrest]
    exact h.test 1 step rest (by simp) target 0 0 rfl
  · exact h.straight 2 (.dec target) rfl rfl
  · exact h.straight 3 (.dec count) rfl rfl
  · exact (h.jump 4 top (by simp)).trans (by rw [htop])
  · exact h.straight 5 (.dec count) rfl rfl
  · exact (h.jump 6 top (by simp)).trans (by rw [htop])

/-- One round: one off the count, and one off the target unless it is empty. -/
theorem DeductCode.round (h : DeductCode p a count target) (hcount : file.Has count)
    (htarget : file.Has target) (hne : target ≠ count) {n : Nat} (hn : file.val count = n + 1) :
    p.Reaches ⟨a, file⟩ ⟨a, (file.put target (file.val target - 1)).put count n⟩ := by
  refine .head (Program.step_tst h.fetch_test hcount) ?_
  rw [if_neg (by omega)]
  refine .head (Program.step_tst h.fetch_check htarget) ?_
  cases ht : file.val target with
  | zero =>
    rw [if_pos rfl, Nat.zero_sub, File.put_eq_self htarget ht]
    exact .head (Program.step_dec h.fetch_decRest hcount hn)
      (.single (Program.step_jmp h.fetch_backRest))
  | succ t =>
    have hcount' : (file.put target t).val count = n + 1 := by
      rw [File.val_put_of_ne htarget hcount hne.symm, hn]
    rw [if_neg (Nat.succ_ne_zero t), Nat.add_sub_cancel]
    exact .head (Program.step_dec h.fetch_take htarget ht)
      (.head (Program.step_dec h.fetch_dec (File.has_put.mpr hcount) hcount')
        (.single (Program.step_jmp h.fetch_back)))

/-- The count of a register is taken from another one, and nothing is left of it. -/
theorem runs_deduct {top check step rest done : Label}
    (h : (define top ++ test count check done ++ define check ++ test target step rest
      ++ define step ++ dec target ++ dec count ++ jump top ++ define rest ++ dec count
      ++ jump top ++ define done).Placed p address a)
    (hcount : file.Has count) (htarget : file.Has target) (hne : target ≠ count) :
    p.Reaches ⟨a, file⟩
      ⟨a + 7, (file.put target (file.val target - file.val count)).put count 0⟩ := by
  replace h := DeductCode.of_placed h
  induction hn : file.val count generalizing file with
  | zero =>
    rw [Nat.sub_zero, File.put_eq_self htarget rfl, File.put_eq_self hcount hn]
    exact .single ((Program.step_tst h.fetch_test hcount).trans (by rw [if_pos hn]))
  | succ n ih =>
    -- after one round the count is less by one, and the file has the same registers
    have hcount' : (file.put target (file.val target - 1)).Has count := File.has_put.mpr hcount
    have htarget' : (file.put target (file.val target - 1)).Has target := File.has_put.mpr htarget
    have hih := ih (File.has_put.mpr hcount') (File.has_put.mpr htarget')
      (File.val_put_self hcount' n)
    rw [File.val_put_of_ne hcount' htarget' hne, File.val_put_self htarget,
      File.put_comm hcount' htarget' hne.symm, File.put_put, File.put_put, Nat.sub_sub,
      Nat.add_comm 1 n] at hih
    exact (h.round hcount htarget hne hn).trans hih

end Deduct

/-! ### Rows of guarded decrements -/

/-- A decrement behind a test that skips it at zero. -/
private theorem reaches_guardedDecrement {r : Register} {step skip : Label}
    (h : (test r step skip ++ define step ++ dec r ++ define skip).Placed p address a)
    (hr : file.Has r) : p.Reaches ⟨a, file⟩ ⟨a + 2, file.put r (file.val r - 1)⟩ := by
  have htest : p.fetch? a = some (.tst r (address step) (address skip)) :=
    h.test 0 step skip (.head _) r 0 0 rfl
  have hstep : address step = a + 1 := h.label step 1 (.head _)
  have hdec : p.fetch? (a + 1) = some (.dec r) := h.straight 1 (.dec r) rfl rfl
  have hskip : address skip = a + 2 := h.label skip 2 (.tail _ (.head _))
  by_cases hzero : file.val r = 0
  · rw [hzero, Nat.zero_sub, File.put_eq_self hr hzero]
    refine .single ?_
    rw [Program.step_tst htest hr, if_pos hzero, hskip]
  · obtain ⟨n, hn⟩ := Nat.exists_eq_succ_of_ne_zero hzero
    refine .head (Program.step_tst htest hr) (.single ?_)
    rw [if_neg hzero, hstep, Program.step_dec hdec hr hn, hn]
    rfl

theorem size_guardedDecrements (r : Register) (first n : Nat) :
    (guardedDecrements r first n).size = 2 * n := by
  simp [guardedDecrements, size, List.length_flatMap, Nat.mul_comm]

theorem guardedDecrements_succ (r : Register) (first n : Nat) :
    guardedDecrements r first (n + 1) = guardedDecrements r first n ++
      (test r ⟨.subtractStep, first + 2 * n⟩ ⟨.subtractSkip, first + 2 * n + 1⟩
        ++ define ⟨.subtractStep, first + 2 * n⟩ ++ dec r
        ++ define ⟨.subtractSkip, first + 2 * n + 1⟩) := by
  refine Fragment.ext ?_ ?_ ?_
  · simp [guardedDecrements, List.range_succ, test, define, dec]
  · rw [holes_append, size_guardedDecrements]
    simp [guardedDecrements, List.range_succ, test, define, dec, Hole.move]
  · rw [labels_append, size_guardedDecrements]
    simp [guardedDecrements, List.range_succ, test, define, dec, size]

theorem runs_guardedDecrements {r : Register} {first n : Nat}
    (h : (guardedDecrements r first n).Placed p address a) (hr : file.Has r) :
    p.Reaches ⟨a, file⟩ ⟨a + 2 * n, file.put r (file.val r - n)⟩ := by
  induction n generalizing file with
  | zero =>
    rw [Nat.sub_zero, File.put_eq_self hr rfl]
    exact .refl _
  | succ n ih =>
    rw [guardedDecrements_succ] at h
    obtain ⟨hrow, hlast⟩ := h.append
    rw [size_guardedDecrements] at hlast
    refine (ih hrow hr).trans ?_
    have hstep : (file.put r (file.val r - n)).put r ((file.put r (file.val r - n)).val r - 1) =
        file.put r (file.val r - (n + 1)) := by
      rw [File.val_put_self hr, File.put_put, Nat.sub_sub]
    rw [← hstep]
    exact reaches_guardedDecrement hlast (File.has_put.mpr hr)

end Abacus.Emit
