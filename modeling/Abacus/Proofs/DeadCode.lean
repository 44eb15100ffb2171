import Abacus.Proofs.Compilation
import Abacus.Proofs.FixedPoint
import Abacus.Proofs.Flow
import Abacus.Proofs.Reaching

/-!
# Dead code

All code is reachable as it is emitted. Threading jumps and dropping those to the next position may
leave jumps that nothing leads to any more, but no other instruction: where a jump is passed by, the
end of its chain is reached instead (`Fragment.Onward.canReach_threadJumps`), and what a dropped
jump led to comes next (`Fragment.Direct.canReach_dropNext`). So the dead instructions of a compiled
program are jumps, and there are none in a program that was not optimized
(`compile_no_dead_code`).
-/

namespace Abacus

open Machine Code Fragment
open Source hiding Program

namespace Code.Fragment

variable {f : Fragment} {x z k o n : Nat} {l : Label}

/-- Every position but those of jumps can be reached, and the end. -/
def Lively (f : Fragment) : Prop := ∀ k ≤ f.size, ¬f.JumpAt k → f.CanReach 0 k

private theorem WellFormed.not_jumpAt_of_targets_eq_nil (hf : f.WellFormed) {i : Instr}
    (hi : f.code[k]? = some i) (htargets : i.targets = []) : ¬f.JumpAt k := by
  rintro ⟨l, hjump⟩
  obtain ⟨j, hj, hfit⟩ := hf.hole_fits _ hjump
  obtain ⟨t, rfl⟩ := hfit.exists_eq_jmp
  cases hi.symm.trans hj
  cases htargets

/-! ### Threading -/

/-- Whatever could be reached, the end of the chain of jumps that starts there is reached after
threading. -/
theorem Onward.canReach_threadJumps (honward : f.Onward) (hwf : f.WellFormed) (hclosed : f.Closed)
    (hfirst : ¬f.JumpAt 0) (h : f.CanReach 0 x) (hchain : Relation.ReflTransGen f.JumpsTo x z)
    (hz : ¬f.JumpAt z) : f.threadJumps.CanReach 0 z := by
  induction h generalizing z with
  | refl =>
    rcases hchain.cases_head with rfl | ⟨y, hjumps, -⟩
    · exact .refl
    · exact absurd hjumps.jumpAt hfirst
  | tail _ hflows ih =>
    cases hflows with
    | next hi htargets hhalt =>
      have hnext := (ih .refl (hwf.not_jumpAt_of_targets_eq_nil hi htargets)).tail
        (.next hi htargets hhalt)
      rcases hchain.cases_head with rfl | ⟨y, ⟨l, hjump, hl⟩, hrest⟩
      · exact hnext
      · refine hnext.tail (.label (jump_mem_holes_threadJumps.mpr ⟨l, hjump, rfl⟩)
          (List.mem_singleton.mpr rfl) (honward.follow_mem hwf hclosed hrest hl hz))
    | @label hole l _ hhole hl ho =>
      cases hole with
      | jump k l' =>
        obtain rfl := List.mem_singleton.mp hl
        exact ih (.head ⟨l, hhole, ho⟩ hchain) hz
      | test k l₁ l₂ =>
        have htest : ¬f.JumpAt k := by
          rintro ⟨l', hjump⟩
          cases hwf.hole_eq hjump hhole rfl
        have hl' : follow f.links l ∈ ((Hole.test k l₁ l₂).retarget (follow f.links)).labels := by
          rw [Hole.labels_retarget]
          exact List.mem_map_of_mem hl
        have hflows : f.threadJumps.Flows ((Hole.test k l₁ l₂).retarget (follow f.links)).index z :=
          .label (List.mem_map_of_mem hhole) hl' (honward.follow_mem hwf hclosed hchain ho hz)
        exact (ih .refl htest).tail hflows

private theorem Onward.lively_threadJumps (honward : f.Onward) (hwf : f.WellFormed)
    (hclosed : f.Closed)
    (hfirst : ¬f.JumpAt 0) (h : ∀ k ≤ f.size, f.CanReach 0 k) : f.threadJumps.Lively := by
  intro k hk hjump
  exact honward.canReach_threadJumps hwf hclosed hfirst (h k hk) .refl
    (jumpAt_threadJumps.not.mp hjump)

/-! ### Dropping -/

/-- What could be reached still is, at its new position. -/
theorem Direct.canReach_dropNext (hf : f.Direct) (h : f.CanReach 0 x) :
    f.dropNext.CanReach 0 (keptBelow f.fallthroughs.contains x) := by
  induction h with
  | refl => exact .refl
  | @tail y x _ hflows ih =>
    rcases hdropped : f.fallthroughs.contains y with _ | _
    · cases hflows with
      | next hi htargets hhalt =>
        rw [keptBelow_succ_of_kept hdropped]
        exact ih.tail (.next (getElem?_keep hi hdropped) htargets hhalt)
      | @label hole l _ hhole hl ho =>
        have hflows := Flows.label (mem_holes_without hhole hdropped) (by rwa [Hole.labels_move])
          (List.mem_map_of_mem ho)
        rw [Hole.index_move] at hflows
        exact ih.tail hflows
    · -- a dropped jump leads to the next position, which gets the same number
      have hnext := hf.contains_fallthroughs_iff.mp hdropped
      have hx : x = y + 1 := by
        cases hflows with
        | next hi htargets _ =>
          exact absurd hnext.jumpAt (hf.not_jumpAt_of_targets_eq_nil hi htargets)
        | @label hole l _ hhole hl ho =>
          obtain ⟨l', hjump, hl'⟩ := hnext
          rw [hf.hole_eq hhole hjump rfl] at hl
          obtain rfl := List.mem_singleton.mp hl
          exact hf.offset_eq ho hl'
      rw [hx, keptBelow_succ_of_dropped hdropped]
      exact ih

private theorem Direct.lively_dropNext (hf : f.Direct) (h : f.Lively) : f.dropNext.Lively := by
  intro k hk hjump
  rcases Nat.lt_or_eq_of_le hk with hlt | rfl
  · obtain ⟨k', hk', hkept, rfl⟩ := exists_of_getElem?_keep (List.getElem?_eq_getElem hlt)
    refine hf.canReach_dropNext (h k' (Nat.le_of_lt (List.getElem?_eq_some_iff.mp hk').1) ?_)
    rintro ⟨l, hjump'⟩
    exact hjump ⟨l, jump_mem_holes_dropNext.mpr ⟨k', hjump', hkept, rfl⟩⟩
  · rw [Fragment.dropNext, size_without]
    refine hf.canReach_dropNext (h f.size (Nat.le_refl _) fun hend => ?_)
    exact Nat.lt_irrefl _ (hf.lt_of_jumpAt hend)

private theorem Direct.lively_iterate (hf : f.Direct) (h : f.Lively) (n : Nat) :
    (Fragment.dropNext^[n] f).Lively := by
  induction n generalizing f with
  | zero => exact h
  | succ n ih => exact ih hf.dropNext (hf.lively_dropNext h)

end Code.Fragment

/-! ### Linked programs -/

namespace Code.Linked

variable {p : Program} {f : Fragment} {i j : Nat}

/-- The control flow of a linked program is that of its fragment. -/
private theorem flows (h : Linked p f) (hwf : f.WellFormed) (hflows : f.Flows i j) :
    p.Flows i j := by
  cases hflows with
  | @next _ instr hi htargets hhalt =>
    have hlt : i < f.size := (List.getElem?_eq_some_iff.mp hi).1
    have hfetch := h.placed.straight i instr hi htargets
    rw [fetch?_first_add] at hfetch
    have hnext : i + 1 < p.code.size := by
      rw [h.size]
      omega
    cases instr with
    | inc r => exact .next (.inl hfetch) hnext
    | dec r => exact .next (.inr hfetch) hnext
    | jmp | tst => cases htargets
    | hlt => exact absurd rfl hhalt
  | @label hole l _ hhole hl ho =>
    have hlt : j < p.code.size := by
      rw [h.size]
      exact Nat.lt_succ_of_le (hwf.label_le _ ho)
    have haddress := h.placed.label l j ho
    cases hole with
    | jump k l' =>
      have hfetch := h.placed.jump k l' hhole
      rw [fetch?_first_add] at hfetch
      obtain rfl := List.mem_singleton.mp hl
      exact .target hfetch (List.mem_singleton.mpr haddress.symm) hlt
    | test k l₁ l₂ =>
      obtain ⟨instr, hi, hfit⟩ := hwf.hole_fits _ hhole
      obtain ⟨r, t, t', rfl⟩ := hfit.exists_eq_tst
      have hfetch := h.placed.test k l₁ l₂ hhole r t t' hi
      rw [fetch?_first_add] at hfetch
      refine .target hfetch ?_ hlt
      rw [← haddress]
      exact List.mem_map_of_mem hl

theorem canReach (h : Linked p f) (hwf : f.WellFormed) (hreach : f.CanReach i j) : p.CanReach i j :=
  hreach.lift id fun _ _ => h.flows hwf

private theorem exists_jmp (h : Linked p f) (hjump : f.JumpAt i) :
    ∃ a, p.code[i]? = some (.jmp a) := by
  obtain ⟨l, hjump⟩ := hjump
  have hfetch := h.placed.jump i l hjump
  rw [fetch?_first_add] at hfetch
  exact ⟨_, hfetch⟩

/-- What is dead in a program linked from lively code is a jump. -/
private theorem exists_jmp_of_not_canReach (h : Linked p f) (hwf : f.WellFormed)
    (hlively : f.Lively)
    (hi : i < p.code.size) (hdead : ¬p.CanReach 0 i) : ∃ a, p.code[i]? = some (.jmp a) := by
  rw [h.size] at hi
  by_contra hne
  refine hdead (h.canReach hwf (hlively i (Nat.le_of_lt_succ hi) fun hjump => hne ?_))
  exact h.exists_jmp hjump

end Code.Linked

/-! ### Compiled programs -/

/-- What compiled code went through. -/
private theorem exists_woven_of_compile {o : Options} {p : Source.Program} {c : Compilation}
    (h : compile o p = .ok c) : ∃ f g n, Emit.Woven n f ∧ f.Closed ∧ f.optimize o.level = some g ∧
      g.WellFormed ∧ Linked c.program g ∧ c.stats = (c.program.inspect o.limit).stats ∧
      c.warnings = (c.program.inspect o.limit).warnings ∧ c.program.defects o.limit = [] := by
  obtain ⟨table, f, state, hemit, hemits, hfinish⟩ := exists_emitProgram_of_compile h
  obtain ⟨-, pool, -, hblock⟩ := exists_of_emitProgram hemit
  obtain ⟨n, g, program, report, -, hg, hlink, hcheck, rfl⟩ := exists_of_finishProgram hfinish
  obtain ⟨g', program', hg', hreplaces, -, hlink', hlinked, -⟩ := hemits.exists_link n
  obtain rfl : g' = g := Option.some.inj (hg'.symm.trans hg)
  obtain rfl : program' = program := Except.ok.inj (hlink'.symm.trans hlink)
  obtain ⟨rfl, hdefects⟩ := Program.defects_of_check hcheck
  exact ⟨f, g', _, Emit.weaves_block _ _ hblock, hemits.lowers.code.closed, hg,
    hreplaces.wellFormed, hlinked, rfl, rfl, hdefects⟩

/-- **No dead code but jumps.** In a program that was compiled without optimizing, every instruction
can be reached from the first one: none is counted as dead, there are no warnings, and the program
passes the check that refuses dead code. In an optimized program every instruction that cannot be
reached is a jump. -/
theorem compile_no_dead_code {o : Options} {p : Source.Program} {c : Compilation}
    (h : compile o p = .ok c) :
    (o.level = 0 → (∀ i < c.program.code.size, c.program.CanReach 0 i) ∧
      c.stats.unreachable = 0 ∧ c.warnings = [] ∧
      ∀ limit, limit = none ∨ limit = o.limit →
        c.program.check limit true = .ok (c.program.inspect limit)) ∧
    (o.level = 1 → ∀ i < c.program.code.size, ¬c.program.CanReach 0 i →
      ∃ a, c.program.code[i]? = some (.jmp a)) := by
  obtain ⟨f, g, n, hwoven, hclosed, hg, hwf, hlinked, hstats, hwarnings, hdefects⟩ :=
    exists_woven_of_compile h
  have hshaped := hwoven.shaped
  have hreach : ∀ k ≤ f.size, f.CanReach 0 k := fun k hk =>
    hwoven.through (.refl f) .refl k (Nat.zero_le k) (by omega)
  refine ⟨fun hlevel => ?_, fun hlevel i hi => ?_⟩
  · rw [hlevel] at hg
    obtain rfl : f = g := Option.some.inj hg
    have hall : ∀ i < c.program.code.size, c.program.CanReach 0 i := by
      intro i hi
      rw [hlinked.size] at hi
      exact hlinked.canReach hwf (hreach i (Nat.le_of_lt_succ hi))
    have hcount := Program.unreachableCount_eq_zero hall
    have hunreachable : (c.program.inspect o.limit).stats.unreachable = 0 := by
      simp [Program.inspect, hcount]
    refine ⟨hall, hstats ▸ hunreachable, ?_, ?_⟩
    · rw [hwarnings, Report.warnings, if_pos hunreachable]
    · rintro _ (rfl | rfl)
      · -- without a limit there are no more defects than with one
        have hsound := (Program.defects_eq_nil_iff.mp hdefects).2
        exact Program.check_strict (Program.defects_eq_nil_iff.mpr ⟨by simp, hsound⟩) hcount
      · exact Program.check_strict hdefects hcount
  · have honward := hshaped.onward hclosed
    have hdirect := honward.direct_threadJumps hshaped.toWellFormed hclosed
    have hlively := honward.lively_threadJumps hshaped.toWellFormed hclosed hshaped.first hreach
    rw [hlevel, optimize_one hdirect] at hg
    obtain rfl := Option.some.inj hg
    exact hlinked.exists_jmp_of_not_canReach hwf (hdirect.lively_iterate hlively roundLimit) hi

/-- The code of the inner conditional ends with a jump to the jump over the outer one's second
block. Threading passes the latter by, and nothing else leads to it. -/
def nestedChoice : Source.Program where
  declarations := [⟨"t", 1, 1⟩, ⟨"b", 0, 2⟩]
  body :=
    [.branch ⟨.var "t", .ne, .lit 0⟩
      [.branch ⟨.var "b", .ne, .lit 0⟩ [.assign "t" (.binary .add (.var "t") (.lit 1)) 5] [] 4]
      [.assign "b" (.binary .add (.var "b") (.lit 1)) 7] 3]

theorem compile_no_dead_code_nestedChoice :
    (∃ c, compile { level := 0 } nestedChoice = .ok c ∧
      (∀ i < c.program.code.size, c.program.CanReach 0 i) ∧ c.stats.unreachable = 0 ∧
      c.program.check none true = .ok (c.program.inspect none)) ∧
    ∃ c, compile { level := 1 } nestedChoice = .ok c ∧
      ∀ i < c.program.code.size, ¬c.program.CanReach 0 i →
        ∃ a, c.program.code[i]? = some (.jmp a) := by
  obtain ⟨c, hc⟩ := exists_compile_eq_ok
    (show (emitProgram { level := 0 } nestedChoice).isOk by decide +kernel)
  obtain ⟨c', hc'⟩ := exists_compile_eq_ok
    (show (emitProgram { level := 1 } nestedChoice).isOk by decide +kernel)
  obtain ⟨hall, hcount, -, hcheck⟩ := (compile_no_dead_code hc).1 rfl
  exact ⟨⟨c, hc, hall, hcount, hcheck none (.inl rfl)⟩, c', hc', (compile_no_dead_code hc').2 rfl⟩

end Abacus
