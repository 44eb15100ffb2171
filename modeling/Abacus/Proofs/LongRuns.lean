import Abacus.Proofs.Cycles
import Abacus.Proofs.Settling
import Abacus.Proofs.Variants

/-!
# Runs that outlast every step limit

Step limits are machine words, and a run may end only after more steps than the largest of them.
Then all limits cut it off, and the interpreter does not show how it ends. Two bounds tell when this
is so. A step raises a register by at most one, so a run from empty registers that overflows makes
almost as many steps as a register can count (`Program.Ends.bound_le_of_overflow`). A loop that
counts a register down makes the same number of steps for each count (`Program.steps_countdown`).

Source programs with small numbers only are among the runs of the first kind (`doubling`). For those
of the second kind a jump less in the loop can be what brings a run within the limits (`detour`).
-/

namespace Abacus

open Machine Code
open Source hiding Program

/-- What one step makes of the counts in a file: none grows by more than one, and only a register
that holds the largest count overflows. -/
def Machine.Outcome.GrowsFrom (file : File) : Outcome → Prop
  | .next c => ∀ r, File.val c.registers r ≤ file.val r + 1
  | .fault (.overflow r _) => wordBound ≤ file.val r + 1
  | _ => True

namespace Machine.Program

variable {p : Program} {c c' : Config} {file : File} {r : Register} {n : Nat}

/-- A run that ends after more steps than the largest limit is cut off by all limits. -/
private theorem Ends.runOn_of_bound_le {o : Outcome} (h : p.Ends n (p.start file) o)
    (hn : wordBound ≤ n + 1) {limit : Nat} (hlimit : limit < wordBound) :
    p.runOn limit file = .error (.stepLimitExceeded limit) :=
  h.runOn_of_le (Nat.le_of_lt_succ (Nat.lt_of_lt_of_le hlimit hn))

/-! ### Overflows from small counts -/

/-- What is read from a register is its value. -/
private theorem val_eq_of_read? {m : Nat} (h : c.read? r = some m) :
    File.val c.registers r = m := by
  unfold Config.read? at h
  split at h
  · cases h
  · rw [File.val, Array.getD_eq_getD_getElem?, h, Option.getD_some]

/-- A write of at most one more than was read makes no register grow by more than one. -/
private theorem val_setIfInBounds_le {t : Register} {m k : Nat}
    (hread : c.read? t = some m) (hk : k ≤ m + 1) :
    File.val (c.registers.setIfInBounds t.index k) r ≤ File.val c.registers r + 1 := by
  have hval := val_eq_of_read? hread
  by_cases hindex : t.index = r.index
  · rw [File.val, hindex] at hval
    rw [File.val, File.val, hval, hindex, Array.getD_eq_getD_getElem?,
      Array.getElem?_setIfInBounds_self]
    split
    · exact hk
    · exact Nat.zero_le _
  · simp [File.val, Array.getD_eq_getD_getElem?, Array.getElem?_setIfInBounds_ne hindex]

/-- The counts that an instruction leaves. -/
private theorem growsFrom_perform (i : Instr) (c : Config) :
    (i.perform c).GrowsFrom c.registers := by
  cases i with
  | inc t =>
    cases hread : c.read? t with
    | none => simp only [Instr.perform, hread, Outcome.GrowsFrom]
    | some m =>
      simp only [Instr.perform, hread]
      split
      next => exact fun r => val_setIfInBounds_le hread (Nat.le_refl _)
      next hfull =>
        rw [Outcome.GrowsFrom, val_eq_of_read? hread]
        exact Nat.not_lt.mp hfull
  | dec t =>
    rcases hread : c.read? t with _ | _ | m
    · simp only [Instr.perform, hread, Outcome.GrowsFrom]
    · simp only [Instr.perform, hread, Outcome.GrowsFrom]
    · simp only [Instr.perform, hread]
      exact fun r => val_setIfInBounds_le hread (by omega)
  | jmp target => exact fun r => Nat.le_succ _
  | tst t ifNonzero ifZero =>
    rcases hread : c.read? t with _ | _ | m
    · simp only [Instr.perform, hread, Outcome.GrowsFrom]
    · simp only [Instr.perform, hread]
      exact fun r => Nat.le_succ _
    · simp only [Instr.perform, hread]
      exact fun r => Nat.le_succ _
  | hlt => trivial

/-- The counts that a step leaves. -/
private theorem growsFrom_step (p : Program) (c : Config) :
    (p.step c).GrowsFrom c.registers := by
  unfold step
  split
  next => trivial
  next i _ => exact growsFrom_perform i c

/-- In a number of steps a register grows by no more than that number. -/
private theorem Steps.val_le (h : p.Steps n c c') :
    File.val c'.registers r ≤ File.val c.registers r + n := by
  induction h with
  | refl => exact Nat.le_refl _
  | @head n c d c' hstep _ ih =>
    have hgrows := growsFrom_step p c
    rw [hstep] at hgrows
    have := hgrows r
    omega

/-- A register that overflows has been raised to the bound, one step at a time. -/
theorem Ends.bound_le_of_overflow {a : Nat} (h : p.Ends n c (.fault (.overflow r a))) :
    wordBound ≤ File.val c.registers r + n + 1 := by
  obtain ⟨c', hsteps, hlast, -⟩ := h
  have hraised := hsteps.val_le (r := r)
  have hfull : wordBound ≤ File.val c'.registers r + 1 := by
    have hgrows := growsFrom_step p c'
    rwa [hlast] at hgrows
  omega

/-! ### Loops that count down -/

/-- A loop that counts a register down to zero, with `m` steps on the way back. -/
theorem steps_countdown {a b m : Nat} (htest : p.fetch? a = some (.tst r (a + 1) b))
    (hdec : p.fetch? (a + 1) = some (.dec r))
    (hback : ∀ file, p.Steps m ⟨a + 2, file⟩ ⟨a, file⟩) (hr : file.Has r) (hn : file.val r = n) :
    ∃ file', p.Steps ((m + 2) * n + 1) ⟨a, file⟩ ⟨b, file'⟩ := by
  induction n generalizing file with
  | zero =>
    have hstep := step_tst htest hr
    rw [if_pos hn] at hstep
    exact ⟨file, by simpa using Steps.single hstep⟩
  | succ n ih =>
    have hstep := step_tst htest hr
    rw [if_neg (hn ▸ Nat.succ_ne_zero n)] at hstep
    obtain ⟨file', hrest⟩ := ih (File.has_put.mpr hr) (File.val_put_self hr n)
    have hround := ((Steps.single hstep).trans (.single (step_dec hdec hr hn))).trans
      ((hback _).trans hrest)
    have hcount : 1 + 1 + (m + ((m + 2) * n + 1)) = (m + 2) * (n + 1) + 1 := by
      rw [Nat.mul_succ]
      omega
    exact ⟨file', hcount ▸ hround⟩

end Machine.Program

/-- A program whose variables all start at zero starts from empty registers. -/
private theorem Source.Program.val_startingFile_eq_zero {p : Source.Program}
    (h : ∀ d ∈ p.declarations, d.value = 0) (size : Nat) (r : Register) :
    (p.startingFile size).val r = 0 := by
  rw [File.val, startingFile, Array.getD_eq_getD_getElem?, Array.getElem?_ofFn]
  split
  next hlt =>
    cases hd : p.declarations[r.index]? with
    | none => rfl
    | some d => simp [h d (List.mem_of_getElem? hd)]
  next => rfl

/-- Sixty-four times a number is doubled that starts at one. -/
def doubling : Source.Program where
  declarations := [⟨"n", 0, 1⟩, ⟨"x", 0, 2⟩, ⟨"i", 0, 3⟩]
  body :=
    [.assign "n" (.operand (.lit 64)) 4, .assign "x" (.operand (.lit 1)) 5,
      .loop "i" (.var "n") [.assign "x" (.binary .add (.var "x") (.var "x")) 7] 6]

/-- The doubling comes to a sum that no variable can hold, and the run of the compiled program to an
overflow. But from empty registers it takes more steps to get there than a limit can allow. -/
theorem doubling_outlasts_limits :
    ∃ c, compile {} doubling = .ok c ∧ doubling.evalFrom (doubling.initialWith []) = none ∧
      ∀ limit < wordBound, c.program.runWith limit [] = .error (.stepLimitExceeded limit) := by
  obtain ⟨c, hcompile⟩ : ∃ c, compile {} doubling = .ok c :=
    exists_compile_eq_ok (by decide +kernel)
  have heval : doubling.evalFrom (doubling.initialWith []) = none :=
    Option.isNone_iff_eq_none.mp (by decide +kernel)
  refine ⟨c, hcompile, heval, fun limit hlimit => ?_⟩
  obtain ⟨table, f, g, h⟩ := exists_translation hcompile
  have hsettings : ∀ x ∈ ([] : List (String × Nat)), x.1 ∈ doubling.names ∧ x.2 < wordBound := nofun
  obtain ⟨file, hfile, hsize, hclean, henv⟩ := h.exists_start hsettings
  obtain ⟨n, r, a, hends⟩ := h.overflows hsize hclean henv heval
  -- the run starts from empty registers
  obtain rfl : c.program.registers = file := Except.ok.inj hfile
  have hempty : File.val c.program.registers r = 0 := by
    rw [← startingFile_of_compile hcompile]
    exact Source.Program.val_startingFile_eq_zero (by decide) _ r
  have hbound := hends.bound_le_of_overflow
  rw [Program.start, hempty, Nat.zero_add] at hbound
  rw [Program.runWith_eq hfile]
  exact hends.runOn_of_bound_le hbound hlimit

/-! ### A jump less -/

namespace Code

open Fragment

/-- A register is counted down. The way back to the test leads through a label, which may be that of
the test or one before a second jump. -/
def countdownVia (back : Label) : Fragment :=
  .define ⟨.transferLoop, 0⟩ ++ .test ⟨1⟩ ⟨.transferStep, 1⟩ ⟨.transferDone, 2⟩ ++
    .define ⟨.transferStep, 1⟩ ++ .dec ⟨1⟩ ++ .jump back ++
    .define ⟨.loopHeader, 3⟩ ++ .jump ⟨.transferLoop, 0⟩ ++ .define ⟨.transferDone, 2⟩

/-- The way back goes through the second jump. -/
def detour : Fragment := countdownVia ⟨.loopHeader, 3⟩

/-- The way back goes straight to the test. -/
def shortcut : Fragment := countdownVia ⟨.transferLoop, 0⟩

private theorem wellFormed_countdownVia (back : Label) : (countdownVia back).WellFormed :=
  (((((((wellFormed_define _).append (wellFormed_test _ _ _)).append
    (wellFormed_define _)).append (wellFormed_dec _)).append (wellFormed_jump _)).append
    (wellFormed_define _)).append (wellFormed_jump _)).append (wellFormed_define _)

private theorem labels_countdownVia (back : Label) : (countdownVia back).labels =
    [(⟨.transferLoop, 0⟩, 0), (⟨.transferStep, 1⟩, 1), (⟨.loopHeader, 3⟩, 3),
      (⟨.transferDone, 2⟩, 4)] :=
  rfl

private theorem holes_countdownVia (back : Label) : (countdownVia back).holes =
    [.test 0 ⟨.transferStep, 1⟩ ⟨.transferDone, 2⟩, .jump 2 back, .jump 3 ⟨.transferLoop, 0⟩] :=
  rfl

/-- A run of the loop makes so many steps for each count as there are jumps on the way back, and two
more. -/
private theorem Linked.ends_countdownVia {p : Program} {back : Label}
    (h : Linked p (countdownVia back))
    {m : Nat} (hback : ∀ file, p.Steps m ⟨p.base.first + 2, file⟩ (p.start file)) {file : File}
    (hr : file.Has ⟨1⟩) :
    ∃ file', p.Ends ((m + 2) * file.val ⟨1⟩ + 1) (p.start file) (.halted file') := by
  have hstep : (countdownVia back).address p.base.first ⟨.transferStep, 1⟩ = p.base.first + 1 :=
    h.placed.label _ 1 (by simp [labels_countdownVia])
  have hdone : (countdownVia back).address p.base.first ⟨.transferDone, 2⟩ = p.base.first + 4 :=
    h.placed.label _ 4 (by simp [labels_countdownVia])
  have htest := h.placed.test 0 ⟨.transferStep, 1⟩ ⟨.transferDone, 2⟩
    (by simp [holes_countdownVia]) ⟨1⟩ 0 0 rfl
  rw [hstep, hdone] at htest
  have hdec := h.placed.straight 1 (.dec ⟨1⟩) rfl rfl
  obtain ⟨file', hsteps⟩ := Program.steps_countdown htest hdec hback hr rfl
  exact ⟨file', _, hsteps, Program.step_of_fetch? h.halt file', trivial⟩

/-- Threading takes the way back straight to the test. -/
private theorem threadJumps_detour : detour.threadJumps = shortcut := by
  have hfollow : ∀ {l l'}, detour.chase 5 [] l = some l' → follow detour.links l = l' :=
    fun h => Option.some.inj ((chase_eq_follow _ (by decide)).symm.trans h)
  have hloop : follow detour.links ⟨.transferLoop, 0⟩ = ⟨.transferLoop, 0⟩ := hfollow (by decide)
  have hstep : follow detour.links ⟨.transferStep, 1⟩ = ⟨.transferStep, 1⟩ := hfollow (by decide)
  have hdone : follow detour.links ⟨.transferDone, 2⟩ = ⟨.transferDone, 2⟩ := hfollow (by decide)
  have hheader : follow detour.links ⟨.loopHeader, 3⟩ = ⟨.transferLoop, 0⟩ := hfollow (by decide)
  refine Fragment.ext rfl ?_ rfl
  change [Hole.test 0 (follow detour.links ⟨.transferStep, 1⟩)
      (follow detour.links ⟨.transferDone, 2⟩),
    .jump 2 (follow detour.links ⟨.loopHeader, 3⟩),
    .jump 3 (follow detour.links ⟨.transferLoop, 0⟩)] = shortcut.holes
  rw [hloop, hstep, hdone, hheader]
  rfl

private theorem direct_shortcut : shortcut.Direct where
  toWellFormed := wellFormed_countdownVia _
  toClosed := ⟨by decide, by decide⟩
  not_jumpAt l hl o hlo := by
    have hlabels : ∀ x ∈ shortcut.labels, x.1 ∈ shortcut.wanted → ¬shortcut.JumpAt x.2 := by decide
    exact hlabels (l, o) hlo hl

/-- There is nothing to drop. -/
private theorem optimize_detour : detour.optimize 1 = some shortcut := by
  have hnext : ∀ k, ¬shortcut.JumpsTo k (k + 1) := by
    rintro k ⟨l, hjump, hl⟩
    have hlabels : ∀ x ∈ shortcut.labels, ∀ hole ∈ shortcut.holes,
      ∀ k < 4, hole = .jump k x.1 → x.2 ≠ k + 1 := by decide
    exact hlabels _ hl _ hjump k (direct_shortcut.lt_of_jumpAt ⟨l, hjump⟩) rfl rfl
  rw [optimize_one (threadJumps_detour ▸ direct_shortcut), threadJumps_detour]
  exact congrArg some (Function.iterate_fixed (direct_shortcut.dropNext_eq_self hnext) roundLimit)

/-- A count that is too long for every limit on the detour, and not on the shortcut. -/
theorem detour_outlasts_limits :
    (∀ f ∈ [detour], f.WellFormed) ∧ (join [detour]).Closed ∧
      ∃ optimized p q, [detour].mapM (optimize 1) = some optimized ∧
        link .one #[wordBound / 4] [] [detour] = .ok p ∧
        link .one #[wordBound / 4] [] optimized = .ok q ∧
        (∀ limit < wordBound,
          p.runOn limit #[wordBound / 4] = .error (.stepLimitExceeded limit)) ∧
        ∃ limit < wordBound, ∃ e, q.runOn limit #[wordBound / 4] = .ok e := by
  have hjoin : ∀ f, join [f] = f := append_empty
  have hclosed : (join [detour]).Closed := ⟨by decide, by decide⟩
  have hwf : (join [detour]).WellFormed := hjoin detour ▸ wellFormed_countdownVia _
  have hclosed' : (join [shortcut]).Closed := hjoin shortcut ▸ direct_shortcut.toClosed
  have hwf' : (join [shortcut]).WellFormed := hjoin shortcut ▸ wellFormed_countdownVia _
  have hr : File.Has #[wordBound / 4] ⟨1⟩ := ⟨by decide, by decide⟩
  obtain ⟨p, hlink, hp, -, -, -⟩ := link_ok hwf hclosed .one #[wordBound / 4] []
  obtain ⟨q, hlink', hq, -, -, -⟩ := link_ok hwf' hclosed' .one #[wordBound / 4] []
  rw [hjoin] at hp hq
  refine ⟨fun f hf => List.mem_singleton.mp hf ▸ wellFormed_countdownVia _, hclosed, [shortcut], p,
    q, ?_, hlink, hlink', fun limit hlimit => ?_, wordBound - 1, by decide, ?_⟩
  · rw [List.mapM_cons, optimize_detour]
    rfl
  · -- two jumps on the way back: four steps for each count
    have hheader := hp.placed.label ⟨.loopHeader, 3⟩ 3 (by decide)
    have hloop := hp.placed.label ⟨.transferLoop, 0⟩ 0 (by decide)
    have hback := hp.placed.jump 2 ⟨.loopHeader, 3⟩ (by decide)
    have hback' := hp.placed.jump 3 ⟨.transferLoop, 0⟩ (by decide)
    rw [hheader] at hback
    rw [hloop] at hback'
    obtain ⟨file', hends⟩ := hp.ends_countdownVia
      (fun file => (Program.Steps.single (Program.step_jmp hback)).trans
        (.single (Program.step_jmp hback'))) hr
    exact hends.runOn_of_bound_le (by decide) hlimit
  · -- one jump: three steps for each count
    have hloop := hq.placed.label ⟨.transferLoop, 0⟩ 0 (by decide)
    have hback := hq.placed.jump 2 ⟨.transferLoop, 0⟩ (by decide)
    rw [hloop] at hback
    obtain ⟨file', hends⟩ := hq.ends_countdownVia
      (fun file => .single (Program.step_jmp hback)) hr
    exact ⟨_, Program.runOn_of_halts hends (by decide)⟩

end Code

end Abacus
