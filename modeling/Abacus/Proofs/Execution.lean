import Abacus.Proofs.File

/-!
# Runs of a program

`Program.Steps` counts the steps between two configurations and `Program.Ends` says how a run goes
on to its last step, a halt or a fault. Runs are deterministic (`Program.Ends.unique`), and every
run of a bounded number of steps either is still going or has ended (`Program.steps_or_ends`).
`Program.runOn_of_ends` and its converses tie these relations to the interpreter.

`Program.Runs` is what is said about emitted code: that it gets from one address to another with a
given register file, or else ends in an overflow.
-/

namespace Abacus.Machine

/-- Whether a step was the last one. -/
def Outcome.Last : Outcome → Prop
  | .next _ => False
  | .halted _ => True
  | .fault _ => True

namespace Program

variable {p : Program}

/-- A number of steps that lead from one configuration to another. -/
inductive Steps (p : Program) : Nat → Config → Config → Prop
  | refl (c : Config) : Steps p 0 c c
  | head {n : Nat} {c c' c'' : Config} : p.step c = .next c' → Steps p n c' c'' →
      Steps p (n + 1) c c''

/-- Some number of steps leads from one configuration to another. -/
def Reaches (p : Program) (c c' : Config) : Prop := ∃ n, p.Steps n c c'

/-- After a number of steps comes a last one, with the given outcome. -/
def Ends (p : Program) (n : Nat) (c : Config) (o : Outcome) : Prop :=
  ∃ c', p.Steps n c c' ∧ p.step c' = o ∧ o.Last

/-- The configuration that a run on a register file starts from. -/
def start (p : Program) (file : File) : Config := ⟨p.base.first, file⟩

/-! ### Steps -/

/-- Some steps and then some more. -/
theorem Steps.trans {n m : Nat} {c c' c'' : Config} (h : p.Steps n c c')
    (h' : p.Steps m c' c'') : p.Steps (n + m) c c'' := by
  induction h with
  | refl => simpa using h'
  | head hstep _ ih =>
    rw [Nat.add_right_comm]
    exact .head hstep (ih h')

theorem Steps.single {c c' : Config} (h : p.step c = .next c') : p.Steps 1 c c' :=
  .head h (.refl c')

theorem Reaches.refl (c : Config) : p.Reaches c c := ⟨0, .refl c⟩

/-- A configuration that is reached from one that is reached. -/
theorem Reaches.trans {c c' c'' : Config} (h : p.Reaches c c') (h' : p.Reaches c' c'') :
    p.Reaches c c'' := by
  obtain ⟨n, hn⟩ := h
  obtain ⟨m, hm⟩ := h'
  exact ⟨n + m, hn.trans hm⟩

theorem Reaches.single {c c' : Config} (h : p.step c = .next c') : p.Reaches c c' :=
  ⟨1, .single h⟩

/-- A step, and then any number of them. -/
theorem Reaches.head {c c' c'' : Config} (h : p.step c = .next c') (h' : p.Reaches c' c'') :
    p.Reaches c c'' :=
  (Reaches.single h).trans h'

/-- After some steps a run ends as it does from there. -/
theorem Steps.ends {n m : Nat} {c c' : Config} {o : Outcome} (h : p.Steps n c c')
    (h' : p.Ends m c' o) : p.Ends (n + m) c o := by
  obtain ⟨c'', hsteps, hlast⟩ := h'
  exact ⟨c'', h.trans hsteps, hlast⟩

/-- A run that ends passes every configuration it can reach. -/
theorem Steps.ends_rest {n m : Nat} {c c' : Config} {o : Outcome} (h : p.Steps n c c')
    (h' : p.Ends m c o) : n ≤ m ∧ p.Ends (m - n) c' o := by
  induction h generalizing m with
  | refl => simpa using h'
  | @head n c c₁ c' hstep _ ih =>
    obtain ⟨d, hd, hlast, hterm⟩ := h'
    cases hd with
    | refl =>
      rw [hstep] at hlast
      rw [← hlast] at hterm
      exact hterm.elim
    | @head m _ c₂ _ hstep' hrest =>
      obtain rfl : c₁ = c₂ := by
        rw [hstep] at hstep'
        exact Outcome.next.inj hstep'
      obtain ⟨hle, hends⟩ := ih ⟨d, hrest, hlast, hterm⟩
      exact ⟨by omega, by rwa [Nat.add_sub_add_right]⟩

/-- A run ends in one way only. -/
theorem Ends.unique {n m : Nat} {c : Config} {o o' : Outcome} (h : p.Ends n c o)
    (h' : p.Ends m c o') : n = m ∧ o = o' := by
  have hle : m ≤ n := by
    obtain ⟨_, hsteps, -⟩ := h'
    exact (hsteps.ends_rest h).1
  obtain ⟨d, hsteps, hlast, hterm⟩ := h
  obtain ⟨hle', d', hrest, hlast', hterm'⟩ := hsteps.ends_rest h'
  obtain rfl : n = m := by omega
  rw [Nat.sub_self] at hrest
  cases hrest
  exact ⟨rfl, by rw [← hlast, hlast']⟩

/-- After a number of steps, a run is still going or has ended. -/
theorem steps_or_ends (p : Program) (n : Nat) (c : Config) :
    (∃ c', p.Steps n c c') ∨ ∃ m < n, ∃ o, p.Ends m c o := by
  induction n generalizing c with
  | zero => exact .inl ⟨c, .refl c⟩
  | succ n ih =>
    cases hstep : p.step c with
    | next c₁ =>
      rcases ih c₁ with ⟨c', hsteps⟩ | ⟨m, hm, o, d, hsteps, hlast⟩
      · exact .inl ⟨c', .head hstep hsteps⟩
      · exact .inr ⟨m + 1, by omega, o, d, .head hstep hsteps, hlast⟩
    | halted file => exact .inr ⟨0, by omega, _, c, .refl c, hstep, trivial⟩
    | fault f => exact .inr ⟨0, by omega, _, c, .refl c, hstep, trivial⟩

/-! ### The interpreter -/

/-- Steps that are taken are taken off the limit. -/
private theorem runFrom_steps {n : Nat} {c c' : Config} (h : p.Steps n c c') (limit left : Nat) :
    p.runFrom limit (left + n) c = p.runFrom limit left c' := by
  induction h with
  | refl => rfl
  | head hstep _ ih =>
    rw [← Nat.add_assoc, runFrom, hstep]
    exact ih

/-- A run that is given too few steps is cut off. -/
theorem runOn_of_steps {n limit : Nat} {file : File} {c' : Config}
    (h : p.Steps n (p.start file) c') (hle : limit ≤ n) :
    p.runOn limit file = .error (.stepLimitExceeded limit) := by
  rcases p.steps_or_ends limit (p.start file) with ⟨d, hsteps⟩ | ⟨m, hm, o, hends⟩
  · have hrun := runFrom_steps hsteps limit 0
    rw [Nat.zero_add] at hrun
    exact hrun
  · have := (h.ends_rest hends).1
    omega

/-- A run is stopped at a limit that it does not end below. -/
theorem Ends.runOn_of_le {n limit : Nat} {file : File} {o : Outcome}
    (h : p.Ends n (p.start file) o) (hle : limit ≤ n) :
    p.runOn limit file = .error (.stepLimitExceeded limit) := by
  obtain ⟨c', hsteps, -⟩ := h
  exact runOn_of_steps hsteps hle

/-- A run that is given enough steps comes to its last one. -/
private theorem runOn_eq_runFrom {n limit : Nat} {file : File} {c' : Config}
    (h : p.Steps n (p.start file) c') (hlt : n < limit) :
    p.runOn limit file = p.runFrom limit (limit - n - 1 + 1) c' := by
  have hrun := runFrom_steps h limit (limit - n - 1 + 1)
  rwa [show limit - n - 1 + 1 + n = limit by omega] at hrun

/-- A run that halts in time gives its registers, and counts the halt as a step. -/
theorem runOn_of_halts {n limit : Nat} {file file' : File}
    (h : p.Ends n (p.start file) (.halted file')) (hlt : n < limit) :
    p.runOn limit file = .ok ⟨file', n + 1⟩ := by
  obtain ⟨c', hsteps, hlast, -⟩ := h
  simp only [runOn_eq_runFrom hsteps hlt, runFrom, hlast]
  rw [show limit - (limit - n - 1) = n + 1 by omega]

/-- A run that faults in time gives the fault. -/
theorem runOn_of_faults {n limit : Nat} {file : File} {f : Fault}
    (h : p.Ends n (p.start file) (.fault f)) (hlt : n < limit) :
    p.runOn limit file = .error f := by
  obtain ⟨c', hsteps, hlast, -⟩ := h
  simp only [runOn_eq_runFrom hsteps hlt, runFrom, hlast]

/-- Whatever the interpreter answers, the run is still going or ends that way. -/
theorem runOn_cases (p : Program) (limit : Nat) (file : File) :
    (∃ c', p.Steps limit (p.start file) c' ∧
        p.runOn limit file = .error (.stepLimitExceeded limit)) ∨
      (∃ n < limit, ∃ file', p.Ends n (p.start file) (.halted file') ∧
        p.runOn limit file = .ok ⟨file', n + 1⟩) ∨
      ∃ n < limit, ∃ f, p.Ends n (p.start file) (.fault f) ∧ p.runOn limit file = .error f := by
  rcases p.steps_or_ends limit (p.start file) with ⟨c', hsteps⟩ | ⟨n, hn, o, hends⟩
  · exact .inl ⟨c', hsteps, runOn_of_steps hsteps (Nat.le_refl limit)⟩
  · cases o with
    | next c' =>
      obtain ⟨-, -, -, hterm⟩ := hends
      exact hterm.elim
    | halted file' => exact .inr (.inl ⟨n, hn, file', hends, runOn_of_halts hends hn⟩)
    | fault f => exact .inr (.inr ⟨n, hn, f, hends, runOn_of_faults hends hn⟩)

/-- A result is given by a run that halts in time. -/
theorem ends_of_runOn_ok {limit : Nat} {file : File} {e : Execution}
    (h : p.runOn limit file = .ok e) :
    ∃ n < limit, p.Ends n (p.start file) (.halted e.registers) ∧ e.steps = n + 1 := by
  rcases p.runOn_cases limit file with ⟨_, -, hrun⟩ | ⟨n, hn, file', hends, hrun⟩ |
    ⟨n, hn, f, hends, hrun⟩
  · rw [hrun] at h
    exact absurd h (by simp)
  · rw [hrun] at h
    obtain rfl := Except.ok.inj h
    exact ⟨n, hn, hends, rfl⟩
  · rw [hrun] at h
    exact absurd h (by simp)

/-- A fault other than that of the limit is the end of a run in time. -/
theorem ends_of_runOn_error {limit : Nat} {file : File} {f : Fault}
    (h : p.runOn limit file = .error f) (hne : ∀ l, f ≠ .stepLimitExceeded l) :
    ∃ n < limit, p.Ends n (p.start file) (.fault f) := by
  rcases p.runOn_cases limit file with ⟨_, -, hrun⟩ | ⟨n, hn, file', hends, hrun⟩ |
    ⟨n, hn, f', hends, hrun⟩
  · rw [hrun] at h
    exact absurd (Except.error.inj h).symm (hne limit)
  · rw [hrun] at h
    exact absurd h (by simp)
  · rw [hrun] at h
    obtain rfl := Except.error.inj h
    exact ⟨n, hn, hends⟩

/-- Starting values are refused exactly if there is one for a variable that the program does not
have; the first such variable is reported. -/
theorem withValues_eq_error_iff {settings : List (String × Nat)} {f : Fault} :
    p.withValues settings = .error f ↔
      ∃ x ∈ settings.find? (fun x => (p.registerOf? x.1).isNone), f = .unknownVariable x.1 := by
  unfold withValues
  generalize p.registers = file
  induction settings generalizing file with
  | nil => simp [pure, Except.pure]
  | cons x rest ih =>
    rw [List.foldlM_cons, List.find?_cons]
    cases p.registerOf? x.1 with
    | none => simp [bind, Except.bind, eq_comm]
    | some r => exact ih _

/-! ### Single instructions -/

/-- A register that is there can be read. -/
private theorem read?_of_has {a : Nat} {file : File} {r : Register} (h : file.Has r) :
    (Config.mk a file).read? r = some (file.val r) := by
  have hid : r.id ≠ 0 := Nat.pos_iff_ne_zero.mp h.1
  simp [Config.read?, hid, File.val, Array.getD_eq_getD_getElem?, h.index_lt]

/-- A step performs the instruction that is fetched. -/
theorem step_of_fetch? {a : Nat} {i : Instr} (hf : p.fetch? a = some i) (file : File) :
    p.step ⟨a, file⟩ = i.perform ⟨a, file⟩ := by
  simp only [step, hf]

/-- A step over an increment. -/
theorem step_inc {a : Nat} {file : File} {r : Register} (hf : p.fetch? a = some (.inc r))
    (hr : file.Has r) (hn : file.val r + 1 < wordBound) :
    p.step ⟨a, file⟩ = .next ⟨a + 1, file.put r (file.val r + 1)⟩ := by
  simp [step_of_fetch? hf, Instr.perform, read?_of_has hr, hn, File.put]

/-- A step over an increment of a register that is full. -/
theorem step_inc_full {a : Nat} {file : File} {r : Register} (hf : p.fetch? a = some (.inc r))
    (hr : file.Has r) (hn : wordBound ≤ file.val r + 1) :
    p.step ⟨a, file⟩ = .fault (.overflow r a) := by
  simp [step_of_fetch? hf, Instr.perform, read?_of_has hr, Nat.not_lt.mpr hn]

/-- A step over a decrement. -/
theorem step_dec {a n : Nat} {file : File} {r : Register} (hf : p.fetch? a = some (.dec r))
    (hr : file.Has r) (hn : file.val r = n + 1) :
    p.step ⟨a, file⟩ = .next ⟨a + 1, file.put r n⟩ := by
  simp [step_of_fetch? hf, Instr.perform, read?_of_has hr, hn, File.put]

/-- A step over a decrement of a register that is empty. -/
theorem step_dec_empty {a : Nat} {file : File} {r : Register} (hf : p.fetch? a = some (.dec r))
    (hr : file.Has r) (hn : file.val r = 0) :
    p.step ⟨a, file⟩ = .fault (.decrementOfZero r a) := by
  simp [step_of_fetch? hf, Instr.perform, read?_of_has hr, hn]

/-- A step over a jump. -/
theorem step_jmp {a b : Nat} {file : File} (hf : p.fetch? a = some (.jmp b)) :
    p.step ⟨a, file⟩ = .next ⟨b, file⟩ :=
  step_of_fetch? hf file

/-- A step over a test: the second target is for zero. -/
theorem step_tst {a b b' : Nat} {file : File} {r : Register}
    (hf : p.fetch? a = some (.tst r b b')) (hr : file.Has r) :
    p.step ⟨a, file⟩ = .next ⟨if file.val r = 0 then b' else b, file⟩ := by
  simp only [step_of_fetch? hf, Instr.perform, read?_of_has hr]
  cases file.val r <;> simp

/-! ### Code that runs through or overflows -/

/-- A run comes to an increment of a register that holds the largest count. -/
def Overflows (p : Program) (c : Config) : Prop :=
  ∃ n r a, p.Ends n c (.fault (.overflow r a))

/-- A run gets to an address with a given register file; without one, it overflows. -/
def Runs (p : Program) (c : Config) (b : Nat) : Option File → Prop
  | some file => p.Reaches c ⟨b, file⟩
  | none => p.Overflows c

/-- A run that comes to an overflow overflows. -/
theorem Reaches.overflows {c c' : Config} (h : p.Reaches c c') (h' : p.Overflows c') :
    p.Overflows c := by
  obtain ⟨n, hsteps⟩ := h
  obtain ⟨m, r, a, hends⟩ := h'
  exact ⟨n + m, r, a, hsteps.ends hends⟩

/-- A run that comes to the start of some code goes on as the code does. -/
theorem Reaches.runs {c c' : Config} {b : Nat} {x : Option File} (h : p.Reaches c c')
    (h' : p.Runs c' b x) : p.Runs c b x := by
  cases x with
  | some file => exact h.trans h'
  | none => exact h.overflows h'

/-- One stretch of code after another. -/
theorem Runs.bind {c : Config} {b d : Nat} {x : Option File} {y : File → Option File}
    (h : p.Runs c b x) (h' : ∀ file, x = some file → p.Runs ⟨b, file⟩ d (y file)) :
    p.Runs c d (x.bind y) := by
  cases x with
  | some file => exact Reaches.runs h (h' file rfl)
  | none => exact h

/-- An increment, whether or not there is room for it. -/
theorem runs_inc {a : Nat} {file : File} {r : Register} (hf : p.fetch? a = some (.inc r))
    (hr : file.Has r) : p.Runs ⟨a, file⟩ (a + 1) (file.add? r 1) := by
  by_cases hn : file.val r + 1 < wordBound
  · rw [File.add?, File.assign?_of_lt hn]
    exact Reaches.single (step_inc hf hr hn)
  · rw [File.add?, File.assign?_of_le (Nat.not_lt.mp hn)]
    exact ⟨0, r, a, _, .refl _, step_inc_full hf hr (Nat.not_lt.mp hn), trivial⟩

end Program

end Abacus.Machine
