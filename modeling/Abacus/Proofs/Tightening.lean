import Abacus.Proofs.Execution

/-!
# Tighter programs

One program tightens another when it comes to the same end from every register file, in no more
steps, and comes to no end where the other runs on. Ends are the same up to the address of a faulty
instruction, since tightening moves code.

To show it, relate the configurations of both programs so that every step of the tighter one is
matched by one or more steps of the other (`Program.Simulates`). Runs are deterministic, so this one
direction is enough (`Program.Simulates.tightens`).
-/

namespace Abacus.Machine

/-- A fault without the address it happened at. -/
def Fault.anywhere : Fault → Fault
  | .decrementOfZero r _ => .decrementOfZero r 0
  | .badRegister r _ => .badRegister r 0
  | .overflow r _ => .overflow r 0
  | .badAddress _ => .badAddress 0
  | .stepLimitExceeded limit => .stepLimitExceeded limit
  | .unknownVariable name => .unknownVariable name

/-- A fault is like an overflow of a register only if it is one, wherever it happened. -/
private theorem Fault.anywhere_eq_overflow_iff {f : Fault} {r : Register} :
    f.anywhere = .overflow r 0 ↔ ∃ a, f = .overflow r a := by
  cases f <;> simp [Fault.anywhere]

/-- The same end: the same registers, or the same fault wherever it happened. -/
inductive Outcome.Alike : Outcome → Outcome → Prop
  | halted (file : File) : Alike (.halted file) (.halted file)
  | fault {f f' : Fault} : f.anywhere = f'.anywhere → Alike (.fault f) (.fault f')

namespace Outcome.Alike

theorem refl {o : Outcome} (h : o.Last) : o.Alike o := by
  cases o with
  | next c => exact h.elim
  | halted file => exact .halted file
  | fault f => exact .fault rfl

/-- Outcomes that are both like a third one are alike. -/
theorem trans {o o' o'' : Outcome} (h : o.Alike o') (h' : o'.Alike o'') : o.Alike o'' := by
  cases h with
  | halted file => exact h'
  | fault hf =>
    cases h' with
    | fault hf' => exact .fault (hf.trans hf')

/-- Runs that halt alike have the same registers. -/
private theorem halted_inj {file file' : File} (h : Outcome.Alike (.halted file) (.halted file')) :
    file = file' := by
  cases h
  rfl

end Outcome.Alike

namespace Program

variable {p q : Program}

/-- A program comes to the same ends as another, in no more steps. -/
structure Tightens (q p : Program) : Prop where
  /-- Where the other program ends, this one does, and no later. -/
  ends : ∀ file n o, p.Ends n (p.start file) o →
    ∃ m ≤ n, ∃ o', q.Ends m (q.start file) o' ∧ o.Alike o'
  /-- Where this program ends, the other one does. -/
  ends_other : ∀ file m o, q.Ends m (q.start file) o →
    ∃ n o', p.Ends n (p.start file) o' ∧ o'.Alike o

/-- A program tightens itself. -/
theorem Tightens.refl (p : Program) : p.Tightens p where
  ends _ n o h := ⟨n, Nat.le_refl n, o, h, .refl (by obtain ⟨-, -, -, hlast⟩ := h; exact hlast)⟩
  ends_other _ n o h := ⟨n, o, h, .refl (by obtain ⟨-, -, -, hlast⟩ := h; exact hlast)⟩

/-- What tightens a tightened program tightens the original. -/
theorem Tightens.trans {r : Program} (h : r.Tightens q) (h' : q.Tightens p) : r.Tightens p where
  ends file n o hends := by
    obtain ⟨m, hm, o', hends', halike⟩ := h'.ends file n o hends
    obtain ⟨k, hk, o'', hends'', halike'⟩ := h.ends file m o' hends'
    exact ⟨k, Nat.le_trans hk hm, o'', hends'', halike.trans halike'⟩
  ends_other file k o hends := by
    obtain ⟨m, o', hends', halike⟩ := h.ends_other file k o hends
    obtain ⟨n, o'', hends'', halike'⟩ := h'.ends_other file m o' hends'
    exact ⟨n, o'', hends'', halike'.trans halike⟩

/-! ### Simulations -/

/-- What one step of a program leads to is matched by a run of another. -/
def Matches (p : Program) (R : Config → Config → Prop) (c : Config) : Outcome → Prop
  | .next d => ∃ n c', p.Steps (n + 1) c c' ∧ R c' d
  | o => ∃ n o', p.Ends n c o' ∧ o'.Alike o

/-- Every step of a program is matched by one or more steps of another, from related
configurations to related ones. -/
def Simulates (q p : Program) (R : Config → Config → Prop) : Prop :=
  ∀ c d, R c d → p.Matches R c (q.step d)

variable {R : Config → Config → Prop}

/-- Steps of the shorter program are matched by as many steps of the other one, or more. -/
theorem Simulates.steps (h : q.Simulates p R) {m : Nat} {c d d' : Config} (hR : R c d)
    (hsteps : q.Steps m d d') : ∃ n ≥ m, ∃ c', p.Steps n c c' ∧ R c' d' := by
  induction hsteps generalizing c with
  | refl => exact ⟨0, Nat.le_refl 0, c, .refl c, hR⟩
  | @head m d d₁ d' hstep _ ih =>
    have hmatch := h c d hR
    rw [hstep] at hmatch
    obtain ⟨n, c₁, hn, hR₁⟩ := hmatch
    obtain ⟨k, hk, c', hk', hR'⟩ := ih hR₁
    exact ⟨n + 1 + k, by omega, c', hn.trans hk', hR'⟩

/-- An end of the shorter program is matched by an end of the other one, no sooner. -/
theorem Simulates.ends (h : q.Simulates p R) {m : Nat} {c d : Config} {o : Outcome} (hR : R c d)
    (hends : q.Ends m d o) : ∃ n ≥ m, ∃ o', p.Ends n c o' ∧ o'.Alike o := by
  obtain ⟨d', hsteps, hlast, hterm⟩ := hends
  obtain ⟨n, hn, c', hsteps', hR'⟩ := h.steps hR hsteps
  have hmatch := h c' d' hR'
  rw [hlast] at hmatch
  cases o with
  | next _ => exact hterm.elim
  | halted _ | fault _ =>
    obtain ⟨k, o', hends', halike⟩ := hmatch
    exact ⟨n + k, by omega, o', hsteps'.ends hends', halike⟩

/-- Where the simulated program ends, the other cannot run on: it would have to be matched by more
steps than there are. -/
private theorem Simulates.ends_of_ends (h : q.Simulates p R) {n : Nat} {c d : Config} {o : Outcome}
    (hR : R c d) (hends : p.Ends n c o) : ∃ m ≤ n, ∃ o', q.Ends m d o' ∧ o.Alike o' := by
  rcases q.steps_or_ends (n + 1) d with ⟨d', hsteps⟩ | ⟨m, hm, o', hends'⟩
  · obtain ⟨k, hk, c', hsteps', -⟩ := h.steps hR hsteps
    have := (hsteps'.ends_rest hends).1
    omega
  · obtain ⟨k, -, o'', hends'', halike⟩ := h.ends hR hends'
    obtain ⟨-, rfl⟩ := hends''.unique hends
    exact ⟨m, by omega, o', hends', halike⟩

/-- A program that simulates another one from the start tightens it. -/
theorem Simulates.tightens (h : q.Simulates p R)
    (hstart : ∀ file, R (p.start file) (q.start file)) : q.Tightens p where
  ends file _ _ hends := h.ends_of_ends (hstart file) hends
  ends_other file _ _ hends := by
    obtain ⟨n, -, o', hends', halike⟩ := h.ends (hstart file) hends
    exact ⟨n, o', hends', halike⟩

/-! ### What the interpreter shows of it

Step limits are machine words. A run that ends may take more steps than any of them allows, and the
tighter program need not: what the interpreter shows of an end is the same for both as soon as some
limit is enough for the longer run. -/

/-- Some step limit is enough for a run to come to its end. -/
def Finishes (p : Program) (file : File) : Prop :=
  ∃ limit < wordBound, p.runOn limit file ≠ .error (.stepLimitExceeded limit)

/-- The same answer of the interpreter: the same registers, after no more steps, or the same fault
wherever it happened. -/
inductive AlikeAnswers : Except Fault Execution → Except Fault Execution → Prop
  | halted {e e' : Execution} : e'.registers = e.registers → e'.steps ≤ e.steps →
      AlikeAnswers (.ok e) (.ok e')
  | fault {f f' : Fault} : f.anywhere = f'.anywhere → AlikeAnswers (.error f) (.error f')

/-- From a register file, the first program halts or faults on a register within some step limit
exactly if the second does and the first is not cut off by all limits. Where both halt, they leave
the same registers, and the second takes no more steps. Whatever the limits, one of them runs on for
ever exactly if the other does. -/
structure SameEnds (p q : Program) (file : File) : Prop where
  halts : (∃ limit < wordBound, ∃ e, p.runOn limit file = .ok e) ↔
    p.Finishes file ∧ ∃ limit < wordBound, ∃ e, q.runOn limit file = .ok e
  registers_steps : ∀ limit limit' e e', p.runOn limit file = .ok e → q.runOn limit' file = .ok e' →
    e'.registers = e.registers ∧ e'.steps ≤ e.steps
  decrementOfZero : ∀ r,
    (∃ limit < wordBound, ∃ a, p.runOn limit file = .error (.decrementOfZero r a)) ↔
      p.Finishes file ∧ ∃ limit < wordBound, ∃ a, q.runOn limit file = .error (.decrementOfZero r a)
  badRegister : ∀ r,
    (∃ limit < wordBound, ∃ a, p.runOn limit file = .error (.badRegister r a)) ↔
      p.Finishes file ∧ ∃ limit < wordBound, ∃ a, q.runOn limit file = .error (.badRegister r a)
  overflow : ∀ r, (∃ limit < wordBound, ∃ a, p.runOn limit file = .error (.overflow r a)) ↔
    p.Finishes file ∧ ∃ limit < wordBound, ∃ a, q.runOn limit file = .error (.overflow r a)
  diverges : (∀ n o, ¬p.Ends n (p.start file) o) ↔ ∀ n o, ¬q.Ends n (q.start file) o

/-- Limits that are enough for a run all show the same of it. -/
private theorem runOn_eq_of_ne {file : File} {limit limit' : Nat}
    (h : p.runOn limit file ≠ .error (.stepLimitExceeded limit))
    (h' : p.runOn limit' file ≠ .error (.stepLimitExceeded limit')) :
    p.runOn limit file = p.runOn limit' file := by
  rcases p.runOn_cases limit file with ⟨_, -, hrun⟩ | ⟨n, -, file', hends, hrun⟩ |
    ⟨n, -, f, hends, hrun⟩
  · exact absurd hrun h
  · rcases Nat.lt_or_ge n limit' with hlt | hle
    · rw [hrun, runOn_of_halts hends hlt]
    · exact absurd (hends.runOn_of_le hle) h'
  · rcases Nat.lt_or_ge n limit' with hlt | hle
    · rw [hrun, runOn_of_faults hends hlt]
    · exact absurd (hends.runOn_of_le hle) h'

/-- Under a limit that is enough for a program, a tighter one answers alike. -/
private theorem Tightens.runOn_alike (h : q.Tightens p) {file : File} {limit : Nat}
    (hp : p.runOn limit file ≠ .error (.stepLimitExceeded limit)) :
    AlikeAnswers (p.runOn limit file) (q.runOn limit file) := by
  rcases p.runOn_cases limit file with ⟨_, -, hrun⟩ | ⟨n, hn, file', hends, hrun⟩ |
    ⟨n, hn, f, hends, hrun⟩
  · exact absurd hrun hp
  · obtain ⟨m, hm, o, hends', halike⟩ := h.ends file n _ hends
    cases halike
    rw [hrun, runOn_of_halts hends' (Nat.lt_of_le_of_lt hm hn)]
    exact .halted rfl (Nat.succ_le_succ hm)
  · obtain ⟨m, hm, o, hends', halike⟩ := h.ends file n _ hends
    cases halike with
    | fault heq =>
      rw [hrun, runOn_of_faults hends' (Nat.lt_of_le_of_lt hm hn)]
      exact .fault heq

/-- What a program shows within some limit, a tighter one shows as well, and it shows nothing else
unless all limits cut the first one off. `Shown` is what can be seen of an answer. -/
private theorem Tightens.shown_iff (h : q.Tightens p) (file : File)
    (Shown : Except Fault Execution → Prop)
    (halike : ∀ x y, AlikeAnswers x y → (Shown x ↔ Shown y))
    (hcut : ∀ limit, ¬Shown (.error (.stepLimitExceeded limit))) :
    (∃ limit < wordBound, Shown (p.runOn limit file)) ↔
      p.Finishes file ∧ ∃ limit < wordBound, Shown (q.runOn limit file) := by
  constructor
  · rintro ⟨limit, hlimit, hshown⟩
    have hp : p.runOn limit file ≠ .error (.stepLimitExceeded limit) := by
      intro hrun
      exact hcut limit (hrun ▸ hshown)
    exact ⟨⟨limit, hlimit, hp⟩, limit, hlimit, (halike _ _ (h.runOn_alike hp)).mp hshown⟩
  · rintro ⟨⟨limit, hlimit, hp⟩, limit', -, hshown⟩
    have hanswers := h.runOn_alike hp
    have hq : q.runOn limit file ≠ .error (.stepLimitExceeded limit) := by
      intro hrun
      rw [hrun] at hanswers
      generalize hx : p.runOn limit file = x at hanswers hp
      cases hanswers with
      | @fault f _ heq => cases f <;> cases heq; exact hp rfl
    have hq' : q.runOn limit' file ≠ .error (.stepLimitExceeded limit') := by
      intro hrun
      exact hcut limit' (hrun ▸ hshown)
    exact ⟨limit, hlimit, (halike _ _ hanswers).mpr (runOn_eq_of_ne hq' hq ▸ hshown)⟩

/-- Runs that halt give the same registers, and the shorter program takes no more steps for it. -/
private theorem Tightens.registers_steps (h : q.Tightens p) {file : File} {limit limit' : Nat}
    {e e' : Execution} (he : p.runOn limit file = .ok e) (he' : q.runOn limit' file = .ok e') :
    e'.registers = e.registers ∧ e'.steps ≤ e.steps := by
  obtain ⟨n, -, hends, hsteps⟩ := ends_of_runOn_ok he
  obtain ⟨m, -, hends', hsteps'⟩ := ends_of_runOn_ok he'
  obtain ⟨k, hk, o, hends'', halike⟩ := h.ends file n _ hends
  obtain ⟨rfl, rfl⟩ := hends''.unique hends'
  exact ⟨halike.halted_inj.symm, by omega⟩

/-- Where a run overflows, so does the run of the shorter program. -/
theorem Tightens.overflows (h : q.Tightens p) {file : File} (ho : p.Overflows (p.start file)) :
    q.Overflows (q.start file) := by
  obtain ⟨n, r, a, hends⟩ := ho
  obtain ⟨m, -, o, hends', halike⟩ := h.ends file n _ hends
  cases halike with
  | fault heq =>
    obtain ⟨b, rfl⟩ := Fault.anywhere_eq_overflow_iff.mp heq.symm
    exact ⟨m, r, b, hends'⟩

/-- A tighter program halts within some limit where the other one does. -/
private theorem Tightens.halts_iff (h : q.Tightens p) (file : File) :
    (∃ limit < wordBound, ∃ e, p.runOn limit file = .ok e) ↔
      p.Finishes file ∧ ∃ limit < wordBound, ∃ e, q.runOn limit file = .ok e := by
  refine h.shown_iff file (∃ e, · = .ok e) (fun x y hanswers => ?_) (by simp)
  cases hanswers <;> simp

/-- A tighter program faults within some limit where the other one does. `kind` is a fault for every
address it may happen at. -/
private theorem Tightens.faults_iff (h : q.Tightens p) (file : File) (kind : Nat → Fault)
    (hkind : ∀ f, f.anywhere = kind 0 ↔ ∃ a, f = kind a)
    (hne : ∀ a limit, kind a ≠ .stepLimitExceeded limit) :
    (∃ limit < wordBound, ∃ a, p.runOn limit file = .error (kind a)) ↔
      p.Finishes file ∧ ∃ limit < wordBound, ∃ a, q.runOn limit file = .error (kind a) := by
  refine h.shown_iff file (∃ a, · = .error (kind a)) (fun x y hanswers => ?_) ?_
  · cases hanswers with
    | halted => simp
    | fault heq => simp [← hkind, heq]
  · rintro limit ⟨a, heq⟩
    exact hne a limit (Except.error.inj heq).symm

/-- A run has no end just where that of the shorter program has none. -/
private theorem Tightens.diverges_iff (h : q.Tightens p) (file : File) :
    (∀ n o, ¬p.Ends n (p.start file) o) ↔ ∀ n o, ¬q.Ends n (q.start file) o := by
  constructor
  · intro hp m o hends
    obtain ⟨n, o', hends', -⟩ := h.ends_other file m o hends
    exact hp n o' hends'
  · intro hq n o hends
    obtain ⟨m, -, o', hends', -⟩ := h.ends file n o hends
    exact hq m o' hends'

/-- A tighter program shows the same ends at the interpreter. -/
theorem Tightens.sameEnds (h : q.Tightens p) (file : File) : p.SameEnds q file where
  halts := h.halts_iff file
  registers_steps _ _ _ _ he he' := h.registers_steps he he'
  decrementOfZero r := h.faults_iff file (.decrementOfZero r)
    (fun f => by cases f <;> simp [Fault.anywhere]) (by simp)
  badRegister r := h.faults_iff file (.badRegister r)
    (fun f => by cases f <;> simp [Fault.anywhere]) (by simp)
  overflow r := h.faults_iff file (.overflow r) (fun _ => Fault.anywhere_eq_overflow_iff) (by simp)
  diverges := h.diverges_iff file

end Program

end Abacus.Machine
