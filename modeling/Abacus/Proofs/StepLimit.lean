import Abacus.Proofs.Soundness

/-!
# Step limits

A step limit only decides whether a run comes to its end: a run that ends within some limit ends in
the same way, after the same number of steps, under every limit that is not smaller, and is cut off
under every smaller one (`Program.runOn_limit_exact`).

The machine computes with machine words and looks up instructions and registers by index, and each
of these operations can go wrong. `Program.execute` is the machine with all of them checked: it
stops with a `Slip` where one has no result. Of these only an increment of a full register ever
happens, and otherwise `Program.execute` is `Program.runOn` (`Program.execute_eq`). Steps are
counted only below the limit, and the address after an instruction is at most the one after the
whole program.
-/

namespace Abacus.Machine

/-- An operation of the machine that has no result. -/
inductive Slip where
  /-- The number of steps is no machine word any more. -/
  | stepCount
  /-- The address after an instruction is no machine word. -/
  | nextAddress (address : Nat)
  /-- There is no instruction at an index. -/
  | noInstruction (index : Nat)
  /-- There is no register at an index. -/
  | noRegister (index : Nat)
  /-- The count after an increment is no machine word. -/
  | increment (register : Register) (address : Nat)
  /-- There is no count before zero. -/
  | decrement (register : Register) (address : Nat)
  deriving DecidableEq, Repr

/-- Why a run with checked operations stops before it halts. -/
inductive Stop where
  | fault (fault : Fault)
  | slip (slip : Slip)
  deriving DecidableEq, Repr

/-- What a fault is when operations are checked. The machine does not look out for full registers,
so an increment of one is a slip. -/
def Stop.ofFault : Fault → Stop
  | .overflow r a => .slip (.increment r a)
  | f => .fault f

/-- One more, if that is a machine word. -/
def succWord (slip : Slip) (n : Nat) : Except Stop Nat :=
  if n + 1 < wordBound then .ok (n + 1) else .error (.slip slip)

/-- One less, if there is one. -/
def predWord (slip : Slip) : Nat → Except Stop Nat
  | 0 => .error (.slip slip)
  | n + 1 => .ok n

/-- What an array holds at an index. -/
def lookUp {α : Type} (slip : Slip) (items : Array α) (index : Nat) : Except Stop α :=
  match items[index]? with
  | some item => .ok item
  | none => .error (.slip slip)

/-- The index of a register and the count in it, if there is such a register. -/
def Config.readChecked (c : Config) (r : Register) : Except Stop (Nat × Nat) := do
  if r.id = 0 ∨ c.registers.size ≤ r.id - 1 then
    throw (.fault (.badRegister r c.address))
  let n ← lookUp (.noRegister (r.id - 1)) c.registers (r.id - 1)
  return (r.id - 1, n)

/-- Perform an instruction with every operation checked. Nothing comes after a halt. -/
def Instr.performChecked (i : Instr) (c : Config) : Except Stop (Option Config) :=
  match i with
  | .inc r => do
    let (index, n) ← c.readChecked r
    let n ← succWord (.increment r c.address) n
    let next ← succWord (.nextAddress c.address) c.address
    return some ⟨next, c.registers.setIfInBounds index n⟩
  | .dec r => do
    let (index, n) ← c.readChecked r
    if n = 0 then
      throw (.fault (.decrementOfZero r c.address))
    let n ← predWord (.decrement r c.address) n
    let next ← succWord (.nextAddress c.address) c.address
    return some ⟨next, c.registers.setIfInBounds index n⟩
  | .jmp target => return some ⟨target, c.registers⟩
  | .tst r ifNonzero ifZero => do
    let (_, n) ← c.readChecked r
    return some ⟨if n = 0 then ifZero else ifNonzero, c.registers⟩
  | .hlt => return none

namespace Program

/-- Perform the instruction that a configuration has reached, with every operation checked. -/
def stepChecked (p : Program) (c : Config) : Except Stop (Option Config) :=
  match p.indexOf? c.address with
  | none => .error (.fault (.badAddress c.address))
  | some index => do
    let i ← lookUp (.noInstruction index) p.code index
    i.performChecked c

/-- Run with every operation checked, after some steps. -/
def executeFrom (p : Program) (limit steps : Nat) (c : Config) : Except Stop Execution :=
  if steps < limit then
    if steps + 1 < wordBound then
      match p.stepChecked c with
      | .ok (some c') => p.executeFrom limit (steps + 1) c'
      | .ok none => .ok ⟨c.registers, steps + 1⟩
      | .error stop => .error stop
    else
      .error (.slip .stepCount)
  else
    .error (.fault (.stepLimitExceeded limit))
termination_by limit - steps

/-- Run from the first instruction with a given register file, with every operation checked. -/
def execute (p : Program) (limit : Nat) (file : File) : Except Stop Execution :=
  p.executeFrom limit 0 (p.start file)

end Program

/-! ### One step -/

/-- What a step comes to when operations are checked. -/
def Outcome.checked : Outcome → Except Stop (Option Config)
  | .next c => .ok (some c)
  | .halted _ => .ok none
  | .fault f => .error (.ofFault f)

section Step

variable {p : Program} {c : Config} {r : Register} {n : Nat} {slip : Slip}

private theorem succWord_of_lt (h : n + 1 < wordBound) : succWord slip n = .ok (n + 1) := if_pos h

private theorem succWord_of_not_lt (h : ¬n + 1 < wordBound) :
    succWord slip n = .error (.slip slip) :=
  if_neg h

private theorem Config.readChecked_of_none (h : c.read? r = none) :
    c.readChecked r = .error (.fault (.badRegister r c.address)) := by
  have hout : r.id = 0 ∨ c.registers.size ≤ r.id - 1 := by
    by_cases hid : r.id = 0
    · exact .inl hid
    · rw [Config.read?, if_neg hid, Array.getElem?_eq_none_iff] at h
      exact .inr h
  rw [Config.readChecked, if_pos hout]
  rfl

private theorem Config.readChecked_of_some (h : c.read? r = some n) :
    c.readChecked r = .ok (r.index, n) := by
  have hid : r.id ≠ 0 := by
    intro hid
    simp [Config.read?, hid] at h
  rw [Config.read?, if_neg hid] at h
  have hin : ¬(r.id = 0 ∨ c.registers.size ≤ r.id - 1) := by
    have hlt : r.id - 1 < c.registers.size := (Array.getElem?_eq_some_iff.mp h).1
    omega
  have hitem : lookUp (.noRegister (r.id - 1)) c.registers (r.id - 1) = .ok n := by
    rw [lookUp, show c.registers[r.id - 1]? = some n from h]
  rw [Config.readChecked, if_neg hin, hitem]
  rfl

/-- An instruction after which there is an address goes wrong in one way only: as an increment of a
full register. -/
private theorem Instr.performChecked_eq (i : Instr) (h : c.address + 1 < wordBound) :
    i.performChecked c = (i.perform c).checked := by
  cases i with
  | inc r =>
    cases hread : c.read? r with
    | none =>
      simp only [performChecked, perform, hread, Config.readChecked_of_none hread]
      rfl
    | some n =>
      simp only [performChecked, perform, hread, Config.readChecked_of_some hread, bind,
        Except.bind]
      by_cases hn : n + 1 < wordBound
      · rw [succWord_of_lt hn, succWord_of_lt h, if_pos hn]
        rfl
      · rw [succWord_of_not_lt hn, if_neg hn]
        rfl
  | dec r =>
    cases hread : c.read? r with
    | none =>
      simp only [performChecked, perform, hread, Config.readChecked_of_none hread]
      rfl
    | some n =>
      simp only [performChecked, perform, hread, Config.readChecked_of_some hread, succWord_of_lt h]
      cases n <;> rfl
  | jmp target => rfl
  | tst r ifNonzero ifZero =>
    cases hread : c.read? r with
    | none =>
      simp only [performChecked, perform, hread, Config.readChecked_of_none hread]
      rfl
    | some n =>
      simp only [performChecked, perform, hread, Config.readChecked_of_some hread]
      cases n <;> rfl
  | hlt => rfl

/-- **One step.** The address after an instruction is at most the one after the whole program. -/
theorem Program.stepChecked_eq (hsize : p.code.size + 1 < wordBound) (c : Config) :
    p.stepChecked c = (p.step c).checked := by
  have hfirst : p.base.first ≤ 1 := by cases p.base <;> decide
  unfold stepChecked step indexOf? fetch?
  by_cases hlow : p.base.first ≤ c.address
  · rw [if_pos hlow]
    by_cases hlt : c.address - p.base.first < p.code.size
    · rw [if_pos ⟨hlow, hlt⟩, Array.getElem?_eq_getElem hlt]
      refine Eq.trans ?_ (Instr.performChecked_eq _ (by omega))
      simp only [lookUp, Array.getElem?_eq_getElem hlt]
      rfl
    · rw [if_neg fun h => hlt h.2, Array.getElem?_eq_none (Nat.not_lt.mp hlt)]
      rfl
  · rw [if_neg fun h => hlow h.1, if_neg hlow]
    rfl

/-- A halt leaves the registers as they are. -/
private theorem Program.registers_of_halted {registers : Array Nat}
    (h : p.step c = .halted registers) :
    registers = c.registers := by
  unfold step at h
  split at h
  · cases h
  · next i _ =>
    cases i <;> simp only [Instr.perform] at h <;> repeat' split at h
    all_goals cases h
    rfl

end Step

/-! ### Runs -/

namespace Program

variable {p : Program}

/-- As long as there are steps to go, the number of steps made is below the limit, and so is a
machine word with one more. -/
private theorem executeFrom_eq (hsize : p.code.size + 1 < wordBound) {limit : Nat}
    (hlimit : limit < wordBound) {left steps : Nat} (hleft : steps + left = limit) (c : Config) :
    p.executeFrom limit steps c = (p.runFrom limit left c).mapError Stop.ofFault := by
  induction left generalizing steps c with
  | zero =>
    rw [executeFrom, if_neg (by omega)]
    rfl
  | succ left ih =>
    rw [executeFrom, if_pos (by omega), if_pos (by omega), stepChecked_eq hsize, runFrom]
    cases hstep : p.step c with
    | next c' => exact ih (by omega) c'
    | halted registers =>
      rw [registers_of_halted hstep, show limit - left = steps + 1 by omega]
      rfl
    | fault f => rfl

/-- **The only slip is an increment of a full register.** -/
theorem execute_eq (hsize : p.code.size + 1 < wordBound) {limit : Nat} (hlimit : limit < wordBound)
    (file : File) : p.execute limit file = (p.runOn limit file).mapError Stop.ofFault :=
  executeFrom_eq hsize hlimit (Nat.zero_add limit) (p.start file)

private theorem runOn_ok_exact {limit : Nat} {file : File} {e : Execution}
    (h : p.runOn limit file = .ok e) :
    e.steps ≤ limit ∧ (∀ limit', e.steps ≤ limit' → p.runOn limit' file = .ok e) ∧
      ∀ limit', limit' < e.steps → p.runOn limit' file = .error (.stepLimitExceeded limit') := by
  obtain ⟨n, hn, hends, hsteps⟩ := ends_of_runOn_ok h
  have he : e = ⟨e.registers, n + 1⟩ := by rw [← hsteps]
  refine ⟨by omega, fun limit' hle => ?_, fun limit' hlt => hends.runOn_of_le (by omega)⟩
  rw [he]
  exact runOn_of_halts hends (by omega)

private theorem runOn_error_mono {limit limit' : Nat} {file : File} {f : Fault}
    (h : p.runOn limit file = .error f) (hne : ∀ n, f ≠ .stepLimitExceeded n)
    (hle : limit ≤ limit') : p.runOn limit' file = .error f := by
  obtain ⟨n, hn, hends⟩ := ends_of_runOn_error h hne
  exact runOn_of_faults hends (Nat.lt_of_lt_of_le hn hle)

private theorem overflow_of_execute_slip (hsize : p.code.size + 1 < wordBound) {limit : Nat}
    (hlimit : limit < wordBound) {file : File} {slip : Slip}
    (h : p.execute limit file = .error (.slip slip)) :
    ∃ r a, slip = .increment r a ∧ p.runOn limit file = .error (.overflow r a) := by
  rw [execute_eq hsize hlimit] at h
  cases hrun : p.runOn limit file with
  | ok e =>
    rw [hrun] at h
    cases h
  | error f =>
    rw [hrun] at h
    have hslip : Stop.ofFault f = .slip slip := Except.error.inj h
    cases f with
    | overflow r a => exact ⟨r, a, (Stop.slip.inj hslip).symm, rfl⟩
    | _ => cases hslip

/-- **A step limit is an exact threshold.** A run that halts makes at most as many steps as its
limit allows. Under every limit that allows as many the run is the same, and under every smaller one
it is cut off, and reports that limit. A run that ends in any other fault than being cut off ends in
it under every larger limit too.

If there is an address after the last instruction, and the limit is a machine word, then checking
every operation of the machine changes nothing: the steps and addresses stay machine words, all
instructions and registers that are looked up are there, and the only operation without a result is
an increment of a full register. -/
theorem runOn_limit_exact (p : Program) (file : File) (limit : Nat) :
    (∀ e, p.runOn limit file = .ok e →
      e.steps ≤ limit ∧ (∀ limit', e.steps ≤ limit' → p.runOn limit' file = .ok e) ∧
        ∀ limit', limit' < e.steps → p.runOn limit' file = .error (.stepLimitExceeded limit')) ∧
    (∀ f, p.runOn limit file = .error f → (∀ n, f ≠ .stepLimitExceeded n) →
      ∀ limit', limit ≤ limit' → p.runOn limit' file = .error f) ∧
    (p.code.size + 1 < wordBound → limit < wordBound →
      p.execute limit file = (p.runOn limit file).mapError Stop.ofFault ∧
        ∀ slip, p.execute limit file = .error (.slip slip) →
          ∃ r a, slip = .increment r a ∧ p.runOn limit file = .error (.overflow r a)) :=
  ⟨fun _ => runOn_ok_exact, fun _ hf hne _ => runOn_error_mono hf hne, fun hsize hlimit =>
    ⟨execute_eq hsize hlimit file, fun _ => overflow_of_execute_slip hsize hlimit⟩⟩

theorem runOn_limit_transfer :
    transfer.runOn 12 #[2, 0] = .ok ⟨#[0, 2], 10⟩ ∧
      (∀ limit, 10 ≤ limit → transfer.runOn limit #[2, 0] = .ok ⟨#[0, 2], 10⟩) ∧
      (∀ limit, limit < 10 → transfer.runOn limit #[2, 0] = .error (.stepLimitExceeded limit)) ∧
      (∀ limit, 12 ≤ limit →
        transfer.runOn limit #[2, wordBound - 1] = .error (.overflow ⟨2⟩ 3)) ∧
      transfer.execute 12 #[2, wordBound - 1] = .error (.slip (.increment ⟨2⟩ 3)) := by
  have hhalts : transfer.runOn 12 #[2, 0] = .ok ⟨#[0, 2], 10⟩ := rfl
  have hfaults : transfer.runOn 12 #[2, wordBound - 1] = .error (.overflow ⟨2⟩ 3) := rfl
  obtain ⟨-, hsame, hcut⟩ := (runOn_limit_exact transfer #[2, 0] 12).1 _ hhalts
  obtain ⟨-, hfault, hchecked⟩ := runOn_limit_exact transfer #[2, wordBound - 1] 12
  refine ⟨hhalts, hsame, hcut, hfault _ hfaults (by simp), ?_⟩
  rw [(hchecked (by decide) (by decide)).1, hfaults]
  rfl

end Program

end Abacus.Machine
