import Abacus.Machine.Check
import Abacus.Proofs.Execution

/-!
# Sound programs

A program is sound when it ends in its only halt, jumps to its own addresses only and names
registers of its own register file only. The check finds no defect in sound programs and in no
others (`Program.defects_eq_nil_iff`). A run of a sound program never leaves the program: each step
leads to an address of the program again, because only a halt is the last instruction and control
does not go on from a halt (`Program.Sound.step_safe`). So a run that ends does so in a halt, in a
decrement of an empty register or in an increment of a full one.
-/

namespace Abacus.Machine

namespace Program

variable {p : Program}

/-- An address of the program. -/
def HasAddress (p : Program) (a : Nat) : Prop :=
  p.base.first ≤ a ∧ a < p.base.first + p.code.size

/-- A program that ends in its only halt, and that stays within its own addresses and registers. -/
structure Sound (p : Program) : Prop where
  trailing_halt : p.code.back? = some .hlt
  halt_last : ∀ k, p.code[k]? = some .hlt → k + 1 = p.code.size
  targets : ∀ i ∈ p.code, ∀ a ∈ i.targets, p.HasAddress a
  registers : ∀ i ∈ p.code, ∀ r ∈ i.register?, File.Has p.registers r

/-! ### The check -/

/-- An address is found if it is one of the program. -/
private theorem not_isNone_indexOf?_iff {a : Nat} : ¬(p.indexOf? a).isNone ↔ p.HasAddress a := by
  unfold indexOf? HasAddress
  split <;> simp <;> omega

/-- An instruction without defects halts at the end only, and its register and its targets exist. -/
private theorem defectsAt_eq_nil_iff {k : Nat} {i : Instr} :
    p.defectsAt k i = [] ↔ (i = .hlt → k + 1 = p.code.size) ∧
      (∀ r ∈ i.register?, File.Has p.registers r) ∧ ∀ a ∈ i.targets, p.HasAddress a := by
  have hregister : ∀ r : Register,
      ¬(r.id = 0 ∨ p.registers.size ≤ r.index) ↔ File.Has p.registers r := by
    intro r
    unfold Register.index File.Has
    omega
  simp only [defectsAt, List.append_eq_nil_iff, List.map_eq_nil_iff, List.filter_eq_nil_iff,
    Option.mem_toList, decide_eq_true_eq, hregister, not_isNone_indexOf?_iff, ite_eq_right_iff,
    List.cons_ne_nil, imp_false, not_and, Decidable.not_not, and_assoc, Option.mem_def]

/-- **The check is exact.** It finds no defect in a program exactly when the program is sound and
within the limit. -/
theorem defects_eq_nil_iff {limit : Option Nat} :
    p.defects limit = [] ↔ (∀ n ∈ limit, p.code.size ≤ n) ∧ p.Sound := by
  have hsize : limit.toList.filter (· < p.code.size) = [] ↔ ∀ n ∈ limit, p.code.size ≤ n := by
    simp [List.filter_eq_nil_iff]
  have hcode : (∀ x ∈ p.code.toList.zipIdx, p.defectsAt x.2 x.1 = []) ↔
      ∀ k i, p.code[k]? = some i → p.defectsAt k i = [] := by
    rw [Prod.forall, forall_comm]
    simp [List.mk_mem_zipIdx_iff_getElem?]
  unfold defects
  simp only [List.append_eq_nil_iff, List.map_eq_nil_iff, List.flatMap_eq_nil_iff, hsize, hcode,
    ite_eq_left_iff, List.cons_ne_nil, imp_false, Decidable.not_not, and_assoc]
  refine and_congr_right fun _ => ⟨?_, ?_⟩
  · rintro ⟨hback, hinstr⟩
    have hmem : ∀ i ∈ p.code, ∃ k, p.defectsAt k i = [] := by
      intro i hi
      obtain ⟨k, hk⟩ := Array.mem_iff_getElem?.mp hi
      exact ⟨k, hinstr k i hk⟩
    refine ⟨hback, fun k hk => (defectsAt_eq_nil_iff.mp (hinstr k _ hk)).1 rfl, ?_, ?_⟩
    · intro i hi
      obtain ⟨k, hk⟩ := hmem i hi
      exact (defectsAt_eq_nil_iff.mp hk).2.2
    · intro i hi
      obtain ⟨k, hk⟩ := hmem i hi
      exact (defectsAt_eq_nil_iff.mp hk).2.1
  · intro h
    refine ⟨h.trailing_halt, fun k i hk => defectsAt_eq_nil_iff.mpr ⟨?_, ?_, ?_⟩⟩
    · rintro rfl
      exact h.halt_last k hk
    · exact h.registers i (Array.mem_of_getElem? hk)
    · exact h.targets i (Array.mem_of_getElem? hk)

/-- A program passes the check if there are no defects. -/
theorem defects_of_check {limit : Option Nat} {report : Report}
    (h : p.check limit false = .ok report) : report = p.inspect limit ∧ p.defects limit = [] := by
  have hcheck : p.check limit false = if (p.inspect limit).valid false then .ok (p.inspect limit)
      else .error (p.inspect limit).findings := rfl
  rw [hcheck] at h
  split at h
  next hvalid =>
    cases h
    exact ⟨rfl, by simpa [Report.valid, inspect] using hvalid⟩
  next => cases h

/-- A strict check passes a program without defects and without dead code. -/
theorem check_strict {limit : Option Nat} (hdefects : p.defects limit = [])
    (h : p.unreachableCount = 0) : p.check limit true = .ok (p.inspect limit) := by
  have hvalid : (p.inspect limit).valid true := by
    simp [inspect, Report.valid, Report.warnings, hdefects, h]
  rw [check]
  exact if_pos hvalid

/-! ### What an inspection looks at -/

/-- What is marked depends on the control flow only. -/
private theorem markFrom_congr {q : Program} (h : q.successors = p.successors) (seen : Array Bool)
    (work : List Nat) : q.markFrom seen work = p.markFrom seen work := by
  induction seen, work using markFrom.induct p with
  | case1 seen => rw [markFrom, markFrom]
  | case2 seen index rest hnew ih => rw [markFrom, markFrom, dif_pos hnew, dif_pos hnew, h, ih]
  | case3 seen index rest hold ih => rw [markFrom, markFrom, dif_neg hold, dif_neg hold, ih]

/-- How much of a program cannot be reached depends on its control flow only. -/
theorem unreachableCount_congr {q : Program} (hsize : q.code.size = p.code.size)
    (h : q.successors = p.successors) : q.unreachableCount = p.unreachableCount := by
  rw [unreachableCount, unreachableCount, reached, reached, markFrom_congr h, hsize]

/-- Of the register file, an inspection looks at the size only, and of the variables at nothing. -/
theorem check_congr {registers : Array Nat} (hsize : registers.size = p.registers.size)
    (symbols : List (String × Register)) (limit : Option Nat) (strict : Bool) :
    ({ p with registers, symbols } : Program).check limit strict = p.check limit strict := by
  have hat : ({ p with registers, symbols } : Program).defectsAt = p.defectsAt := by
    funext index i
    unfold defectsAt
    rw [hsize]
    rfl
  have hdefects : ({ p with registers, symbols } : Program).defects limit = p.defects limit := by
    unfold defects
    rw [hat]
  have hdead : ({ p with registers, symbols } : Program).unreachableCount = p.unreachableCount :=
    unreachableCount_congr rfl rfl
  unfold check inspect
  rw [hdefects, hdead, hsize]

end Program

/-! ### Runs -/

/-- A configuration at an address of a program, with as many registers as the program has. -/
structure Config.Inside (p : Program) (c : Config) : Prop where
  address : p.HasAddress c.address
  size_eq : c.registers.size = p.registers.size

/-- What a step of a sound program may come to. -/
def Outcome.Safe (p : Program) : Outcome → Prop
  | .next c => c.Inside p
  | .halted _ => True
  | .fault f => (∃ r a, f = .decrementOfZero r a) ∨ ∃ r a, f = .overflow r a

namespace Program

variable {p : Program} {c c' : Config}

/-- There is an instruction at every address of a program. -/
private theorem HasAddress.exists_fetch? {a : Nat} (h : p.HasAddress a) :
    ∃ k i, a = p.base.first + k ∧ p.code[k]? = some i ∧ p.fetch? a = some i := by
  obtain ⟨hle, hlt⟩ := h
  have hk : a - p.base.first < p.code.size := by omega
  refine ⟨a - p.base.first, _, by omega, Array.getElem?_eq_getElem hk, ?_⟩
  rw [fetch?, if_pos hle, Array.getElem?_eq_getElem hk]

/-- Only a halt is the last instruction, so control goes on to the next one within the program. -/
private theorem Sound.hasAddress_succ (h : p.Sound) {k : Nat} {i : Instr} (hk : p.code[k]? = some i)
    (hi : i ≠ .hlt) : p.HasAddress (p.base.first + k + 1) := by
  have hlt : k < p.code.size := (Array.getElem?_eq_some_iff.mp hk).1
  have hlast : k ≠ p.code.size - 1 := by
    rintro rfl
    rw [← Array.back?_eq_getElem?, h.trailing_halt] at hk
    exact hi (Option.some.inj hk).symm
  unfold HasAddress
  omega

/-- **A step of a sound program stays within it**, unless it is the last one. -/
theorem Sound.step_safe (h : p.Sound) (hc : c.Inside p) : (p.step c).Safe p := by
  obtain ⟨a, file⟩ := c
  obtain ⟨hinside, hsize⟩ := hc
  obtain ⟨k, i, rfl, hk, hfetch⟩ := hinside.exists_fetch?
  have hmem : i ∈ p.code := Array.mem_of_getElem? hk
  have hhas : ∀ r ∈ i.register?, File.Has file r := by
    intro r hr
    rw [File.Has, hsize]
    exact h.registers i hmem r hr
  have hnext : ∀ file' : File, file'.size = file.size → i ≠ .hlt →
      (Config.mk (p.base.first + k + 1) file').Inside p :=
    fun file' hsize' hi => ⟨h.hasAddress_succ hk hi, hsize'.trans hsize⟩
  cases i with
  | inc r =>
    by_cases hroom : File.val file r + 1 < wordBound
    · rw [step_inc hfetch (hhas r rfl) hroom]
      exact hnext _ (File.size_put ..) (by simp)
    · rw [step_inc_full hfetch (hhas r rfl) (Nat.not_lt.mp hroom)]
      exact .inr ⟨r, _, rfl⟩
  | dec r =>
    cases hval : File.val file r with
    | zero =>
      rw [step_dec_empty hfetch (hhas r rfl) hval]
      exact .inl ⟨r, _, rfl⟩
    | succ n =>
      rw [step_dec hfetch (hhas r rfl) hval]
      exact hnext _ (File.size_put ..) (by simp)
  | jmp target =>
    rw [step_jmp hfetch]
    exact ⟨h.targets _ hmem target List.mem_cons_self, hsize⟩
  | tst r ifNonzero ifZero =>
    rw [step_tst hfetch (hhas r rfl)]
    refine ⟨?_, hsize⟩
    split
    · exact h.targets _ hmem ifZero (by simp [Instr.targets])
    · exact h.targets _ hmem ifNonzero (by simp [Instr.targets])
  | hlt =>
    rw [step_of_fetch? hfetch]
    trivial

/-- However many steps a sound program has made, it is still within its own addresses. -/
private theorem Sound.steps_inside (h : p.Sound) {n : Nat} (hsteps : p.Steps n c c')
    (hc : c.Inside p) :
    c'.Inside p := by
  induction hsteps with
  | refl => exact hc
  | head hstep _ ih =>
    have hsafe := h.step_safe hc
    rw [hstep] at hsafe
    exact ih hsafe

/-- A run starts inside the program. -/
private theorem Sound.start_inside (h : p.Sound) {file : File}
    (hsize : file.size = p.registers.size) :
    (p.start file).Inside p := by
  refine ⟨⟨Nat.le_refl _, Nat.lt_add_of_pos_right ?_⟩, hsize⟩
  rw [Array.size_pos_iff]
  intro hempty
  simpa [hempty] using h.trailing_halt

/-- A sound program ends safely. -/
private theorem Sound.ends_safe (h : p.Sound) {file : File} (hsize : file.size = p.registers.size)
    {n : Nat} {o : Outcome} (hends : p.Ends n (p.start file) o) : o.Safe p := by
  obtain ⟨c', hsteps, rfl, -⟩ := hends
  exact h.step_safe (h.steps_inside hsteps (h.start_inside hsize))

/-- **The check is sound and complete.** A program has no defect exactly when it ends in its only
halt, all its jumps stay in it and all its registers are in its file. A run of a program without
defects, on any register file of its size and with any step limit, halts, is cut off, or stops at a
decrement of an empty register or an increment of a full one: it never comes to an address or a
register that is not there. -/
theorem inspect_sound_and_complete (p : Program) :
    ((p.inspect none).defects = [] ↔ p.Sound) ∧
    ((p.inspect none).defects = [] → ∀ file : File, file.size = p.registers.size → ∀ limit,
      (∃ e, p.runOn limit file = .ok e) ∨
        p.runOn limit file = .error (.stepLimitExceeded limit) ∨
        (∃ r a, p.runOn limit file = .error (.decrementOfZero r a)) ∨
        ∃ r a, p.runOn limit file = .error (.overflow r a)) := by
  have hiff : (p.inspect none).defects = [] ↔ p.Sound :=
    defects_eq_nil_iff.trans (and_iff_right nofun)
  refine ⟨hiff, fun hdefects file hsize limit => ?_⟩
  have hsound := hiff.mp hdefects
  rcases p.runOn_cases limit file with ⟨_, -, hrun⟩ | ⟨n, -, file', -, hrun⟩ |
    ⟨n, -, f, hends, hrun⟩
  · exact .inr (.inl hrun)
  · exact .inl ⟨_, hrun⟩
  · rw [hrun]
    rcases hsound.ends_safe hsize hends with ⟨r, a, rfl⟩ | ⟨r, a, rfl⟩
    · exact .inr (.inr (.inl ⟨r, a, rfl⟩))
    · exact .inr (.inr (.inr ⟨r, a, rfl⟩))

/-- Moves the count of the first register to the second one, unit by unit. -/
def transfer : Program where
  code := #[.tst ⟨1⟩ 2 5, .dec ⟨1⟩, .inc ⟨2⟩, .jmp 1, .hlt]
  registers := #[3, 0]
  symbols := []
  base := .one

theorem inspect_transfer :
    (transfer.inspect none).defects = [] ∧ transfer.Sound ∧ ∀ limit,
      (∃ e, transfer.runOn limit #[2, wordBound - 1] = .ok e) ∨
        transfer.runOn limit #[2, wordBound - 1] = .error (.stepLimitExceeded limit) ∨
        (∃ r a, transfer.runOn limit #[2, wordBound - 1] = .error (.decrementOfZero r a)) ∨
        ∃ r a, transfer.runOn limit #[2, wordBound - 1] = .error (.overflow r a) := by
  have hdefects : (transfer.inspect none).defects = [] := by decide
  obtain ⟨hiff, hruns⟩ := inspect_sound_and_complete transfer
  exact ⟨hdefects, hiff.mp hdefects, hruns hdefects #[2, wordBound - 1] rfl⟩

end Program

end Abacus.Machine
