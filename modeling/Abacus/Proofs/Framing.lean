import Abacus.Proofs.Linking
import Abacus.Proofs.Traversal

/-!
# Registers that code leaves alone

An instruction works on the register it names. It leaves every other one as it is and does the same
whatever the others hold (`Instr.perform_put`). A run that goes through code therefore neither reads
nor changes a register that the code does not name (`Program.Ignores`), and this is so wherever the
code stands (`Fragment.Spares`).
-/

namespace Abacus

open Machine Code

namespace Machine

variable {r t : Register} {c c' : Config} {i : Instr} {p : Program} {first last : Nat}

/-- The configuration with another count in a register. -/
def Config.put (c : Config) (r : Register) (n : Nat) : Config :=
  ⟨c.address, File.put c.registers r n⟩

/-- The outcome with another count in a register. -/
def Outcome.put (r : Register) (n : Nat) : Outcome → Outcome
  | .next c => .next (c.put r n)
  | .halted file => .halted (File.put file r n)
  | .fault f => .fault f

/-- Registers other than number zero are told apart by their places in any file. -/
theorem Register.index_ne (hr : 0 < r.id) (ht : 0 < t.id) (hne : t ≠ r) : r.index ≠ t.index := by
  have hid : r.id ≠ t.id := fun h => hne (congrArg Register.mk h).symm
  unfold Register.index
  omega

private theorem Config.id_pos_of_read? {n : Nat} (h : c.read? t = some n) : 0 < t.id := by
  unfold Config.read? at h
  split at h
  next => cases h
  next hid => exact Nat.pos_of_ne_zero hid

private theorem Config.read?_put_of_ne (c : Config) (hr : 0 < r.id) (hne : t ≠ r) (n : Nat) :
    (c.put r n).read? t = c.read? t := by
  unfold Config.read?
  split
  next => rfl
  next hid => exact Array.getElem?_setIfInBounds_ne (r.index_ne hr (Nat.pos_of_ne_zero hid) hne)

private theorem Config.set_read? {n : Nat} (h : c.read? t = some n) :
    c.registers.setIfInBounds t.index n = c.registers := by
  unfold Config.read? at h
  split at h
  next => cases h
  next =>
    obtain ⟨hlt, rfl⟩ := Array.getElem?_eq_some_iff.mp h
    simp [Array.setIfInBounds, hlt]

/-! ### What an instruction depends on -/

private theorem Instr.perform_of_read?_none (ht : i.register? = some t) (h : c.read? t = none) :
    i.perform c = .fault (.badRegister t c.address) := by
  cases i with
  | inc r | dec r | tst r ifNonzero ifZero =>
    cases ht
    simp only [Instr.perform, h]
  | jmp | hlt => cases ht

/-- What an instruction does is up to its address and the count in its register, which is the only
one it may set. -/
private theorem Instr.perform_of_read? (ht : i.register? = some t) (a k : Nat) :
    (∃ e, ∀ c : Config, c.address = a → c.read? t = some k → i.perform c = .fault e) ∨
      ∃ a' n, ∀ c : Config, c.address = a → c.read? t = some k →
        i.perform c = .next ⟨a', c.registers.setIfInBounds t.index n⟩ := by
  cases i with
  | inc r =>
    cases ht
    by_cases hk : k + 1 < wordBound
    · refine .inr ⟨a + 1, k + 1, ?_⟩
      rintro c rfl hread
      simp only [Instr.perform, hread, if_pos hk]
    · refine .inl ⟨.overflow t a, ?_⟩
      rintro c rfl hread
      simp only [Instr.perform, hread, if_neg hk]
  | dec r =>
    cases ht
    cases k with
    | zero =>
      refine .inl ⟨.decrementOfZero t a, ?_⟩
      rintro c rfl hread
      simp only [Instr.perform, hread]
    | succ k =>
      refine .inr ⟨a + 1, k, ?_⟩
      rintro c rfl hread
      simp only [Instr.perform, hread]
  | tst r ifNonzero ifZero =>
    cases ht
    -- the register is left as it is, so it is set to what it holds
    refine .inr ⟨if k = 0 then ifZero else ifNonzero, k, fun c _ hread => ?_⟩
    rw [Config.set_read? hread]
    cases k <;> simp [Instr.perform, hread]
  | jmp | hlt => cases ht

/-- An instruction that does not name a register does the same whatever the register holds. -/
theorem Instr.perform_put (i : Instr) (c : Config) (hr : 0 < r.id) (hne : i.register? ≠ some r)
    (n : Nat) : i.perform (c.put r n) = (i.perform c).put r n := by
  cases ht : i.register? with
  | none =>
    cases i with
    | jmp | hlt => rfl
    | inc | dec | tst => cases ht
  | some t =>
    have hne : t ≠ r := fun h => hne (ht.trans (congrArg some h))
    have hput := c.read?_put_of_ne hr hne n
    cases hread : c.read? t with
    | none =>
      rw [perform_of_read?_none ht hread, perform_of_read?_none ht (hput.trans hread)]
      rfl
    | some k =>
      have hindex := r.index_ne hr (Config.id_pos_of_read? hread) hne
      rcases perform_of_read? ht c.address k with ⟨e, h⟩ | ⟨a, m, h⟩
      · rw [h c rfl hread, h (c.put r n) rfl (hput.trans hread)]
        rfl
      · rw [h c rfl hread, h (c.put r n) rfl (hput.trans hread)]
        exact congrArg (fun file => Outcome.next ⟨a, file⟩) (Array.setIfInBounds_comm n m hindex)

/-- An instruction that does not name a register leaves its count. -/
private theorem Instr.val_of_perform (hr : 0 < r.id) (hne : i.register? ≠ some r)
    (h : i.perform c = .next c') : File.val c'.registers r = File.val c.registers r := by
  cases ht : i.register? with
  | none =>
    cases i with
    | jmp target =>
      cases h
      rfl
    | hlt => cases h
    | inc | dec | tst => cases ht
  | some t =>
    have hne : t ≠ r := fun h => hne (ht.trans (congrArg some h))
    cases hread : c.read? t with
    | none => cases (perform_of_read?_none ht hread).symm.trans h
    | some k =>
      have hindex := r.index_ne hr (Config.id_pos_of_read? hread) hne
      rcases perform_of_read? ht c.address k with ⟨e, hperform⟩ | ⟨a, m, hperform⟩
      · cases (hperform c rfl hread).symm.trans h
      · cases (hperform c rfl hread).symm.trans h
        simp [File.val, Array.getD_eq_getD_getElem?, hindex.symm]

/-! ### Runs -/

private theorem Program.step_put (p : Program) (c : Config) (hr : 0 < r.id)
    (hfree : ∀ i, p.fetch? c.address = some i → i.register? ≠ some r) (n : Nat) :
    p.step (c.put r n) = (p.step c).put r n := by
  have haddress : (c.put r n).address = c.address := rfl
  unfold Program.step
  rw [haddress]
  cases hfetch : p.fetch? c.address with
  | none => rfl
  | some i => exact i.perform_put c hr (hfree i hfetch) n

private theorem Program.val_of_step (hr : 0 < r.id)
    (hfree : ∀ i, p.fetch? c.address = some i → i.register? ≠ some r) (h : p.step c = .next c') :
    File.val c'.registers r = File.val c.registers r := by
  unfold Program.step at h
  cases hfetch : p.fetch? c.address with
  | none =>
    rw [hfetch] at h
    cases h
  | some i =>
    rw [hfetch] at h
    exact Instr.val_of_perform hr (hfree i hfetch) h

/-- Runs from address `first` up to but not including `last` neither change a register nor depend on
its count, whether they go on there or end. -/
def Program.Ignores (p : Program) (first last : Nat) (r : Register) : Prop :=
  ∀ c c', p.Traverses first last c c' →
    File.val c'.registers r = File.val c.registers r ∧
      ∀ n, p.Traverses first last (c.put r n) (c'.put r n) ∧
        (first ≤ c'.address → c'.address < last → p.step (c'.put r n) = (p.step c').put r n)

/-- What holds of the instructions holds of the runs. -/
private theorem Program.ignores_of_forall (hr : 0 < r.id)
    (hfree : ∀ a i, first ≤ a → a < last → p.fetch? a = some i → i.register? ≠ some r) :
    p.Ignores first last r := by
  intro c c' h
  induction h with
  | refl c =>
    exact ⟨rfl, fun n => ⟨.refl _, fun hle hlt => p.step_put c hr (hfree _ · hle hlt) n⟩⟩
  | @head c c₁ c' hle hlt hstep _ ih =>
    have hfree' : ∀ i, p.fetch? c.address = some i → i.register? ≠ some r := (hfree _ · hle hlt)
    refine ⟨ih.1.trans (val_of_step hr hfree' hstep), fun n => ⟨?_, (ih.2 n).2⟩⟩
    refine .head hle hlt ?_ (ih.2 n).1
    rw [p.step_put c hr hfree' n, hstep]
    rfl

end Machine

/-! ### Code -/

namespace Code.Fragment

variable {f : Fragment} {p : Program} {address : Label → Nat} {a : Nat} {r : Register}

/-- The instructions of a program name the registers that its code names. -/
private theorem Placed.register_mem (h : f.Placed p address a) (hf : f.WellFormed) {k : Nat}
    {i : Instr} (hk : k < f.size) (hfetch : p.fetch? (a + k) = some i) (hr : i.register? = some r) :
    r ∈ f.registers := by
  obtain ⟨j, hj⟩ : ∃ j, f.code[k]? = some j := ⟨_, List.getElem?_eq_getElem hk⟩
  have hmem : j.register? = some r → r ∈ f.registers :=
    fun h => List.mem_filterMap.mpr ⟨j, List.mem_of_getElem? hj, h⟩
  rcases hf.toHoled.cases hj with htargets | ⟨hole, hhole, rfl, hfit⟩
  · cases (h.straight k j hj htargets).symm.trans hfetch
    exact hmem hr
  · cases (h.fetch?_hole hhole hj hfit).symm.trans hfetch
    rw [Hole.register?_patch] at hr
    exact hmem hr

/-- Code that has nothing to do with a register: it does not name it, and wherever the code stands,
its runs neither read the register nor change it. -/
structure Spares (f : Fragment) (r : Register) : Prop where
  notMem : r ∉ f.registers
  ignores : ∀ ⦃p : Program⦄ ⦃address : Label → Nat⦄ ⦃a : Nat⦄, f.Placed p address a →
    p.Ignores a (a + f.size) r

theorem WellFormed.spares (hf : f.WellFormed) (hr : 0 < r.id) (h : r ∉ f.registers) :
    f.Spares r := by
  refine ⟨h, fun p address a hplaced => Program.ignores_of_forall hr ?_⟩
  intro b i hle hlt hfetch hregister
  obtain ⟨k, rfl⟩ := Nat.exists_eq_add_of_le hle
  exact h (hplaced.register_mem hf (Nat.lt_of_add_lt_add_left hlt) hfetch hregister)

end Code.Fragment

end Abacus
