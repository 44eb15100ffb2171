import Abacus.Proofs.Control

/-!
# Runs that stay within their code

What is known of emitted code is said of every program that holds it, so also of the program in
which all other instructions are halts (`Program.only`). A run that gets through there performs no
instruction from outside. The same run in the program itself then goes through the code, step by
step, and leaves it only at the end (`Program.Traverses`).
-/

namespace Abacus

open Machine Code

namespace Machine.Program

/-- A run whose steps all start at addresses from `first` up to but not including `last`. -/
inductive Traverses (p : Program) (first last : Nat) : Config → Config → Prop
  | refl (c : Config) : Traverses p first last c c
  | head {c c' c'' : Config} : first ≤ c.address → c.address < last → p.step c = .next c' →
      Traverses p first last c' c'' → Traverses p first last c c''

/-- The program with halts outside the addresses from `first` up to but not including `last`. -/
def only (p : Program) (first last : Nat) : Program :=
  { p with
    code := p.code.mapIdx fun k i =>
      if first ≤ p.base.first + k ∧ p.base.first + k < last then i else .hlt }

variable {p : Program} {first last : Nat} {c c' : Config}

private theorem fetch?_only (p : Program) (first last a : Nat) :
    (p.only first last).fetch? a =
      (p.fetch? a).map fun i => if first ≤ a ∧ a < last then i else .hlt := by
  unfold fetch?
  rw [show (p.only first last).base = p.base from rfl]
  split
  next hle =>
    rw [only, Array.getElem?_mapIdx, Nat.add_sub_cancel' hle]
  next => rfl

private theorem fetch?_only_of_lt {a : Nat} (hle : first ≤ a) (hlt : a < last) :
    (p.only first last).fetch? a = p.fetch? a := by
  rw [fetch?_only]
  simp [hle, hlt]

/-- Where everything else halts, a step is made within the given addresses, and is one of the
program itself. -/
private theorem step_of_only (h : (p.only first last).step c = .next c') :
    first ≤ c.address ∧ c.address < last ∧ p.step c = .next c' := by
  unfold step at h ⊢
  by_cases hin : first ≤ c.address ∧ c.address < last
  · rw [fetch?_only_of_lt hin.1 hin.2] at h
    exact ⟨hin.1, hin.2, h⟩
  · rw [fetch?_only] at h
    rcases hfetch : p.fetch? c.address with _ | i
    · rw [hfetch] at h
      cases h
    · rw [hfetch, Option.map_some, if_neg hin] at h
      cases h

theorem Reaches.traverses (h : (p.only first last).Reaches c c') : p.Traverses first last c c' := by
  obtain ⟨n, hsteps⟩ := h
  induction hsteps with
  | refl c => exact .refl c
  | head hstep _ ih =>
    obtain ⟨hle, hlt, hstep⟩ := step_of_only hstep
    exact .head hle hlt hstep ih

end Machine.Program

namespace Code.Fragment

variable {p : Program} {address : Label → Nat} {a used size : Nat} {f : Fragment}
  {file file' : File}

/-- Code is still placed when everything else halts. -/
theorem Placed.only (h : f.Placed p address a) (hf : f.WellFormed) :
    f.Placed (p.only a (a + f.size)) address a := by
  have hkeep : ∀ {k}, k < f.size → (p.only a (a + f.size)).fetch? (a + k) = p.fetch? (a + k) :=
    fun hk => Program.fetch?_only_of_lt (Nat.le_add_right a _) (Nat.add_lt_add_left hk a)
  refine ⟨fun k i hi htargets => ?_, fun k l hk => ?_, fun k l l' hk r t t' hi => ?_, h.label⟩
  · rw [hkeep (List.getElem?_eq_some_iff.mp hi).1]
    exact h.straight k i hi htargets
  · have hlt : k < f.size := hf.index_lt hk
    rw [hkeep hlt]
    exact h.jump k l hk
  · rw [hkeep (List.getElem?_eq_some_iff.mp hi).1]
    exact h.test k l l' hk r t t' hi

/-- Code that runs to its end stays within itself until then. -/
theorem Performs.traverses {effect : File → Option File} (h : f.Performs used size effect)
    (hplaced : f.Placed p address a) (hf : f.WellFormed) (hsize : size ≤ file.size)
    (hclean : file.Clean used) (heffect : effect file = some file') :
    p.Traverses a (a + f.size) ⟨a, file⟩ ⟨a + f.size, file'⟩ := by
  have hruns := h (hplaced.only hf) hsize hclean
  rw [heffect] at hruns
  exact hruns.traverses

theorem Realizes.traverses {table : SymbolTable} {meaning : Source.Env → Option Source.Env}
    {env env' : Source.Env} (h : f.Realizes table used size meaning)
    (hplaced : f.Placed p address a) (hf : f.WellFormed) (hsize : size ≤ file.size)
    (hclean : file.Clean used) (henv : table.Represents env file)
    (hmeaning : meaning env = some env') :
    ∃ file' : File, p.Traverses a (a + f.size) ⟨a, file⟩ ⟨a + f.size, file'⟩ ∧
      table.Represents env' file' ∧ table.SameScratch file file' := by
  have hfollows := h (hplaced.only hf) hsize hclean henv
  rw [hmeaning] at hfollows
  obtain ⟨file', hreach, hrest⟩ := hfollows
  exact ⟨file', hreach.traverses, hrest⟩

end Code.Fragment

end Abacus
