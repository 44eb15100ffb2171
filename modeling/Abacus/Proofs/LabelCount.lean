import Mathlib.Data.List.Perm.Basic
import Abacus.Proofs.Compilation
import Abacus.Proofs.Confinement
import Abacus.Proofs.Weaving

/-!
# How many labels code takes

If every label costs two and every instruction pays three, then every pattern of emitted code pays
for its labels (`Emit.Woven.surplus_nonneg`), with nothing left over in a conditional whose blocks
are empty. All the labels that are handed out for a block are in its code. So the size of the code
bounds how many labels were handed out for it, and a limit on the size keeps their numbers in range
(`compile_labels_bounded`).
-/

namespace Abacus

open Machine Code Fragment
open Source hiding Program

namespace Code.Fragment

/-- What is left when each instruction has paid three and each label has cost two. -/
def surplus (f : Fragment) : Int := 3 * f.size - 2 * f.defined.length

section Pieces

variable (r : Register) (l l' : Label)

/-- The surplus of two fragments in a row is that of both together. -/
@[simp]
theorem surplus_append (f g : Fragment) : (f ++ g).surplus = f.surplus + g.surplus := by
  rw [surplus, surplus, surplus, size_append, defined_append, List.length_append]
  omega

@[simp]
theorem surplus_empty : (∅ : Fragment).surplus = 0 := rfl

@[simp]
theorem surplus_define : (define l).surplus = -2 := rfl

@[simp]
theorem surplus_inc : (inc r).surplus = 3 := rfl

@[simp]
theorem surplus_dec : (dec r).surplus = 3 := rfl

@[simp]
theorem surplus_jump : (jump l).surplus = 3 := rfl

@[simp]
theorem surplus_test : (test r l l').surplus = 3 := rfl

end Pieces

/-- Code that defines the labels of a range has as many as there are numbers in it. -/
private theorem Sealed.length_defined {f : Fragment} {first last : Nat} (h : f.Sealed first last) :
    last = first + f.defined.length := by
  have hle := h.le
  have hperm : (f.defined.map Label.id).Perm (List.range' first (last - first)) := by
    refine (List.perm_ext_iff_of_nodup h.nodup List.nodup_range').mpr fun n => ?_
    rw [h.mem_iff, List.mem_range'_1]
    omega
  have hlength := hperm.length_eq
  rw [List.length_map, List.length_range'] at hlength
  omega

end Code.Fragment

namespace Emit

/-- Increments in a row pay three each. -/
private theorem surplus_join_inc (targets : List Register) :
    (join (targets.map Fragment.inc)).surplus = 3 * targets.length := by
  have hlabels := (sealed_join_inc targets 0).length_defined
  rw [surplus, size_join_inc]
  omega

@[simp]
theorem surplus_code (zeroTest : ZeroTest) (r : Register) (l l' : Label) :
    (zeroTest.code r l l').surplus = 3 := by
  cases zeroTest <;> rfl

/-- Stepping a loop variable has no label to pay for. -/
private theorem surplus_advance (v : Option Symbol) : 0 ≤ (advance v).surplus := by
  cases v with
  | none => exact Int.le_refl 0
  | some x => simp [advance]

/-- Every pattern pays for its labels. -/
theorem Woven.surplus_nonneg {n : Nat} {f : Fragment} (h : Woven n f) : 0 ≤ f.surplus := by
  induction h with
  | empty => simp
  | inc r => simp
  | append _ _ ihf ihg =>
    rw [surplus_append]
    exact Int.add_nonneg ihf ihg
  | guarded r step skip => simp
  | transfer htop step done source targets =>
    simp only [surplus_append, surplus_define, surplus_test, surplus_dec, surplus_jump,
      surplus_join_inc]
    omega
  | deduct htop check step rest done count target => simp
  | branch zeroTest r thenLabel elseLabel hend hyes hno hlt ihyes ihno =>
    simp only [surplus_append, surplus_define, surplus_code, surplus_jump]
    omega
  | rounds counter v entry step exit hheader hbodyLabel hstart hbody ihstart ihbody =>
    have hadvance := surplus_advance v
    simp only [surplus_append, surplus_define, surplus_test, surplus_dec, surplus_jump]
    omega

/-- The labels that are handed out for a block are the ones in its code, and are paid for. -/
private theorem labels_of_block {ctx : Context} {b : List Stmt} {s s' : State} {f : Fragment}
    (h : block ctx b s = .ok f s') :
    f.Sealed s.nextLabel s'.nextLabel ∧
      ∃ k, s'.nextLabel = s.nextLabel + k ∧ 2 * k ≤ 3 * f.size := by
  have hsealed : f.Sealed s.nextLabel s'.nextLabel := ((confines_block ctx b s).of_ok h).code
  have hsurplus := (weaves_block ctx b h).surplus_nonneg
  rw [surplus] at hsurplus
  refine ⟨hsealed, f.defined.length, hsealed.length_defined, ?_⟩
  omega

end Emit

open Emit

/-- **Labels are bounded by code.** If a block is given code, at most three labels are handed out
for every two of its instructions. So where no more than `UInt32.size / 2` instructions are allowed,
a compilation that succeeds has handed out fewer than `UInt32.size` labels, and the number that
follows each of them is below that too. -/
theorem compile_labels_bounded :
    (∀ (ctx : Context) (b : List Stmt) (s s' : State) (f : Fragment), block ctx b s = .ok f s' →
      ∃ k, s'.nextLabel = s.nextLabel + k ∧ 2 * k ≤ 3 * f.size) ∧
    ∀ (o : Options) (p : Source.Program) (c : Compilation) (limit : Nat), o.limit = some limit →
      limit ≤ UInt32.size / 2 → compile o p = .ok c →
      ∃ table f state, emitProgram o p = .ok (table, f, state) ∧
        state.nextLabel < UInt32.size ∧ ∀ l ∈ f.defined, l.id + 1 < UInt32.size := by
  refine ⟨fun ctx b s s' f h => (labels_of_block h).2, ?_⟩
  intro o p c limit hlimit hle hcompile
  obtain ⟨table, f, state, hemit, hemits, -⟩ := exists_emitProgram_of_compile hcompile
  obtain ⟨-, pool, -, hblock⟩ := exists_of_emitProgram hemit
  obtain ⟨hsealed, k, hnext, hlabels⟩ := labels_of_block hblock
  have hsize : f.size < limit := hemits.size_lt limit hlimit
  have hstate : state.nextLabel < UInt32.size := by
    -- the count of labels starts at zero
    have hnext : state.nextLabel = 0 + k := hnext
    omega
  refine ⟨table, f, state, hemit, hstate, fun l hl => ?_⟩
  have hid := ((hsealed.mem_iff l.id).mp (List.mem_map_of_mem hl)).2
  omega

/-- A choice with nothing to do either way. -/
def emptyChoice : Source.Program where
  declarations := [⟨"t", 0, 1⟩]
  body := [.branch ⟨.var "t", .eq, .lit 0⟩ [] [] 2]

private theorem yields_emptyChoice :
    Yields (fun _ => False) (block pairContext emptyChoice.body) pairState
      fun f s' => s'.nextLabel = pairState.nextLabel + 3 ∧ f.size = 2 := by
  decide +kernel

theorem compile_labels_emptyChoice :
    (∃ f s' k, block pairContext emptyChoice.body pairState = .ok f s' ∧
      s'.nextLabel = pairState.nextLabel + k ∧ 2 * k ≤ 3 * f.size ∧ k = 3 ∧ f.size = 2) ∧
    ∃ c table f state, compile { limit := some 3 } emptyChoice = .ok c ∧
      emitProgram { limit := some 3 } emptyChoice = .ok (table, f, state) ∧
      state.nextLabel < UInt32.size ∧ ∀ l ∈ f.defined, l.id + 1 < UInt32.size := by
  constructor
  · obtain ⟨f, s', hblock, hnext, hsize⟩ := yields_emptyChoice.exists_ok
    obtain ⟨k, hk, hle⟩ := compile_labels_bounded.1 _ _ _ _ _ hblock
    exact ⟨f, s', k, hblock, hk, hle, Nat.add_left_cancel (hk.symm.trans hnext), hsize⟩
  · obtain ⟨c, hcompile⟩ : ∃ c, compile { limit := some 3 } emptyChoice = .ok c :=
      exists_compile_eq_ok (by decide +kernel)
    obtain ⟨table, f, state, hlabels⟩ :=
      compile_labels_bounded.2 _ _ _ 3 rfl (by decide) hcompile
    exact ⟨c, table, f, state, hcompile, hlabels⟩

end Abacus
