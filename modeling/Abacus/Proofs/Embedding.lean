import Abacus.Proofs.Allocation
import Abacus.Proofs.Blocks
import Abacus.Proofs.Resolution
import Abacus.Proofs.Traversal

/-!
# Assignments in larger programs

Code is emitted in the middle of other code: scratch registers are in use outside, any number of
labels has been handed out, and what is linked in the end has other fragments before and after. The
code of an assignment does its work in all of these situations (`Emit.assign_traverses`). It sets
the target to the value that the right side had on entry, keeps every other register in use, and
leaves all others empty.

The situations are those of `Emit.Context.Reachable`: the variables were declared in a fresh pool,
and the pool has been used in whatever way since.
-/

namespace Abacus

open Machine Code
open Source hiding Program

namespace RegisterPool

variable {pool : RegisterPool} {used : Nat} {r : Register}

/-- A register that belongs to no variable and is not in use. -/
def Idle (pool : RegisterPool) (r : Register) : Prop := pool.named < r.id ∧ r ∉ pool.live

/-- Where registers are packed, the idle ones come after all others. -/
theorem Packed.idle_iff (h : pool.Packed used) : pool.Idle r ↔ used < r.id := by
  have hle := h.named_le
  rw [Idle, h.live, List.mem_reverse, mem_registersBetween]
  omega

/-- No request takes a register away from a variable. -/
private theorem named_le_after (pool : RegisterPool) (q : Request) :
    pool.named ≤ (pool.after q).named := by
  rcases q with name | _ | r
  · rw [after, leaves, takeNamed_eq]
    split_ifs <;> simp
  · rcases hfree : pool.free with _ | ⟨r, free⟩
    · rw [after, leaves, takeScratch_of_free_nil hfree]
      split_ifs <;> simp
    · simp [after, leaves_of_ok (takeScratch_of_free hfree)]
  · rcases release_cases pool r with ⟨rest, -, -, hrelease⟩ | ⟨conflict, hrelease⟩
    · simp [after, leaves_of_ok hrelease]
    · simp [after, leaves_of_error hrelease]

/-- No requests take registers away from variables. -/
private theorem named_le_afterAll (pool : RegisterPool) (requests : List Request) :
    pool.named ≤ (pool.afterAll requests).named := by
  induction requests generalizing pool with
  | nil => exact Nat.le_refl _
  | cons q requests ih => exact Nat.le_trans (pool.named_le_after q) (ih (pool.after q))

end RegisterPool

namespace Emit

variable {ctx : Context} {s s' : State} {f before after : Fragment} {p : Program}

/-- The states in which code may be emitted: the variables were declared in a fresh pool, and then
any requests were made of the pool. -/
def Context.Reachable (ctx : Context) (s : State) : Prop :=
  ∃ capacity declarations pool requests,
    SymbolTable.ofDeclarations declarations { capacity } = .ok ctx.symbols pool ∧
      s.pool = pool.afterAll requests

/-- In these states the registers up to the last one in use are the variables' and the scratch
registers in use. -/
theorem Context.Reachable.spec (h : ctx.Reachable s) :
    ctx.symbols.Orderly ∧ ctx.symbols.symbols.length ≤ s.pool.named ∧
      s.pool.Packed (s.pool.named + s.pool.live.length) := by
  obtain ⟨capacity, declarations, pool, requests, hdeclared, hpool⟩ := h
  obtain ⟨ht, -, rfl, hle⟩ :=
    (SymbolTable.yields_ofDeclarations capacity declarations).ensures.of_ok hdeclared
  obtain ⟨used, hpacked⟩ := (RegisterPool.packed_withNamed hle).afterAll requests
  rw [← hpool] at hpacked
  refine ⟨ht, ?_, hpacked.used_eq ▸ hpacked⟩
  rw [hpool]
  exact (RegisterPool.withNamed capacity ctx.symbols.symbols.length).named_le_afterAll requests

/-- The code of an assignment has its effect in every reachable state. -/
private theorem Context.Reachable.computes_assign {target : String} {value : Expr} {line : UInt64}
    (hs : ctx.Reachable s) (hassign : assign ctx target value line s = .ok f s') :
    ∃ x ∈ ctx.symbols.symbols, x.name = target ∧ ∃ effect,
      Computes (s.pool.named + s.pool.live.length) (·.Within ctx.symbols.symbols.length) effect s s'
        f ∧
      ∀ env file, s.pool.named + s.pool.live.length ≤ file.size →
        file.Clean (s.pool.named + s.pool.live.length) → ctx.symbols.Represents env file →
          effect file = (value.eval env).map (file.put x.register) := by
  obtain ⟨ht, hnamed, hpacked⟩ := hs.spec
  have hle := Nat.le_trans hnamed (Nat.le_add_right _ s.pool.live.length)
  exact ((yields_assign ctx ht hpacked hle target value line).ensures.of_ok hassign).2

/-- So has the code of a statement. -/
theorem Context.Reachable.lowers_stmt {st : Stmt} (hs : ctx.Reachable s)
    (h : stmt ctx st s = .ok f s') :
    Lowers ctx (s.pool.named + s.pool.live.length)
      (st.eval fun name => (ctx.symbols.find? name).isSome) s s' f := by
  obtain ⟨ht, hlength, hpacked⟩ := hs.spec
  have hnamed := Nat.le_trans hlength hpacked.named_le
  exact ((translates_stmt ctx st ht hpacked hnamed).ensures.of_ok h).2.1

/-- So has the code of a block. -/
theorem Context.Reachable.lowers_block {b : List Stmt} (hs : ctx.Reachable s)
    (h : block ctx b s = .ok f s') :
    Lowers ctx (s.pool.named + s.pool.live.length)
      (evalBlock (fun name => (ctx.symbols.find? name).isSome) b) s s' f := by
  obtain ⟨ht, hlength, hpacked⟩ := hs.spec
  have hnamed := Nat.le_trans hlength hpacked.named_le
  exact ((translates_block ctx b ht hpacked hnamed).ensures.of_ok h).2.1

/-- **Assignments in place.** The code of an assignment is emitted while any scratch registers are
in use, and stands anywhere in the fragments that a program is linked from. Let a run come to it
with all idle registers empty, and let the right side have a value that a register can hold. The run
then goes through the code to its end. There the target has the value, all other variables and the
scratch registers in use are as they were, and the idle registers are empty again. -/
theorem assign_traverses {target : String} {value : Expr} {line : UInt64} (hs : ctx.Reachable s)
    (hassign : assign ctx target value line s = .ok f s')
    {base : AddressBase} {registers : Array Nat} {symbols : List (String × Register)}
    {fragments : List Fragment} (hcontains : Fragment.join fragments = before ++ f ++ after)
    (hlink : link base registers symbols fragments = .ok p)
    {file : File} {env : Env} {n : Nat} (hsize : s'.pool.highWater ≤ file.size)
    (hbounded : file.Bounded) (hidle : ∀ r, s.pool.Idle r → file.val r = 0)
    (henv : ctx.symbols.Represents env file) (hvalue : value.eval env = some n) :
    ∃ x ∈ ctx.symbols.symbols, x.name = target ∧ ∃ file' : File,
      p.Traverses (base.first + before.size) (base.first + before.size + f.size)
        ⟨base.first + before.size, file⟩ ⟨base.first + before.size + f.size, file'⟩ ∧
      file'.size = file.size ∧ file'.val x.register = n ∧
      (∀ r, r ≠ x.register → s.pool.isNamed r ∨ r ∈ s.pool.live → file'.val r = file.val r) ∧
      ∀ r, s.pool.Idle r → file'.val r = 0 := by
  obtain ⟨ht, hnamed, hpacked⟩ := hs.spec
  obtain ⟨x, hx, hname, effect, hcomputes, heffect⟩ := hs.computes_assign hassign
  have hused := Nat.le_trans hcomputes.packed.used_le hsize
  have hclean : file.Clean (s.pool.named + s.pool.live.length) :=
    ⟨hbounded, fun r hr => hidle r (hpacked.idle_iff.mpr hr)⟩
  have hhas : file.Has x.register := ht.has hx (by omega)
  have hput : effect file = some (file.put x.register n) := by
    rw [heffect env file hused hclean henv, hvalue]
    rfl
  obtain ⟨hresolved, rfl, -⟩ := resolved_of_link hlink
  rw [hcontains] at hresolved
  have hplaced := hresolved.placed hcomputes.code.wellFormed
  refine ⟨x, hx, hname, file.put x.register n, ?_, File.size_put .., File.val_put_self hhas n, ?_,
    ?_⟩
  · exact hcomputes.performs.traverses hplaced hcomputes.code.wellFormed hsize hclean hput
  · intro r hne hr
    -- registers in use are those of the file that come before the idle ones
    have hr' : file.Has r := by
      rcases hr with hr | hr
      · simp only [RegisterPool.isNamed, decide_eq_true_eq] at hr
        exact ⟨hr.1, by omega⟩
      · rw [hpacked.live, List.mem_reverse, mem_registersBetween] at hr
        exact ⟨by omega, by omega⟩
    exact File.val_put_of_ne hhas hr' hne n
  · intro r hr
    have hlt := hpacked.idle_iff.mp hr
    have hregister := ht.register_le hx
    rcases Nat.lt_or_ge file.size r.id with hout | hin
    · exact File.val_eq_zero_of_size_lt (by rwa [File.size_put])
    · rw [File.val_put_of_ne hhas ⟨by omega, hin⟩ (by rintro rfl; omega)]
      exact hclean.empty r hlt

/-! ### A situation with one scratch register in use -/

/-- Two variables, and nothing else that code may refer to. -/
def pairContext : Context := { symbols := ⟨[⟨"t", ⟨1⟩, 3⟩, ⟨"b", ⟨2⟩, 5⟩]⟩, limit := none }

/-- A state in which one scratch register is in use. -/
def pairState : State := { pool := { capacity := 8, named := 2, highWater := 3, live := [⟨3⟩] } }

/-- Counts for the two variables and the scratch register in use. -/
def pairFile : File := #[3, 5, 7, 0, 0, 0, 0, 0]

theorem reachable_pairState : pairContext.Reachable pairState :=
  ⟨8, [⟨"t", 3, 1⟩, ⟨"b", 5, 2⟩], _, [.scratch], rfl, rfl⟩

theorem bounded_pairFile : pairFile.Bounded := by
  have hval : ∀ n ≤ 8, pairFile.val ⟨n⟩ < wordBound := by decide
  exact fun r hr => hval r.id hr.2

theorem val_pairFile_of_idle (r : Register) (hr : pairState.pool.Idle r) : pairFile.val r = 0 := by
  have hempty : ∀ n ≤ 8, 3 < n → pairFile.val ⟨n⟩ = 0 := by decide
  rcases Nat.lt_or_ge 8 r.id with hout | hin
  · exact File.val_eq_zero_of_size_lt hout
  · exact hempty r.id hin (reachable_pairState.spec.2.2.idle_iff.mp hr)

theorem represents_pairFile :
    pairContext.symbols.Represents (fun name => if name = "t" then 3 else 5) pairFile := by
  intro x hx
  rcases List.mem_pair.mp hx with rfl | rfl <;> rfl

/-- Code that is emitted in this situation can be linked after an instruction. -/
theorem exists_link_after_inc {next : Nat} (hf : f.Sealed pairState.nextLabel next) :
    ∃ p, link .zero #[] [] [.inc ⟨3⟩, f] = .ok p := by
  have hinc : (Fragment.inc ⟨3⟩).Sealed pairState.nextLabel pairState.nextLabel :=
    Fragment.sealed_of_straight rfl rfl (by simp [Instr.targets]) _
  have hsealed : (Fragment.join [.inc ⟨3⟩, f]).Sealed pairState.nextLabel next :=
    hinc.append (hf.append (Fragment.sealed_empty _))
  obtain ⟨p, hlink, -⟩ := link_ok hsealed.wellFormed hsealed.closed .zero #[] []
  exact ⟨p, hlink⟩

theorem assign_traverses_difference :
    ∃ f s' p, pairContext.Reachable pairState ∧
      assign pairContext "t" (.binary .sub (.var "b") (.var "t")) 1 pairState = .ok f s' ∧
      link .zero #[] [] [.inc ⟨3⟩, f] = .ok p ∧ ∃ file' : File,
        p.Traverses 1 (1 + f.size) ⟨1, pairFile⟩ ⟨1 + f.size, file'⟩ ∧
        file'.val ⟨1⟩ = 2 ∧ file'.val ⟨2⟩ = 5 ∧ file'.val ⟨3⟩ = 7 := by
  have hyields : Yields (fun _ => False)
      (assign pairContext "t" (.binary .sub (.var "b") (.var "t")) 1) pairState
      fun _ s' => s'.pool.highWater ≤ pairFile.size := by
    decide +kernel
  obtain ⟨f, s', hassign, hwater⟩ := hyields.exists_ok
  have hs := reachable_pairState
  obtain ⟨-, -, -, effect, hcomputes, -⟩ := hs.computes_assign hassign
  obtain ⟨p, hlink⟩ := exists_link_after_inc hcomputes.code
  obtain ⟨x, hx, hname, file', htraverses, -, hvalue, hkept, -⟩ :=
    assign_traverses hs hassign (Fragment.append_assoc _ _ _).symm hlink hwater bounded_pairFile
      val_pairFile_of_idle represents_pairFile rfl
  obtain rfl : x = ⟨"t", ⟨1⟩, 3⟩ := by
    rcases List.mem_pair.mp hx with rfl | rfl
    · rfl
    · exact absurd hname (by decide)
  exact ⟨f, s', p, hs, hassign, hlink, file', htraverses, hvalue, hkept ⟨2⟩ (by decide) (by decide),
    hkept ⟨3⟩ (by decide) (by decide)⟩

end Emit

end Abacus
