import Abacus.Proofs.Compilation

/-!
# Sums and differences of literals

A sum or difference of two literals is computed when its code is emitted, and the code is that of
the value. Before that, each of the two literals must fit into the room that is left, as if there
were an instruction for each of its units; where both do, the assignment is that of the value
(`Emit.stmt_literals`). A sum is no smaller than its parts, so this makes no difference to it. But a
difference may fit where its literals do not, and then it is refused and its value is not: just
this sets the two apart (`Emit.fold_literals_exact`).
-/

namespace Abacus.Emit

open Machine Code
open Source hiding Program

variable {ctx : Context} {s : State} {target : String} {op : BinOp} {a b c line : UInt64}
  {env : Env} {r : Register}

/-! ### Assigning a literal -/

private theorem exists_resolve_eq (htarget : target ∈ ctx.symbols.names) (line : UInt64)
    (s : State) :
    ∃ r, ctx.resolve target line s = .ok r s := by
  obtain ⟨x, hx⟩ := SymbolTable.exists_find?_of_mem htarget
  refine ⟨x.register, ?_⟩
  simp only [Context.resolve, SymbolTable.resolve, hx]
  rfl

private theorem value_lit_apply (ctx : Context) (n line : UInt64) (s : State) :
    ctx.value (.lit n) line s =
      if ctx.room s.emitted < n.toNat then .error (ctx.tooLarge line) s
      else .ok (.lit n.toNat) s := by
  have hroom := ensureRoom_apply ctx n.toNat line s
  rw [Context.value]
  split at hroom
  next h => rw [if_pos h, run_bind_of_error hroom]
  next h =>
    rw [if_neg h, run_bind_of_ok hroom]
    rfl

/-- A literal has an instruction for each of its units, after three that empty the register. -/
private theorem exists_store_lit (r : Register) (n : Nat) (s : State) :
    ∃ f s', store r (.lit n) s = .ok f s' ∧ f.size = n + 3 := by
  refine ⟨_, _, rfl, ?_⟩
  simp [Fragment.size, addUnits]

private theorem assign_operand_apply (hfree : target ∉ ctx.loops)
    (hr : ctx.resolve target line s = .ok r s) (operand : Operand) :
    assign ctx target (.operand operand) line s = (ctx.value operand line >>= store r) s := by
  rw [assign, if_neg hfree]
  exact run_bind_of_ok hr

private theorem assign_binary_apply (hfree : target ∉ ctx.loops)
    (hr : ctx.resolve target line s = .ok r s) (op : BinOp) (lhs rhs : Operand) :
    assign ctx target (.binary op lhs rhs) line s =
      (ctx.value lhs line >>= fun x => ctx.value rhs line >>= fun y =>
        storeBinary ctx r op x y line) s := by
  rw [assign, if_neg hfree]
  exact run_bind_of_ok hr

private theorem assign_literal (hfree : target ∉ ctx.loops)
    (hr : ctx.resolve target line s = .ok r s) :
    assign ctx target (.operand (.lit c)) line s =
      if ctx.room s.emitted < c.toNat then .error (ctx.tooLarge line) s
      else store r (.lit c.toNat) s := by
  have hvalue := value_lit_apply ctx c line s
  rw [assign_operand_apply hfree hr]
  split at hvalue
  next h => rw [if_pos h, run_bind_of_error hvalue]
  next h => rw [if_neg h, run_bind_of_ok hvalue]

/-- Assigning a literal is refused at once if there is no room for its units, and after its code is
made if there is none for the whole code. -/
private theorem stmt_literal (htarget : target ∈ ctx.symbols.names) (hfree : target ∉ ctx.loops)
    (c line : UInt64) (s : State) :
    ∃ f s₁ s₂, stmt ctx (.assign target (.operand (.lit c)) line) s =
      if ctx.room s.emitted < c.toNat then .error (ctx.tooLarge line) s
      else if ctx.room s.emitted < c.toNat + 3 then .error (ctx.tooLarge line) s₁
      else .ok f s₂ := by
  obtain ⟨r, hr⟩ := exists_resolve_eq htarget line s
  obtain ⟨f, s₁, hstore, hsize⟩ := exists_store_lit r c.toNat s
  have hassign := assign_literal (c := c) hfree hr
  rw [stmt, statement_apply, ← hsize]
  refine ⟨f, { s₁ with emitted := s.emitted }, { s₁ with emitted := s.emitted + f.size }, ?_⟩
  split at hassign
  next h =>
    rw [if_pos h, run_bind_of_error (run_adaptExcept_of_error hassign)]
    rfl
  next h =>
    rw [if_neg h, run_bind_of_ok (run_adaptExcept_of_ok (hassign.trans hstore)), count_apply]

/-! ### Literals instead of their sum or difference -/

private theorem storeBinary_lit (ctx : Context) (r : Register) (op : BinOp) (m n : Nat)
    (line : UInt64) :
    storeBinary ctx r op (.lit m) (.lit n) line =
      (ctx.ensureRoom (op.result m n) line >>= fun _ => store r (.lit (op.result m n))) := by
  cases op <;> rfl

private theorem result_of_eval (h : (Expr.binary op (.lit a) (.lit b)).eval env = some c.toNat) :
    op.result a.toNat b.toNat = c.toNat := by
  cases op with
  | add =>
    rw [Expr.eval] at h
    split at h
    · exact Option.some.inj h
    · cases h
  | sub => exact Option.some.inj h

private theorem assign_literals (hfree : target ∉ ctx.loops)
    (hr : ctx.resolve target line s = .ok r s) (hc : op.result a.toNat b.toNat = c.toNat) :
    assign ctx target (.binary op (.lit a) (.lit b)) line s =
      if ctx.room s.emitted < a.toNat ∨ ctx.room s.emitted < b.toNat then
        .error (ctx.tooLarge line) s
      else assign ctx target (.operand (.lit c)) line s := by
  have hlhs := value_lit_apply ctx a line s
  have hrhs := value_lit_apply ctx b line s
  have hroom := ensureRoom_apply ctx c.toNat line s
  rw [assign_literal hfree hr, assign_binary_apply hfree hr]
  by_cases ha : ctx.room s.emitted < a.toNat
  · rw [if_pos ha] at hlhs
    rw [if_pos (.inl ha), run_bind_of_error hlhs]
  · rw [if_neg ha] at hlhs
    rw [run_bind_of_ok hlhs]
    by_cases hb : ctx.room s.emitted < b.toNat
    · rw [if_pos hb] at hrhs
      rw [if_pos (.inr hb), run_bind_of_error hrhs]
    · rw [if_neg hb] at hrhs
      rw [if_neg (not_or_intro ha hb), run_bind_of_ok hrhs, storeBinary_lit, hc]
      split at hroom
      next h => rw [if_pos h, run_bind_of_error hroom]
      next h => rw [if_neg h, run_bind_of_ok hroom]

/-- The literals are refused if one of them does not fit, and are their sum or difference
otherwise. -/
theorem stmt_literals (htarget : target ∈ ctx.symbols.names) (hfree : target ∉ ctx.loops)
    (hc : op.result a.toNat b.toNat = c.toNat) (line : UInt64) (s : State) :
    stmt ctx (.assign target (.binary op (.lit a) (.lit b)) line) s =
      if ctx.room s.emitted < a.toNat ∨ ctx.room s.emitted < b.toNat then
        .error (ctx.tooLarge line) s
      else stmt ctx (.assign target (.operand (.lit c)) line) s := by
  obtain ⟨r, hr⟩ := exists_resolve_eq htarget line s
  have hassign := assign_literals hfree hr hc
  rw [stmt, statement_apply, stmt, statement_apply]
  split at hassign
  next h =>
    rw [if_pos h, run_bind_of_error (run_adaptExcept_of_error hassign)]
    rfl
  next h =>
    rw [if_neg h]
    simp only [Bind.bind, EStateM.bind, EStateM.adaptExcept, hassign]

/-- **Folding literals.** Assigning the sum of two literals is assigning its value: the code, the
failure and the state left behind are the same. Assigning their difference has the same code or
failure just if both literals fit into the room that is left, or if the value itself does not fit
with the three instructions that empty the target; otherwise the literals are refused and the value
is not. -/
theorem fold_literals_exact (htarget : target ∈ ctx.symbols.names) (hfree : target ∉ ctx.loops)
    (hc : (Expr.binary op (.lit a) (.lit b)).eval env = some c.toNat) :
    (op = .add → stmt ctx (.assign target (.binary op (.lit a) (.lit b)) line) s =
      stmt ctx (.assign target (.operand (.lit c)) line) s) ∧
    (outcome (stmt ctx (.assign target (.binary op (.lit a) (.lit b)) line)) s =
        outcome (stmt ctx (.assign target (.operand (.lit c)) line)) s ↔
      op = .add ∨ (a.toNat ≤ ctx.room s.emitted ∧ b.toNat ≤ ctx.room s.emitted) ∨
        ctx.room s.emitted < c.toNat + 3) := by
  have hresult := result_of_eval hc
  have hliterals := stmt_literals htarget hfree hresult line s
  obtain ⟨f, s₁, s₂, hliteral⟩ := stmt_literal htarget hfree c line s
  have hsum : op = .add → a.toNat ≤ c.toNat ∧ b.toNat ≤ c.toNat := by
    rintro rfl
    rw [← hresult]
    exact ⟨Nat.le_add_right _ _, Nat.le_add_left _ _⟩
  by_cases hfit : ctx.room s.emitted < a.toNat ∨ ctx.room s.emitted < b.toNat
  · rw [if_pos hfit] at hliterals
    refine ⟨fun hadd => ?_, ?_⟩
    · -- the sum is at least as large as the literal that does not fit
      rw [hliterals, hliteral, if_pos (by have := hsum hadd; omega)]
    · rw [outcome_of_error hliterals]
      -- the failure is the same wherever the value fails too
      by_cases hlt : ctx.room s.emitted < c.toNat + 3
      · refine iff_of_true ?_ (.inr (.inr hlt))
        rw [if_pos hlt] at hliteral
        split at hliteral <;> rw [outcome_of_error hliteral]
      · rw [if_neg (by omega), if_neg hlt] at hliteral
        refine iff_of_false ?_ ?_
        · rw [outcome_of_ok hliteral]
          simp
        · rintro (hadd | ⟨ha, hb⟩ | hlt')
          · have := hsum hadd
            omega
          · omega
          · exact hlt hlt'
  · rw [if_neg hfit] at hliterals
    refine ⟨fun _ => hliterals, iff_of_true ?_ (.inr (.inl ?_))⟩
    · rw [outcome, hliterals, outcome]
    · omega

/-- The variable `t`, under a limit. -/
def soloContext (limit : Nat) : Context :=
  { symbols := ⟨[⟨"t", ⟨1⟩, 0⟩]⟩, limit := some limit }

/-- Nothing is emitted yet. -/
def soloState : State := { pool := { capacity := 4, named := 1, highWater := 1 } }

/-- One more instruction in all makes room for the literal `5`, and `2 - 5` becomes `0`. -/
theorem fold_literals_two_sub_five :
    outcome (stmt (soloContext 5) (.assign "t" (.binary .sub (.lit 2) (.lit 5)) 1)) soloState ≠
        outcome (stmt (soloContext 5) (.assign "t" (.operand (.lit 0)) 1)) soloState ∧
      outcome (stmt (soloContext 6) (.assign "t" (.binary .sub (.lit 2) (.lit 5)) 1)) soloState =
        outcome (stmt (soloContext 6) (.assign "t" (.operand (.lit 0)) 1)) soloState := by
  have hfolds (limit : Nat) := @fold_literals_exact (soloContext limit) soloState "t" .sub 2 5 0 1
    (fun _ => 0) (List.mem_singleton.mpr rfl) List.not_mem_nil rfl
  refine ⟨fun heq => ?_, (hfolds 6).2.mpr (.inr (.inl (by decide)))⟩
  exact absurd ((hfolds 5).2.mp heq) (by decide)

/-- Of five instructions one is the final halt, so there is room for the three that empty `t` but
not for the literal `5`. -/
theorem difference_refused_two_sub_five :
    outcome (stmt (soloContext 5) (.assign "t" (.binary .sub (.lit 2) (.lit 5)) 1)) soloState =
        .error (.tooLarge 5 1) ∧
      (Expr.binary .sub (.lit 2) (.lit 5)).eval (fun _ => 0) = some 0 ∧
      ∃ f s, outcome (stmt (soloContext 5) (.assign "t" (.operand (.lit 0)) 1)) soloState =
        .ok (f, s) ∧ f.size + 1 = 4 :=
  ⟨rfl, rfl, _, _, rfl, rfl⟩

end Abacus.Emit
