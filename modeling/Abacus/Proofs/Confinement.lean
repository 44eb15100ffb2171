import Abacus.Proofs.Embedding
import Abacus.Proofs.Optimizing

/-!
# Labels and registers of emitted code

Whatever code is emitted, and from whatever state, its labels are those handed out meanwhile: it
defines each of them once and its jumps name no others. If the pool hands out scratch registers in
nested order, the code gives back all it takes, and beside the registers it was given it names only
scratch registers after the ones in use. This is `Emit.Confined`. It is shown action by action up to
blocks (`Emit.confines_block`) and holds of all code there is: unlike `Emit.Computes`, it asks
nothing of the variables and of their registers.

The optimizer takes instructions out and gives jumps new targets, and still leaves sealed code
sealed (`Code.Fragment.Sealed.optimize`).
-/

namespace Abacus

open Machine Code Fragment
open Source hiding Program

/-- Sealed code stays sealed in the optimizer, with the same labels in the same order. -/
theorem Code.Fragment.Sealed.optimize {f : Fragment} {first last : Nat} (h : f.Sealed first last)
    (level : Nat) :
    ∃ g, f.optimize level = some g ∧ g.Sealed first last ∧ g.defined = f.defined := by
  obtain ⟨g, hg, hreplaces⟩ := optimize_replaces level h.wellFormed
  have hdefined := hreplaces.defined
  refine ⟨g, hg, ⟨h.le, hreplaces.wellFormed, hdefined ▸ h.nodup, hdefined ▸ h.mem_iff, ?_, ?_⟩,
    hdefined⟩
  · intro l hl
    rw [hdefined]
    exact h.wanted_defined l (hreplaces.wanted l hl)
  · exact fun hmem => h.hlt_notMem (hreplaces.code.subset hmem)

namespace Emit

variable {given given' : Register → Prop} {s s' s₁ s₂ s₃ : State} {f g : Fragment}
  {r source target : Register} {ctx : Context}

/-- What holds of all code that is emitted between two states, whichever registers are in use. -/
structure Confined (given : Register → Prop) (s s' : State) (f : Fragment) : Prop where
  code : f.Sealed s.nextLabel s'.nextLabel
  emitted : ∀ ⦃used : Nat⦄, s.pool.Packed used → Emitted used given s s' f

namespace Confined

/-- Code that works with the registers it is given. -/
theorem of_pool_eq (hcode : f.Sealed s.nextLabel s'.nextLabel) (hpool : s'.pool = s.pool)
    (hgiven : ∀ r ∈ f.registers, given r) : Confined given s s' f where
  code := hcode
  emitted _ hs := ⟨hpool ▸ hs, hpool ▸ .refl _, hcode, fun r hr => .inl (hgiven r hr)⟩

/-- Pieces of code in a row use the registers of both. -/
theorem append (h : Confined given s s₁ f) (h' : Confined given' s₁ s₂ g) :
    Confined (fun r => given r ∨ given' r) s s₂ (f ++ g) where
  code := h.code.append h'.code
  emitted _ hs := (h.emitted hs).append (h'.emitted (h.emitted hs).packed)

/-- Code may be said to use more registers than it does. -/
theorem weaken (h : Confined given s s₁ f) (hgiven : ∀ r, given r → given' r) :
    Confined given' s s₁ f where
  code := h.code
  emitted _ hs := (h.emitted hs).weaken hgiven

/-- Pieces of code in a row that use the same registers. -/
theorem join (h : Confined given s s₁ f) (h' : Confined given s₁ s₂ g) :
    Confined given s s₂ (f ++ g) :=
  (h.append h').weaken fun _ hr => hr.elim id id

/-- Code put around other code, for which labels were handed out just before. -/
theorem surround {count : Nat}
    (h : Confined given { s with nextLabel := s.nextLabel + count } s₁ g)
    (hcode : f.Sealed s.nextLabel s₁.nextLabel)
    (hregisters : ∀ r ∈ f.registers, given r ∨ r ∈ g.registers) : Confined given s s₁ f := by
  refine ⟨hcode, fun used hs => ?_⟩
  have hemitted := h.emitted hs
  refine ⟨hemitted.packed, hemitted.grows, hcode, fun r hr => ?_⟩
  exact (hregisters r hr).elim .inl (hemitted.registers r)

/-- Code that works with a scratch register, which is given back. -/
theorem release (h : Confined given' s₁ s₂ f) (hscratch : scratch s = .ok r s₁)
    (hrelease : Emit.release r s₂ = .ok () s₃) (hgiven : ∀ t, given' t → given t ∨ t = r) :
    Confined given s s₃ f := by
  obtain ⟨pool₁, htake, rfl⟩ := exists_of_onPool hscratch
  obtain ⟨pool₃, hpool₃, rfl⟩ := exists_of_onPool hrelease
  refine ⟨h.code, fun used hs => ?_⟩
  obtain ⟨rfl, hs₁, htaken⟩ := hs.of_takeScratch htake
  have hemitted := h.emitted hs₁
  have hnamed : s₂.pool.named ≤ used := by
    rw [hemitted.grows.named, htaken.named]
    exact hs.named_le
  obtain ⟨hpacked, hreleased⟩ := hemitted.packed.of_release hnamed hpool₃
  exact hemitted.release htaken hpacked hreleased hgiven

end Confined

/-- An action that emits such code, wherever it starts. -/
def Confines (given : Register → Prop) (act : EmitM Fragment) : Prop :=
  ∀ s, Ensures act s fun f s' => Confined given s s' f

/-- An action may be said to use more registers than it does. -/
theorem Confines.weaken {act : EmitM Fragment} (h : Confines given act)
    (hgiven : ∀ r, given r → given' r) : Confines given' act :=
  fun s => (h s).mono (fun _ h => h) fun _ _ h => h.weaken hgiven

/-- No code uses no registers. -/
private theorem confines_empty : Confines given (pure ∅) :=
  fun s => .pure (.of_pool_eq (sealed_empty s.nextLabel) rfl (by simp))

/-! ### Transfers -/

/-- Draining a register uses it and the targets. -/
private theorem confines_drain (source : Register) (targets : List Register) :
    Confines (fun r => r = source ∨ r ∈ targets) (drain source targets) := by
  intro s
  unfold drain
  refine yields_fresh_bind ?_
  refine yields_fresh_bind ?_
  refine yields_fresh_bind ?_
  refine .pure (.of_pool_eq (sealed_drain source targets _ _ _ s.nextLabel) rfl fun r hr => ?_)
  rw [registers_drain] at hr
  simpa using hr

/-- Emptying a register uses that one. -/
private theorem confines_clear (r : Register) : Confines (· = r) (clear r) := by
  intro s
  unfold clear
  refine yields_fresh_bind ?_
  refine yields_fresh_bind ?_
  refine yields_fresh_bind ?_
  exact .pure (.of_pool_eq (sealed_clear r _ _ _ s.nextLabel) rfl fun t ht => by simpa using ht)

/-- Moving a register uses it and the target. -/
private theorem confines_move (source target : Register) :
    Confines (fun r => r = source ∨ r = target) (move source target) := by
  intro s
  unfold move
  refine .guard (fun _ => trivial) fun _ => ?_
  exact (confines_drain source [target]).weaken (by simp) s

/-- Copying a register uses it and the target, and a scratch register that is given back. -/
theorem confines_copy (source target : Register) :
    Confines (fun r => r = source ∨ r = target) (copy source target) := by
  intro s
  unfold copy
  refine .guard (fun _ => trivial) fun _ => ?_
  refine .bind Ensures.self fun backup s₁ hscratch => ?_
  refine .bind (confines_drain source [target, backup] s₁) fun out s₂ hout => ?_
  refine .bind (confines_drain backup [source] s₂) fun back s₃ hback => ?_
  refine .bind Ensures.self fun _ s₄ hrelease => ?_
  refine .pure ((hout.append hback).release hscratch hrelease fun t ht => ?_)
  simp only [List.mem_cons, List.not_mem_nil, or_false] at ht
  tauto

/-- The loop that takes away a count, with the labels handed out for it. -/
private theorem confined_deduct (s : State) (count target : Register)
    (top check step rest done : Label.Kind) :
    Confined (fun r => r = count ∨ r = target) s { s with nextLabel := s.nextLabel + 5 }
      (define ⟨top, s.nextLabel⟩ ++ test count ⟨check, s.nextLabel + 1⟩ ⟨done, s.nextLabel + 4⟩
        ++ define ⟨check, s.nextLabel + 1⟩
        ++ test target ⟨step, s.nextLabel + 2⟩ ⟨rest, s.nextLabel + 3⟩
        ++ define ⟨step, s.nextLabel + 2⟩ ++ dec target ++ dec count ++ jump ⟨top, s.nextLabel⟩
        ++ define ⟨rest, s.nextLabel + 3⟩ ++ dec count ++ jump ⟨top, s.nextLabel⟩
        ++ define ⟨done, s.nextLabel + 4⟩) :=
  .of_pool_eq (sealed_deduct count target top check step rest done s.nextLabel) rfl (by simp)

/-- Deducting a register uses it and the target, and a scratch register that is given back. -/
private theorem confines_deduct (target source : Register) :
    Confines (fun r => r = target ∨ r = source) (deduct target source) := by
  intro s
  unfold deduct
  refine .bind Ensures.self fun count s₁ hscratch => ?_
  refine .bind (confines_copy source count s₁) fun load s₂ hload => ?_
  refine yields_fresh_bind ?_
  refine yields_fresh_bind ?_
  refine yields_fresh_bind ?_
  refine yields_fresh_bind ?_
  refine yields_fresh_bind ?_
  refine .bind Ensures.self fun _ s₃ hrelease => ?_
  have hboth := hload.append (confined_deduct s₂ count target .transferLoop .subtractStep
    .transferStep .subtractDrain .transferDone)
  -- the loop is emitted piece by piece, so its code is not grouped apart from the copy
  simp only [← append_assoc] at hboth
  exact .pure (hboth.release hscratch hrelease fun t ht => by tauto)

/-! ### Numbers and values -/

/-- Adding units uses one register. -/
private theorem confined_addUnits (r : Register) (n : Nat) (s : State) :
    Confined (· = r) s s (addUnits r n) :=
  .of_pool_eq (sealed_addUnits r n s.nextLabel) rfl fun _ ht => registers_addUnits ht

/-- Taking units uses one register. -/
private theorem confines_takeUnits (r : Register) (n : Nat) : Confines (· = r) (takeUnits r n) := by
  intro s
  unfold takeUnits
  refine .bind (yields_reserveLabels _) ?_
  rintro _ _ ⟨rfl, rfl⟩
  exact .pure (.of_pool_eq (sealed_guardedDecrements r s.nextLabel n) rfl fun t ht =>
    registers_guardedDecrements ht)

/-- An addition uses the register and the one of the value, if it has one. -/
private theorem confines_increase (r : Register) (value : Value) :
    Confines (fun t => t = r ∨ value = .reg t) (increase r value) := by
  cases value with
  | reg source =>
    refine (confines_copy source r).weaken fun t ht => ?_
    exact ht.symm.imp_right fun h => congrArg Value.reg h.symm
  | lit n => exact fun s => .pure ((confined_addUnits r n s).weaken fun _ => .inl)

/-- A subtraction uses the register and the one of the value, if it has one. -/
private theorem confines_decrease (r : Register) (value : Value) :
    Confines (fun t => t = r ∨ value = .reg t) (decrease r value) := by
  cases value with
  | reg source =>
    refine (confines_deduct r source).weaken fun t ht => ?_
    exact ht.imp_right fun h => congrArg Value.reg h.symm
  | lit n => exact (confines_takeUnits r n).weaken fun _ => .inl

/-- Either operation uses the register and the one of the value, if it has one. -/
private theorem confines_apply (op : BinOp) (r : Register) (value : Value) :
    Confines (fun t => t = r ∨ value = .reg t) (apply op r value) := by
  cases op with
  | add => exact confines_increase r value
  | sub => exact confines_decrease r value

/-! ### Assignments -/

/-- Setting a register uses it and the one of the value, if it has one. -/
private theorem confines_store (r : Register) (value : Value) :
    Confines (fun t => t = r ∨ value = .reg t) (store r value) := by
  intro s
  unfold store
  split
  next => exact confines_empty s
  next =>
    refine .bind (confines_clear r s) fun f s₁ hf => ?_
    refine .bind (confines_increase r value s₁) fun g s₂ hg => ?_
    exact .pure ((hf.append hg).weaken fun t ht => by tauto)

/-- A sum or difference uses the registers of its operands and the one it is built in. -/
private theorem confines_build (r : Register) (op : BinOp) (lhs rhs : Value) :
    Confines (fun t => t = r ∨ lhs = .reg t ∨ rhs = .reg t) (build r op lhs rhs) := by
  intro s
  unfold build
  refine .bind (confines_clear r s) fun f s₁ hf => ?_
  refine .bind (confines_increase r lhs s₁) fun g s₂ hg => ?_
  refine .bind (confines_apply op r rhs s₂) fun h s₃ hh => ?_
  exact .pure (((hf.append hg).append hh).weaken fun t ht => by tauto)

/-- So it does if it is built in a scratch register, which is given back. -/
private theorem confines_buildAside (r : Register) (op : BinOp) (lhs rhs : Value) :
    Confines (fun t => t = r ∨ lhs = .reg t ∨ rhs = .reg t) (buildAside r op lhs rhs) := by
  intro s
  unfold buildAside
  refine .bind Ensures.self fun result s₁ hscratch => ?_
  refine .bind (confines_increase result lhs s₁) fun left s₂ hleft => ?_
  refine .bind (confines_apply op result rhs s₂) fun right s₃ hright => ?_
  refine .bind (confines_clear r s₃) fun empty s₄ hempty => ?_
  refine .bind (confines_move result r s₄) fun commit s₅ hcommit => ?_
  refine .bind Ensures.self fun _ s₆ hrelease => ?_
  have hall := ((hleft.append hright).append hempty).append hcommit
  exact .pure (hall.release hscratch hrelease fun t ht => by tauto)

/-- Storing a sum or difference uses the registers of its operands and the one it is stored in. -/
private theorem confines_storeBinary (ctx : Context) (r : Register) (op : BinOp) (lhs rhs : Value)
    (line : UInt64) :
    Confines (fun t => t = r ∨ lhs = .reg t ∨ rhs = .reg t)
      (storeBinary ctx r op lhs rhs line) := by
  have hnumber : ∀ n, Confines (fun t => t = r ∨ lhs = .reg t ∨ rhs = .reg t)
      (do ctx.ensureRoom n line; store r (.lit n)) := by
    intro n s
    refine .bind Ensures.self fun _ s₁ hroom => ?_
    obtain ⟨rfl, -⟩ := eq_of_ensureRoom hroom
    exact (confines_store r (.lit n)).weaken (by simp) s₁
  unfold storeBinary
  split
  next => exact hnumber _
  next => exact hnumber _
  next =>
    split
    next => exact (confines_increase r rhs).weaken fun t ht => by tauto
    next =>
      split
      next => exact (confines_increase r lhs).weaken fun t ht => by tauto
      next =>
        split
        next => exact confines_buildAside r .add lhs rhs
        next => exact confines_build r .add lhs rhs
  next =>
    split
    next => exact (confines_decrease r rhs).weaken fun t ht => by tauto
    next =>
      split
      next => exact confines_buildAside r .sub lhs rhs
      next => exact confines_build r .sub lhs rhs

/-- A register that belongs to a declared variable. -/
def Context.Declares (ctx : Context) (r : Register) : Prop :=
  ∃ x ∈ ctx.symbols.symbols, r = x.register

/-- The register of an operand is that of a variable. -/
private theorem ensures_value (ctx : Context) (operand : Operand) (line : UInt64) (s : State) :
    Ensures (ctx.value operand line) s fun value s' =>
      s' = s ∧ ∀ r, value = .reg r → ctx.Declares r := by
  unfold Context.value
  cases operand with
  | var name =>
    refine .bind (yields_resolve ctx name line).ensures ?_
    rintro r _ ⟨rfl, x, hx, -, hr⟩
    refine .pure ⟨rfl, ?_⟩
    rintro _ ⟨⟩
    exact ⟨x, hx, hr⟩
  | lit n =>
    refine .bind Ensures.self fun _ s₁ hroom => ?_
    exact .pure ⟨(eq_of_ensureRoom hroom).1, by simp⟩

/-- Assignments use the registers of variables. -/
private theorem confines_assign (ctx : Context) (target : String) (value : Expr) (line : UInt64) :
    Confines ctx.Declares (assign ctx target value line) := by
  intro s
  unfold assign
  refine .guard (fun _ => trivial) fun _ => ?_
  refine .bind (yields_resolve ctx target line).ensures ?_
  rintro r s ⟨rfl, x, hx, -, rfl⟩
  have htarget : ctx.Declares x.register := ⟨x, hx, rfl⟩
  cases value with
  | operand operand =>
    refine .bind (ensures_value ctx operand line s) ?_
    rintro value s ⟨rfl, hvalue⟩
    refine (confines_store x.register value).weaken (fun t ht => ?_) s
    exact ht.elim (fun h => h ▸ htarget) (hvalue t)
  | binary op lhs rhs =>
    refine .bind (ensures_value ctx lhs line s) ?_
    rintro lhs s ⟨rfl, hlhs⟩
    refine .bind (ensures_value ctx rhs line s) ?_
    rintro rhs s ⟨rfl, hrhs⟩
    refine (confines_storeBinary ctx x.register op lhs rhs line).weaken (fun t ht => ?_) s
    exact ht.elim (fun h => h ▸ htarget) (Or.elim · (hlhs t) (hrhs t))

/-! ### Statements -/

/-- Counting the code of a statement touches neither labels nor registers. -/
private theorem confines_statement {act : EmitM Fragment} (h : Confines given act) (line : UInt64) :
    Confines given (ctx.statement line act) := by
  refine fun s => .intro fun f s' hf => ?_
  obtain ⟨s₁, hact, rfl⟩ := exists_of_statement hf
  obtain ⟨hcode, hemitted⟩ := (h s).of_ok hact
  refine ⟨hcode, fun used hs => ?_⟩
  have hrest := hemitted hs
  exact ⟨hrest.packed, hrest.grows, hrest.code, hrest.registers⟩

/-- The code of a conditional uses the register it tests and those of its blocks. -/
private theorem confined_branch {zeroTest : ZeroTest} {yes no : Fragment} (hr : given r)
    (hyes : Confined given { s with nextLabel := s.nextLabel + 3 } s₁ yes)
    (hno : Confined given s₁ s₂ no) :
    Confined given s s₂
      (zeroTest.code r ⟨.thenBlock, s.nextLabel⟩ ⟨.elseBlock, s.nextLabel + 1⟩
        ++ define ⟨.thenBlock, s.nextLabel⟩ ++ yes ++ jump ⟨.endIf, s.nextLabel + 2⟩
        ++ define ⟨.elseBlock, s.nextLabel + 1⟩ ++ no ++ define ⟨.endIf, s.nextLabel + 2⟩) := by
  refine (hyes.join hno).surround (sealed_branch zeroTest r hyes.code hno.code) fun t ht => ?_
  obtain ⟨l, l', htest, -⟩ := zeroTest.exists_code_eq r ⟨.thenBlock, s.nextLabel⟩
    ⟨.elseBlock, s.nextLabel + 1⟩
  simp only [registers_append, htest, registers_test, registers_define, registers_jump,
    List.append_nil, List.mem_append, List.mem_singleton, or_assoc] at ht ⊢
  rcases ht with rfl | ht
  · exact .inl hr
  · exact .inr ht

/-- Conditionals use the registers of variables, and what their blocks give back. -/
private theorem confines_branch {yes no : EmitM Fragment} (c : Condition) (line : UInt64)
    (hyes : Confines ctx.Declares yes) (hno : Confines ctx.Declares no) :
    Confines ctx.Declares (branch ctx c yes no line) := by
  intro s
  unfold branch
  cases ZeroTest.ofCondition c with
  | error construct => trivial
  | ok zeroTest =>
    dsimp only
    rw [pure_bind]
    refine .bind (yields_resolve ctx zeroTest.name line).ensures ?_
    rintro _ s ⟨rfl, x, hx, -, rfl⟩
    refine yields_fresh_bind ?_
    refine yields_fresh_bind ?_
    refine yields_fresh_bind ?_
    refine .bind (hyes _) fun yes s₁ hyes => ?_
    refine .bind (hno _) fun no s₂ hno => ?_
    exact .pure (confined_branch ⟨x, hx, rfl⟩ hyes hno)

/-- Starting a loop variable uses its register. -/
theorem confines_restart {v : Option Symbol} (hv : ∀ x ∈ v, given x.register) :
    Confines given (restart v) := by
  cases v with
  | none => exact confines_empty
  | some x =>
    refine (confines_clear x.register).weaken ?_
    rintro _ rfl
    exact hv x rfl

/-- The code of a loop uses its counter, its variable and what the body uses. -/
private theorem confined_rounds {counter : Register} {v : Option Symbol} {start body : Fragment}
    (hcounter : given counter) (hv : ∀ x ∈ v, given x.register)
    (hstart : Confined given { s with nextLabel := s.nextLabel + 5 } s₁ start)
    (hbody : Confined given s₁ s₂ body) :
    Confined given s s₂
      (test counter ⟨.loopEntry, s.nextLabel⟩ ⟨.loopExit, s.nextLabel + 4⟩
        ++ define ⟨.loopEntry, s.nextLabel⟩ ++ start ++ jump ⟨.loopBody, s.nextLabel + 3⟩
        ++ define ⟨.loopHeader, s.nextLabel + 1⟩
        ++ test counter ⟨.loopStep, s.nextLabel + 2⟩ ⟨.loopExit, s.nextLabel + 4⟩
        ++ define ⟨.loopStep, s.nextLabel + 2⟩ ++ advance v
        ++ define ⟨.loopBody, s.nextLabel + 3⟩ ++ body ++ dec counter
        ++ jump ⟨.loopHeader, s.nextLabel + 1⟩ ++ define ⟨.loopExit, s.nextLabel + 4⟩) := by
  have hadvance : ∀ r ∈ (advance v).registers, given r := by
    cases v with
    | none => simp [advance]
    | some x => simpa [advance] using hv
  refine (hstart.join hbody).surround (sealed_rounds counter v hstart.code hbody.code)
    fun t ht => ?_
  simp only [registers_append, registers_test, registers_define, registers_jump, registers_dec,
    List.append_nil, List.mem_append, List.mem_singleton] at ht ⊢
  rcases ht with ((((rfl | ht) | rfl) | ht) | ht) | rfl
  · exact .inl hcounter
  · exact .inr (.inl ht)
  · exact .inl hcounter
  · exact .inl (hadvance t ht)
  · exact .inr (.inr ht)
  · exact .inl hcounter

/-- The rounds of a loop use its counter, its variable and what the body uses. -/
private theorem confines_rounds {counter : Register} {v : Option Symbol} {body : EmitM Fragment}
    (hcounter : given counter) (hv : ∀ x ∈ v, given x.register) (hbody : Confines given body) :
    Confines given (rounds counter (v.map (·.register)) body) := by
  intro s
  rw [rounds_eq]
  refine yields_fresh_bind ?_
  refine yields_fresh_bind ?_
  refine yields_fresh_bind ?_
  refine yields_fresh_bind ?_
  refine yields_fresh_bind ?_
  refine .bind (confines_restart hv _) fun start s₁ hstart => ?_
  refine .bind (hbody s₁) fun body s₂ hbody => ?_
  exact .pure (confined_rounds hcounter hv hstart hbody)

/-- Loops use the registers of variables, and their counters, which are given back. -/
private theorem confines_loop {body : EmitM Fragment} (name : String) (bound : Operand)
    (line : UInt64) (hbody : Confines ctx.Declares body) :
    Confines ctx.Declares (loop ctx name bound body line) := by
  intro s
  unfold loop
  cases bound with
  | lit n => trivial
  | var source =>
    refine .bind (yields_resolve ctx source line).ensures ?_
    rintro _ s ⟨rfl, x, hx, -, rfl⟩
    refine .guard (fun _ => trivial) fun _ => ?_
    refine .bind Ensures.self fun counter s₁ hscratch => ?_
    refine .bind (confines_copy x.register counter s₁) fun load s₂ hload => ?_
    have hrounds : Confines (fun r => ctx.Declares r ∨ r = counter)
        (rounds counter ((ctx.symbols.find? name).map (·.register)) body) :=
      confines_rounds (.inr rfl) (fun y hy => .inl ⟨y, SymbolTable.mem_of_find? hy, rfl⟩)
        (hbody.weaken fun _ => .inl)
    refine .bind (hrounds s₂) fun rounds s₃ hrounds => ?_
    refine .bind Ensures.self fun _ s₄ hrelease => ?_
    refine .pure ((hload.append hrounds).release hscratch hrelease ?_)
    rintro t ((rfl | rfl) | ht)
    · exact .inl ⟨x, hx, rfl⟩
    · exact .inr rfl
    · exact ht

mutual

/-- Statements use the registers of variables, and scratch registers that are given back. -/
theorem confines_stmt : ∀ (ctx : Context) (st : Stmt), Confines ctx.Declares (stmt ctx st)
  | ctx, .assign target value line => by
    rw [stmt]
    exact confines_statement (confines_assign ctx target value line) line
  | ctx, .branch condition yes no line => by
    rw [stmt]
    exact confines_statement
      (confines_branch condition line (confines_block ctx yes) (confines_block ctx no)) line
  | ctx, .loop name bound body line => by
    rw [stmt]
    have hbody : Confines ctx.Declares (block { ctx with loops := name :: ctx.loops } body) :=
      confines_block { ctx with loops := name :: ctx.loops } body
    exact confines_statement (confines_loop name bound line hbody) line

/-- The code of a block keeps to its own labels, to the registers of the declared variables and to
scratch registers that are free. -/
theorem confines_block : ∀ (ctx : Context) (b : List Stmt), Confines ctx.Declares (block ctx b)
  | ctx, [] => by
    rw [block]
    exact confines_empty
  | ctx, st :: rest => by
    intro s
    rw [block]
    refine .bind (confines_stmt ctx st s) fun first s₁ hfirst => ?_
    refine .bind (confines_block ctx rest s₁) fun rest s₂ hrest => ?_
    exact .pure (hfirst.join hrest)

end

/-- **Fresh labels.** Whatever statements are given code, and from whatever state, the code defines
each of the labels handed out meanwhile once and no others. Its labels stand within it or at its
end, every jump and every test has one hole of its kind and nothing else has a hole, the holes name
labels that the code defines, and nothing halts. All this is kept by the optimizer in any fragment
that has it, with the same labels in the same order. -/
theorem block_sealed :
    (∀ (ctx : Context) (b : List Stmt) (s s' : State) (f : Fragment),
      block ctx b s = .ok f s' → f.Sealed s.nextLabel s'.nextLabel) ∧
    ∀ (f : Fragment) (first last : Nat), f.Sealed first last →
      ∃ g, f.optimize 1 = some g ∧ g.Sealed first last ∧ g.defined = f.defined := by
  refine ⟨fun ctx b s s' f h => ?_, fun f first last h => h.optimize 1⟩
  exact ((confines_block ctx b s).of_ok h).code

/-- A loop that counts down its own bound, with nothing to do in the first round. -/
def pickyLoop : List Stmt :=
  [.loop "t" (.var "b") [.branch ⟨.var "t", .ne, .lit 0⟩
    [.assign "b" (.binary .sub (.var "b") (.lit 1)) 3] [] 2] 1]

/-- Its code takes nineteen labels. -/
private theorem yields_pickyLoop :
    Yields (fun _ => False) (block pairContext pickyLoop) { pairState with nextLabel := 7 }
      fun _ s' => s'.nextLabel = 26 := by
  decide +kernel

theorem block_sealed_pickyLoop :
    ∃ f s' g, block pairContext pickyLoop { pairState with nextLabel := 7 } = .ok f s' ∧
      f.Sealed 7 26 ∧ f.optimize 1 = some g ∧ g.Sealed 7 26 ∧ g.defined = f.defined := by
  obtain ⟨f, s', hblock, hlabels⟩ := yields_pickyLoop.exists_ok
  have hsealed : f.Sealed 7 26 := hlabels ▸ block_sealed.1 _ _ _ _ _ hblock
  obtain ⟨g, hg, hkept⟩ := block_sealed.2 f 7 26 hsealed
  exact ⟨f, s', g, hblock, hsealed, hg, hkept⟩

end Emit

end Abacus
