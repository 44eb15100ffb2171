import Abacus.Proofs.Blame
import Abacus.Proofs.Confinement
import Abacus.Proofs.Framing

/-!
# Code inside loops

While the code of a loop's body is emitted, the loop's counter is in use and its variable must not
be assigned. Both end with the loop, so a block leaves the scratch registers in use and the open
loops as they were, and its code has nothing to do with the counters of the loops around it
(`Emit.block_isolated`).

The variables of the open loops are part of the context here, which no action can change. That it
makes no difference to keep them in the state, where a loop adds its variable and takes it off
again, is `Emit.blockNested_eq`.
-/

namespace Abacus.Emit

open Machine Code Fragment
open Source hiding Program

/-! ### Open loops in the state -/

/-- The state of emission together with the variables of the open loops, the innermost first. -/
structure Nesting where
  state : State
  loops : List String

/-- Actions that may open and close loops. -/
abbrev NestM := EStateM Diagnostic Nesting

section Nesting

variable {α β : Type} {ctx : Context}

/-- Emit code in the loops that are open. -/
def Context.inside (ctx : Context) (act : Context → EmitM α) : NestM α := fun nesting =>
  match act { ctx with loops := nesting.loops } nesting.state with
  | .ok a s => .ok a { nesting with state := s }
  | .error d s => .error d { nesting with state := s }

/-- Open a loop for an action. It is closed again afterwards, also if the action fails. -/
def opening (name : String) (act : NestM α) : NestM α := fun nesting =>
  match act { nesting with loops := name :: nesting.loops } with
  | .ok a nesting' => .ok a { nesting' with loops := nesting'.loops.tail }
  | .error d nesting' => .error d { nesting' with loops := nesting'.loops.tail }

/-- Emit the code of a statement and count it. -/
def Context.statementNested (ctx : Context) (line : UInt64) (act : NestM Fragment) :
    NestM Fragment := do
  let before := (← get).state.emitted
  let f ← EStateM.adaptExcept (Diagnostic.locate line) act
  ctx.inside fun ctx => ctx.count line before f

mutual

/-- The code of a statement, with the open loops in the state. -/
def stmtNested (ctx : Context) : Stmt → NestM Fragment
  | .assign target value line =>
    ctx.statementNested line (ctx.inside fun ctx => assign ctx target value line)
  | .branch condition yes no line =>
    ctx.statementNested line do
      let assemble ← ctx.inside fun ctx => branchHead ctx condition line
      let yes ← blockNested ctx yes
      let no ← blockNested ctx no
      return assemble yes no
  | .loop name bound body line =>
    ctx.statementNested line do
      let head ← ctx.inside fun ctx => loopHead ctx name bound line
      let body ← opening name (blockNested ctx body)
      ctx.inside fun _ => release head.1
      return head.2 body

/-- The code of statements in a row, with the open loops in the state. -/
def blockNested (ctx : Context) : List Stmt → NestM Fragment
  | [] => return ∅
  | st :: rest => do
    let first ← stmtNested ctx st
    let rest ← blockNested ctx rest
    return first ++ rest

end

private theorem inside_pure (ctx : Context) (a : α) : (ctx.inside fun _ => pure a) = pure a := rfl

/-- Actions inside loops follow each other inside them. -/
private theorem inside_bind (act : Context → EmitM α) (next : Context → α → EmitM β) :
    (ctx.inside fun ctx => act ctx >>= next ctx) =
      ctx.inside act >>= fun a => ctx.inside fun ctx => next ctx a := by
  funext nesting
  simp only [Context.inside, Bind.bind, EStateM.bind]
  cases act { ctx with loops := nesting.loops } nesting.state <;> rfl

/-- A loop is opened inside those that are open. -/
private theorem opening_inside (name : String) (act : Context → EmitM α) :
    opening name (ctx.inside act) =
      ctx.inside fun ctx => act { ctx with loops := name :: ctx.loops } := by
  funext nesting
  simp only [opening, Context.inside]
  cases act { ctx with loops := name :: nesting.loops } nesting.state <;> rfl

private theorem adaptExcept_inside (g : Diagnostic → Diagnostic) (act : Context → EmitM α) :
    EStateM.adaptExcept g (ctx.inside act) =
      ctx.inside fun ctx => EStateM.adaptExcept g (act ctx) := by
  funext nesting
  simp only [EStateM.adaptExcept, Context.inside]
  cases act { ctx with loops := nesting.loops } nesting.state <;> rfl

private theorem statementNested_inside (line : UInt64) (act : Context → EmitM Fragment) :
    ctx.statementNested line (ctx.inside act) =
      ctx.inside fun ctx => ctx.statement line (act ctx) := by
  funext nesting
  -- what was emitted before is read off the state at the start
  have hstart : ctx.statementNested line (ctx.inside act) nesting =
      (EStateM.adaptExcept (Diagnostic.locate line) (ctx.inside act) >>= fun f =>
        ctx.inside fun ctx => ctx.count line nesting.state.emitted f) nesting := rfl
  rw [hstart, adaptExcept_inside, ← inside_bind]
  rfl

mutual

/-- The two ways of emitting a statement are the same. -/
private theorem stmtNested_eq : ∀ (ctx : Context) (st : Stmt),
    stmtNested ctx st = ctx.inside fun ctx => stmt ctx st
  | ctx, .assign target value line => by
    simp only [stmtNested, stmt, statementNested_inside]
  | ctx, .branch condition yes no line => by
    simp only [stmtNested, stmt, branch_eq, blockNested_eq ctx yes, blockNested_eq ctx no,
      ← inside_pure ctx, ← inside_bind, statementNested_inside]
  | ctx, .loop name bound body line => by
    simp only [stmtNested, stmt, loop_eq, blockNested_eq ctx body, opening_inside,
      ← inside_pure ctx, ← inside_bind, statementNested_inside]

/-- Emission does the same with the open loops in the state. -/
theorem blockNested_eq : ∀ (ctx : Context) (b : List Stmt),
    blockNested ctx b = ctx.inside fun ctx => block ctx b
  | ctx, [] => by
    simp only [blockNested, block, inside_pure]
  | ctx, st :: rest => by
    simp only [blockNested, block, stmtNested_eq ctx st, blockNested_eq ctx rest,
      ← inside_pure ctx, ← inside_bind]

end

end Nesting

/-! ### Registers in use while code is emitted -/

variable {ctx : Context} {s s' s₁ : State} {b : List Stmt} {f g : Fragment} {t t' : Task}
  {used : Nat} {r counter : Register}

/-- The registers up to `used` are those of variables, the declared ones among them, and the scratch
registers in use. -/
structure Context.Settled (ctx : Context) (s : State) (used : Nat) : Prop where
  packed : s.pool.Packed used
  named : ∀ r, ctx.Declares r → s.pool.isNamed r

/-- States stay settled while only scratch registers are taken and given back. -/
theorem Context.Settled.grows {used' : Nat} (h : ctx.Settled s used)
    (hpacked : s'.pool.Packed used') (hgrows : s.pool.Grows s'.pool) : ctx.Settled s' used' where
  packed := hpacked
  named r hr := by
    have hnamed := h.named r hr
    rwa [RegisterPool.isNamed, ← hgrows.named] at hnamed

/-- A block leaves the registers in use that it finds in use. -/
theorem Context.Settled.block (h : ctx.Settled s used) (hblock : block ctx b s = .ok f s') :
    ctx.Settled s' used ∧ s.pool.Grows s'.pool := by
  have hemitted := ((confines_block ctx b s).of_ok hblock).emitted h.packed
  exact ⟨h.grows hemitted.packed hemitted.grows, hemitted.grows⟩

/-- Code has nothing to do with the scratch registers in use. -/
theorem Context.Settled.spares (h : ctx.Settled s used) (hblock : Emit.block ctx b s = .ok f s')
    (hlt : s.pool.named < r.id) (hle : r.id ≤ used) : f.Spares r := by
  have hconfined := (confines_block ctx b s).of_ok hblock
  refine hconfined.code.wellFormed.spares (Nat.zero_lt_of_lt hlt) fun hmem => ?_
  rcases (hconfined.emitted h.packed).registers r hmem with hdeclared | ⟨hused, -⟩
  · have hnamed := of_decide_eq_true (h.named r hdeclared)
    omega
  · omega

/-- A conditional asks for no registers before its blocks. -/
private theorem ensures_branchHead (ctx : Context) (c : Condition) (line : UInt64) (s : State) :
    Ensures (branchHead ctx c line) s fun _ s' => s'.pool = s.pool := by
  unfold branchHead
  cases ZeroTest.ofCondition c with
  | error construct => trivial
  | ok zeroTest =>
    simp only [Except.mapError, MonadExcept.ofExcept, pure_bind]
    refine .bind (yields_resolve ctx zeroTest.name line).ensures ?_
    rintro r s ⟨rfl, -⟩
    refine yields_fresh_bind ?_
    refine yields_fresh_bind ?_
    refine yields_fresh_bind ?_
    exact .pure rfl

/-- To look at the bound of a loop changes nothing. -/
private theorem ensures_bound (ctx : Context) (line : UInt64) (bound : Operand) (s : State) :
    Ensures (ctx.bound line bound) s fun _ s' => s' = s := by
  cases bound with
  | var name =>
    exact (yields_resolve ctx name line).ensures.mono (fun _ h => h) fun _ _ h => h.1
  | lit n => trivial

/-- A loop takes the next scratch register for its counter before its body. -/
private theorem Context.Settled.ensures_loopHead (h : ctx.Settled s used) (name : String)
    (bound : Operand) (line : UInt64) :
    Ensures (loopHead ctx name bound line) s fun head s' =>
      head.1 = ⟨used + 1⟩ ∧ ctx.Settled s' (used + 1) ∧ s.pool.Grows s'.pool := by
  unfold loopHead
  refine .bind (ensures_bound ctx line bound s) ?_
  rintro source s rfl
  refine .guard (fun _ => trivial) fun _ => ?_
  refine .bind Ensures.self fun counter s₁ hscratch => ?_
  obtain ⟨pool₁, htake, rfl⟩ := exists_of_onPool hscratch
  obtain ⟨rfl, hpacked, htaken⟩ := h.packed.of_takeScratch htake
  refine .bind (confines_copy source ⟨used + 1⟩ _) fun load s₂ hload => ?_
  have hload := hload.emitted hpacked
  refine yields_fresh_bind ?_
  refine yields_fresh_bind ?_
  refine yields_fresh_bind ?_
  refine yields_fresh_bind ?_
  refine yields_fresh_bind ?_
  have hrestart : Confines (fun _ => True) (restart (ctx.symbols.find? name)) :=
    confines_restart fun _ _ => trivial
  refine .bind (hrestart _) fun start s₃ hstart => ?_
  have hstart := hstart.emitted hload.packed
  have hgrows := htaken.trans (hload.grows.trans hstart.grows)
  exact .pure ⟨rfl, h.grows hstart.packed hgrows, hgrows⟩

/-- A statement of a block starts with the registers that the block starts with. -/
private theorem Begun.settled (hbegun : Begun ctx b s t) (h : ctx.Settled s used) :
    t.ctx.Settled t.start used ∧ s.pool.Grows t.start.pool := by
  induction hbegun with
  | first st rest s => exact ⟨h, .refl _⟩
  | @later st rest s s' f t hfirst _ ih =>
    have hemitted := ((confines_stmt ctx st s).of_ok hfirst).emitted h.packed
    obtain ⟨ht, hgrows⟩ := ih (h.grows hemitted.packed hemitted.grows)
    exact ⟨ht, hemitted.grows.trans hgrows⟩

/-- A statement inside another one starts with the registers in use that the other one starts with,
or more. -/
private theorem Task.Contains.settled (hinside : t.Contains t') (h : t.ctx.Settled t.start used) :
    ∃ used', used ≤ used' ∧ t'.ctx.Settled t'.start used' ∧
      t.start.pool.Grows t'.start.pool := by
  cases hinside with
  | yes hhead hbegun =>
    have hpool := (ensures_branchHead _ _ _ _).of_ok hhead
    obtain ⟨ht, hgrows⟩ := hbegun.settled (h.grows (hpool ▸ h.packed) (hpool ▸ .refl _))
    exact ⟨used, Nat.le_refl _, ht, hpool ▸ hgrows⟩
  | no hhead hyes hbegun =>
    have hpool := (ensures_branchHead _ _ _ _).of_ok hhead
    obtain ⟨hyes, hgrows⟩ := (h.grows (hpool ▸ h.packed) (hpool ▸ .refl _)).block hyes
    obtain ⟨ht, hgrows'⟩ := hbegun.settled hyes
    exact ⟨used, Nat.le_refl _, ht, hpool ▸ hgrows.trans hgrows'⟩
  | body hhead hbegun =>
    obtain ⟨-, hbody, hgrows⟩ := (h.ensures_loopHead _ _ _).of_ok hhead
    obtain ⟨ht, hgrows'⟩ := hbegun.settled ⟨hbody.packed, hbody.named⟩
    exact ⟨used + 1, Nat.le_succ used, ht, hgrows.trans hgrows'⟩

/-- So it does at any depth. -/
private theorem Task.settled_of_inside (hinside : Relation.ReflTransGen Task.Contains t t')
    (h : t.ctx.Settled t.start used) :
    ∃ used', used ≤ used' ∧ t'.ctx.Settled t'.start used' ∧
      t.start.pool.Grows t'.start.pool := by
  induction hinside with
  | refl => exact ⟨used, Nat.le_refl _, h, .refl _⟩
  | tail _ hlast ih =>
    obtain ⟨used₁, hle, h₁, hgrows⟩ := ih
    obtain ⟨used₂, hle', h₂, hgrows'⟩ := hlast.settled h₁
    exact ⟨used₂, Nat.le_trans hle hle', h₂, hgrows.trans hgrows'⟩

/-- The emission of a loop, with its counter and the code of its body. -/
inductive Task.IsLoop : Task → Register → Fragment → Prop
  | intro {ctx : Context} {name : String} {bound : Operand} {body : List Stmt} {line : UInt64}
    {s s₁ s₂ : State} {head : Register × (Fragment → Fragment)} {g : Fragment}
    (hhead : loopHead ctx name bound line s = .ok head s₁)
    (hbody : block { ctx with loops := name :: ctx.loops } body s₁ = .ok g s₂) :
    IsLoop ⟨ctx, .loop name bound body line, s⟩ head.1 g

/-- The counter is the next scratch register, and the code of the body has nothing to do with it or
with the scratch registers before it. -/
theorem Task.IsLoop.spares (hloop : t.IsLoop counter g) (h : t.ctx.Settled t.start used) :
    counter = ⟨used + 1⟩ ∧
      ∀ r : Register, t.start.pool.named < r.id → r.id ≤ used + 1 → g.Spares r := by
  cases hloop with
  | @intro ctx name bound body line s s₁ s₂ head g hhead hbody =>
    obtain ⟨hcounter, hsettled, hgrows⟩ := (h.ensures_loopHead name bound line).of_ok hhead
    have hopen : Context.Settled { ctx with loops := name :: ctx.loops } s₁ (used + 1) :=
      ⟨hsettled.packed, hsettled.named⟩
    exact ⟨hcounter, fun r hlt hle => hopen.spares hbody (hgrows.named ▸ hlt) hle⟩

/-- A loop that has code has a counter and code for its body. -/
private theorem Task.exists_isLoop {name : String} {bound : Operand} {body : List Stmt}
    {line : UInt64} (hstmt : t.stmt = .loop name bound body line) (hrun : t.run = .ok f s) :
    ∃ counter g, t.IsLoop counter g := by
  obtain ⟨ctx, _, start⟩ := t
  obtain rfl := hstmt
  rw [Task.run, stmt] at hrun
  obtain ⟨s₁, hloop, -⟩ := exists_of_statement hrun
  rw [loop_eq] at hloop
  obtain ⟨head, s₂, hhead, hloop⟩ := exists_of_run_bind hloop
  obtain ⟨g, s₃, hbody, -⟩ := exists_of_run_bind hloop
  exact ⟨head.1, g, .intro hhead hbody⟩

/-- Where a block has code, so has every statement in it. -/
private theorem Reaches.exists_run_eq (h : Reaches ctx b s t) (hblock : block ctx b s = .ok f s') :
    ∃ g s₁, t.run = .ok g s₁ := by
  cases hrun : t.run with
  | ok g s₁ => exact ⟨g, s₁, rfl⟩
  | error d s₁ => cases (h.block_eq_error hrun).symm.trans hblock

/-- **Isolation.** Let statements be given code while any scratch registers are in use. Afterwards
the same scratch registers are in use and the same loops are open. The code names registers of
declared variables, and beside them scratch registers after all those in use.

If the declared variables have their registers from the pool, the code has nothing to do with the
scratch registers in use. In particular, each loop that is met on the way has a counter, and neither
the code of its body nor that of the body of any loop inside it reads the counter or changes it. -/
theorem block_isolated (hs : s.pool.Packed used) (hblock : block ctx b s = .ok f s') :
    s'.pool.live = s.pool.live ∧
      blockNested ctx b ⟨s, ctx.loops⟩ = .ok f ⟨s', ctx.loops⟩ ∧
      (∀ r ∈ f.registers,
        ctx.Declares r ∨ s.pool.named < r.id ∧ ∀ t ∈ s.pool.live, t.id < r.id) ∧
      ((∀ r, ctx.Declares r → s.pool.isNamed r) →
        (∀ r ∈ s.pool.live, f.Spares r) ∧
        ∀ outer name bound body line, Reaches ctx b s outer →
          outer.stmt = .loop name bound body line →
          ∃ counter g, outer.IsLoop counter g ∧
            ∀ inner counter' g', Relation.ReflTransGen Task.Contains outer inner →
              inner.IsLoop counter' g' → g'.Spares counter) := by
  have hemitted := ((confines_block ctx b s).of_ok hblock).emitted hs
  have hlive : ∀ r ∈ s.pool.live, s.pool.named < r.id ∧ r.id ≤ used := by
    intro r hr
    rw [hs.live, List.mem_reverse] at hr
    exact mem_registersBetween.mp hr
  refine ⟨?_, ?_, fun r hr => ?_, fun hnamed => ⟨fun r hr => ?_, ?_⟩⟩
  · rw [hemitted.packed.live, hemitted.grows.named, hs.live]
  · rw [blockNested_eq, Context.inside, hblock]
  · refine (hemitted.registers r hr).imp_right fun hr => ?_
    exact ⟨Nat.lt_of_le_of_lt hs.named_le hr.1, fun t ht => Nat.lt_of_le_of_lt (hlive t ht).2 hr.1⟩
  · exact Context.Settled.spares ⟨hs, hnamed⟩ hblock (hlive r hr).1 (hlive r hr).2
  · intro outer name bound body line hreaches hstmt
    obtain ⟨g, s₁, hrun⟩ := hreaches.exists_run_eq hblock
    obtain ⟨counter, g, hloop⟩ := Task.exists_isLoop hstmt hrun
    obtain ⟨first, hbegun, hinside⟩ := hreaches
    obtain ⟨used₁, -, houter, -⟩ :=
      Task.settled_of_inside hinside (hbegun.settled ⟨hs, hnamed⟩).1
    refine ⟨counter, g, hloop, fun inner counter' g' hinside' hloop' => ?_⟩
    obtain ⟨used₂, hle, hinner, hgrows⟩ := Task.settled_of_inside hinside' houter
    -- more registers are in use inside, and the counter is still one of them
    obtain ⟨rfl, -⟩ := hloop.spares houter
    refine (hloop'.spares hinner).2 _ ?_ (Nat.succ_le_succ hle)
    rw [hgrows.named]
    exact Nat.lt_succ_of_le houter.packed.named_le

/-- A loop that changes its own bound, which is also that of the loop around it. -/
def innerLoop : Stmt :=
  .loop "u" (.var "b") [.assign "b" (.binary .sub (.var "b") (.var "t")) 3] 2

/-- The loop around it. -/
def outerLoop : Stmt := .loop "t" (.var "b") [innerLoop] 1

private theorem yields_outerLoop :
    Yields (fun _ => False) (block pairContext [outerLoop]) pairState fun _ _ => True := by
  decide +kernel

theorem block_isolated_outerLoop :
    pairState.pool.Packed 3 ∧ ∃ f s', block pairContext [outerLoop] pairState = .ok f s' ∧
      s'.pool.live = [⟨3⟩] ∧ blockNested pairContext [outerLoop] ⟨pairState, []⟩ = .ok f ⟨s', []⟩ ∧
      f.Spares ⟨3⟩ ∧
      ∃ counter g inner counter' g', Task.IsLoop ⟨pairContext, outerLoop, pairState⟩ counter g ∧
        Task.Contains ⟨pairContext, outerLoop, pairState⟩ inner ∧ inner.stmt = innerLoop ∧
        inner.IsLoop counter' g' ∧ g'.Spares counter := by
  have hpacked : pairState.pool.Packed 3 := reachable_pairState.spec.2.2
  have hnamed : ∀ r, pairContext.Declares r → pairState.pool.isNamed r := by
    rintro _ ⟨x, hx, rfl⟩
    rcases List.mem_pair.mp hx with rfl | rfl <;> rfl
  obtain ⟨f, s', hblock, -⟩ := yields_outerLoop.exists_ok
  obtain ⟨hlive, hnested, -, hrest⟩ := block_isolated hpacked hblock
  obtain ⟨hspares, hloops⟩ := hrest hnamed
  have hbegun : Begun pairContext [outerLoop] pairState ⟨pairContext, outerLoop, pairState⟩ :=
    .first outerLoop [] pairState
  obtain ⟨counter, g, hloop, hinside⟩ := hloops _ _ _ _ _ ⟨_, hbegun, .refl⟩ rfl
  have hloop' := hloop
  cases hloop' with
  | intro hhead hbody =>
    have hcontains := Task.Contains.body hhead (Begun.first innerLoop [] _)
    obtain ⟨counter', g', hinner, -⟩ := hloops _ _ _ _ _ ⟨_, hbegun, .single hcontains⟩ rfl
    exact ⟨hpacked, f, s', hblock, hlive, hnested, hspares _ List.mem_cons_self, _, g, _, counter',
      g', hloop, hcontains, rfl, hinner, hinside _ _ _ (.single hcontains) hinner⟩

end Abacus.Emit
