import Abacus.Proofs.Capacity

/-!
# Other names and other lines

A relabelling gives variables other names, different ones to different variables, and puts
declarations and statements on other lines. Emission takes no notice: it hands out the same
registers and labels and emits the same code, and where it fails the diagnostic is the relabelled
one. This is `Relabelling.Carries`; it holds of the code of every block (`Emit.carries_block`), and
of what is done before the blocks of a conditional or the body of a loop (`Emit.branchHead`,
`Emit.loopHead`).
-/

namespace Abacus

open Machine Code Fragment
open Source hiding Program

/-- Other names for variables, and other lines. -/
structure Relabelling where
  name : String → String
  line : UInt64 → UInt64
  injective : Function.Injective name

namespace Relabelling

/-- Other lines, and the same names. -/
def lines (g : UInt64 → UInt64) : Relabelling := ⟨id, g, Function.injective_id⟩

/-- Other names, and the same lines. -/
def names (ρ : String → String) (h : Function.Injective ρ) : Relabelling := ⟨ρ, id, h⟩

section Labels

variable (φ : Relabelling)

/-! ### Relabelled programs -/

/-- The operand with its variable renamed. -/
def operand : Operand → Operand
  | .var name => .var (φ.name name)
  | .lit value => .lit value

/-- The expression with its variables renamed. -/
def expr : Expr → Expr
  | .operand operand => .operand (φ.operand operand)
  | .binary op lhs rhs => .binary op (φ.operand lhs) (φ.operand rhs)

/-- The condition with its variables renamed. -/
def condition (c : Condition) : Condition := ⟨φ.operand c.lhs, c.op, φ.operand c.rhs⟩

mutual

/-- The statement with other labels. -/
def stmt (φ : Relabelling) : Stmt → Stmt
  | .assign target value line => .assign (φ.name target) (φ.expr value) (φ.line line)
  | .branch condition yes no line =>
    .branch (φ.condition condition) (φ.block yes) (φ.block no) (φ.line line)
  | .loop counter bound body line =>
    .loop (φ.name counter) (φ.operand bound) (φ.block body) (φ.line line)

/-- The statements with other labels. -/
def block (φ : Relabelling) : List Stmt → List Stmt
  | [] => []
  | s :: rest => φ.stmt s :: φ.block rest

end

/-- The declaration with other labels. -/
def declaration (d : Declaration) : Declaration := ⟨φ.name d.name, d.value, φ.line d.line⟩

/-- The program with other labels. -/
def program (p : Source.Program) : Source.Program :=
  ⟨p.declarations.map φ.declaration, φ.block p.body⟩

/-! ### Relabelled diagnostics -/

/-- What is wrong with the registers, with variables renamed. -/
def conflict : Conflict → Conflict
  | .lateVariable name => .lateVariable (φ.name name)
  | c => c

/-- What is not supported, with variables renamed. -/
def construct : Construct → Construct
  | .loopVariableAssigned name => .loopVariableAssigned (φ.name name)
  | .loopVariableReused name => .loopVariableReused (φ.name name)
  | .notAgainstZero c => .notAgainstZero (φ.condition c)
  | .constantCondition c => .constantCondition (φ.condition c)
  | .literalBound n => .literalBound n
  | .reported description => .reported description

/-- The diagnostic with other labels. -/
def diagnostic : Diagnostic → Diagnostic
  | .poolExhausted requested pool line => .poolExhausted requested pool (line.map φ.line)
  | .tooLarge limit line => .tooLarge limit (φ.line line)
  | .conflict r c => .conflict r (φ.conflict c)
  | .unsupported c line => .unsupported (φ.construct c) (φ.line line)
  | .unknownVariable name line => .unknownVariable (φ.name name) (φ.line line)
  | .duplicateVariable name line => .duplicateVariable (φ.name name) (φ.line line)
  | .unresolved problem => .unresolved problem
  | .rejected findings => .rejected findings
  | .invalidOptions problem => .invalidOptions problem
  | .invalidSource reason => .invalidSource reason
  | .misplaced => .misplaced

/-- The line of a relabelled diagnostic is the relabelled line. -/
theorem line?_diagnostic (d : Diagnostic) : (φ.diagnostic d).line? = d.line?.map φ.line := by
  cases d <;> rfl

/-- A diagnostic may be relabelled before or after it gets its line. -/
private theorem diagnostic_locate (line : UInt64) (d : Diagnostic) :
    φ.diagnostic (d.locate line) = (φ.diagnostic d).locate (φ.line line) := by
  cases d with
  | poolExhausted requested pool known => cases known <;> rfl
  | _ => rfl

end Labels

/-! ### The same names -/

/-- Operands have no lines. -/
theorem lines_operand (g : UInt64 → UInt64) (operand : Operand) :
    (lines g).operand operand = operand := by
  cases operand <;> rfl

/-- Expressions have no lines. -/
theorem lines_expr (g : UInt64 → UInt64) (e : Expr) : (lines g).expr e = e := by
  cases e with
  | operand operand => rw [expr, lines_operand]
  | binary op lhs rhs => rw [expr, lines_operand, lines_operand]

/-- Conditions have no lines. -/
theorem lines_condition (g : UInt64 → UInt64) (c : Condition) : (lines g).condition c = c := by
  rw [condition, lines_operand, lines_operand]

mutual

/-- To leave all lines is to leave a statement. -/
private theorem lines_id_stmt : ∀ st : Stmt, (lines id).stmt st = st
  | .assign target value line => by
    rw [stmt, lines_expr]
    rfl
  | .branch condition yes no line => by
    rw [stmt, lines_condition, lines_id_block yes, lines_id_block no]
    rfl
  | .loop counter bound body line => by
    rw [stmt, lines_operand, lines_id_block body]
    rfl

/-- To leave all lines is to leave a block. -/
theorem lines_id_block : ∀ b : List Stmt, (lines id).block b = b
  | [] => by rw [block]
  | st :: rest => by rw [block, lines_id_stmt st, lines_id_block rest]

end

/-- What a diagnostic calls unsupported has no line. -/
private theorem lines_construct (g : UInt64 → UInt64) (c : Construct) :
    (lines g).construct c = c := by
  cases c with
  | notAgainstZero c => rw [construct, lines_condition]
  | constantCondition c => rw [construct, lines_condition]
  | _ => rfl

/-- To leave all lines is to leave a diagnostic. -/
theorem lines_id_diagnostic (d : Diagnostic) : (lines id).diagnostic d = d := by
  cases d with
  | poolExhausted requested pool line => cases line <;> rfl
  | conflict r c => cases c <;> rfl
  | unsupported c line =>
    rw [diagnostic, lines_construct]
    rfl
  | _ => rfl

/-! ### Actions under a relabelling -/

/-- An action fails with the relabelled diagnostics of another one, and is otherwise the same. -/
def Carries {σ α : Type} (φ : Relabelling) (act act' : EStateM Diagnostic σ α) : Prop :=
  act' = EStateM.adaptExcept φ.diagnostic act

variable {φ : Relabelling}

namespace Carries

variable {σ α β : Type} {act act' : EStateM Diagnostic σ α} {s s' : σ} {a : α} {d : Diagnostic}

/-- Where the first action succeeds, the second one does, with the same result. -/
theorem of_ok (h : φ.Carries act act') (hact : act s = .ok a s') : act' s = .ok a s' :=
  (congrFun h s).trans (run_adaptExcept_of_ok hact)

/-- Where the first action fails, the second one does, with the relabelled diagnostic. -/
theorem of_error (h : φ.Carries act act') (hact : act s = .error d s') :
    act' s = .error (φ.diagnostic d) s' :=
  (congrFun h s).trans (run_adaptExcept_of_error hact)

/-- Successes and failures are all there is to carry over. -/
theorem intro (hok : ∀ s a s', act s = .ok a s' → act' s = .ok a s')
    (herror : ∀ s d s', act s = .error d s' → act' s = .error (φ.diagnostic d) s') :
    φ.Carries act act' := by
  funext s
  cases hact : act s with
  | ok a s' => rw [hok s a s' hact, run_adaptExcept_of_ok hact]
  | error d s' => rw [herror s d s' hact, run_adaptExcept_of_error hact]

/-- An action that does nothing is carried over to itself. -/
theorem pure (a : α) : φ.Carries (Pure.pure a : EStateM Diagnostic σ α) (Pure.pure a) := rfl

/-- Actions in a row are carried over one by one. -/
theorem bind {next next' : α → EStateM Diagnostic σ β} (h : φ.Carries act act')
    (h' : ∀ a, φ.Carries (next a) (next' a)) : φ.Carries (act >>= next) (act' >>= next') := by
  funext s
  cases hact : act s with
  | ok a s' =>
    rw [run_bind_of_ok (h.of_ok hact), h' a]
    simp only [EStateM.adaptExcept, run_bind_of_ok hact]
  | error d s' =>
    rw [run_bind_of_error (h.of_error hact), run_adaptExcept_of_error (run_bind_of_error hact)]

/-- A check that comes out the same is carried over, if its diagnostics are. -/
theorem guard {γ : Type} {c c' : Prop} [Decidable c] [Decidable c'] {d' : Diagnostic}
    {skipped skipped' : γ → EStateM Diagnostic σ α} (hc : c' ↔ c) (hd : d' = φ.diagnostic d)
    (h : φ.Carries act act') :
    φ.Carries (if c then MonadExcept.throw d >>= skipped else act)
      (if c' then MonadExcept.throw d' >>= skipped' else act') := by
  subst hd
  by_cases hguard : c
  · rw [if_pos hguard, if_pos (hc.mpr hguard)]
    rfl
  · rw [if_neg hguard, if_neg fun h => hguard (hc.mp h)]
    exact h

/-- Giving a diagnostic its line is carried over. -/
theorem locate (h : φ.Carries act act') (line : UInt64) :
    φ.Carries (EStateM.adaptExcept (Diagnostic.locate line) act)
      (EStateM.adaptExcept (Diagnostic.locate (φ.line line)) act') := by
  refine .intro (fun s a s' hrun => ?_) fun s d s' hrun => ?_
  · exact run_adaptExcept_of_ok (h.of_ok (run_of_adaptExcept hrun))
  · obtain ⟨e, hact, rfl⟩ := error_of_adaptExcept hrun
    rw [diagnostic_locate]
    exact run_adaptExcept_of_error (h.of_error hact)

end Carries

end Relabelling

/-! ### Plain actions -/

/-- Taking a scratch register has nothing to do with labels. -/
private theorem RegisterPool.carries_takeScratch {φ : Relabelling} :
    φ.Carries takeScratch takeScratch := by
  refine .bind rfl fun pool => ?_
  split
  · rfl
  · exact .guard .rfl rfl rfl

/-- Giving a scratch register back has nothing to do with labels. -/
theorem RegisterPool.carries_release {φ : Relabelling} (r : Register) :
    φ.Carries (RegisterPool.release r) (RegisterPool.release r) := by
  refine .bind rfl fun pool => .guard .rfl rfl ?_
  split
  · rfl
  · split
    · rfl
    · split <;> rfl

namespace Emit

variable {φ : Relabelling}

/-- What is carried over for the pool is carried over for the state it is part of. -/
private theorem carries_onPool {α : Type} {act act' : EStateM Diagnostic RegisterPool α}
    (h : φ.Carries act act') : φ.Carries (onPool act) (onPool act') := by
  refine .intro (fun s a s' hact => ?_) fun s d s' hact => ?_
  · obtain ⟨pool, hpool, rfl⟩ := exists_of_onPool hact
    exact onPool_of_ok (h.of_ok hpool)
  · cases hpool : act s.pool with
    | ok a pool => cases (onPool_of_ok hpool).symm.trans hact
    | error d' pool =>
      cases (onPool_of_error hpool).symm.trans hact
      exact onPool_of_error (h.of_error hpool)

/-- Emission takes scratch registers whatever the labels are. -/
private theorem carries_scratch : φ.Carries scratch scratch :=
  carries_onPool RegisterPool.carries_takeScratch

/-- Emission gives scratch registers back whatever the labels are. -/
theorem carries_release (r : Register) : φ.Carries (release r) (release r) :=
  carries_onPool (RegisterPool.carries_release r)

/-- Plain actions know neither names nor lines. -/
private theorem Plain.carries {α : Type} {act : EmitM α} (h : Plain act) : φ.Carries act act := by
  induction h with
  | pure a => exact .pure a
  | @conflict _ r c hc =>
    cases c with
    | lateVariable name => exact absurd rfl (hc name)
    | _ => rfl
  | scratch => exact carries_scratch
  | release r => exact carries_release r
  | reserveLabels count => rfl
  | bind _ _ ih ih' => exact ih.bind ih'

end Emit

/-! ### Variables and room -/

namespace Relabelling

/-- Contexts in which variables have the same registers under their old and new names. -/
structure Views (φ : Relabelling) (ctx ctx' : Emit.Context) : Prop where
  registers : ∀ name, (ctx'.symbols.find? (φ.name name)).map Symbol.register =
    (ctx.symbols.find? name).map Symbol.register
  limit : ctx'.limit = ctx.limit
  loops : ctx'.loops = ctx.loops.map φ.name

namespace Views

variable {φ : Relabelling} {ctx ctx' : Emit.Context}

/-- The loops that count in a variable are the same under its new name. -/
private theorem mem_loops_iff (h : φ.Views ctx ctx') (name : String) :
    φ.name name ∈ ctx'.loops ↔ name ∈ ctx.loops := by
  rw [h.loops, List.mem_map_of_injective φ.injective]

/-- There is as much room in both contexts. -/
private theorem room_eq (h : φ.Views ctx ctx') : ctx'.room = ctx.room := by
  funext n
  rw [Emit.Context.room, Emit.Context.room, h.limit]

/-- The lack of room is reported on the relabelled line. -/
private theorem tooLarge_eq (h : φ.Views ctx ctx') (line : UInt64) :
    ctx'.tooLarge (φ.line line) = φ.diagnostic (ctx.tooLarge line) := by
  rw [Emit.Context.tooLarge, Emit.Context.tooLarge, Emit.Context.sizeBound, h.limit]
  rfl

/-- Inside a loop. -/
theorem enter (h : φ.Views ctx ctx') (name : String) :
    φ.Views { ctx with loops := name :: ctx.loops }
      { ctx' with loops := φ.name name :: ctx'.loops } where
  registers := h.registers
  limit := h.limit
  loops := by rw [h.loops, List.map_cons]

end Views

end Relabelling

namespace Emit

variable {φ : Relabelling} {ctx ctx' : Context}

/-- Variables are found under their new names, or are missing on the relabelled line. -/
private theorem carries_resolve (h : φ.Views ctx ctx') (name : String) (line : UInt64) :
    φ.Carries (ctx.resolve name line) (ctx'.resolve (φ.name name) (φ.line line)) := by
  have hregister := h.registers name
  unfold Context.resolve SymbolTable.resolve
  cases hfind : ctx.symbols.find? name with
  | none =>
    rw [hfind, Option.map_none, Option.map_eq_none_iff] at hregister
    rw [hregister]
    rfl
  | some x =>
    rw [hfind, Option.map_some, Option.map_eq_some_iff] at hregister
    obtain ⟨x', hx', hsame⟩ := hregister
    rw [hx']
    exact congrArg (Pure.pure : Register → EmitM Register) hsame

/-- There is room in one context where there is in the other. -/
private theorem carries_ensureRoom (h : φ.Views ctx ctx') (count : Nat) (line : UInt64) :
    φ.Carries (ctx.ensureRoom count line) (ctx'.ensureRoom count (φ.line line)) := by
  refine .bind rfl fun s => ?_
  rw [h.room_eq, h.tooLarge_eq]
  split <;> rfl

/-- Operands have the same values. -/
private theorem carries_value (h : φ.Views ctx ctx') (operand : Operand) (line : UInt64) :
    φ.Carries (ctx.value operand line) (ctx'.value (φ.operand operand) (φ.line line)) := by
  cases operand with
  | var name => exact (carries_resolve h name line).bind fun _ => .pure _
  | lit n => exact (carries_ensureRoom h _ line).bind fun _ => .pure _

/-- The code of a sum or difference depends on registers and numbers only. -/
private theorem carries_storeBinary (h : φ.Views ctx ctx') (r : Register) (op : BinOp)
    (lhs rhs : Value) (line : UInt64) :
    φ.Carries (storeBinary ctx r op lhs rhs line)
      (storeBinary ctx' r op lhs rhs (φ.line line)) := by
  rcases storeBinary_cases r op lhs rhs with ⟨n, heq⟩ | ⟨act, hact, heq⟩
  · rw [heq, heq]
    exact (carries_ensureRoom h n line).bind fun _ => (plain_store ..).carries
  · rw [heq, heq]
    exact hact.carries

/-- Assignments are carried over. -/
theorem carries_assign (h : φ.Views ctx ctx') (target : String) (value : Expr) (line : UInt64) :
    φ.Carries (assign ctx target value line)
      (assign ctx' (φ.name target) (φ.expr value) (φ.line line)) := by
  refine .guard (h.mem_loops_iff target) rfl ((carries_resolve h target line).bind fun r => ?_)
  cases value with
  | operand operand => exact (carries_value h operand line).bind fun _ => (plain_store ..).carries
  | binary op lhs rhs =>
    exact (carries_value h lhs line).bind fun _ => (carries_value h rhs line).bind fun _ =>
      carries_storeBinary h ..

/-! ### Statements and blocks -/

/-- Counting what was emitted is carried over. -/
private theorem carries_count (h : φ.Views ctx ctx') (line : UInt64) (before : Nat) (f : Fragment) :
    φ.Carries (ctx.count line before f) (ctx'.count (φ.line line) before f) :=
  .bind rfl fun _ => (carries_ensureRoom h f.size line).bind fun _ => .bind rfl fun _ => .pure f

/-- What goes with every statement is carried over if the statement is. -/
private theorem carries_statement (h : φ.Views ctx ctx') (line : UInt64) {act act' : EmitM Fragment}
    (hact : φ.Carries act act') :
    φ.Carries (ctx.statement line act) (ctx'.statement (φ.line line) act') := by
  -- a statement counts from what was emitted before it, so the state is fixed first
  funext s
  exact congrFun ((hact.locate line).bind (carries_count h line s.emitted)) s

/-- The zero test with other names. -/
def ZeroTest.relabel (φ : Relabelling) : ZeroTest → ZeroTest
  | .isZero name => .isZero (φ.name name)
  | .isNonzero name => .isNonzero (φ.name name)

/-- A condition is one that can be tested, under the new names, if it was one before. -/
private theorem ZeroTest.ofCondition_relabel (φ : Relabelling) (c : Condition) :
    ZeroTest.ofCondition (φ.condition c) =
      ((ZeroTest.ofCondition c).map (ZeroTest.relabel φ)).mapError φ.construct := by
  obtain ⟨lhs, op, rhs⟩ := c
  unfold ZeroTest.ofCondition
  extract_lets normal' normal
  have hnormal : normal' = normal.map (Prod.map φ.name id) := by
    dsimp only [normal, normal', Relabelling.condition]
    rcases lhs with x | n <;> rcases rhs with y | m <;> dsimp only [Relabelling.operand]
    · rfl
    · split <;> simp_all
    · split <;> simp_all
    · simp
  -- from here on it only matters what the two sides came to
  clear_value normal normal'
  rw [hnormal]
  rcases normal with _ | ⟨name, op'⟩
  · rfl
  · cases op' <;> rfl

/-- What a conditional does before its blocks. It gives the way to put their code together. -/
def branchHead (ctx : Context) (c : Condition) (line : UInt64) :
    EmitM (Fragment → Fragment → Fragment) := do
  let zeroTest ← MonadExcept.ofExcept
    ((ZeroTest.ofCondition c).mapError (Diagnostic.unsupported · line))
  let r ← ctx.resolve zeroTest.name line
  let thenLabel ← fresh .thenBlock
  let elseLabel ← fresh .elseBlock
  let endLabel ← fresh .endIf
  return fun yes no => zeroTest.code r thenLabel elseLabel ++ define thenLabel ++ yes
    ++ jump endLabel ++ define elseLabel ++ no ++ define endLabel

/-- The code of a conditional in three parts: its own, and that of its blocks. -/
theorem branch_eq (ctx : Context) (c : Condition) (yes no : EmitM Fragment) (line : UInt64) :
    branch ctx c yes no line = (do
      let assemble ← branchHead ctx c line
      let yes ← yes
      let no ← no
      return assemble yes no) := by
  unfold branch branchHead
  cases ZeroTest.ofCondition c with
  | error construct => rfl
  | ok zeroTest =>
    simp only [Except.mapError, MonadExcept.ofExcept, bind_assoc, pure_bind]
    cases zeroTest <;> rfl

/-- The register of a loop's bound. -/
def Context.bound (ctx : Context) (line : UInt64) : Operand → EmitM Register
  | .var name => ctx.resolve name line
  | .lit n => throw (.unsupported (.literalBound n) line)

/-- What a loop does before its body. It gives its counter, and the way to put the code of the body
into that of the loop. -/
def loopHead (ctx : Context) (loopVariable : String) (bound : Operand) (line : UInt64) :
    EmitM (Register × (Fragment → Fragment)) := do
  let bound ← ctx.bound line bound
  if loopVariable ∈ ctx.loops then
    throw (.unsupported (.loopVariableReused loopVariable) line)
  let counter ← scratch
  let load ← copy bound counter
  let entry ← fresh .loopEntry
  let header ← fresh .loopHeader
  let step ← fresh .loopStep
  let bodyLabel ← fresh .loopBody
  let exit ← fresh .loopExit
  let start ← restart (ctx.symbols.find? loopVariable)
  return (counter, fun body => load ++ (test counter entry exit
    ++ define entry ++ start ++ jump bodyLabel
    ++ define header ++ test counter step exit
    ++ define step ++ advance (ctx.symbols.find? loopVariable)
    ++ define bodyLabel ++ body ++ dec counter ++ jump header
    ++ define exit))

/-- The code of a loop in parts: what comes before its body, the body, and what comes after. -/
theorem loop_eq (ctx : Context) (loopVariable : String) (bound : Operand) (body : EmitM Fragment)
    (line : UInt64) :
    loop ctx loopVariable bound body line = (do
      let head ← loopHead ctx loopVariable bound line
      let body ← body
      release head.1
      return head.2 body) := by
  unfold loop loopHead
  simp only [rounds_eq]
  cases bound with
  | lit n => rfl
  | var name =>
    simp only [Context.bound, bind_assoc, pure_bind]
    refine congrArg (ctx.resolve name line >>= ·) (funext fun r => ?_)
    by_cases hloop : loopVariable ∈ ctx.loops
    · rw [if_pos hloop, if_pos hloop]
      rfl
    · rw [if_neg hloop, if_neg hloop]
      simp only [bind_assoc, pure_bind]

/-- What a conditional does before its blocks is carried over. -/
theorem carries_branchHead (h : φ.Views ctx ctx') (c : Condition) (line : UInt64) :
    φ.Carries (branchHead ctx c line) (branchHead ctx' (φ.condition c) (φ.line line)) := by
  unfold branchHead
  rw [ZeroTest.ofCondition_relabel]
  cases ZeroTest.ofCondition c with
  | error construct => rfl
  | ok zeroTest =>
    simp only [Except.map, Except.mapError, MonadExcept.ofExcept, pure_bind]
    cases zeroTest <;>
      exact (carries_resolve h _ line).bind fun _ => (plain_fresh _).carries.bind fun _ =>
        (plain_fresh _).carries.bind fun _ => (plain_fresh _).carries.bind fun _ => .pure _

/-- Conditionals are carried over if their blocks are. -/
private theorem carries_branch (h : φ.Views ctx ctx') (c : Condition)
    {yes yes' no no' : EmitM Fragment}
    (line : UInt64) (hyes : φ.Carries yes yes') (hno : φ.Carries no no') :
    φ.Carries (branch ctx c yes no line)
      (branch ctx' (φ.condition c) yes' no' (φ.line line)) := by
  rw [branch_eq, branch_eq]
  exact (carries_branchHead h c line).bind fun _ => hyes.bind fun _ => hno.bind fun _ => .pure _

/-- The bound of a loop is carried over. -/
private theorem carries_bound (h : φ.Views ctx ctx') (line : UInt64) (bound : Operand) :
    φ.Carries (ctx.bound line bound) (ctx'.bound (φ.line line) (φ.operand bound)) := by
  cases bound with
  | var name => exact carries_resolve h name line
  | lit n => rfl

/-- The code that starts and advances a loop variable depends on its register only. -/
private theorem restart_eq_and_advance_eq {v v' : Option Symbol}
    (h : v'.map Symbol.register = v.map Symbol.register) :
    restart v' = restart v ∧ advance v' = advance v := by
  cases v with
  | none =>
    rw [Option.map_none, Option.map_eq_none_iff] at h
    rw [h]
    exact ⟨rfl, rfl⟩
  | some x =>
    rw [Option.map_some, Option.map_eq_some_iff] at h
    obtain ⟨x', rfl, hsame⟩ := h
    exact ⟨congrArg clear hsame, congrArg inc hsame⟩

/-- What a loop does before its body is carried over. -/
theorem carries_loopHead (h : φ.Views ctx ctx') (name : String) (bound : Operand) (line : UInt64) :
    φ.Carries (loopHead ctx name bound line)
      (loopHead ctx' (φ.name name) (φ.operand bound) (φ.line line)) := by
  obtain ⟨hrestart, hadvance⟩ := restart_eq_and_advance_eq (h.registers name)
  unfold loopHead
  rw [hrestart, hadvance]
  refine (carries_bound h line bound).bind fun _ => .guard (h.mem_loops_iff name) rfl ?_
  refine carries_scratch.bind fun counter => (plain_copy ..).carries.bind fun _ => ?_
  refine (plain_fresh _).carries.bind fun _ => (plain_fresh _).carries.bind fun _ => ?_
  refine (plain_fresh _).carries.bind fun _ => (plain_fresh _).carries.bind fun _ => ?_
  exact (plain_fresh _).carries.bind fun _ => (plain_restart _).carries.bind fun _ => .pure _

/-- Loops are carried over if their bodies are. -/
private theorem carries_loop (h : φ.Views ctx ctx') (name : String) (bound : Operand)
    {body body' : EmitM Fragment} (line : UInt64) (hbody : φ.Carries body body') :
    φ.Carries (loop ctx name bound body line)
      (loop ctx' (φ.name name) (φ.operand bound) body' (φ.line line)) := by
  rw [loop_eq, loop_eq]
  exact (carries_loopHead h name bound line).bind fun head => hbody.bind fun _ =>
    (carries_release head.1).bind fun _ => .pure _

mutual

/-- Statements are carried over, whatever blocks they have. -/
private theorem carries_stmt : ∀ {ctx ctx' : Context}, φ.Views ctx ctx' → ∀ st : Stmt,
    φ.Carries (stmt ctx st) (stmt ctx' (φ.stmt st))
  | ctx, ctx', h, .assign target value line => by
    rw [Relabelling.stmt, stmt, stmt]
    exact carries_statement h line (carries_assign h ..)
  | ctx, ctx', h, .branch condition yes no line => by
    rw [Relabelling.stmt, stmt, stmt]
    exact carries_statement h line
      (carries_branch h condition line (carries_block h yes) (carries_block h no))
  | ctx, ctx', h, .loop counter bound body line => by
    rw [Relabelling.stmt, stmt, stmt]
    exact carries_statement h line
      (carries_loop h counter bound line (carries_block (h.enter counter) body))

/-- The code of a block is the same under other labels. -/
theorem carries_block : ∀ {ctx ctx' : Context}, φ.Views ctx ctx' → ∀ b : List Stmt,
    φ.Carries (block ctx b) (block ctx' (φ.block b))
  | ctx, ctx', h, [] => by
    rw [Relabelling.block, block, block]
    exact .pure _
  | ctx, ctx', h, st :: rest => by
    rw [Relabelling.block, block, block]
    exact (carries_stmt h st).bind fun _ => (carries_block h rest).bind fun _ => .pure _

end

end Emit

end Abacus
