import Abacus.Proofs.Capacity
import Abacus.Proofs.Correctness

/-!
# The registers of a compiled program

The registers that a compilation asks for can be read off the source program:
`Source.Program.requests` lists them, each with the point where it is given back. A compiled program
has one register for each variable, and as many scratch registers as are in use at once somewhere in
this list. No smaller number of registers is enough to compile the program, and any larger one gives
the same result (`compile_registers_minimal`).
-/

namespace Abacus

open Machine Code
open Source hiding Program
open RegisterPool (Request)

/-! ### The requests of a program -/

namespace Emit

/-- Requests that are made while one more scratch register is in use. Requests are listed for a
given number of registers in use. -/
def withScratch (requests : Nat → List Request) (used : Nat) : List Request :=
  .scratch :: (requests (used + 1) ++ [.release ⟨used + 1⟩])

/-- Copying a register takes a scratch register for the backup. -/
def copyRequests : Nat → List Request := withScratch fun _ => []

/-- The requests of adding an operand to a register. -/
def increaseRequests : Operand → Nat → List Request
  | .var _ => copyRequests
  | .lit _ => fun _ => []

/-- The requests of taking an operand from a register: a variable is counted down on a copy. -/
def decreaseRequests : Operand → Nat → List Request
  | .var _ => withScratch copyRequests
  | .lit _ => fun _ => []

/-- The requests of adding an operand to a register or taking it away. -/
def applyRequests : BinOp → Operand → Nat → List Request
  | .add => increaseRequests
  | .sub => decreaseRequests

/-- The requests of adding the first operand to a register, and then adding or taking the second. -/
def buildRequests (op : BinOp) (lhs rhs : Operand) (used : Nat) : List Request :=
  increaseRequests lhs used ++ applyRequests op rhs used

/-- The requests of an assignment. Whether an operand is the target itself decides how its code is
built. -/
def assignRequests (target : String) : Expr → Nat → List Request
  | .operand operand =>
    if operand = .var target then fun _ => [] else increaseRequests operand
  | .binary .add lhs rhs =>
    if lhs = .var target ∧ rhs ≠ .var target then increaseRequests rhs
    else if lhs ≠ .var target ∧ rhs = .var target then increaseRequests lhs
    else if lhs = .var target then withScratch (buildRequests .add lhs rhs)
    else buildRequests .add lhs rhs
  | .binary .sub lhs rhs =>
    if lhs = .var target then decreaseRequests rhs
    else if rhs = .var target then withScratch (buildRequests .sub lhs rhs)
    else buildRequests .sub lhs rhs

mutual

/-- The requests of a statement. -/
def stmtRequests : Stmt → Nat → List Request
  | .assign target value _ => assignRequests target value
  | .branch _ yes no _ => fun used => blockRequests yes used ++ blockRequests no used
  | .loop _ _ body _ => withScratch fun used => copyRequests used ++ blockRequests body used

/-- The requests of statements in a row. -/
def blockRequests : List Stmt → Nat → List Request
  | [] => fun _ => []
  | st :: rest => fun used => stmtRequests st used ++ blockRequests rest used

end

end Emit

/-- All requests of a program, in order: a register for each variable, then what its statements need
beside them. -/
def Source.Program.requests (p : Source.Program) : List Request :=
  p.names.map .named ++ Emit.blockRequests p.body p.declarations.length

/-! ### Emission makes these requests -/

namespace Emit

/-- With `named` registers for variables and `used` in use, an action that succeeds makes some
requests and leaves `used'` registers in use. -/
def Demands {α : Type} (named used used' : Nat) (requests : List Request) (act : EmitM α) : Prop :=
  ∀ ⦃s : State⦄, s.pool.named = named → s.pool.Packed used →
    Ensures act s fun _ s' =>
      s'.pool.named = named ∧ s'.pool.Packed used' ∧ s'.pool = s.pool.afterAll requests

namespace Demands

variable {α β : Type} {named used used' used'' : Nat} {requests requests' : List Request}
  {act : EmitM α}

/-- To do nothing demands nothing. -/
theorem pure (a : α) : Demands named used used [] (Pure.pure a) :=
  fun _ hnamed hs => ⟨hnamed, hs, rfl⟩

/-- Actions in a row make the requests of both. -/
theorem bind {next : α → EmitM β} (h : Demands named used used' requests act)
    (h' : ∀ a, Demands named used' used'' requests' (next a)) :
    Demands named used used'' (requests ++ requests') (act >>= next) := by
  intro s hnamed hs
  refine (h hnamed hs).bind fun a s' ⟨hnamed', hs', hpool⟩ => ?_
  refine (h' a hnamed' hs').mono (fun _ h => h) fun b s'' ⟨hnamed'', hs'', hpool'⟩ => ?_
  exact ⟨hnamed'', hs'', by rw [hpool', hpool, RegisterPool.afterAll_append]⟩

/-- An action that leaves the registers alone, before others. -/
theorem skip {next : α → EmitM β} (h : Demands named used used [] act)
    (h' : ∀ a, Demands named used used' requests (next a)) :
    Demands named used used' requests (act >>= next) :=
  h.bind h'

/-- What is done with the result demands nothing. -/
theorem map (h : Demands named used used' requests act) (f : α → β) :
    Demands named used used' requests (act >>= fun a => Pure.pure (f a)) :=
  List.append_nil requests ▸ h.bind fun a => .pure (f a)

/-- An action behind a check demands the same. -/
theorem guard {γ : Type} {c : Prop} [Decidable c] {d : Diagnostic} {skipped : γ → EmitM α}
    (h : Demands named used used' requests act) :
    Demands named used used' requests (if c then MonadExcept.throw d >>= skipped else act) := by
  split
  · exact fun _ _ _ => trivial
  · exact h

/-- One request to the pool, before others. -/
private theorem request (used' : Nat) {next : α → EmitM β} {q : Request}
    {act : EStateM Diagnostic RegisterPool α}
    (hq : ∀ pool, pool.after q = RegisterPool.leaves act pool)
    (h : ∀ pool a pool', pool.named = named → pool.Packed used → act pool = .ok a pool' →
      pool'.named = named ∧ pool'.Packed used' ∧ Demands named used' used'' requests (next a)) :
    Demands named used used'' (q :: requests) (onPool act >>= next) := by
  intro s hnamed hs
  have hact : Ensures (onPool act) s fun a s' => s'.pool.named = named ∧
      s'.pool.Packed used' ∧ s'.pool = s.pool.after q ∧
      Demands named used' used'' requests (next a) := by
    refine .intro fun a s' hrun => ?_
    obtain ⟨pool, hpool, rfl⟩ := exists_of_onPool hrun
    obtain ⟨hnamed', hs', hnext⟩ := h s.pool a pool hnamed hs hpool
    exact ⟨hnamed', hs', ((hq s.pool).trans (RegisterPool.leaves_of_ok hpool)).symm, hnext⟩
  refine hact.bind fun a s' ⟨hnamed', hs', hpool, hnext⟩ => ?_
  refine (hnext hnamed' hs').mono (fun _ h => h) fun b s'' ⟨hnamed'', hs'', hpool'⟩ => ?_
  exact ⟨hnamed'', hs'', by rw [hpool', hpool]; rfl⟩

/-- A scratch register is requested and is the next one, before others. -/
theorem scratch {next : Register → EmitM β}
    (h : Demands named (used + 1) used' requests (next ⟨used + 1⟩)) :
    Demands named used used' (.scratch :: requests) (Emit.scratch >>= next) := by
  refine request (used + 1) (fun _ => rfl) fun pool r pool' hnamed hs htake => ?_
  obtain ⟨rfl, hs', hgrows⟩ := hs.of_takeScratch htake
  exact ⟨hgrows.named.trans hnamed, hs', h⟩

/-- The last scratch register is given back, before other requests. -/
theorem release {next : Unit → EmitM β} (hle : named ≤ used)
    (h : Demands named used used' requests (next ())) :
    Demands named (used + 1) used' (.release ⟨used + 1⟩ :: requests)
      (Emit.release ⟨used + 1⟩ >>= next) := by
  refine request used (fun _ => rfl) fun pool r pool' hnamed hs hrelease => ?_
  obtain ⟨hs', hgrows⟩ := hs.of_release (hnamed ▸ hle) hrelease
  exact ⟨hgrows.named.trans hnamed, hs', h⟩

/-- Looking something up, before requests. -/
theorem consult {next : α → EmitM β} {post : α → Prop}
    (h : ∀ s, Ensures act s fun a s' => s' = s ∧ post a)
    (h' : ∀ a, post a → Demands named used used' requests (next a)) :
    Demands named used used' requests (act >>= next) := by
  intro s hnamed hs
  refine (h s).bind fun a s' ⟨hsame, hpost⟩ => ?_
  subst hsame
  exact h' a hpost hnamed hs

/-- Actions that leave the pool alone. -/
theorem of_pool_eq (h : ∀ s, Ensures act s fun _ s' => s'.pool = s.pool) :
    Demands named used used [] act := by
  intro s hnamed hs
  refine (h s).mono (fun _ h => h) fun a s' hpool => ?_
  rw [hpool]
  exact ⟨hnamed, hs, rfl⟩

end Demands

section Transfers

variable {named used : Nat}

/-- A label is no register. -/
private theorem demands_fresh (kind : Label.Kind) : Demands named used used [] (fresh kind) :=
  .of_pool_eq fun _ => rfl

/-- Emptying a register takes no others. -/
private theorem demands_clear (r : Register) : Demands named used used [] (clear r) :=
  .of_pool_eq fun _ => rfl

/-- Draining a register takes no others. -/
private theorem demands_drain (source : Register) (targets : List Register) :
    Demands named used used [] (drain source targets) :=
  .of_pool_eq fun _ => rfl

/-- Copying a register takes one for the backup. -/
private theorem demands_copy (hle : named ≤ used) (source target : Register) :
    Demands named used used (copyRequests used) (copy source target) := by
  refine .guard (.scratch ?_)
  refine (demands_drain _ _).skip fun out => (demands_drain _ _).skip fun back => ?_
  exact .release hle (.pure (out ++ back))

/-- Deducting a register takes one for a copy of it, and what copying takes. -/
private theorem demands_deduct (hle : named ≤ used) (target source : Register) :
    Demands named used used (withScratch copyRequests used) (deduct target source) := by
  refine .scratch ((demands_copy (Nat.le_succ_of_le hle) _ _).bind fun _ => ?_)
  refine (demands_fresh _).skip fun _ => (demands_fresh _).skip fun _ => ?_
  refine (demands_fresh _).skip fun _ => (demands_fresh _).skip fun _ => ?_
  exact (demands_fresh _).skip fun _ => .release hle (.pure _)

end Transfers

/-! ### The requests of assignments -/

section Assignments

variable {named used : Nat} {table : SymbolTable} {operand lhs rhs : Operand}
  {value lhsValue rhsValue : Value} {x : Symbol}

/-- The value of an operand is the register of a variable only if the operand is this variable. -/
private theorem Denotes.eq_reg_iff (h : Denotes table operand value) (ht : table.Orderly)
    (hx : x ∈ table.symbols) : value = .reg x.register ↔ operand = .var x.name := by
  cases operand <;> cases value <;> try exact h.elim
  · obtain ⟨y, hy, rfl, rfl⟩ := h
    rw [Value.reg.injEq, Operand.var.injEq]
    constructor
    · intro hregister
      by_contra hne
      exact ht.register_ne hy hx hne hregister
    · exact fun hname => congrArg Symbol.register (List.inj_on_of_nodup_map ht.names hy hx hname)
  · simp

/-- Adding a variable is copying it. -/
private theorem demands_increase (h : Denotes table operand value) (hle : named ≤ used)
    (r : Register) :
    Demands named used used (increaseRequests operand used) (increase r value) := by
  cases operand <;> cases value <;> try exact h.elim
  · exact demands_copy hle _ r
  · exact .pure _

/-- Taking a variable away is deducting it. -/
private theorem demands_decrease (h : Denotes table operand value) (hle : named ≤ used)
    (r : Register) :
    Demands named used used (decreaseRequests operand used) (decrease r value) := by
  cases operand <;> cases value <;> try exact h.elim
  · exact demands_deduct hle r _
  · exact .of_pool_eq fun _ => rfl

/-- Setting a variable takes nothing if it is set to itself, and otherwise what adding the operand
takes. -/
private theorem demands_store (h : Denotes table operand value) (hle : named ≤ used)
    (ht : table.Orderly) (hx : x ∈ table.symbols) :
    Demands named used used (assignRequests x.name (.operand operand) used)
      (store x.register value) := by
  rw [store, assignRequests]
  by_cases hself : value = .reg x.register
  · rw [if_pos hself, if_pos ((h.eq_reg_iff ht hx).mp hself)]
    exact .pure ∅
  · rw [if_neg hself, if_neg fun hvar => hself ((h.eq_reg_iff ht hx).mpr hvar)]
    exact (demands_clear _).skip fun _ => (demands_increase h hle _).map _

/-- Adding one operand to a register and applying the operation with the other one. -/
private theorem demands_increase_apply {β : Type} {op : BinOp} (hlhs : Denotes table lhs lhsValue)
    (hrhs : Denotes table rhs rhsValue) (hle : named ≤ used) (r : Register)
    {next : Fragment → Fragment → EmitM β} {used' : Nat} {requests : List Request}
    (h : ∀ left right, Demands named used used' requests (next left right)) :
    Demands named used used' (buildRequests op lhs rhs used ++ requests) (do
      let left ← increase r lhsValue
      let right ← apply op r rhsValue
      next left right) := by
  rw [buildRequests, List.append_assoc]
  refine (demands_increase hlhs hle r).bind fun left => ?_
  cases op with
  | add => exact (demands_increase hrhs hle r).bind fun right => h left right
  | sub => exact (demands_decrease hrhs hle r).bind fun right => h left right

/-- A sum or difference takes what its operands take. -/
private theorem demands_build {op : BinOp} (hlhs : Denotes table lhs lhsValue)
    (hrhs : Denotes table rhs rhsValue) (hle : named ≤ used) (r : Register) :
    Demands named used used (buildRequests op lhs rhs used) (build r op lhsValue rhsValue) := by
  rw [← List.append_nil (buildRequests ..)]
  exact (demands_clear r).skip fun _ => demands_increase_apply hlhs hrhs hle r fun _ _ => .pure _

/-- If it is built aside, it takes a register for that, and meanwhile what its operands take. -/
private theorem demands_buildAside {op : BinOp} (hlhs : Denotes table lhs lhsValue)
    (hrhs : Denotes table rhs rhsValue) (hle : named ≤ used) (r : Register) :
    Demands named used used (withScratch (buildRequests op lhs rhs) used)
      (buildAside r op lhsValue rhsValue) := by
  refine .scratch (demands_increase_apply hlhs hrhs (Nat.le_succ_of_le hle) _ fun left right => ?_)
  refine (demands_clear r).skip fun _ => .skip (.guard (demands_drain _ _)) fun _ => ?_
  exact .release hle (.pure _)

/-- To check for room demands nothing. -/
private theorem demands_ensureRoom (ctx : Context) (count : Nat) (line : UInt64) :
    Demands named used used [] (ctx.ensureRoom count line) := by
  refine .of_pool_eq fun s => .intro fun a s' h => ?_
  rw [(eq_of_ensureRoom h).1]

/-- A number takes no register. -/
private theorem demands_store_lit (r : Register) (n : Nat) :
    Demands named used used [] (store r (.lit n)) :=
  .of_pool_eq fun _ => rfl

/-- Whether an operand of a sum or difference is the target decides what it takes. -/
private theorem demands_storeBinary (ctx : Context) (op : BinOp) (hlhs : Denotes table lhs lhsValue)
    (hrhs : Denotes table rhs rhsValue) (hle : named ≤ used) (ht : table.Orderly)
    (hx : x ∈ table.symbols) (line : UInt64) :
    Demands named used used (assignRequests x.name (.binary op lhs rhs) used)
      (storeBinary ctx x.register op lhsValue rhsValue line) := by
  have hl := hlhs.eq_reg_iff ht hx
  have hr := hrhs.eq_reg_iff ht hx
  unfold storeBinary
  split
  · -- a sum of literals is a literal
    cases lhs <;> try exact hlhs.elim
    cases rhs <;> try exact hrhs.elim
    exact (demands_ensureRoom ..).skip fun _ => demands_store_lit _ _
  · cases lhs <;> try exact hlhs.elim
    cases rhs <;> try exact hrhs.elim
    exact (demands_ensureRoom ..).skip fun _ => demands_store_lit _ _
  · rw [assignRequests]
    simp only [← hl, ← hr, ne_eq]
    split
    · exact demands_increase hrhs hle _
    · split
      · exact demands_increase hlhs hle _
      · split
        · exact demands_buildAside hlhs hrhs hle _
        · exact demands_build hlhs hrhs hle _
  · rw [assignRequests]
    simp only [← hl, ← hr]
    split
    · exact demands_decrease hrhs hle _
    · split
      · exact demands_buildAside hlhs hrhs hle _
      · exact demands_build hlhs hrhs hle _

/-- Assignments make their requests. -/
private theorem demands_assign (ctx : Context) (ht : ctx.symbols.Orderly) (hle : named ≤ used)
    (target : String) (value : Expr) (line : UInt64) :
    Demands named used used (assignRequests target value used) (assign ctx target value line) := by
  refine .guard (.consult (fun s => (yields_resolve ctx target line).ensures) ?_)
  rintro _ ⟨x, hx, rfl, rfl⟩
  have hvalue : ∀ operand s, Ensures (ctx.value operand line) s fun value s' =>
      s' = s ∧ Denotes ctx.symbols operand value :=
    fun operand s => (yields_value ctx operand line).ensures
  cases value with
  | operand operand => exact .consult (hvalue operand) fun _ h => demands_store h hle ht hx
  | binary op lhs rhs =>
    exact .consult (hvalue lhs) fun _ hlhs => .consult (hvalue rhs) fun _ hrhs =>
      demands_storeBinary ctx op hlhs hrhs hle ht hx line

end Assignments

/-! ### The requests of blocks -/

section Blocks

variable {named used : Nat} {ctx : Context} {requests requests' : List Request}

/-- What goes with every statement demands nothing. -/
private theorem demands_statement {act : EmitM Fragment} (h : Demands named used used requests act)
    (line : UInt64) : Demands named used used requests (ctx.statement line act) := by
  refine fun s hnamed hs => .intro fun f s' hrun => ?_
  obtain ⟨s₁, hact, rfl⟩ := exists_of_statement hrun
  have hafter := (h hnamed hs).of_ok hact
  exact hafter

/-- Looking up a variable demands nothing. -/
private theorem demands_resolve (name : String) (line : UInt64) :
    Demands named used used [] (ctx.resolve name line) := by
  refine .of_pool_eq fun s => ?_
  refine (yields_resolve ctx name line).mono (fun _ _ => trivial) ?_
  rintro _ _ ⟨rfl, -⟩
  rfl

/-- A conditional makes the requests of its blocks. -/
private theorem demands_branch (c : Condition) {yes no : EmitM Fragment}
    (hyes : Demands named used used requests yes) (hno : Demands named used used requests' no)
    (line : UInt64) :
    Demands named used used (requests ++ requests') (branch ctx c yes no line) := by
  unfold branch
  cases ZeroTest.ofCondition c with
  | error construct => exact fun _ _ _ => trivial
  | ok zeroTest =>
    refine (demands_resolve zeroTest.name line).skip fun _ => ?_
    refine (demands_fresh _).skip fun _ => (demands_fresh _).skip fun _ => ?_
    exact (demands_fresh _).skip fun _ => hyes.bind fun _ => hno.map _

/-- The rounds of a loop make the requests of its body. -/
private theorem demands_rounds (counter : Register) (v : Option Symbol) {body : EmitM Fragment}
    (hbody : Demands named used used requests body) :
    Demands named used used requests (rounds counter (v.map (·.register)) body) := by
  rw [rounds_eq]
  refine (demands_fresh _).skip fun _ => (demands_fresh _).skip fun _ => ?_
  refine (demands_fresh _).skip fun _ => (demands_fresh _).skip fun _ => ?_
  refine (demands_fresh _).skip fun _ => .skip ?_ fun _ => hbody.map _
  cases v with
  | none => exact .pure ∅
  | some x => exact demands_clear x.register

/-- A loop takes a register for its counter, copies its bound, and makes the requests of its body.
-/
private theorem demands_loop (name : String) (bound : Operand) {body : EmitM Fragment}
    (hbody : Demands named (used + 1) (used + 1) requests body) (hle : named ≤ used)
    (line : UInt64) :
    Demands named used used (.scratch :: (copyRequests (used + 1) ++ requests ++
      [.release ⟨used + 1⟩])) (loop ctx name bound body line) := by
  rw [List.append_assoc]
  unfold loop
  cases bound with
  | lit n => exact fun _ _ _ => trivial
  | var source =>
    refine (demands_resolve source line).skip fun _ => .guard (.scratch ?_)
    refine (demands_copy (Nat.le_succ_of_le hle) _ _).bind fun _ => ?_
    exact (demands_rounds _ _ hbody).bind fun _ => .release hle (.pure _)

end Blocks

mutual

/-- The requests of a statement are those that emitting its code makes. -/
private theorem demands_stmt :
    ∀ (ctx : Context) (st : Stmt) {named used : Nat}, ctx.symbols.Orderly →
    named ≤ used → Demands named used used (stmtRequests st used) (stmt ctx st)
  | ctx, .assign target value line, named, used, ht, hle => by
    rw [stmt, stmtRequests]
    exact demands_statement (demands_assign ctx ht hle target value line) line
  | ctx, .branch condition yes no line, named, used, ht, hle => by
    rw [stmt, stmtRequests]
    exact demands_statement (demands_branch condition (demands_block ctx yes ht hle)
      (demands_block ctx no ht hle) line) line
  | ctx, .loop counter bound body line, named, used, ht, hle => by
    rw [stmt, stmtRequests]
    exact demands_statement (demands_loop counter bound
      (demands_block { ctx with loops := counter :: ctx.loops } body ht (Nat.le_succ_of_le hle))
      hle line) line

/-- The requests of a block are those that emitting its code makes. -/
private theorem demands_block :
    ∀ (ctx : Context) (b : List Stmt) {named used : Nat}, ctx.symbols.Orderly →
    named ≤ used → Demands named used used (blockRequests b used) (block ctx b)
  | ctx, [], named, used, ht, hle => by
    rw [block, blockRequests]
    exact .pure ∅
  | ctx, st :: rest, named, used, ht, hle => by
    rw [block, blockRequests]
    exact (demands_stmt ctx st ht hle).bind fun _ => (demands_block ctx rest ht hle).map _

end

end Emit

/-! ### The whole program -/

section Program

variable {o : Options} {p : Source.Program} {table : SymbolTable} {f : Fragment}
  {state : Emit.State}

/-- What is in use of the registers when the variables are declared. -/
private theorem pool_of_ofDeclarations {capacity : Nat} {ds : List Declaration}
    {pool : RegisterPool}
    (h : SymbolTable.ofDeclarations ds (.withNamed capacity 0) = .ok table pool) :
    table.Orderly ∧ table.symbols.length = ds.length ∧
      pool = .withNamed capacity table.symbols.length ∧ table.symbols.length ≤ capacity := by
  have hyields := SymbolTable.yields_ofDeclarations capacity ds
  rw [Yields, h] at hyields
  obtain ⟨ht, -, hpool⟩ := hyields
  exact ⟨ht, (SymbolTable.length_of_foldlM_declare h).trans (Nat.zero_add _), hpool⟩

/-- The requests of a program are those that emitting its code makes. -/
private theorem pool_of_emitProgram (h : emitProgram o p = .ok (table, f, state)) :
    state.pool = (RegisterPool.withNamed o.registerPool 0).afterAll p.requests := by
  obtain ⟨-, pool, hdeclared, hblock⟩ := exists_of_emitProgram h
  obtain ⟨ht, hlength, rfl, hcapacity⟩ := pool_of_ofDeclarations hdeclared
  have hdemands := Emit.demands_block { symbols := table, limit := o.limit } p.body ht
    (Nat.le_refl table.symbols.length)
  have hpool := hdemands (s := { pool := .withNamed o.registerPool table.symbols.length }) rfl
    (RegisterPool.packed_withNamed hcapacity)
  have hpool := hpool.of_ok hblock
  have hnames : p.names.length = table.symbols.length := by
    rw [hlength, Source.Program.names, List.length_map]
  rw [Source.Program.requests, RegisterPool.afterAll_append, RegisterPool.afterAll_named, hnames,
    Nat.zero_add, ← hlength]
  · exact hpool.2.2
  · rwa [hnames, Nat.zero_add]

/-- The first half of a compilation with another number of registers. -/
private theorem emitProgram_resize (h : emitProgram o p = .ok (table, f, state)) {n : Nat}
    (hn : 1 ≤ n) :
    if state.pool.highWater ≤ n then
      emitProgram { o with registerPool := n } p = .ok (table, f, state.resize n)
    else ∃ line, emitProgram { o with registerPool := n } p =
      .error (.poolExhausted (n + 1) n (some line)) := by
  obtain ⟨hvalid, pool, hdeclared, hblock⟩ := exists_of_emitProgram h
  obtain ⟨-, -, rfl, -⟩ := pool_of_ofDeclarations hdeclared
  have hvalid' : ({ o with registerPool := n } : Options).validate = .ok () := by
    have hvalid := Options.validate_eq_ok_iff.mp hvalid
    exact Options.validate_eq_ok_iff.mpr ⟨Nat.ne_of_gt hn, hvalid.2⟩
  have hdeclared' := SymbolTable.ofDeclarations_resize hdeclared n
  obtain ⟨hle, hblock'⟩ := Emit.scales_block _ _ hblock
  by_cases hfits : table.symbols.length ≤ n
  · rw [if_pos hfits] at hdeclared'
    rw [emitProgram_of_declarations hvalid' hdeclared']
    have hblock' := hblock' n hfits
    by_cases hfits' : state.pool.highWater ≤ n
    · rw [if_pos hfits'] at hblock' ⊢
      exact congrArg (Except.map (table, ·)) (outcome_of_ok hblock')
    · rw [if_neg hfits'] at hblock' ⊢
      obtain ⟨line, t, herror⟩ := hblock'
      have hlocated := Emit.yields_block_located { symbols := table, limit := o.limit } p.body
        (Emit.State.resize { pool := .withNamed o.registerPool table.symbols.length } n)
      rw [Yields, herror] at hlocated
      cases line with
      | none => exact absurd rfl (hlocated _ _)
      | some line =>
        exact ⟨line, congrArg (Except.map (table, ·)) (outcome_of_error herror)⟩
  · rw [if_neg hfits] at hdeclared'
    rw [if_neg fun hle' => hfits (Nat.le_trans hle hle')]
    obtain ⟨line, t, herror⟩ := hdeclared'
    exact ⟨line, emitProgram_of_declarations_error hvalid' herror⟩

/-- **The registers of a compiled program.** Emission makes the requests of the program. Whatever
requests lead from a fresh pool to the one that emission leaves, the register file has one register
for each variable and as many scratch registers as are in use at once in the course of these
requests. With as many registers as that or more, the compilation has the same result. With fewer it
fails for want of one more register than there are. -/
theorem compile_registers_minimal {c : Compilation} (hcompile : compile o p = .ok c) :
    (∃ table f state, emitProgram o p = .ok (table, f, state) ∧
        state.pool = ({ capacity := o.registerPool } : RegisterPool).afterAll p.requests ∧
        ∀ requests,
          state.pool = ({ capacity := o.registerPool } : RegisterPool).afterAll requests →
            c.program.registers.size = p.declarations.length +
              ({ capacity := o.registerPool } : RegisterPool).peak requests) ∧
      ∀ pool, 1 ≤ pool →
        (c.program.registers.size ≤ pool → compile { o with registerPool := pool } p = .ok c) ∧
          (pool < c.program.registers.size → ∃ line,
            compile { o with registerPool := pool } p =
              .error (.poolExhausted (pool + 1) pool (some line))) := by
  obtain ⟨table, f, state, hemit, hemits, hfinish⟩ := exists_emitProgram_of_compile hcompile
  have hsize : c.program.registers.size = state.pool.highWater := by
    obtain ⟨c', -, hfinish', hsize, -⟩ := hemits.finishProgram_ok
    cases hfinish.symm.trans hfinish'
    exact hsize
  refine ⟨⟨table, f, state, hemit, pool_of_emitProgram hemit, fun requests hpool => ?_⟩,
    fun pool hpool => ⟨fun hle => ?_, fun hlt => ?_⟩⟩
  · have hpeak := RegisterPool.scratch_eq_peak_of_fresh o.registerPool requests
    have hlength : table.symbols.length = p.declarations.length := by
      simpa using congrArg List.length hemits.lists.entries
    have hle : state.pool.named ≤ state.pool.highWater :=
      Nat.le_trans hemits.lowers.packed.named_le hemits.lowers.packed.used_le
    rw [← hpool] at hpeak
    rw [hsize, ← hpeak, ← hlength, ← hemits.named]
    omega
  · have hresize := emitProgram_resize hemit hpool
    rw [if_pos (hsize ▸ hle)] at hresize
    rw [compile_eq, hresize]
    exact hfinish
  · have hresize := emitProgram_resize hemit hpool
    rw [if_neg (Nat.not_le_of_lt (hsize ▸ hlt))] at hresize
    obtain ⟨line, herror⟩ := hresize
    exact ⟨line, by rw [compile_eq, herror]; rfl⟩

theorem compile_registers_triangle :
    ∃ c, compile {} triangle = .ok c ∧ c.program.registers.size = 3 + 2 ∧
      compile { registerPool := 5 } triangle = .ok c ∧
      ∃ line, compile { registerPool := 4 } triangle = .error (.poolExhausted 5 4 (some line)) := by
  obtain ⟨c, hcompile⟩ := exists_compile_triangle
  obtain ⟨⟨_, _, _, -, hpool, hsize⟩, hpools⟩ := compile_registers_minimal hcompile
  have hpeak : ({ capacity := 256 } : RegisterPool).peak triangle.requests = 2 := by decide +kernel
  have hsize : c.program.registers.size = 3 + 2 := (hsize _ hpool).trans (congrArg (3 + ·) hpeak)
  exact ⟨c, hcompile, hsize, (hpools 5 (by decide)).1 (Nat.le_of_eq hsize),
    (hpools 4 (by decide)).2 (hsize ▸ by decide)⟩

end Program

end Abacus
