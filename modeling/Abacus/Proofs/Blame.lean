import Mathlib.Logic.Relation
import Abacus.Proofs.Variants

/-!
# The line at fault

A diagnostic that the source program is to blame for names a line. It is the line of the declaration
that was refused, or of the innermost statement that failed: a statement whose emission failed while
that of every statement begun inside it succeeded. Failures of statements inside others are passed
on as they are (`Emit.Task.Contains.run_eq_error`), since they have their line already; what fails
in a statement itself names no line or the statement's own (`Relabelling.own_line`), because it
fails with the relabelled diagnostic when the statement is put on another line.
-/

namespace Abacus

open Machine Code
open Source hiding Program

/-! ### Failures that are a statement's own -/

/-- An action that does the same however the lines other than one are changed names no other. -/
theorem Relabelling.own_line {σ α : Type} {act : EStateM Diagnostic σ α} {line : UInt64}
    (h : (lines fun _ => line).Carries act act) {s s' : σ} {d : Diagnostic}
    (hact : act s = .error d s') (hsource : (d.locate line).origin = .source) :
    (d.locate line).line? = some line := by
  -- all lines become this one, and the diagnostic stays as it is
  have hsame : ((lines fun _ => line).diagnostic d) = d := by
    have herror := (h.of_error hact).symm.trans hact
    exact (EStateM.Result.error.inj herror).1
  have hline := congrArg Diagnostic.line? hsame
  rw [line?_diagnostic] at hline
  cases d with
  | poolExhausted requested pool known =>
    cases known with
    | none => rfl
    | some l => exact hline.symm
  | tooLarge limit l => exact hline.symm
  | unsupported construct l => exact hline.symm
  | unknownVariable name l => exact hline.symm
  | duplicateVariable name l => exact hline.symm
  | conflict | unresolved | rejected | misplaced => cases hsource
  | invalidOptions | invalidSource => cases hsource

namespace Emit

/-- A diagnostic with a line keeps it. -/
private theorem Located.locate_eq {d : Diagnostic} (h : Located d) (line : UInt64) :
    d.locate line = d := by
  cases d with
  | poolExhausted requested pool known =>
    cases known with
    | none => exact absurd rfl (h requested pool)
    | some l => rfl
  | _ => rfl

/-! ### Statements inside statements -/

/-- The emission of one statement: where it stands, and the state that its emission starts from. -/
structure Task where
  ctx : Context
  stmt : Stmt
  start : State

/-- What becomes of the statement. -/
def Task.run (t : Task) : EStateM.Result Diagnostic State Fragment :=
  Emit.stmt t.ctx t.stmt t.start

/-- The emissions that are begun for the statements of a block: that of the first one, and that of
any other after the ones before it have their code. -/
inductive Begun (ctx : Context) : List Stmt → State → Task → Prop
  | first (st : Stmt) (rest : List Stmt) (s : State) : Begun ctx (st :: rest) s ⟨ctx, st, s⟩
  | later {st : Stmt} {rest : List Stmt} {s s' : State} {f : Fragment} {t : Task}
    (h : stmt ctx st s = .ok f s') (ht : Begun ctx rest s' t) : Begun ctx (st :: rest) s t

/-- The emission of a statement begins that of one right inside it. -/
inductive Task.Contains : Task → Task → Prop
  | yes {ctx : Context} {c : Condition} {yes no : List Stmt} {line : UInt64} {s s₁ : State}
    {assemble : Fragment → Fragment → Fragment} {t : Task}
    (hhead : branchHead ctx c line s = .ok assemble s₁) (ht : Begun ctx yes s₁ t) :
    Contains ⟨ctx, .branch c yes no line, s⟩ t
  | no {ctx : Context} {c : Condition} {yes no : List Stmt} {line : UInt64} {s s₁ s₂ : State}
    {assemble : Fragment → Fragment → Fragment} {f : Fragment} {t : Task}
    (hhead : branchHead ctx c line s = .ok assemble s₁) (hyes : block ctx yes s₁ = .ok f s₂)
    (ht : Begun ctx no s₂ t) : Contains ⟨ctx, .branch c yes no line, s⟩ t
  | body {ctx : Context} {counter : String} {bound : Operand} {body : List Stmt} {line : UInt64}
    {s s₁ : State} {head : Register × (Fragment → Fragment)} {t : Task}
    (hhead : loopHead ctx counter bound line s = .ok head s₁)
    (ht : Begun { ctx with loops := counter :: ctx.loops } body s₁ t) :
    Contains ⟨ctx, .loop counter bound body line, s⟩ t

/-- The emissions that are begun in the course of emitting a block, at any depth. -/
def Reaches (ctx : Context) (b : List Stmt) (s : State) (t : Task) : Prop :=
  ∃ outer, Begun ctx b s outer ∧ Relation.ReflTransGen Task.Contains outer t

/-- The emission fails, and that of every statement begun inside it succeeds. -/
structure Task.Innermost (t : Task) (d : Diagnostic) : Prop where
  fails : ∃ s, t.run = .error d s
  inside : ∀ t', Relation.TransGen Task.Contains t t' → ∃ f s, t'.run = .ok f s

variable {ctx : Context} {b : List Stmt} {s s' : State} {t t' : Task} {d : Diagnostic}

/-! ### Failures are passed on -/

/-- A statement that fails says on which line. -/
private theorem Task.located_of_run (h : t.run = .error d s) : Located d := by
  have hlocated := yields_stmt_located t.ctx t.stmt t.start
  rwa [Yields, ← Task.run, h] at hlocated

/-- A block fails with what a statement of it fails with. -/
theorem Begun.block_eq_error (h : Begun ctx b s t) (hrun : t.run = .error d s') :
    block ctx b s = .error d s' := by
  induction h with
  | first st rest s =>
    rw [block]
    exact run_bind_of_error hrun
  | later hfirst _ ih =>
    rw [block, run_bind_of_ok hfirst, run_bind_of_error (ih hrun)]

/-- Where a block fails, one of its statements does. -/
private theorem exists_begun_of_block_error (h : block ctx b s = .error d s') :
    ∃ t, Begun ctx b s t ∧ t.run = .error d s' := by
  induction b generalizing s with
  | nil =>
    rw [block] at h
    cases h
  | cons st rest ih =>
    rw [block] at h
    rcases error_cases_of_run_bind h with hfirst | ⟨f, s₁, hfirst, h⟩
    · exact ⟨_, .first st rest s, hfirst⟩
    rcases error_cases_of_run_bind h with hrest | ⟨g, s₂, -, h⟩
    · obtain ⟨t, ht, hrun⟩ := ih hrest
      exact ⟨t, .later hfirst ht, hrun⟩
    · cases h

/-- A statement fails with what its own code fails with. -/
private theorem statement_eq_error {line : UInt64} {act : EmitM Fragment}
    (hact : act s = .error d s') :
    ctx.statement line act s = .error (d.locate line) s' :=
  (statement_apply ..).trans (run_bind_of_error (run_adaptExcept_of_error hact))

/-- A failure inside a statement is the statement's. -/
theorem Task.Contains.run_eq_error (h : t.Contains t') (hrun : t'.run = .error d s) :
    t.run = .error d s := by
  have hlocated := Task.located_of_run hrun
  cases h with
  | yes hhead ht =>
    rw [Task.run, stmt, ← hlocated.locate_eq]
    refine statement_eq_error ?_
    rw [branch_eq, run_bind_of_ok hhead, run_bind_of_error (ht.block_eq_error hrun)]
  | no hhead hyes ht =>
    rw [Task.run, stmt, ← hlocated.locate_eq]
    refine statement_eq_error ?_
    rw [branch_eq, run_bind_of_ok hhead, run_bind_of_ok hyes,
      run_bind_of_error (ht.block_eq_error hrun)]
  | body hhead ht =>
    rw [Task.run, stmt, ← hlocated.locate_eq]
    refine statement_eq_error ?_
    rw [loop_eq, run_bind_of_ok hhead, run_bind_of_error (ht.block_eq_error hrun)]

/-- A failure at any depth inside a statement is the statement's. -/
private theorem Task.run_eq_error_of_inside (h : Relation.ReflTransGen Task.Contains t t')
    (hrun : t'.run = .error d s) : t.run = .error d s := by
  induction h using Relation.ReflTransGen.head_induction_on with
  | refl => exact hrun
  | head hfirst _ ih => exact hfirst.run_eq_error ih

/-- A failure at any depth inside a block is the block's. -/
theorem Reaches.block_eq_error (h : Reaches ctx b s t) (hrun : t.run = .error d s') :
    block ctx b s = .error d s' := by
  obtain ⟨outer, hbegun, hinside⟩ := h
  exact hbegun.block_eq_error (Task.run_eq_error_of_inside hinside hrun)

/-! ### The innermost failure -/

/-- Other lines leave the variables and the limit. -/
private theorem views_lines (g : UInt64 → UInt64) (ctx : Context) :
    (Relabelling.lines g).Views ctx ctx where
  registers _ := rfl
  limit := rfl
  loops := (List.map_id ctx.loops).symm

/-- A statement fails because its code does, or because the code has too many instructions. -/
private theorem statement_error_cases {line : UInt64} {act : EmitM Fragment}
    (h : ctx.statement line act s = .error d s') :
    (∃ e, act s = .error e s' ∧ d = e.locate line) ∨ d.line? = some line := by
  rw [statement_apply] at h
  rcases error_cases_of_run_bind h with hact | ⟨f, s₁, -, hcount⟩
  · exact .inl (error_of_adaptExcept hact)
  · rw [count_apply] at hcount
    split at hcount <;> cases hcount
    exact .inr rfl

/-- A conditional fails before its blocks or in one of them. -/
private theorem branch_error_cases {c : Condition} {yes no : List Stmt} {line : UInt64}
    (h : branch ctx c (block ctx yes) (block ctx no) line s = .error d s') :
    branchHead ctx c line s = .error d s' ∨
      ∃ t, Task.Contains ⟨ctx, .branch c yes no line, s⟩ t ∧ t.run = .error d s' := by
  rw [branch_eq] at h
  rcases error_cases_of_run_bind h with hhead | ⟨assemble, s₁, hhead, h⟩
  · exact .inl hhead
  rcases error_cases_of_run_bind h with hyes | ⟨f, s₂, hyes, h⟩
  · obtain ⟨t, ht, hrun⟩ := exists_begun_of_block_error hyes
    exact .inr ⟨t, .yes hhead ht, hrun⟩
  rcases error_cases_of_run_bind h with hno | ⟨g, s₃, -, h⟩
  · obtain ⟨t, ht, hrun⟩ := exists_begun_of_block_error hno
    exact .inr ⟨t, .no hhead hyes ht, hrun⟩
  · cases h

/-- A loop fails before its body, in it, or when it gives back its counter. -/
private theorem loop_error_cases {counter : String} {bound : Operand} {body : List Stmt}
    {line : UInt64}
    (h : loop ctx counter bound (block { ctx with loops := counter :: ctx.loops } body) line s =
      .error d s') :
    loopHead ctx counter bound line s = .error d s' ∨
      (∃ t, Task.Contains ⟨ctx, .loop counter bound body line, s⟩ t ∧ t.run = .error d s') ∨
      ∃ r s₁, release r s₁ = .error d s' := by
  rw [loop_eq] at h
  rcases error_cases_of_run_bind h with hhead | ⟨head, s₁, hhead, h⟩
  · exact .inl hhead
  rcases error_cases_of_run_bind h with hbody | ⟨f, s₂, -, h⟩
  · obtain ⟨t, ht, hrun⟩ := exists_begun_of_block_error hbody
    exact .inr (.inl ⟨t, .body hhead ht, hrun⟩)
  rcases error_cases_of_run_bind h with hrelease | ⟨_, s₃, -, h⟩
  · exact .inr (.inr ⟨_, _, hrelease⟩)
  · cases h

/-- A statement fails because of one inside it, or by itself and then on its own line. -/
private theorem Task.fails_inside_or_own (h : t.run = .error d s) :
    (∃ t' s', t.Contains t' ∧ t'.run = .error d s') ∨
      (d.origin = .source → d.line? = some t.stmt.line) := by
  obtain ⟨ctx, st, start⟩ := t
  -- with all lines moved to that of the statement, its own part is still the same action
  have hviews := views_lines (fun _ => st.line) ctx
  rw [Task.run] at h
  cases st with
  | assign target value line =>
    rw [stmt] at h
    rcases statement_error_cases h with ⟨e, hassign, rfl⟩ | hline
    · have hcarries := carries_assign hviews target value line
      rw [Relabelling.lines_expr] at hcarries
      exact .inr (Relabelling.own_line hcarries hassign)
    · exact .inr fun _ => hline
  | branch c yes no line =>
    rw [stmt] at h
    rcases statement_error_cases h with ⟨e, hbranch, rfl⟩ | hline
    · rcases branch_error_cases hbranch with hhead | ⟨t, ht, hrun⟩
      · have hcarries := carries_branchHead hviews c line
        rw [Relabelling.lines_condition] at hcarries
        exact .inr (Relabelling.own_line hcarries hhead)
      · rw [(Task.located_of_run hrun).locate_eq]
        exact .inl ⟨t, _, ht, hrun⟩
    · exact .inr fun _ => hline
  | loop counter bound body line =>
    rw [stmt] at h
    rcases statement_error_cases h with ⟨e, hloop, rfl⟩ | hline
    · rcases loop_error_cases hloop with hhead | ⟨t, ht, hrun⟩ | ⟨r, s₁, hrelease⟩
      · have hcarries := carries_loopHead hviews counter bound line
        rw [Relabelling.lines_operand] at hcarries
        exact .inr (Relabelling.own_line hcarries hhead)
      · -- the failure inside has a line, and keeps it
        rw [(Task.located_of_run hrun).locate_eq]
        exact .inl ⟨t, _, ht, hrun⟩
      · exact .inr (Relabelling.own_line (carries_release r) hrelease)
    · exact .inr fun _ => hline

/-- A statement that is begun is one of the block. -/
private theorem Begun.mem (h : Begun ctx b s t) : t.stmt ∈ b := by
  induction h with
  | first st rest s => exact List.mem_cons_self
  | later _ _ ih => exact List.mem_cons_of_mem _ ih

/-- A statement inside another one is smaller. -/
private theorem Task.Contains.sizeOf_lt (h : t.Contains t') : sizeOf t'.stmt < sizeOf t.stmt := by
  cases h with
  | yes _ ht =>
    have hlt := List.sizeOf_lt_of_mem ht.mem
    rw [Stmt.branch.sizeOf_spec]
    omega
  | no _ _ ht =>
    have hlt := List.sizeOf_lt_of_mem ht.mem
    rw [Stmt.branch.sizeOf_spec]
    omega
  | body _ ht =>
    have hlt := List.sizeOf_lt_of_mem ht.mem
    rw [Stmt.loop.sizeOf_spec]
    omega

/-- There is no endless nesting of statements. -/
private theorem Task.wellFounded_contains : WellFounded fun t' t : Task => t.Contains t' :=
  Subrelation.wf Contains.sizeOf_lt (measure fun t : Task => sizeOf t.stmt).wf

/-- A statement that fails has an innermost one in it that does, on the line that is named. -/
private theorem Task.exists_innermost (h : t.run = .error d s) :
    ∃ t', Relation.ReflTransGen Task.Contains t t' ∧ t'.Innermost d ∧
      (d.origin = .source → d.line? = some t'.stmt.line) := by
  -- statements inside are smaller, so going inside while one there fails comes to an end
  induction t using Task.wellFounded_contains.induction generalizing s with
  | h t ih =>
    by_cases hinside : ∃ t' s', t.Contains t' ∧ t'.run = .error d s'
    · obtain ⟨t', s', hcontains, hrun⟩ := hinside
      obtain ⟨t'', hrest, hinnermost⟩ := ih t' hcontains hrun
      exact ⟨t'', .head hcontains hrest, hinnermost⟩
    · refine ⟨t, .refl, ⟨⟨s, h⟩, fun t' ht' => ?_⟩, (fails_inside_or_own h).resolve_left hinside⟩
      cases hrun : t'.run with
      | ok f s' => exact ⟨f, s', rfl⟩
      | error e s' =>
        -- a failure inside would have been passed on through a statement right inside this one
        obtain ⟨first, hfirst, hrest⟩ := Relation.TransGen.head'_iff.mp ht'
        have hrun' := run_eq_error_of_inside hrest hrun
        obtain ⟨rfl, -⟩ := EStateM.Result.error.inj (h.symm.trans (hfirst.run_eq_error hrun'))
        exact absurd ⟨first, s', hfirst, hrun'⟩ hinside

end Emit

/-! ### Declarations that are refused -/

namespace SymbolTable

variable {table : SymbolTable} {pool pool' : RegisterPool} {e : Diagnostic}

/-- A declaration that is refused is named by its line. -/
private theorem line_of_declare_error {d : Declaration} (h : table.declare d pool = .error e pool')
    (hsource : e.origin = .source) : e.line? = some d.line := by
  unfold declare at h
  by_cases hknown : (table.find? d.name).isSome = true
  · rw [if_pos hknown] at h
    cases h
    rfl
  · rw [if_neg hknown] at h
    rcases error_cases_of_run_bind h with hlocated | ⟨r, pool'', -, h⟩
    · obtain ⟨e, htake, rfl⟩ := error_of_adaptExcept hlocated
      have hcarries := RegisterPool.carries_takeNamed (Relabelling.lines fun _ => d.line) d.name
      exact Relabelling.own_line hcarries htake hsource
    · cases h

/-- Declarations fail at one of them, after all those before it. -/
private theorem exists_of_foldlM_declare_error {ds : List Declaration}
    (h : ds.foldlM declare table pool = .error e pool') :
    ∃ before d after table' pool'', ds = before ++ d :: after ∧
      before.foldlM declare table pool = .ok table' pool'' ∧
      table'.declare d pool'' = .error e pool' := by
  induction ds generalizing table pool with
  | nil => cases h
  | cons d ds ih =>
    rw [List.foldlM_cons] at h
    rcases error_cases_of_run_bind h with hdeclare | ⟨next, pool₁, hdeclare, hrest⟩
    · exact ⟨[], d, ds, table, pool, rfl, rfl, hdeclare⟩
    · obtain ⟨before, d', after, table', pool₂, rfl, hbefore, hrefused⟩ := ih hrest
      refine ⟨d :: before, d', after, table', pool₂, rfl, ?_, hrefused⟩
      rw [List.foldlM_cons, run_bind_of_ok hdeclare]
      exact hbefore

end SymbolTable

/-! ### Diagnostics of a compilation -/

/-- A compilation that fails does so in its first half. -/
private theorem emitProgram_of_compile_error {o : Options} {p : Source.Program} {d : Diagnostic}
    (h : compile o p = .error d) : emitProgram o p = .error d := by
  rcases compile_cases o p with ⟨e, hemit, hcompile, -⟩ | ⟨c, -, -, -, hcompile, -⟩
  · obtain rfl : e = d := Except.error.inj (hcompile.symm.trans h)
    exact hemit
  · cases hcompile.symm.trans h

/-- **Diagnostics name the line at fault.** Lines play no part in a compilation but to be named:
with other lines it gives the same program, or the same diagnostic with the other line. A diagnostic
that the source program is to blame for names the line of the declaration that was refused, or of
the innermost statement that failed; and all the statements around that one fail with the same
diagnostic. -/
theorem compile_blames_line (o : Options) (p : Source.Program) :
    (∀ g, compile o ((Relabelling.lines g).program p) =
      (compile o p).mapError (Relabelling.lines g).diagnostic) ∧
    ∀ d, compile o p = .error d → d.origin = .source →
      (∃ before decl after table pool pool', p.declarations = before ++ decl :: after ∧
        SymbolTable.ofDeclarations before { capacity := o.registerPool } = .ok table pool ∧
        table.declare decl pool = .error d pool' ∧ d.line? = some decl.line) ∨
      ∃ table pool task,
        SymbolTable.ofDeclarations p.declarations { capacity := o.registerPool } = .ok table pool ∧
        Emit.Reaches { symbols := table, limit := o.limit } p.body { pool } task ∧
        task.Innermost d ∧ d.line? = some task.stmt.line ∧
        ∀ other e s, Emit.Reaches { symbols := table, limit := o.limit } p.body { pool } other →
          other.run = .error e s → e = d := by
  refine ⟨fun g => ?_, fun d hcompile hsource => ?_⟩
  · rw [(Relabelling.lines g).compile_program o p]
    simp only [Relabelling.lines_bindings]
    cases compile o p <;> rfl
  have hemit := emitProgram_of_compile_error hcompile
  cases hvalid : o.validate with
  | error problem =>
    simp only [emitProgram, hvalid, bind, Except.bind, Except.mapError] at hemit
    cases hemit
    cases hsource
  | ok _ =>
    cases hdeclare : SymbolTable.ofDeclarations p.declarations (.withNamed o.registerPool 0) with
    | error e pool' =>
      obtain rfl := Except.error.inj
        ((emitProgram_of_declarations_error hvalid hdeclare).symm.trans hemit)
      obtain ⟨before, decl, after, table, pool, hsplit, hbefore, hrefused⟩ :=
        SymbolTable.exists_of_foldlM_declare_error hdeclare
      exact .inl ⟨before, decl, after, table, pool, pool', hsplit, hbefore, hrefused,
        SymbolTable.line_of_declare_error hrefused hsource⟩
    | ok table pool =>
      rw [emitProgram_of_declarations hvalid hdeclare] at hemit
      cases hblock : Emit.block { symbols := table, limit := o.limit } p.body { pool } with
      | ok f state =>
        rw [outcome_of_ok hblock] at hemit
        cases hemit
      | error e state =>
        rw [outcome_of_error hblock] at hemit
        obtain rfl : e = d := Except.error.inj hemit
        obtain ⟨outer, hbegun, hrun⟩ := Emit.exists_begun_of_block_error hblock
        obtain ⟨task, hinside, hinnermost, hline⟩ := Emit.Task.exists_innermost hrun
        refine .inr ⟨table, pool, task, hdeclare, ⟨outer, hbegun, hinside⟩, hinnermost,
          hline hsource, fun other e' s hother herror => ?_⟩
        have hsame := (hother.block_eq_error herror).symm.trans hblock
        exact (EStateM.Result.error.inj hsame).1

/-- A loop in a conditional, with an assignment that needs the most registers. -/
def nested : Source.Program where
  declarations := [⟨"a", 1, 1⟩, ⟨"b", 2, 2⟩]
  body :=
    [.branch ⟨.var "a", .gt, .lit 0⟩
      [.loop "i" (.var "b") [.assign "a" (.binary .add (.var "a") (.var "a")) 5] 4] [] 3]

theorem compile_blames_nested :
    compile { registerPool := 4 } nested = .error (.poolExhausted 5 4 (some 5)) ∧
      (Diagnostic.poolExhausted 5 4 (some 5)).origin = .source ∧
      compile { registerPool := 4 } ((Relabelling.lines (· + 10)).program nested) =
        .error (.poolExhausted 5 4 (some 15)) ∧
      ∃ table pool task,
        SymbolTable.ofDeclarations nested.declarations { capacity := 4 } = .ok table pool ∧
        Emit.Reaches { symbols := table, limit := some 1048576 } nested.body { pool } task ∧
        task.Innermost (.poolExhausted 5 4 (some 5)) ∧ task.stmt.line = 5 ∧
        ∀ other e s,
          Emit.Reaches { symbols := table, limit := some 1048576 } nested.body { pool } other →
          other.run = .error e s → e = .poolExhausted 5 4 (some 5) := by
  have hcompile : compile { registerPool := 4 } nested = .error (.poolExhausted 5 4 (some 5)) := by
    decide +kernel
  obtain ⟨hlines, hblame⟩ := compile_blames_line { registerPool := 4 } nested
  have hmoved := hlines (· + 10)
  rw [hcompile] at hmoved
  refine ⟨hcompile, rfl, hmoved, ?_⟩
  rcases hblame _ hcompile rfl with ⟨before, decl, after, -, -, -, hsplit, -, -, hline⟩ |
    ⟨table, pool, task, hdeclare, hreaches, hinnermost, hline, hsame⟩
  · -- the declarations stand on other lines
    have hmem : decl ∈ nested.declarations := by
      rw [hsplit]
      exact List.mem_append_right before List.mem_cons_self
    have hlines : ∀ decl ∈ nested.declarations, some 5 ≠ some decl.line := by decide
    exact absurd hline (hlines decl hmem)
  · exact ⟨table, pool, task, hdeclare, hreaches, hinnermost, (Option.some.inj hline).symm, hsame⟩

end Abacus
