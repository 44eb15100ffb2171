import Abacus.Proofs.Blocks
import Abacus.Proofs.PlainActions
import Abacus.Proofs.Requests

/-!
# Emission with another number of registers

Emission looks at the number of registers only to see whether there is one left. So an action that
succeeds does the very same with any other number of registers, as long as those it hands out are
among them, and otherwise fails for the first one too many. This is `Emit.Scales`; it holds of the
code of every block (`Emit.scales_block`). Declaring variables is alike
(`SymbolTable.ofDeclarations_resize`).
-/

namespace Abacus

open Machine Code Source

namespace Emit

/-- The state with another number of registers. -/
def State.resize (s : State) (n : Nat) : State := { s with pool := s.pool.withCapacity n }

/-- Where an action succeeds, it has the same result with any number of registers from those on that
it hands out, and fails with fewer. -/
def Scales {α : Type} (act : EmitM α) : Prop :=
  ∀ ⦃s a s'⦄, act s = .ok a s' → s.pool.highWater ≤ s'.pool.highWater ∧
    ∀ n, s.pool.highWater ≤ n →
      if s'.pool.highWater ≤ n then act (s.resize n) = .ok a (s'.resize n)
      else ∃ line t, act (s.resize n) = .error (.poolExhausted (n + 1) n line) t

namespace Scales

variable {α β : Type} {act : EmitM α}

/-- Actions that hand out no registers. -/
private theorem of_steady (h : ∀ s a s', act s = .ok a s' → s'.pool.highWater = s.pool.highWater ∧
    ∀ n, act (s.resize n) = .ok a (s'.resize n)) : Scales act := by
  intro s a s' hact
  obtain ⟨hsame, hresize⟩ := h s a s' hact
  refine ⟨Nat.le_of_eq hsame.symm, fun n hn => ?_⟩
  rw [if_pos (hsame ▸ hn)]
  exact hresize n

/-- To do nothing takes no registers. -/
theorem pure (a : α) : Scales (Pure.pure a) := by
  refine of_steady fun s b s' h => ?_
  cases h
  exact ⟨rfl, fun n => rfl⟩

/-- Scaling is about successes only. -/
theorem throw (d : Diagnostic) : Scales (MonadExcept.throw d : EmitM α) :=
  fun _ _ _ h => nomatch h

/-- Actions in a row come out the same if each of them does: the second starts from the pool that
the first one leaves. -/
theorem bind {next : α → EmitM β} (h : Scales act) (h' : ∀ a, Scales (next a)) :
    Scales (act >>= next) := by
  intro s b s'' hrun
  obtain ⟨a, s', hact, hnext⟩ := exists_of_run_bind hrun
  obtain ⟨hle, hact⟩ := h hact
  obtain ⟨hle', hnext⟩ := h' a hnext
  refine ⟨Nat.le_trans hle hle', fun n hn => ?_⟩
  have hfirst := hact n hn
  by_cases hfits : s'.pool.highWater ≤ n
  · rw [if_pos hfits] at hfirst
    rw [run_bind_of_ok hfirst]
    exact hnext n hfits
  · rw [if_neg hfits] at hfirst
    obtain ⟨line, t, herror⟩ := hfirst
    rw [if_neg fun h => hfits (Nat.le_trans hle' h)]
    exact ⟨line, t, run_bind_of_error herror⟩

/-- A check that does not look at the pool comes out the same. -/
theorem guard {γ : Type} {c : Prop} [Decidable c] {d : Diagnostic} {skipped : γ → EmitM α}
    (h : Scales act) : Scales (if c then MonadExcept.throw d >>= skipped else act) := by
  split
  · exact fun _ _ _ h => nomatch h
  · exact h

/-- The line that a diagnostic gets does not depend on the number of registers. -/
theorem locate (h : Scales act) (line : UInt64) :
    Scales (EStateM.adaptExcept (Diagnostic.locate line) act) := by
  intro s a s' hrun
  obtain ⟨hle, hact⟩ := h (run_of_adaptExcept hrun)
  refine ⟨hle, fun n hn => ?_⟩
  have hact := hact n hn
  by_cases hfits : s'.pool.highWater ≤ n
  · rw [if_pos hfits] at hact ⊢
    exact run_adaptExcept_of_ok hact
  · rw [if_neg hfits] at hact ⊢
    obtain ⟨known, t, herror⟩ := hact
    cases known with
    | none => exact ⟨_, t, run_adaptExcept_of_error herror⟩
    | some known => exact ⟨_, t, run_adaptExcept_of_error herror⟩

end Scales

/-! ### Plain actions -/

/-- A scratch register is handed out with any number of registers that it is among. -/
private theorem scales_scratch : Scales scratch := by
  intro s r s' h
  obtain ⟨pool, htake, rfl⟩ := exists_of_onPool h
  refine ⟨RegisterPool.highWater_le_of_takeScratch htake, fun n hn => ?_⟩
  have hscaled := RegisterPool.takeScratch_withCapacity htake hn
  by_cases hfits : pool.highWater ≤ n
  · rw [if_pos hfits] at hscaled ⊢
    exact onPool_of_ok hscaled
  · rw [if_neg hfits] at hscaled ⊢
    exact ⟨none, _, onPool_of_error hscaled⟩

/-- A scratch register is given back whatever the number of registers is. -/
private theorem scales_release (r : Register) : Scales (release r) := by
  refine .of_steady fun s a s' h => ?_
  obtain ⟨pool, hrelease, rfl⟩ := exists_of_onPool h
  obtain ⟨hsame, hscaled⟩ := RegisterPool.release_withCapacity hrelease
  exact ⟨hsame, fun n => onPool_of_ok (hscaled n)⟩

/-- Labels are no registers. -/
private theorem scales_reserveLabels (count : Nat) : Scales (reserveLabels count) := by
  refine .of_steady fun s a s' h => ?_
  cases h
  exact ⟨rfl, fun n => rfl⟩

/-- Plain actions do not look at the pool. -/
private theorem Plain.scales {α : Type} {act : EmitM α} (h : Plain act) : Scales act := by
  induction h with
  | pure a => exact .pure a
  | conflict r hc => exact .throw _
  | scratch => exact scales_scratch
  | release r => exact scales_release r
  | reserveLabels count => exact scales_reserveLabels count
  | bind _ _ ih ih' => exact ih.bind ih'

/-! ### Assigning -/

/-- The room for instructions does not depend on registers. -/
private theorem scales_ensureRoom (ctx : Context) (count : Nat) (line : UInt64) :
    Scales (ctx.ensureRoom count line) := by
  refine .of_steady fun s a s' h => ?_
  obtain ⟨rfl, hroom⟩ := eq_of_ensureRoom h
  exact ⟨rfl, fun n => (ensureRoom_apply ..).trans (if_neg hroom)⟩

/-- Variables keep their registers. -/
private theorem scales_resolve (ctx : Context) (name : String) (line : UInt64) :
    Scales (ctx.resolve name line) := by
  unfold Context.resolve
  split
  · exact .pure _
  · exact .throw _

/-- Operands have the same values with any number of registers. -/
private theorem scales_value (ctx : Context) (operand : Operand) (line : UInt64) :
    Scales (ctx.value operand line) := by
  cases operand with
  | var name => exact (scales_resolve ctx name line).bind fun _ => .pure _
  | lit n => exact (scales_ensureRoom ctx _ line).bind fun _ => .pure _

/-- Sums and differences take the same registers. -/
private theorem scales_storeBinary (ctx : Context) (r : Register) (op : BinOp) (lhs rhs : Value)
    (line : UInt64) : Scales (storeBinary ctx r op lhs rhs line) := by
  rcases storeBinary_cases r op lhs rhs with ⟨n, heq⟩ | ⟨act, hact, heq⟩
  · rw [heq]
    exact (scales_ensureRoom ..).bind fun _ => (plain_store ..).scales
  · rw [heq]
    exact hact.scales

/-- Assignments take the same registers. -/
private theorem scales_assign (ctx : Context) (target : String) (value : Expr) (line : UInt64) :
    Scales (assign ctx target value line) := by
  refine .guard ((scales_resolve ctx target line).bind fun r => ?_)
  cases value with
  | operand operand => exact (scales_value ..).bind fun _ => (plain_store ..).scales
  | binary op lhs rhs =>
    exact (scales_value ..).bind fun _ => (scales_value ..).bind fun _ => scales_storeBinary ..

/-! ### Statements and blocks -/

/-- Instructions are counted in the same way. -/
private theorem scales_count (ctx : Context) (line : UInt64) (before : Nat) (f : Fragment) :
    Scales (ctx.count line before f) := by
  refine .of_steady fun s a s' h => ?_
  obtain ⟨rfl, rfl, hroom⟩ := eq_of_count h
  exact ⟨rfl, fun n => (count_apply ..).trans (if_neg hroom)⟩

/-- What goes with every statement takes no registers of its own. -/
private theorem scales_statement (ctx : Context) (line : UInt64) {act : EmitM Fragment}
    (h : Scales act) :
    Scales (ctx.statement line act) :=
  fun s _ _ hrun => (h.locate line).bind (scales_count ctx line s.emitted) hrun

/-- Conditionals take the registers that their blocks take. -/
private theorem scales_branch (ctx : Context) (c : Condition) {yes no : EmitM Fragment}
    (line : UInt64) (hyes : Scales yes) (hno : Scales no) : Scales (branch ctx c yes no line) := by
  unfold branch
  cases ZeroTest.ofCondition c with
  | error construct => exact fun _ _ _ h => nomatch h
  | ok zeroTest =>
    refine (scales_resolve ctx zeroTest.name line).bind fun _ => ?_
    refine (plain_fresh _).scales.bind fun _ => (plain_fresh _).scales.bind fun _ => ?_
    refine (plain_fresh _).scales.bind fun _ => ?_
    exact hyes.bind fun _ => hno.bind fun _ => .pure _

/-- A loop variable is started without the pool. -/
theorem plain_restart (v : Option Symbol) : Plain (restart v) := by
  cases v with
  | none => exact .pure _
  | some x => exact plain_clear x.register

/-- The rounds of a loop take the registers that its body takes. -/
private theorem scales_rounds (counter : Register) (v : Option Symbol) {body : EmitM Fragment}
    (hbody : Scales body) : Scales (rounds counter (v.map (·.register)) body) := by
  rw [rounds_eq]
  refine (plain_fresh _).scales.bind fun _ => (plain_fresh _).scales.bind fun _ => ?_
  refine (plain_fresh _).scales.bind fun _ => (plain_fresh _).scales.bind fun _ => ?_
  refine (plain_fresh _).scales.bind fun _ => (plain_restart v).scales.bind fun _ => ?_
  exact hbody.bind fun _ => .pure _

/-- Loops take the same registers, their counters among them. -/
private theorem scales_loop (ctx : Context) (name : String) (bound : Operand)
    {body : EmitM Fragment}
    (line : UInt64) (hbody : Scales body) : Scales (loop ctx name bound body line) := by
  unfold loop
  cases bound with
  | lit n => exact fun _ _ _ h => nomatch h
  | var source =>
    refine (scales_resolve ctx source line).bind fun _ => .guard ?_
    refine scales_scratch.bind fun counter => (plain_copy ..).scales.bind fun _ => ?_
    refine (scales_rounds _ _ hbody).bind fun _ => (scales_release counter).bind fun _ => .pure _

mutual

/-- Statements take the same registers with any number of them that is enough. -/
private theorem scales_stmt : ∀ (ctx : Context) (st : Stmt), Scales (stmt ctx st)
  | ctx, .assign target value line => by
    rw [stmt]
    exact scales_statement ctx line (scales_assign ..)
  | ctx, .branch condition yes no line => by
    rw [stmt]
    exact scales_statement ctx line
      (scales_branch ctx condition line (scales_block ctx yes) (scales_block ctx no))
  | ctx, .loop counter bound body line => by
    rw [stmt]
    exact scales_statement ctx line (scales_loop ctx counter bound line (scales_block _ body))

/-- Blocks take the same registers with any number of them that is enough. -/
theorem scales_block : ∀ (ctx : Context) (b : List Stmt), Scales (block ctx b)
  | ctx, [] => by
    rw [block]
    exact .pure _
  | ctx, st :: rest => by
    rw [block]
    exact (scales_stmt ctx st).bind fun _ => (scales_block ctx rest).bind fun _ => .pure _

end

/-! ### Where registers run out -/

/-- A failure for want of registers says on which line. -/
def Located (d : Diagnostic) : Prop := ∀ requested pool, d ≠ .poolExhausted requested pool none

/-- A diagnostic that was given a line has one. -/
private theorem located_locate (d : Diagnostic) (line : UInt64) : Located (d.locate line) := by
  intro requested pool
  cases d with
  | poolExhausted requested pool known => cases known <;> simp [Diagnostic.locate]
  | _ => simp [Diagnostic.locate]

/-- What fails within a statement gets the line of the statement, if it has none. -/
private theorem yields_statement_located (ctx : Context) (line : UInt64) (act : EmitM Fragment)
    (s : State) :
    Yields Located (ctx.statement line act) s fun _ _ => True := by
  rw [Yields, statement_apply]
  cases hact : act s with
  | error d s' =>
    rw [run_bind_of_error (run_adaptExcept_of_error hact)]
    exact located_locate d line
  | ok f s' =>
    rw [run_bind_of_ok (run_adaptExcept_of_ok hact), count_apply]
    by_cases h : ctx.room s.emitted < f.size
    · rw [if_pos h]
      simp [Located, Context.tooLarge]
    · rw [if_neg h]
      trivial

/-- A statement that fails gives its line, or that of a statement in it. -/
theorem yields_stmt_located (ctx : Context) (st : Stmt) (s : State) :
    Yields Located (stmt ctx st) s fun _ _ => True := by
  cases st <;> rw [stmt] <;> exact yields_statement_located ctx _ _ s

/-- A block that fails gives the line of a statement. -/
theorem yields_block_located : ∀ (ctx : Context) (b : List Stmt) (s : State),
    Yields Located (block ctx b) s fun _ _ => True
  | ctx, [], s => by
    rw [block]
    trivial
  | ctx, st :: rest, s => by
    rw [block]
    exact (yields_stmt_located ctx st s).bind fun _ s _ =>
      (yields_block_located ctx rest s).bind fun _ s _ => trivial

end Emit

/-! ### Declaring variables -/

namespace SymbolTable

variable {table table' : SymbolTable} {pool : RegisterPool} {capacity n : Nat}

/-- What declaring a variable does, where only variables have registers. -/
private theorem declare_eq (table : SymbolTable) (capacity : Nat) (d : Declaration) :
    table.declare d (.withNamed capacity table.symbols.length) =
      if (table.find? d.name).isSome then
        .error (.duplicateVariable d.name d.line) (.withNamed capacity table.symbols.length)
      else if capacity < table.symbols.length + 1 then
        .error (.poolExhausted (table.symbols.length + 1) capacity (some d.line))
          (.withNamed capacity table.symbols.length)
      else
        .ok ⟨table.symbols ++ [⟨d.name, ⟨table.symbols.length + 1⟩, d.value⟩]⟩
          (.withNamed capacity (table.symbols.length + 1)) := by
  have htake := RegisterPool.takeNamed_withNamed capacity table.symbols.length d.name
  by_cases hknown : (table.find? d.name).isSome
  · rw [if_pos hknown]
    exact congrFun (if_pos hknown) _
  rw [if_neg hknown]
  refine (congrFun (if_neg hknown) _).trans ?_
  by_cases hroom : capacity < table.symbols.length + 1
  · rw [if_pos hroom]
    rw [if_pos hroom] at htake
    exact run_bind_of_error (run_adaptExcept_of_error htake)
  · rw [if_neg hroom]
    rw [if_neg hroom] at htake
    exact run_bind_of_ok (run_adaptExcept_of_ok htake)

/-- A declaration comes out the same with another number of registers, up to the point where they
run out. -/
private theorem declare_resize {d : Declaration}
    (h : table.declare d (.withNamed capacity table.symbols.length) = .ok table' pool)
    (hn : table.symbols.length ≤ n) :
    pool = .withNamed capacity table'.symbols.length ∧
      table'.symbols.length = table.symbols.length + 1 ∧
      table.declare d (.withNamed n table.symbols.length) =
        if table'.symbols.length ≤ n then .ok table' (.withNamed n table'.symbols.length)
        else .error (.poolExhausted (n + 1) n (some d.line))
          (.withNamed n table.symbols.length) := by
  rw [declare_eq] at h
  split at h
  next => cases h
  next hnew =>
    split at h
    next => cases h
    next =>
      cases h
      refine ⟨by rw [List.length_append, List.length_singleton], List.length_append, ?_⟩
      rw [declare_eq, if_neg hnew, List.length_append, List.length_singleton]
      by_cases hroom : n < table.symbols.length + 1
      · obtain rfl : n = table.symbols.length := by omega
        rw [if_pos hroom, if_neg (Nat.not_succ_le_self _)]
      · rw [if_neg hroom, if_pos (Nat.not_lt.mp hroom)]

/-- Each declaration adds a symbol. -/
theorem length_of_foldlM_declare {ds : List Declaration}
    (h : ds.foldlM declare table (.withNamed capacity table.symbols.length) = .ok table' pool) :
    table'.symbols.length = table.symbols.length + ds.length := by
  induction ds generalizing table with
  | nil =>
    cases h
    rfl
  | cons d ds ih =>
    rw [List.foldlM_cons] at h
    obtain ⟨next, pool', hdeclare, hfold⟩ := exists_of_run_bind h
    obtain ⟨rfl, hlength, -⟩ := declare_resize hdeclare (Nat.le_refl _)
    rw [ih hfold, hlength, List.length_cons]
    omega

/-- Declarations that there are registers for are the same with any number of registers that is
large enough, and fail with fewer. -/
theorem ofDeclarations_resize {ds : List Declaration}
    (h : ofDeclarations ds (.withNamed capacity 0) = .ok table pool) (n : Nat) :
    if table.symbols.length ≤ n then
      ofDeclarations ds (.withNamed n 0) = .ok table (.withNamed n table.symbols.length)
    else ∃ line t, ofDeclarations ds (.withNamed n 0) =
      .error (.poolExhausted (n + 1) n (some line)) t := by
  -- declarations are taken one by one, so the statement is about the rest of them and any table
  suffices hrest : ∀ (ds : List Declaration) (start : SymbolTable), start.symbols.length ≤ n →
      ds.foldlM declare start (.withNamed capacity start.symbols.length) = .ok table pool →
      if table.symbols.length ≤ n then
        ds.foldlM declare start (.withNamed n start.symbols.length) =
          .ok table (.withNamed n table.symbols.length)
      else ∃ line t, ds.foldlM declare start (.withNamed n start.symbols.length) =
        .error (.poolExhausted (n + 1) n (some line)) t from
    hrest ds {} (Nat.zero_le n) h
  intro ds
  induction ds with
  | nil =>
    intro start hn h
    cases h
    rw [if_pos hn]
    rfl
  | cons d ds ih =>
    intro start hn h
    rw [List.foldlM_cons] at h
    obtain ⟨next, pool', hdeclare, hfold⟩ := exists_of_run_bind h
    obtain ⟨rfl, hlength, hresize⟩ := declare_resize hdeclare hn
    rw [List.foldlM_cons]
    by_cases hfits : next.symbols.length ≤ n
    · rw [if_pos hfits] at hresize
      rw [run_bind_of_ok hresize]
      exact ih next hfits hfold
    · -- this declaration is the first one that there is no register for
      rw [if_neg hfits] at hresize
      rw [length_of_foldlM_declare hfold, if_neg fun hle => hfits (Nat.le_of_add_right_le hle)]
      exact ⟨d.line, _, run_bind_of_error hresize⟩

end SymbolTable

end Abacus
