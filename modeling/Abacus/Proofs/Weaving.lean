import Abacus.Proofs.Relabelling

/-!
# How emitted code is put together

Whatever a statement asks for, its code is made of few patterns: increments, decrements behind a
test, two loops that move counts, conditionals and counted loops, all of them one after another and
within each other. `Emit.Woven` lists the patterns, and the code of every block is made of them
(`Emit.weaves_block`). What does not depend on the registers that are handed out, or on which labels
are, is then shown by one case for each pattern.

The patterns keep count of how deep conditionals are nested in the first blocks of each other
(`Source.blockThenDepth`).
-/

namespace Abacus

open Machine Code Fragment
open Source hiding Program

namespace Source

mutual

/-- How deep conditionals are nested in the first blocks of each other. -/
def Stmt.thenDepth : Stmt → Nat
  | .assign _ _ _ => 0
  | .branch _ yes no _ => max (blockThenDepth yes + 1) (blockThenDepth no)
  | .loop _ _ body _ => blockThenDepth body

/-- The depth of the statements in a row that are nested the most. -/
def blockThenDepth : List Stmt → Nat
  | [] => 0
  | s :: rest => max s.thenDepth (blockThenDepth rest)

end

end Source

namespace Emit

/-- Code that is made of the patterns of emitted code. Conditionals are nested in the first blocks
of each other at most `depth` deep. -/
inductive Woven : (depth : Nat) → Fragment → Prop
  | empty {n : Nat} : Woven n ∅
  | inc {n : Nat} (r : Register) : Woven n (inc r)
  | append {n : Nat} {f g : Fragment} (hf : Woven n f) (hg : Woven n g) : Woven n (f ++ g)
  /-- A decrement that is skipped at zero. -/
  | guarded {n : Nat} (r : Register) (step skip : Label) :
    Woven n (test r step skip ++ define step ++ dec r ++ define skip)
  /-- A loop that empties a register. -/
  | transfer {n : Nat} {top : Label} (htop : top.kind ≠ .endIf) (step done : Label)
    (source : Register) (targets : List Register) :
    Woven n (define top ++ test source step done ++ define step ++ dec source
      ++ join (targets.map Fragment.inc) ++ jump top ++ define done)
  /-- A loop that empties a register and takes its count from another one. -/
  | deduct {n : Nat} {top : Label} (htop : top.kind ≠ .endIf) (check step rest done : Label)
    (count target : Register) :
    Woven n (define top ++ test count check done ++ define check ++ test target step rest
      ++ define step ++ dec target ++ dec count ++ jump top ++ define rest ++ dec count ++ jump top
      ++ define done)
  | branch {m n : Nat} {yes no : Fragment} (zeroTest : ZeroTest) (r : Register)
    (thenLabel elseLabel : Label) {endLabel : Label} (hend : endLabel.kind = .endIf)
    (hyes : Woven m yes) (hno : Woven n no) (hlt : m < n) :
    Woven n (zeroTest.code r thenLabel elseLabel ++ define thenLabel ++ yes ++ jump endLabel
      ++ define elseLabel ++ no ++ define endLabel)
  | rounds {n : Nat} {start body : Fragment} (counter : Register) (v : Option Symbol)
    (entry step exit : Label) {header bodyLabel : Label} (hheader : header.kind = .loopHeader)
    (hbodyLabel : bodyLabel.kind = .loopBody) (hstart : Woven n start) (hbody : Woven n body) :
    Woven n (test counter entry exit ++ define entry ++ start ++ jump bodyLabel ++ define header
      ++ test counter step exit ++ define step ++ advance v ++ define bodyLabel ++ body
      ++ dec counter ++ jump header ++ define exit)

variable {ctx : Context} {m n : Nat} {f : Fragment} {s s' : State}

namespace Woven

/-- What is woven to a depth is woven to any larger one. -/
theorem mono (h : Woven m f) (hle : m ≤ n) : Woven n f := by
  induction h generalizing n with
  | empty => exact .empty
  | inc r => exact .inc r
  | append _ _ ihf ihg => exact .append (ihf hle) (ihg hle)
  | guarded r step skip => exact .guarded r step skip
  | transfer htop step done source targets => exact .transfer htop step done source targets
  | deduct htop check step rest done count target =>
    exact .deduct htop check step rest done count target
  | branch zeroTest r thenLabel elseLabel hend hyes _ hlt _ ihno =>
    exact .branch zeroTest r thenLabel elseLabel hend hyes (ihno hle) (Nat.lt_of_lt_of_le hlt hle)
  | rounds counter v entry step exit hheader hbodyLabel _ _ ihstart ihbody =>
    exact .rounds counter v entry step exit hheader hbodyLabel (ihstart hle) (ihbody hle)

/-- A loop that only empties a register adds to no others. -/
theorem clear {top : Label} (htop : top.kind ≠ .endIf) (step done : Label) (r : Register) :
    Woven n (define top ++ test r step done ++ define step ++ dec r ++ jump top
      ++ define done) := by
  have h := transfer (n := n) htop step done r []
  rwa [show join (([] : List Register).map Fragment.inc) = ∅ from rfl, append_empty] at h

/-- Increments in a row are woven to any depth. -/
theorem addUnits (r : Register) (count : Nat) : Woven n (addUnits r count) := by
  induction count with
  | zero => exact .empty
  | succ count ih => exact .append (.inc r) ih

/-- Guarded decrements in a row are woven to any depth. -/
theorem guardedDecrements (r : Register) (first count : Nat) :
    Woven n (guardedDecrements r first count) := by
  induction count with
  | zero => exact .empty
  | succ count ih =>
    rw [guardedDecrements_succ]
    exact .append ih (.guarded r _ _)

end Woven

/-! ### Actions -/

/-- Whatever code an action gives is made of the patterns. -/
def Weaves (n : Nat) (act : EmitM Fragment) : Prop :=
  ∀ ⦃s : State⦄ ⦃f : Fragment⦄ ⦃s' : State⦄, act s = .ok f s' → Woven n f

namespace Weaves

variable {α : Type} {act : EmitM Fragment}

/-- Woven code may be returned. -/
theorem pure {f : Fragment} (h : Woven n f) : Weaves n (Pure.pure f) := by
  intro s _ _ heq
  cases heq
  exact h

/-- A failure returns no code at all. -/
theorem throw (d : Diagnostic) : Weaves n (MonadExcept.throw d) := by
  intro s f s' heq
  cases heq

/-- An action after one that gives no code. -/
theorem after {act : EmitM α} {next : α → EmitM Fragment} (h : ∀ a, Weaves n (next a)) :
    Weaves n (act >>= next) := by
  intro s f s' heq
  obtain ⟨a, s₁, -, hnext⟩ := exists_of_run_bind heq
  exact h a hnext

/-- An action may depend on a label that is not yet known, as long as its kind is. -/
theorem fresh {kind : Label.Kind} {next : Label → EmitM Fragment}
    (h : ∀ l, l.kind = kind → Weaves n (next l)) : Weaves n (fresh kind >>= next) := by
  intro s f s' heq
  obtain ⟨l, s₁, hkind, -, hnext⟩ := exists_of_fresh_bind heq
  exact h l hkind hnext

/-- An action after one that gives code. -/
theorem bind {next : Fragment → EmitM Fragment} (h : Weaves n act)
    (h' : ∀ f, Woven n f → Weaves n (next f)) : Weaves n (act >>= next) := by
  intro s f s' heq
  obtain ⟨g, s₁, hact, hnext⟩ := exists_of_run_bind heq
  exact h' g (h hact) hnext

/-- What goes with every statement adds no code. -/
theorem statement (h : Weaves n act) (line : UInt64) : Weaves n (ctx.statement line act) := by
  intro s f s' heq
  obtain ⟨s₁, hact, -⟩ := exists_of_statement heq
  exact h hact

end Weaves

/-! ### Moving counts -/

private theorem weaves_clear (r : Register) : Weaves n (clear r) := by
  refine .fresh fun top htop => .fresh fun step _ => .fresh fun done _ => .pure ?_
  exact .clear (by simp [htop]) step done r

private theorem weaves_drain (source : Register) (targets : List Register) :
    Weaves n (drain source targets) := by
  refine .fresh fun top htop => .fresh fun step _ => .fresh fun done _ => .pure ?_
  exact .transfer (by simp [htop]) step done source targets

private theorem weaves_move (source target : Register) : Weaves n (move source target) := by
  unfold move
  split
  · exact .throw _
  · exact weaves_drain source [target]

private theorem weaves_copy (source target : Register) : Weaves n (copy source target) := by
  unfold copy
  split
  · exact .throw _
  · refine .after fun backup => (weaves_drain _ _).bind fun out hout => ?_
    refine (weaves_drain _ _).bind fun back hback => .after fun _ => .pure ?_
    exact hout.append hback

private theorem weaves_deduct (target source : Register) : Weaves n (deduct target source) := by
  refine .after fun count => (weaves_copy source count).bind fun load hload => ?_
  refine .fresh fun top htop => .fresh fun check _ => .fresh fun step _ => .fresh fun rest _ => ?_
  refine .fresh fun done _ => .after fun _ => .pure ?_
  have htop' : top.kind ≠ .endIf := by simp [htop]
  simpa only [append_assoc] using
    hload.append (.deduct htop' check step rest done count target)

private theorem weaves_takeUnits (r : Register) (count : Nat) : Weaves n (takeUnits r count) :=
  .after fun first => .pure (.guardedDecrements r first count)

private theorem weaves_increase (r : Register) (value : Value) : Weaves n (increase r value) := by
  rcases value with source | count
  · exact weaves_copy source r
  · exact .pure (.addUnits r count)

private theorem weaves_decrease (r : Register) (value : Value) : Weaves n (decrease r value) := by
  rcases value with source | count
  · exact weaves_deduct r source
  · exact weaves_takeUnits r count

private theorem weaves_apply (op : BinOp) (r : Register) (value : Value) :
    Weaves n (apply op r value) := by
  rcases op with _ | _
  · exact weaves_increase r value
  · exact weaves_decrease r value

/-! ### Assignments -/

private theorem weaves_store (r : Register) (value : Value) : Weaves n (store r value) := by
  unfold store
  split
  · exact .pure (.empty)
  · exact (weaves_clear r).bind fun f hf => (weaves_increase r value).bind fun g hg =>
      .pure (hf.append hg)

private theorem weaves_build (r : Register) (op : BinOp) (lhs rhs : Value) :
    Weaves n (build r op lhs rhs) :=
  (weaves_clear r).bind fun _ hempty => (weaves_increase r lhs).bind fun _ hleft =>
    (weaves_apply op r rhs).bind fun _ hright => .pure ((hempty.append hleft).append hright)

private theorem weaves_buildAside (r : Register) (op : BinOp) (lhs rhs : Value) :
    Weaves n (buildAside r op lhs rhs) := by
  refine .after fun result => (weaves_increase result lhs).bind fun left hleft => ?_
  refine (weaves_apply op result rhs).bind fun right hright => ?_
  refine (weaves_clear r).bind fun empty hempty => ?_
  refine (weaves_move result r).bind fun commit hcommit => .after fun _ => .pure ?_
  exact ((hleft.append hright).append hempty).append hcommit

private theorem weaves_storeBinary (r : Register) (op : BinOp) (lhs rhs : Value) (line : UInt64) :
    Weaves n (storeBinary ctx r op lhs rhs line) := by
  unfold storeBinary
  split
  · exact .after fun _ => weaves_store r _
  · exact .after fun _ => weaves_store r _
  · split_ifs
    · exact weaves_increase r rhs
    · exact weaves_increase r lhs
    · exact weaves_buildAside r .add lhs rhs
    · exact weaves_build r .add lhs rhs
  · split_ifs
    · exact weaves_decrease r rhs
    · exact weaves_buildAside r .sub lhs rhs
    · exact weaves_build r .sub lhs rhs

/-- Assignments have no conditionals. -/
private theorem weaves_assign (target : String) (value : Expr) (line : UInt64) :
    Weaves n (assign ctx target value line) := by
  rcases value with operand | ⟨op, lhs, rhs⟩
  · dsimp only [assign]
    split
    · exact .throw _
    · exact .after fun r => .after fun v => weaves_store r v
  · dsimp only [assign]
    split
    · exact .throw _
    · exact .after fun r => .after fun lhs => .after fun rhs => weaves_storeBinary r op lhs rhs line

/-! ### Statements and blocks -/

/-- A conditional is nested one deeper than its first block, and at least as deep as the second. -/
private theorem weaves_branch {yes no : EmitM Fragment} {m : Nat} (c : Condition) (line : UInt64)
    (hyes : Weaves m yes) (hno : Weaves n no) :
    Weaves (max (m + 1) n) (branch ctx c yes no line) := by
  intro s f s' h
  simp only [branch_eq, branchHead, bind_assoc, pure_bind] at h
  obtain ⟨zeroTest, s₁, -, h⟩ := exists_of_run_bind h
  obtain ⟨r, s₂, -, h⟩ := exists_of_run_bind h
  obtain ⟨thenLabel, s₃, -, -, h⟩ := exists_of_fresh_bind h
  obtain ⟨elseLabel, s₄, -, -, h⟩ := exists_of_fresh_bind h
  obtain ⟨endLabel, s₅, hend, -, h⟩ := exists_of_fresh_bind h
  obtain ⟨f₁, s₆, hf₁, h⟩ := exists_of_run_bind h
  obtain ⟨f₂, s₇, hf₂, h⟩ := exists_of_run_bind h
  cases h
  exact .branch zeroTest r thenLabel elseLabel hend (hyes hf₁)
    ((hno hf₂).mono (Nat.le_max_right (m + 1) n)) (Nat.le_max_left (m + 1) n)

/-- Starting a loop variable takes no conditional. -/
private theorem weaves_restart (v : Option Symbol) : Weaves n (restart v) := by
  rcases v with _ | x
  · exact .pure (.empty)
  · exact weaves_clear x.register

/-- In a loop, conditionals are nested as deep as in its body. -/
private theorem weaves_loop {body : EmitM Fragment} (name : String) (bound : Operand)
    (line : UInt64) (hbody : Weaves n body) : Weaves n (loop ctx name bound body line) := by
  intro s f s' h
  rw [loop_eq] at h
  obtain ⟨head, s₁, hhead, h⟩ := exists_of_run_bind h
  obtain ⟨g, s₂, hg, h⟩ := exists_of_run_bind h
  obtain ⟨_, s₃, -, h⟩ := exists_of_run_bind h
  cases h
  unfold loopHead at hhead
  obtain ⟨r, s₄, -, hhead⟩ := exists_of_run_bind hhead
  split at hhead
  · cases hhead
  obtain ⟨counter, s₅, -, hhead⟩ := exists_of_run_bind hhead
  obtain ⟨load, s₆, hload, hhead⟩ := exists_of_run_bind hhead
  obtain ⟨entry, s₇, -, -, hhead⟩ := exists_of_fresh_bind hhead
  obtain ⟨header, s₈, hheader, -, hhead⟩ := exists_of_fresh_bind hhead
  obtain ⟨step, s₉, -, -, hhead⟩ := exists_of_fresh_bind hhead
  obtain ⟨bodyLabel, s₁₀, hbodyLabel, -, hhead⟩ := exists_of_fresh_bind hhead
  obtain ⟨exit, s₁₁, -, -, hhead⟩ := exists_of_fresh_bind hhead
  obtain ⟨start, s₁₂, hstart, hhead⟩ := exists_of_run_bind hhead
  cases hhead
  exact (weaves_copy r counter hload).append
    (.rounds counter _ entry step exit hheader hbodyLabel (weaves_restart _ hstart) (hbody hg))

mutual

/-- The code of a statement is made of the patterns. -/
private theorem weaves_stmt : ∀ (ctx : Context) (st : Stmt), Weaves st.thenDepth (stmt ctx st)
  | ctx, .assign target value line => by
    rw [stmt, Stmt.thenDepth]
    exact (weaves_assign target value line).statement line
  | ctx, .branch condition yes no line => by
    rw [stmt, Stmt.thenDepth]
    exact (weaves_branch condition line (weaves_block ctx yes) (weaves_block ctx no)).statement line
  | ctx, .loop counter bound body line => by
    rw [stmt, Stmt.thenDepth]
    exact (weaves_loop counter bound line (weaves_block _ body)).statement line

/-- The code of a block is made of the patterns. -/
theorem weaves_block : ∀ (ctx : Context) (b : List Stmt), Weaves (blockThenDepth b) (block ctx b)
  | ctx, [] => by
    rw [block, blockThenDepth]
    exact .pure (.empty)
  | ctx, st :: rest => by
    intro s f s' h
    rw [block] at h
    obtain ⟨first, s₁, hfirst, h⟩ := exists_of_run_bind h
    obtain ⟨g, s₂, hrest, h⟩ := exists_of_run_bind h
    cases h
    rw [blockThenDepth]
    exact ((weaves_stmt ctx st hfirst).mono (Nat.le_max_left ..)).append
      ((weaves_block ctx rest hrest).mono (Nat.le_max_right ..))

end

end Emit

end Abacus
