import Abacus.Emit.Assign

/-!
# Statements and blocks

A conditional is one zero test and its two blocks. A counted loop works on a scratch copy of its
bound, so the number of rounds is fixed on entry and the bound stays as it is.
-/

namespace Abacus.Emit

open Machine Code Source Fragment

/-- A condition that one zero test decides. -/
inductive ZeroTest where
  | isZero (name : String)
  | isNonzero (name : String)
  deriving DecidableEq, Repr

/-- The variable that a zero test reads. -/
def ZeroTest.name : ZeroTest → String
  | .isZero name => name
  | .isNonzero name => name

/-- The zero test for a condition, if there is one: the condition compares a variable with the
literal zero, and its answer depends on the variable. On natural numbers `x > 0` says that `x` is
not zero, and `x ≤ 0` that it is. -/
def ZeroTest.ofCondition (c : Condition) : Except Construct ZeroTest :=
  let normal : Option (String × Comparison) :=
    match c.lhs, c.rhs with
    | .var name, .lit 0 => some (name, c.op)
    | .lit 0, .var name => some (name, c.op.flip)
    | _, _ => none
  match normal with
  | none => .error (.notAgainstZero c)
  | some (name, .eq) => .ok (.isZero name)
  | some (name, .le) => .ok (.isZero name)
  | some (name, .ne) => .ok (.isNonzero name)
  | some (name, .gt) => .ok (.isNonzero name)
  | some (_, .lt) => .error (.constantCondition c)
  | some (_, .ge) => .error (.constantCondition c)

/-- The code of a conditional, given the code of its blocks. -/
def branch (ctx : Context) (c : Condition) (yes no : EmitM Fragment) (line : UInt64) :
    EmitM Fragment := do
  let zeroTest ←
    match ZeroTest.ofCondition c with
    | .ok zeroTest => pure zeroTest
    | .error construct => throw (.unsupported construct line)
  let r ← ctx.resolve zeroTest.name line
  let thenLabel ← fresh .thenBlock
  let elseLabel ← fresh .elseBlock
  let endLabel ← fresh .endIf
  let head :=
    match zeroTest with
    | .isZero _ => test r elseLabel thenLabel
    | .isNonzero _ => test r thenLabel elseLabel
  let yes ← yes
  let no ← no
  return head ++ define thenLabel ++ yes ++ jump endLabel ++ define elseLabel ++ no
    ++ define endLabel

/-- The rounds of a loop whose counter is loaded. The counter is zero at the end;
`loopVariable`, if there is one, counts the rounds. -/
def rounds (counter : Register) (loopVariable : Option Register) (body : EmitM Fragment) :
    EmitM Fragment := do
  let entry ← fresh .loopEntry
  let header ← fresh .loopHeader
  let step ← fresh .loopStep
  let bodyLabel ← fresh .loopBody
  let exit ← fresh .loopExit
  let start ←
    match loopVariable with
    | some r => clear r
    | none => pure ∅
  let advance :=
    match loopVariable with
    | some r => inc r
    | none => ∅
  let body ← body
  return test counter entry exit
    ++ define entry ++ start ++ jump bodyLabel
    ++ define header ++ test counter step exit
    ++ define step ++ advance
    ++ define bodyLabel ++ body ++ dec counter ++ jump header
    ++ define exit

/-- The code of a counted loop, given the code of its body. The bound must be a variable, and the
loop's variable must not be that of an enclosing loop. -/
def loop (ctx : Context) (loopVariable : String) (bound : Operand) (body : EmitM Fragment)
    (line : UInt64) : EmitM Fragment := do
  let bound ←
    match bound with
    | .var name => ctx.resolve name line
    | .lit n => throw (.unsupported (.literalBound n) line)
  if loopVariable ∈ ctx.loops then
    throw (.unsupported (.loopVariableReused loopVariable) line)
  let counter ← scratch
  let load ← copy bound counter
  let rounds ← rounds counter ((ctx.symbols.find? loopVariable).map (·.register)) body
  release counter
  return load ++ rounds

mutual

/-- The code of a statement. -/
def stmt (ctx : Context) : Stmt → EmitM Fragment
  | .assign target value line => ctx.statement line (assign ctx target value line)
  | .branch condition yes no line =>
    ctx.statement line (branch ctx condition (block ctx yes) (block ctx no) line)
  | .loop counter bound body line =>
    ctx.statement line
      (loop ctx counter bound (block { ctx with loops := counter :: ctx.loops } body) line)

/-- The code of statements in a row. -/
def block (ctx : Context) : List Stmt → EmitM Fragment
  | [] => return ∅
  | s :: rest => do
    let first ← stmt ctx s
    let rest ← block ctx rest
    return first ++ rest

end

end Abacus.Emit
