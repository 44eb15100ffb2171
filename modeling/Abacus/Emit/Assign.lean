import Abacus.Emit.Transfer

/-!
# Assignments

The target of an assignment may occur on its right side. Where it does, the code either works on
the target in place or computes into a scratch register first; otherwise the target is emptied and
built up from the operands.
-/

namespace Abacus.Emit

open Machine Code Source

/-- An operand that emitted code can use. -/
inductive Value where
  | reg (register : Register)
  | lit (value : Nat)
  deriving DecidableEq, Repr

/-- Look up a variable, or see that a literal fits: it takes at least one instruction for each
unit. -/
def Context.value (ctx : Context) (operand : Operand) (line : UInt64) : EmitM Value :=
  match operand with
  | .var name => return .reg (← ctx.resolve name line)
  | .lit n => do
    ctx.ensureRoom n.toNat line
    return .lit n.toNat

/-- Add a value to a register. -/
def increase (r : Register) : Value → EmitM Fragment
  | .reg source => copy source r
  | .lit n => return addUnits r n

/-- Take a value from a register, stopping at zero. -/
def decrease (r : Register) : Value → EmitM Fragment
  | .reg source => deduct r source
  | .lit n => takeUnits r n

/-- Add a value to a register or take it away. -/
def apply (op : BinOp) (r : Register) (value : Value) : EmitM Fragment :=
  match op with
  | .add => increase r value
  | .sub => decrease r value

/-- Give a register a value. -/
def store (r : Register) (value : Value) : EmitM Fragment := do
  if value = .reg r then
    return ∅
  return (← clear r) ++ (← increase r value)

/-- Compute into a register that is not read on the way. -/
def build (r : Register) (op : BinOp) (lhs rhs : Value) : EmitM Fragment := do
  return (← clear r) ++ (← increase r lhs) ++ (← apply op r rhs)

/-- Compute into a scratch register and move the result over. -/
def buildAside (r : Register) (op : BinOp) (lhs rhs : Value) : EmitM Fragment := do
  let result ← scratch
  let left ← increase result lhs
  let right ← apply op result rhs
  let empty ← clear r
  let commit ← move result r
  release result
  return left ++ right ++ empty ++ commit

/-- Give a register the sum or difference of two values. -/
def storeBinary (ctx : Context) (r : Register) (op : BinOp) (lhs rhs : Value) (line : UInt64) :
    EmitM Fragment :=
  match op, lhs, rhs with
  | .add, .lit a, .lit b => do
    ctx.ensureRoom (a + b) line
    store r (.lit (a + b))
  | .sub, .lit a, .lit b => do
    ctx.ensureRoom (a - b) line
    store r (.lit (a - b))
  | .add, lhs, rhs =>
    if lhs = .reg r ∧ rhs ≠ .reg r then
      increase r rhs
    else if lhs ≠ .reg r ∧ rhs = .reg r then
      increase r lhs
    else if lhs = .reg r then
      buildAside r .add lhs rhs
    else
      build r .add lhs rhs
  | .sub, lhs, rhs =>
    if lhs = .reg r then
      decrease r rhs
    else if rhs = .reg r then
      buildAside r .sub lhs rhs
    else
      build r .sub lhs rhs

/-- The code of an assignment. The variable of an enclosing loop cannot be assigned. -/
def assign (ctx : Context) (target : String) (value : Expr) (line : UInt64) : EmitM Fragment := do
  if target ∈ ctx.loops then
    throw (.unsupported (.loopVariableAssigned target) line)
  let r ← ctx.resolve target line
  match value with
  | .operand operand => store r (← ctx.value operand line)
  | .binary op lhs rhs =>
    let lhs ← ctx.value lhs line
    let rhs ← ctx.value rhs line
    storeBinary ctx r op lhs rhs line

end Abacus.Emit
