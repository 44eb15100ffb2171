import Abacus.Source.Basic

/-!
# The meaning of source programs

A statement takes the values of the variables to new values. Sums are exact and differences are cut
off at zero. A variable holds numbers below `2 ^ 64`, so a program whose run comes to a larger sum
has no meaning: evaluation gives `none`, at the first such sum.

A counted loop reads its bound once, on entry. Its variable, if it is declared, is set to the number
of the round before the body is run.
-/

namespace Abacus.Source

/-- The values of variables. -/
abbrev Env := String → Nat

/-- The values after one variable is set. -/
def Env.set (env : Env) (name : String) (value : Nat) : Env :=
  fun x => if x = name then value else env x

theorem Env.set_self (env : Env) (name : String) (value : Nat) : env.set name value name = value :=
  if_pos rfl

theorem Env.set_of_ne (env : Env) {name other : String} (value : Nat) (h : other ≠ name) :
    env.set name value other = env other :=
  if_neg h

/-- The value of an operand. -/
def Operand.eval (env : Env) : Operand → Nat
  | .var name => env name
  | .lit value => value.toNat

/-- The value of an expression, unless it is a sum that no variable can hold. -/
def Expr.eval (env : Env) : Expr → Option Nat
  | .operand o => some (o.eval env)
  | .binary .add lhs rhs =>
    let sum := lhs.eval env + rhs.eval env
    if sum < UInt64.size then some sum else none
  | .binary .sub lhs rhs => some (lhs.eval env - rhs.eval env)

/-- Whether a condition holds. -/
def Condition.eval (env : Env) (c : Condition) : Bool :=
  c.op.holds (c.lhs.eval env) (c.rhs.eval env)

mutual

/-- The values after a statement. Loop variables that are not `declared` hold no value. -/
def Stmt.eval (declared : String → Bool) : Stmt → Env → Option Env
  | .assign target value _, env => (value.eval env).map (env.set target)
  | .branch condition yes no _, env =>
    if condition.eval env then evalBlock declared yes env else evalBlock declared no env
  | .loop counter bound body _, env =>
    (List.range (bound.eval env)).foldlM
      (fun env round =>
        evalBlock declared body (if declared counter then env.set counter round else env))
      env

/-- The values after statements in a row. -/
def evalBlock (declared : String → Bool) : List Stmt → Env → Option Env
  | [], env => some env
  | s :: rest, env => (s.eval declared env).bind (evalBlock declared rest)

end

namespace Program

/-- Whether a program declares a variable. -/
def declares (p : Program) (name : String) : Bool :=
  p.declarations.any (·.name = name)

/-- The declared values of the variables. -/
def initial (p : Program) : Env := fun name =>
  match p.declarations.find? (·.name = name) with
  | some d => d.value.toNat
  | none => 0

/-- The values that a program ends with when it starts from given ones. -/
def evalFrom (p : Program) (env : Env) : Option Env := evalBlock p.declares p.body env

/-- The values that a program ends with. -/
def eval (p : Program) : Option Env := p.evalFrom p.initial

end Program

end Abacus.Source
