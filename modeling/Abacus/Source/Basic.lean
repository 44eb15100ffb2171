/-!
# The source language

Programs over named variables that hold natural numbers below `2 ^ 64`. A program declares its
variables with initial values and then runs a list of statements: assignments of an operand or of
a sum or difference of two, conditionals on one comparison, and counted loops. Every declaration
and every statement carries the line it was written on; lines play no part in meaning and are
only shown in diagnostics.

The grammar here is wider than what the compiler accepts: a comparison may relate any two
operands and a loop bound may be a literal. What is accepted is decided during emission.
-/

namespace Abacus.Source

/-- A variable, or a literal number. -/
inductive Operand where
  | var (name : String)
  | lit (value : UInt64)
  deriving DecidableEq, Repr

namespace Operand

/-- The operand as it is written. -/
def text : Operand → String
  | .var name => name
  | .lit value => toString value.toNat

/-- The name of a variable operand. -/
def name? : Operand → Option String
  | .var name => some name
  | .lit _ => none

end Operand

/-- Sum, or difference cut off at zero. -/
inductive BinOp where
  | add
  | sub
  deriving DecidableEq, Repr

/-- What an assignment may compute. -/
inductive Expr where
  | operand (operand : Operand)
  | binary (op : BinOp) (lhs rhs : Operand)
  deriving DecidableEq, Repr

/-- The six comparisons of numbers. -/
inductive Comparison where
  | eq
  | ne
  | lt
  | le
  | gt
  | ge
  deriving DecidableEq, Repr

namespace Comparison

/-- The comparison as it is written between its operands. -/
def text : Comparison → String
  | .eq => "=="
  | .ne => "!="
  | .lt => "<"
  | .le => "<="
  | .gt => ">"
  | .ge => ">="

/-- The comparison that holds of `b` and `a` exactly when this one holds of `a` and `b`. -/
def flip : Comparison → Comparison
  | .eq => .eq
  | .ne => .ne
  | .lt => .gt
  | .le => .ge
  | .gt => .lt
  | .ge => .le

/-- Whether the comparison holds of two numbers. -/
def holds : Comparison → Nat → Nat → Bool
  | .eq, a, b => a == b
  | .ne, a, b => a != b
  | .lt, a, b => a < b
  | .le, a, b => a ≤ b
  | .gt, a, b => b < a
  | .ge, a, b => b ≤ a

theorem flip_flip (c : Comparison) : c.flip.flip = c := by
  cases c <;> rfl

theorem holds_flip (c : Comparison) (a b : Nat) : c.flip.holds b a = c.holds a b := by
  cases c <;> simp only [flip, holds, bne, BEq.comm]

end Comparison

/-- A comparison of two operands, on which a conditional branches. -/
structure Condition where
  lhs : Operand
  op : Comparison
  rhs : Operand
  deriving DecidableEq, Repr

namespace Condition

/-- The condition as it is written. -/
def text (c : Condition) : String :=
  c.lhs.text ++ " " ++ c.op.text ++ " " ++ c.rhs.text

/-- The condition `name == 0`. -/
def isZero (name : String) : Condition := ⟨.var name, .eq, .lit 0⟩

/-- The condition `name != 0`. -/
def isNonzero (name : String) : Condition := ⟨.var name, .ne, .lit 0⟩

end Condition

/-- A variable with the value it starts from. -/
structure Declaration where
  name : String
  value : UInt64
  line : UInt64 := 0
  deriving DecidableEq, Repr

/-- A statement and the line it stands on. -/
inductive Stmt where
  /-- Give `target` the value of an expression. -/
  | assign (target : String) (value : Expr) (line : UInt64)
  /-- Run one of two blocks. -/
  | branch (condition : Condition) (yes no : List Stmt) (line : UInt64)
  /-- Run a block as often as the bound says on entry, with `counter`, if it is declared,
  counting the rounds from zero. -/
  | loop (counter : String) (bound : Operand) (body : List Stmt) (line : UInt64)

/-- The line a statement stands on. -/
def Stmt.line : Stmt → UInt64
  | .assign _ _ line => line
  | .branch _ _ _ line => line
  | .loop _ _ _ line => line

/-- Declarations, and the statements to run. -/
structure Program where
  declarations : List Declaration
  body : List Stmt

end Abacus.Source
