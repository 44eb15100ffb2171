import Abacus.Source.Basic

/-!
# The supported part of the source language

The counter machine branches on zero tests only and counts loops down in registers. This is the
part of the source language that has code on it, said without reference to how code is emitted.
-/

namespace Abacus.Source

/-- The operands of an expression. -/
def Expr.operands : Expr → List Operand
  | .operand o => [o]
  | .binary _ lhs rhs => [lhs, rhs]

/-- A condition on one declared variable, compared with zero by a comparison that some numbers
meet and others do not. -/
def Condition.Supported (declared : List String) (c : Condition) : Prop :=
  ∃ name ∈ declared, ∃ op ∈ [Comparison.eq, .ne, .gt, .le],
    c = ⟨.var name, op, .lit 0⟩ ∨ c = ⟨.lit 0, op.flip, .var name⟩

mutual

/-- A statement that has code within loops over the variables `loops`, of which the innermost comes
first. -/
def Stmt.Supported (declared : List String) : (loops : List String) → Stmt → Prop
  | loops, .assign target value _ =>
    target ∈ declared ∧ target ∉ loops ∧ ∀ name, .var name ∈ value.operands → name ∈ declared
  | loops, .branch condition yes no _ =>
    condition.Supported declared ∧ BlockSupported declared loops yes
      ∧ BlockSupported declared loops no
  | loops, .loop counter bound body _ =>
    (∃ name ∈ declared, bound = .var name) ∧ counter ∉ loops
      ∧ BlockSupported declared (counter :: loops) body

/-- Statements in a row that all have code. -/
def BlockSupported (declared : List String) : (loops : List String) → List Stmt → Prop
  | _, [] => True
  | loops, s :: rest => s.Supported declared loops ∧ BlockSupported declared loops rest

end

/-- The names that a program declares, in order. -/
def Program.names (p : Program) : List String := p.declarations.map Declaration.name

/-- A program whose variables are declared once and whose statements all have code. -/
def Program.Supported (p : Program) : Prop :=
  p.names.Nodup ∧ BlockSupported p.names [] p.body

/-! ### Deciding support -/

instance (declared : List String) (c : Condition) : Decidable (c.Supported declared) :=
  inferInstanceAs (Decidable (∃ name ∈ declared, ∃ op ∈ [Comparison.eq, .ne, .gt, .le],
    c = ⟨.var name, op, .lit 0⟩ ∨ c = ⟨.lit 0, op.flip, .var name⟩))

private theorem Expr.forall_var_mem_iff {declared : List String} {value : Expr} :
    (∀ o ∈ value.operands, ∀ name ∈ o.name?, name ∈ declared) ↔
      ∀ name, .var name ∈ value.operands → name ∈ declared := by
  constructor
  · exact fun h name hname => h _ hname name rfl
  · rintro h (name | n) ho _ hname
    · cases hname
      exact h name ho
    · cases hname

mutual

/-- Whether a statement is supported can be decided. -/
def Stmt.decidableSupported (declared : List String) :
    (loops : List String) → (s : Stmt) → Decidable (s.Supported declared loops)
  | loops, .assign target value line =>
    decidable_of_iff (target ∈ declared ∧ target ∉ loops ∧
      ∀ o ∈ value.operands, ∀ name ∈ o.name?, name ∈ declared) (by
        rw [Stmt.Supported, Expr.forall_var_mem_iff])
  | loops, .branch condition yes no line =>
    have := decidableBlockSupported declared loops yes
    have := decidableBlockSupported declared loops no
    decidable_of_iff (condition.Supported declared ∧ BlockSupported declared loops yes ∧
      BlockSupported declared loops no) (by rw [Stmt.Supported])
  | loops, .loop counter bound body line =>
    have := decidableBlockSupported declared (counter :: loops) body
    decidable_of_iff ((∃ name ∈ declared, bound = .var name) ∧ counter ∉ loops ∧
      BlockSupported declared (counter :: loops) body) (by rw [Stmt.Supported])

/-- Whether statements in a row are supported can be decided. -/
def decidableBlockSupported (declared : List String) :
    (loops : List String) → (b : List Stmt) → Decidable (BlockSupported declared loops b)
  | loops, [] => decidable_of_iff True (by rw [BlockSupported])
  | loops, s :: rest =>
    have := s.decidableSupported declared loops
    have := decidableBlockSupported declared loops rest
    decidable_of_iff (s.Supported declared loops ∧ BlockSupported declared loops rest) (by
      rw [BlockSupported])

end

instance (p : Program) : Decidable p.Supported :=
  have := decidableBlockSupported p.names [] p.body
  inferInstanceAs (Decidable (p.names.Nodup ∧ BlockSupported p.names [] p.body))

end Abacus.Source
