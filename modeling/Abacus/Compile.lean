import Abacus.Emit.Block
import Abacus.Code.Optimize
import Abacus.Code.Link
import Abacus.Machine.Check

/-!
# The compiler

`compile` turns a source program into a program of the counter machine: registers for the
variables, code for the statements, optimized, linked and checked.
-/

namespace Abacus

open Machine (AddressBase Stats)

/-- Settings of a compilation. -/
structure Options where
  /-- How many registers the machine has. -/
  registerPool : Nat := 256
  /-- How hard to optimize. -/
  level : Nat := 1
  base : AddressBase := .one
  /-- The most instructions a program may have, if there is a limit. -/
  limit : Option Nat := some 1048576
  deriving DecidableEq, Repr

/-- The highest optimization level. -/
def Options.highestLevel : Nat := 1

/-- Refuse settings under which nothing compiles. -/
def Options.validate (o : Options) : Except OptionsProblem Unit := do
  if o.registerPool = 0 then
    throw .emptyPool
  if o.level > highestLevel then
    throw (.unknownLevel o.level highestLevel)
  if o.limit = some 0 then
    throw .noInstructions

/-- A compiled program, and what became of the code on the way. -/
structure Compilation where
  program : Machine.Program
  /-- How many instructions were emitted. -/
  emitted : Nat
  /-- How many of them optimizing removed. -/
  removed : Nat
  stats : Stats
  warnings : List String
  deriving DecidableEq, Repr

/-- The value and final state of an action, or its failure. -/
def outcome {σ α : Type} (act : EStateM Diagnostic σ α) (s : σ) : Except Diagnostic (α × σ) :=
  match act s with
  | .ok a s => .ok (a, s)
  | .error d _ => .error d

/-- Compile a source program. -/
def compile (o : Options) (p : Source.Program) : Except Diagnostic Compilation := do
  o.validate.mapError .invalidOptions
  let (symbols, pool) ←
    outcome (SymbolTable.ofDeclarations p.declarations) { capacity := o.registerPool }
  let (emitted, state) ← outcome (Emit.block { symbols, limit := o.limit } p.body) { pool }
  let registerCount ← state.pool.finish
  let optimized ← (emitted.optimize o.level).elim (.error .misplaced) .ok
  let program ← (Code.link o.base (symbols.initialRegisters registerCount) symbols.bindings
    [optimized]).mapError .unresolved
  let report ← (program.check o.limit false).mapError .rejected
  return {
    program
    emitted := emitted.size
    removed := emitted.size - optimized.size
    stats := report.stats
    warnings := report.warnings }

/-- The program that a source program compiles to under the default settings. -/
def compileDefault (p : Source.Program) : Except Diagnostic Machine.Program :=
  (compile {} p).map Compilation.program

end Abacus
