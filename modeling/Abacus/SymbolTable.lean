import Abacus.RegisterPool
import Abacus.Machine.Program

/-!
# The symbol table

The declared variables of a program, each with its register and the value it starts from.
-/

namespace Abacus

open Machine (Register fileBound)
open Source (Declaration)

/-- A declared variable. -/
structure Symbol where
  name : String
  register : Register
  initial : UInt64
  deriving DecidableEq, Repr

/-- The declared variables, in the order of their declarations. -/
structure SymbolTable where
  symbols : List Symbol := []
  deriving DecidableEq, Repr

namespace SymbolTable

/-- The variable of a given name. -/
def find? (table : SymbolTable) (name : String) : Option Symbol :=
  table.symbols.find? (·.name = name)

/-- Give the next register to a variable that is not in the table yet. -/
def declare (table : SymbolTable) (d : Declaration) :
    EStateM Diagnostic RegisterPool SymbolTable := do
  if (table.find? d.name).isSome then
    throw (.duplicateVariable d.name d.line)
  let register ← EStateM.adaptExcept (Diagnostic.locate d.line) (RegisterPool.takeNamed d.name)
  return ⟨table.symbols ++ [⟨d.name, register, d.value⟩]⟩

/-- The table of a list of declarations. -/
def ofDeclarations (ds : List Declaration) : EStateM Diagnostic RegisterPool SymbolTable :=
  ds.foldlM declare {}

/-- The register of a variable that is used on some line. -/
def resolve (table : SymbolTable) (name : String) (line : UInt64) : Except Diagnostic Register :=
  match table.find? name with
  | some s => .ok s.register
  | none => .error (.unknownVariable name line)

/-- The register of each variable. -/
def bindings (table : SymbolTable) : List (String × Register) :=
  table.symbols.map fun s => (s.name, s.register)

/-- A register file of a given size that holds the starting values, and zero in every register
that no variable owns. -/
def initialRegisters (table : SymbolTable) (size : Nat) : Array Nat :=
  table.symbols.foldl (fun file s => file.setIfInBounds s.register.index s.initial.toNat)
    (Array.replicate size 0)

/-- The register file of a given size, if there can be one. -/
def initialRegisters? (table : SymbolTable) (size : Nat) : Option (Array Nat) :=
  if size < fileBound then some (table.initialRegisters size) else none

end SymbolTable

end Abacus
