import Abacus.Machine.Instr

/-!
# Programs of the counter machine

A program is its code, the register file it starts from, the registers of its named variables and
the address of its first instruction, which is zero or one.
-/

namespace Abacus.Machine

/-- Every count, address and index of the machine is below this bound. -/
def wordBound : Nat := UInt64.size

/-- A register file has fewer registers than this: a register takes eight bytes, and memory has at
most half as many bytes as there are machine words. -/
def fileBound : Nat := wordBound / 16

/-- How the instructions of a program are numbered. -/
inductive AddressBase where
  | zero
  | one
  deriving DecidableEq, Repr

/-- The address of the first instruction. -/
def AddressBase.first : AddressBase → Nat
  | .zero => 0
  | .one => 1

/-- A program with absolute addresses. -/
structure Program where
  code : Array Instr
  /-- The counts that the registers start from. -/
  registers : Array Nat
  /-- The register of each named variable. -/
  symbols : List (String × Register)
  base : AddressBase
  deriving DecidableEq, Repr

namespace Program

/-- The index of the instruction at an address, if the address lies in the program. -/
def indexOf? (p : Program) (address : Nat) : Option Nat :=
  if p.base.first ≤ address ∧ address - p.base.first < p.code.size then
    some (address - p.base.first)
  else
    none

/-- The address of an index. An index counts as one whether or not the program reaches that far;
there is none for an index whose address is no machine word. -/
def addressOf? (p : Program) (index : Nat) : Option Nat :=
  if index + p.base.first < wordBound then some (index + p.base.first) else none

/-- The instruction at an address. -/
def fetch? (p : Program) (address : Nat) : Option Instr :=
  if p.base.first ≤ address then p.code[address - p.base.first]? else none

/-- The register of a named variable. -/
def registerOf? (p : Program) (name : String) : Option Register :=
  p.symbols.lookup name

/-- The program text: one line for each instruction, each line ended. -/
def listing (p : Program) : String :=
  String.join (p.code.toList.map fun i => i.text ++ "\n")

end Program

end Abacus.Machine
