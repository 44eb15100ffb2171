/-!
# Instructions of the counter machine

The machine has registers that hold counts and five instructions: increment, decrement, jump,
zero test and halt. Registers are numbered from one, and jump targets are addresses.
-/

namespace Abacus.Machine

/-- A register, by its number. Numbering starts at one; number zero names no register. -/
structure Register where
  id : Nat
  deriving DecidableEq, Repr

namespace Register

/-- The place of a register in a register file. Number zero shares the first place. -/
def index (r : Register) : Nat := r.id - 1

/-- The register as diagnostics name it. -/
def text (r : Register) : String := "R" ++ toString r.id

end Register

/-- An instruction with absolute jump targets. -/
inductive Instr where
  /-- Add one to a register and go on. -/
  | inc (register : Register)
  /-- Take one from a register that is not zero and go on. -/
  | dec (register : Register)
  /-- Go to an address. -/
  | jmp (target : Nat)
  /-- Go to one of two addresses, as the register is nonzero or zero. -/
  | tst (register : Register) (ifNonzero ifZero : Nat)
  /-- Stop. -/
  | hlt
  deriving DecidableEq, Repr

namespace Instr

/-- The register an instruction works on. -/
def register? : Instr → Option Register
  | .inc r => some r
  | .dec r => some r
  | .tst r _ _ => some r
  | .jmp _ => none
  | .hlt => none

/-- The addresses an instruction may jump to. -/
def targets : Instr → List Nat
  | .jmp a => [a]
  | .tst _ a b => [a, b]
  | _ => []

/-- The three-letter name of an instruction. -/
def mnemonic : Instr → String
  | .inc _ => "INC"
  | .dec _ => "DEC"
  | .jmp _ => "JMP"
  | .tst _ _ _ => "TST"
  | .hlt => "HLT"

/-- The instruction as a listing shows it. -/
def text : Instr → String
  | .inc r => "INC " ++ toString r.id
  | .dec r => "DEC " ++ toString r.id
  | .jmp a => "JMP " ++ toString a
  | .tst r a b => "TST " ++ toString r.id ++ ", " ++ toString a ++ ", " ++ toString b
  | .hlt => "HLT"

end Instr

end Abacus.Machine
