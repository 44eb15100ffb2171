import Abacus.Machine.Program

/-!
# Running programs

`Program.step` performs one instruction, `Program.runFrom` repeats it for a bounded number of
steps. A run halts, or ends in a `Fault`: registers hold counts below `wordBound`, so an increment
of a full register is a fault like a decrement of an empty one.
-/

namespace Abacus.Machine

/-- Why a run did not halt. -/
inductive Fault where
  /-- A decrement of a register that holds zero. -/
  | decrementOfZero (register : Register) (address : Nat)
  /-- The program was still running after the allowed number of steps. -/
  | stepLimitExceeded (limit : Nat)
  /-- Control reached an address outside the program. -/
  | badAddress (address : Nat)
  /-- An instruction names a register outside the register file. -/
  | badRegister (register : Register) (address : Nat)
  /-- An increment of a register that holds the largest count. -/
  | overflow (register : Register) (address : Nat)
  /-- A starting value was given for a variable that the program does not have. -/
  | unknownVariable (name : String)
  deriving DecidableEq, Repr

/-- The text that reports a fault. -/
def Fault.message : Fault → String
  | .decrementOfZero r a => "DEC of zero register " ++ r.text ++ " at line " ++ toString a
  | .stepLimitExceeded limit => "Step limit of " ++ toString limit ++ " exceeded"
  | .badAddress a => "Jump to line " ++ toString a ++ " outside the program"
  | .badRegister r a => "Register " ++ r.text ++ " outside the register file at line " ++ toString a
  | .overflow r a => "INC of full register " ++ r.text ++ " at line " ++ toString a
  | .unknownVariable name => "Unknown variable: " ++ name

/-- The address of the next instruction, and the counts in the registers. -/
structure Config where
  address : Nat
  registers : Array Nat
  deriving DecidableEq, Repr

/-- The count in a register. Number zero names no register. -/
def Config.read? (c : Config) (r : Register) : Option Nat :=
  if r.id = 0 then none else c.registers[r.index]?

/-- What one step leads to. -/
inductive Outcome where
  | next (config : Config)
  | halted (registers : Array Nat)
  | fault (fault : Fault)
  deriving DecidableEq, Repr

/-- Perform an instruction. The address of the configuration is the instruction's own. -/
def Instr.perform (i : Instr) (c : Config) : Outcome :=
  match i with
  | .inc r =>
    match c.read? r with
    | none => .fault (.badRegister r c.address)
    | some n =>
      if n + 1 < wordBound then
        .next ⟨c.address + 1, c.registers.setIfInBounds r.index (n + 1)⟩
      else
        .fault (.overflow r c.address)
  | .dec r =>
    match c.read? r with
    | none => .fault (.badRegister r c.address)
    | some 0 => .fault (.decrementOfZero r c.address)
    | some (n + 1) => .next ⟨c.address + 1, c.registers.setIfInBounds r.index n⟩
  | .jmp target => .next ⟨target, c.registers⟩
  | .tst r ifNonzero ifZero =>
    match c.read? r with
    | none => .fault (.badRegister r c.address)
    | some 0 => .next ⟨ifZero, c.registers⟩
    | some (_ + 1) => .next ⟨ifNonzero, c.registers⟩
  | .hlt => .halted c.registers

/-- A run that halted: the counts it left, and how many instructions it performed, the halt
included. -/
structure Execution where
  registers : Array Nat
  steps : Nat
  deriving DecidableEq, Repr

namespace Program

/-- Perform the instruction that a configuration has reached. -/
def step (p : Program) (c : Config) : Outcome :=
  match p.fetch? c.address with
  | none => .fault (.badAddress c.address)
  | some i => i.perform c

/-- Run with `left` of `limit` steps to go. -/
def runFrom (p : Program) (limit : Nat) : (left : Nat) → Config → Except Fault Execution
  | 0, _ => .error (.stepLimitExceeded limit)
  | left + 1, c =>
    match p.step c with
    | .next c' => p.runFrom limit left c'
    | .halted registers => .ok ⟨registers, limit - left⟩
    | .fault f => .error f

/-- Run from the first instruction with a given register file. -/
def runOn (p : Program) (limit : Nat) (registers : Array Nat) : Except Fault Execution :=
  p.runFrom limit limit ⟨p.base.first, registers⟩

/-- Run from the program's own register file. -/
def run (p : Program) (limit : Nat) : Except Fault Execution :=
  p.runOn limit p.registers

/-- The register file with some named variables set, the later of two settings winning. A variable
whose register lies outside the file has no place to be set. -/
def withValues (p : Program) (settings : List (String × Nat)) : Except Fault (Array Nat) :=
  settings.foldlM
    (fun registers setting =>
      match p.registerOf? setting.1 with
      | some r => .ok (registers.setIfInBounds r.index setting.2)
      | none => .error (.unknownVariable setting.1))
    p.registers

/-- Run with some named variables started at other values. -/
def runWith (p : Program) (limit : Nat) (settings : List (String × Nat)) :
    Except Fault Execution := do
  p.runOn limit (← p.withValues settings)

end Program

/-- The steps a run is given when nothing else is said. -/
def defaultStepLimit : Nat := 10000000

namespace Execution

/-- The count left in a register. -/
def register? (e : Execution) (r : Register) : Option Nat :=
  e.registers[r.index]?

/-- The count left in a named variable of the program that was run. -/
def value? (e : Execution) (p : Program) (name : String) : Option Nat :=
  (p.registerOf? name).bind e.register?

/-- The counts left in the registers that no variable of the program owns. -/
def scratch (e : Execution) (p : Program) : List Nat :=
  e.registers.toList.drop p.symbols.length

end Execution

end Abacus.Machine
