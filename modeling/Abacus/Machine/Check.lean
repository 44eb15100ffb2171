import Abacus.Machine.Reach

/-!
# Checking programs

A program is sound when it ends in its only halt, when every jump target lies in it and when every
register it names lies in its register file. `Program.inspect` lists what is wrong with a program,
counts what it holds and, for a sound program, counts its dead instructions.
-/

namespace Abacus.Machine

/-- A reason to refuse a program. -/
inductive Defect where
  /-- The program has more instructions than allowed. -/
  | tooManyInstructions (count limit : Nat)
  /-- The last instruction is no halt, or there is none. -/
  | noTrailingHalt
  /-- A halt that is not the last instruction. -/
  | strayHalt (address : Nat)
  /-- An instruction names a register outside the register file. -/
  | invalidRegister (register : Register) (address : Nat)
  /-- An instruction may jump out of the program. -/
  | jumpOutOfBounds (address target : Nat)
  deriving DecidableEq, Repr

/-- The text that reports a defect. -/
def Defect.message : Defect → String
  | .tooManyInstructions count limit =>
    "Too many instructions: " ++ toString count ++ " (limit: " ++ toString limit ++ ")"
  | .noTrailingHalt => "Program does not end with HLT"
  | .strayHalt a => "HLT before the end of the program at address " ++ toString a
  | .invalidRegister r a => "Invalid register " ++ toString r.id ++ " at address " ++ toString a
  | .jumpOutOfBounds a target =>
    "Jump at address " ++ toString a ++ " targets out of bounds: " ++ toString target

/-- What a program holds. -/
structure Stats where
  instructions : Nat
  registers : Nat
  jumps : Nat
  tests : Nat
  /-- Dead instructions; these are only counted in a program without defects. -/
  unreachable : Nat
  deriving DecidableEq, Repr

/-- The findings on a program. -/
structure Report where
  defects : List Defect
  stats : Stats
  deriving DecidableEq, Repr

namespace Report

/-- The texts of findings that do not make a program unusable. -/
def warnings (r : Report) : List String :=
  if r.stats.unreachable = 0 then
    []
  else
    [toString r.stats.unreachable ++ " unreachable instruction(s)"]

/-- Everything that was found, in words. -/
def findings (r : Report) : List String :=
  r.defects.map Defect.message ++ r.warnings

/-- No defects, and under `strict` no warnings. -/
def valid (r : Report) (strict : Bool) : Bool :=
  r.defects.isEmpty && (!strict || r.warnings.isEmpty)

end Report

namespace Program

/-- The defects of one instruction, in the order: a halt out of place, its register, its
targets. -/
def defectsAt (p : Program) (index : Nat) (i : Instr) : List Defect :=
  let address := index + p.base.first
  let halt := if i = .hlt ∧ index + 1 ≠ p.code.size then [Defect.strayHalt address] else []
  let register := (i.register?.toList.filter fun r => r.id = 0 ∨ p.registers.size ≤ r.index).map
    fun r => Defect.invalidRegister r address
  let targets := (i.targets.filter fun a => (p.indexOf? a).isNone).map
    fun a => Defect.jumpOutOfBounds address a
  halt ++ register ++ targets

/-- All defects of a program: its size, its end, and then its instructions in order. -/
def defects (p : Program) (limit : Option Nat) : List Defect :=
  let size := (limit.toList.filter (· < p.code.size)).map
    fun limit => Defect.tooManyInstructions p.code.size limit
  let ending := if p.code.back? = some .hlt then [] else [Defect.noTrailingHalt]
  size ++ ending ++ p.code.toList.zipIdx.flatMap fun (i, index) => p.defectsAt index i

/-- Look a program over, with an optional limit on its size. -/
def inspect (p : Program) (limit : Option Nat) : Report :=
  let defects := p.defects limit
  { defects
    stats :=
      { instructions := p.code.size
        registers := p.registers.size
        jumps := p.code.countP fun i => i matches .jmp _
        tests := p.code.countP fun i => i matches .tst _ _ _
        unreachable := if defects.isEmpty then p.unreachableCount else 0 } }

/-- The report on a valid program, or else all that was found. -/
def check (p : Program) (limit : Option Nat) (strict : Bool) : Except (List String) Report :=
  let report := p.inspect limit
  if report.valid strict then .ok report else .error report.findings

end Program

end Abacus.Machine
