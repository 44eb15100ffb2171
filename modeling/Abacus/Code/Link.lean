import Abacus.Diagnostic
import Abacus.Machine.Program
import Abacus.Code.Fragment

/-!
# Linking

Linking joins fragments, closes them with a halt, gives every label its address and writes the
addresses into the holes.
-/

namespace Abacus.Code

open Machine

/-- The address of every label. A label may be defined only once. -/
def labelAddresses (first : Nat) (labels : List (Label × Nat)) :
    Except LinkProblem (Std.HashMap Label Nat) :=
  labels.foldlM
    (fun addresses (l, offset) =>
      if addresses.contains l then
        .error (.duplicate l)
      else
        .ok (addresses.insert l (first + offset)))
    ∅

/-- The address of one label. -/
def resolveLabel (addresses : Std.HashMap Label Nat) (l : Label) : Except LinkProblem Nat :=
  match addresses[l]? with
  | some address => .ok address
  | none => .error (.undefined l)

/-- The instruction found at a hole's index, with the hole's labels for targets. A hole fits only
an instruction of its own kind. -/
def Hole.fill (addresses : Std.HashMap Label Nat) (h : Hole) (found : Option Instr) :
    Except LinkProblem Instr :=
  match h, found with
  | .jump _ target, some (.jmp _) => do
    return .jmp (← resolveLabel addresses target)
  | .test _ ifNonzero ifZero, some (.tst r _ _) => do
    return .tst r (← resolveLabel addresses ifNonzero) (← resolveLabel addresses ifZero)
  | _, _ => .error (.misfit h.index found)

/-- Fill holes one after another, each in the code that the earlier ones left. -/
def fillHoles (addresses : Std.HashMap Label Nat) (holes : List Hole) (code : Array Instr) :
    Except LinkProblem (Array Instr) :=
  holes.foldlM
    (fun code h => do
      let i ← h.fill addresses code[h.index]?
      return code.setIfInBounds h.index i)
    code

/-- Make a program of fragments. -/
def link (base : AddressBase) (registers : Array Nat) (symbols : List (String × Register))
    (fragments : List Fragment) : Except LinkProblem Program := do
  let whole := Fragment.join fragments
  let addresses ← labelAddresses base.first whole.labels
  let code ← fillHoles addresses whole.holes (whole.code.toArray.push .hlt)
  return { code, registers, symbols, base }

end Abacus.Code
