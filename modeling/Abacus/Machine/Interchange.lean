import Abacus.Machine.Program
import Abacus.Json.Decode

/-!
# Machine programs as JSON

The JSON form of machine programs and of their parts. Each type has `toJson`; parts that can be
read back have `ofJson?`, which takes the number of containers that may still be opened.
-/

namespace Abacus.Machine

open Json (below? fields? tagged? choice?)

/-- The JSON form of a register. -/
def Register.toJson (r : Register) : Json := .nat r.id

/-- Read a register, whose number has 32 bits. -/
def Register.ofJson? (j : Json) : Option Register := (below? UInt32.size j).map Register.mk

/-- The JSON form of an address base. -/
def AddressBase.toJson : AddressBase → Json
  | .zero => .text "Zero"
  | .one => .text "One"

/-- Read an address base. -/
def AddressBase.ofJson? (depth : Nat) (j : Json) : Option AddressBase :=
  match choice? depth j with
  | some "Zero" => some .zero
  | some "One" => some .one
  | _ => none

namespace Instr

/-- The JSON form of an instruction. -/
def toJson : Instr → Json
  | .inc r => .tagged "Inc" r.toJson
  | .dec r => .tagged "Dec" r.toJson
  | .jmp target => .tagged "Jmp" (.nat target)
  | .tst r ifNonzero ifZero => .tagged "Tst" <| .record
    [("register", r.toJson), ("if_nonzero", .nat ifNonzero), ("if_zero", .nat ifZero)]
  | .hlt => .text "Hlt"

/-- Read the content of a test. -/
def testOfJson? : (depth : Nat) → Json → Option Instr
  | 0, _ => none
  | _ + 1, j => do
    let [some r, some ifNonzero, some ifZero] ← fields? ["register", "if_nonzero", "if_zero"] j
      | none
    return .tst (← Register.ofJson? r) (← below? wordBound ifNonzero) (← below? wordBound ifZero)

/-- Read an instruction. -/
def ofJson? (depth : Nat) (j : Json) : Option Instr :=
  if choice? depth j = some "Hlt" then
    some .hlt
  else
    match depth, tagged? j with
    | _ + 1, some ("Inc", content) => (Register.ofJson? content).map .inc
    | _ + 1, some ("Dec", content) => (Register.ofJson? content).map .dec
    | _ + 1, some ("Jmp", content) => (below? wordBound content).map .jmp
    | depth + 1, some ("Tst", content) => testOfJson? depth content
    | _, _ => none

end Instr

/-- The JSON form of a program. -/
def Program.toJson (p : Program) : Json :=
  .record
    [("instructions", .arr (p.code.toList.map Instr.toJson)),
      ("registers", .arr (p.registers.toList.map Json.nat)),
      ("symbols", .record (p.symbols.map fun (name, r) => (name, r.toJson))),
      ("address_base", p.base.toJson)]

end Abacus.Machine
