import Abacus.Compile
import Abacus.Source.Interchange
import Abacus.Machine.Interchange

/-!
# Compiling exchanged text

Source programs and settings arrive as text: settings in JSON, and programs in any exchange format,
which is JSON if no other is given. Settings that are not given have their default values.
-/

namespace Abacus

open Format (fieldOr)
open Json (below? fields?)
open Machine (AddressBase wordBound)

namespace Options

/-- The JSON form of settings. -/
def toJson (o : Options) : Json :=
  .record
    [("register_pool", .nat o.registerPool), ("opt_level", .nat o.level),
      ("address_base", o.base.toJson), ("max_instructions", .ofOption (o.limit.map .nat))]

/-- Read a limit, which is null if there is none. -/
def limitOfJson? : Json → Option (Option Nat)
  | .null => some none
  | j => (below? wordBound j).map some

/-- Read settings, any of which may be absent. -/
def ofJson? : (depth : Nat) → Json → Option Options
  | 0, _ => none
  | depth + 1, j => do
    let [pool, level, base, limit] ←
      fields? ["register_pool", "opt_level", "address_base", "max_instructions"] j | none
    let defaults : Options := {}
    return {
      registerPool := ← fieldOr defaults.registerPool (below? wordBound) pool
      level := ← fieldOr defaults.level (below? 256) level
      base := ← fieldOr defaults.base (AddressBase.ofJson? depth) base
      limit := ← fieldOr defaults.limit limitOfJson? limit }

/-- Read the text of settings, and see that programs can be compiled under them. -/
def ofText (s : String) : Except Diagnostic Options :=
  match Json.decode? ofJson? s with
  | none => .error (.invalidOptions .unreadable)
  | some o => (o.validate.map fun _ => o).mapError .invalidOptions

end Options

/-- Read the text of a source program in a format. -/
def Source.Program.ofText (s : String) (F : Format := Json.format) :
    Except Diagnostic Source.Program :=
  match Source.Program.ofText? F s with
  | none => .error (.invalidSource none)
  | some p => .ok p

/-- Compile the text of a source program in a format. -/
def compileText (o : Options) (s : String) (F : Format := Json.format) :
    Except Diagnostic Compilation := do
  compile o (← Source.Program.ofText s F)

end Abacus
