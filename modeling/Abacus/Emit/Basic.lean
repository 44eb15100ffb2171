import Abacus.SymbolTable
import Abacus.Code.Fragment
import Abacus.Machine.Program

/-!
# Emitting code

Code is emitted by actions that hand out registers and labels and may fail. What an action has
handed out stays handed out when it fails, so the state is kept on failure as well. Beside the
state there is a `Context`, which says what the code may refer to and how large it may become.
-/

namespace Abacus.Emit

open Machine Code

/-- What has been handed out so far, and how much code has been emitted. -/
structure State where
  pool : RegisterPool
  nextLabel : Nat := 0
  /-- How many instructions the statements emitted so far have. -/
  emitted : Nat := 0
  deriving DecidableEq, Repr

/-- Actions that emit code. -/
abbrev EmitM := EStateM Diagnostic State

/-- Act on the register pool. -/
def onPool {α : Type} (act : EStateM Diagnostic RegisterPool α) : EmitM α := fun s =>
  match act s.pool with
  | .ok a pool => .ok a { s with pool }
  | .error d pool => .error d { s with pool }

/-- Hand out a scratch register. -/
def scratch : EmitM Register := onPool RegisterPool.takeScratch

/-- Take back a scratch register. -/
def release (r : Register) : EmitM Unit := onPool (RegisterPool.release r)

/-- Hand out `count` label numbers in a row, and give the first. -/
def reserveLabels (count : Nat) : EmitM Nat :=
  modifyGet fun s => (s.nextLabel, { s with nextLabel := s.nextLabel + count })

/-- Hand out a label. -/
def fresh (kind : Label.Kind) : EmitM Label := do
  return ⟨kind, ← reserveLabels 1⟩

/-- What emitted code may refer to, and how large the whole program may become. -/
structure Context where
  symbols : SymbolTable
  /-- The most instructions the program may have, the final halt included. -/
  limit : Option Nat
  /-- The variables of the enclosing loops, the innermost first. -/
  loops : List String := []

namespace Context

/-- The largest program size there is. -/
def sizeBound (ctx : Context) : Nat := ctx.limit.getD (wordBound - 1)

/-- How many instructions there is room for after `emitted` ones. Under a limit, one place is kept
for the final halt. -/
def room (ctx : Context) (emitted : Nat) : Nat :=
  match ctx.limit with
  | some limit => limit - 1 - emitted
  | none => wordBound - 1 - emitted

/-- The failure of code that does not fit. -/
def tooLarge (ctx : Context) (line : UInt64) : Diagnostic := .tooLarge ctx.sizeBound line

/-- The register of a variable. -/
def resolve (ctx : Context) (name : String) (line : UInt64) : EmitM Register :=
  match ctx.symbols.resolve name line with
  | .ok r => return r
  | .error d => throw d

/-- Fail unless there is room for `count` more instructions. -/
def ensureRoom (ctx : Context) (count : Nat) (line : UInt64) : EmitM Unit := do
  if ctx.room (← get).emitted < count then
    throw (ctx.tooLarge line)

/-- Emit the code of a statement and count it. Statements inside it have counted themselves, so
the count starts over from where it stood before. A failure that has no line yet gets the
statement's. -/
def statement (ctx : Context) (line : UInt64) (act : EmitM Fragment) : EmitM Fragment := do
  let before := (← get).emitted
  let f ← EStateM.adaptExcept (Diagnostic.locate line) act
  modify fun s => { s with emitted := before }
  ctx.ensureRoom f.size line
  modify fun s => { s with emitted := before + f.size }
  return f

end Context

end Abacus.Emit
