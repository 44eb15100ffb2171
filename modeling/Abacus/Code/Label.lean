/-!
# Labels

A label stands for a place in code whose address is not known yet. Labels are told apart by a
number that is unique within one compilation, and carry what they mark so that diagnostics can
name them.
-/

namespace Abacus.Code

/-- What a label marks. -/
inductive Label.Kind where
  /-- The start of a loop that empties a register. -/
  | clearLoop
  /-- The start of a loop that moves units between registers. -/
  | transferLoop
  /-- One round of such a loop. -/
  | transferStep
  /-- The exit of such a loop. -/
  | transferDone
  /-- A decrement of the minuend. -/
  | subtractStep
  /-- Emptying the subtrahend's copy once the minuend is zero. -/
  | subtractDrain
  /-- Past a guarded decrement. -/
  | subtractSkip
  /-- The block run when a condition holds. -/
  | thenBlock
  /-- The block run when it does not. -/
  | elseBlock
  /-- Past a conditional. -/
  | endIf
  /-- The way into a counted loop. -/
  | loopEntry
  /-- The test before every further round. -/
  | loopHeader
  /-- Advancing the loop's variable. -/
  | loopStep
  /-- The body of a counted loop. -/
  | loopBody
  /-- Past a counted loop. -/
  | loopExit
  deriving DecidableEq, Repr, Hashable

/-- The stem of a label's name. -/
def Label.Kind.stem : Label.Kind → String
  | .clearLoop => "clear"
  | .transferLoop => "transfer"
  | .transferStep => "transfer-step"
  | .transferDone => "transfer-done"
  | .subtractStep => "sub-step"
  | .subtractDrain => "sub-drain"
  | .subtractSkip => "sub-skip"
  | .thenBlock => "then"
  | .elseBlock => "else"
  | .endIf => "end-if"
  | .loopEntry => "loop-entry"
  | .loopHeader => "loop-start"
  | .loopStep => "loop-step"
  | .loopBody => "loop-body"
  | .loopExit => "loop-end"

/-- A place in code. -/
structure Label where
  kind : Label.Kind
  id : Nat
  deriving DecidableEq, Repr, Hashable

/-- The name of a label. -/
def Label.text (l : Label) : String :=
  "." ++ l.kind.stem ++ "_" ++ toString l.id

end Abacus.Code
