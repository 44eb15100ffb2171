import Abacus.Source.Basic
import Abacus.Machine.Instr
import Abacus.Code.Label

/-!
# Diagnostics

Why a compilation failed. A diagnostic is a cause; `Diagnostic.message` words it,
`Diagnostic.origin` says whether the source program, the settings or the compiler itself is at
fault, and `Diagnostic.line?` gives the source line where one is known.
-/

namespace Abacus

open Machine (Register Instr)
open Code (Label)
open Source (Condition)

/-- A broken rule of register use. -/
inductive Conflict where
  /-- A variable's register was asked for after scratch registers had been handed out. -/
  | lateVariable (name : String)
  /-- A register would be moved into itself. -/
  | moveAlias
  /-- A register would be copied into itself. -/
  | copyAlias
  /-- A variable's register was given back. -/
  | releasedVariable
  /-- A scratch register was given back before the one handed out after it. -/
  | outOfOrder (top : Register)
  /-- A register that is not in use was given back. -/
  | notLive
  /-- A scratch register was never given back. -/
  | stillLive
  /-- A conflict in a caller's own words. -/
  | reported (reason : String)
  deriving DecidableEq, Repr

/-- The text of a conflict. -/
def Conflict.message : Conflict → String
  | .lateVariable name =>
    "named register for '" ++ name ++ "' requested after scratch allocation began"
  | .moveAlias => "move source and destination alias"
  | .copyAlias => "copy source and destination alias"
  | .releasedVariable => "named registers are never released"
  | .outOfOrder top => "released out of order while " ++ top.text ++ " is still live"
  | .notLive => "released while not live"
  | .stillLive => "scratch register still live at end of program"
  | .reported reason => reason

/-- A source construct that has no code. -/
inductive Construct where
  /-- An assignment to the variable of an enclosing loop. -/
  | loopVariableAssigned (name : String)
  /-- A loop that takes the variable of an enclosing loop. -/
  | loopVariableReused (name : String)
  /-- A loop bound that is a literal. -/
  | literalBound (bound : UInt64)
  /-- A condition other than a variable compared with zero. -/
  | notAgainstZero (condition : Condition)
  /-- A comparison with zero that has the same answer for every number. -/
  | constantCondition (condition : Condition)
  /-- A construct in a caller's own words. -/
  | reported (description : String)
  deriving DecidableEq, Repr

/-- The text that describes a construct. -/
def Construct.message : Construct → String
  | .loopVariableAssigned name => "assignment to loop variable '" ++ name ++ "' inside its loop"
  | .loopVariableReused name => "nested loop rebinding '" ++ name ++ "'"
  | .literalBound bound => "range(" ++ toString bound.toNat ++ ") (loop bound must be a variable)"
  | .notAgainstZero condition => "condition '" ++ condition.text ++ "' (only comparisons with 0)"
  | .constantCondition condition =>
    "condition '" ++ condition.text ++ "' is constant on unsigned registers"
  | .reported description => description

/-- Why labels could not be given addresses. -/
inductive LinkProblem where
  /-- A label is defined more than once. -/
  | duplicate (label : Label)
  /-- A label is used and never defined. -/
  | undefined (label : Label)
  /-- A hole does not fit the instruction at its index. -/
  | misfit (index : Nat) (found : Option Instr)
  /-- A problem in a caller's own words. -/
  | reported (label reason : String)
  deriving DecidableEq, Repr

/-- An instruction, or its absence, spelled out in full. -/
private def spelled : Option Instr → String
  | none => "None"
  | some (.inc r) => "Some(Inc(Register(" ++ toString r.id ++ ")))"
  | some (.dec r) => "Some(Dec(Register(" ++ toString r.id ++ ")))"
  | some (.jmp target) => "Some(Jmp(" ++ toString target ++ "))"
  | some (.tst r ifNonzero ifZero) =>
    "Some(Tst \x7b register: Register(" ++ toString r.id ++ "), if_nonzero: " ++ toString ifNonzero
      ++ ", if_zero: " ++ toString ifZero ++ " \x7d)"
  | some .hlt => "Some(Hlt)"

/-- The name of what could not be linked, and the reason. -/
def LinkProblem.message : LinkProblem → String
  | .duplicate l => l.text ++ ": label defined more than once"
  | .undefined l => l.text ++ ": no definition in the program"
  | .misfit index found =>
    "hole@" ++ toString index ++ ": hole does not match instruction " ++ spelled found
  | .reported label reason => label ++ ": " ++ reason

/-- Settings under which nothing compiles. -/
inductive OptionsProblem where
  /-- The settings could not be read. -/
  | unreadable
  /-- There are no registers. -/
  | emptyPool
  /-- There is no such optimization level. -/
  | unknownLevel (level highest : Nat)
  /-- There is no room for any instruction. -/
  | noInstructions
  /-- A problem in a caller's own words. -/
  | reported (reason : String)
  deriving DecidableEq, Repr

/-- The text of a problem with settings. -/
def OptionsProblem.message : OptionsProblem → String
  | .unreadable => "unparsable options"
  | .emptyPool => "register_pool must hold at least one register"
  | .unknownLevel level highest =>
    "unknown optimization level " ++ toString level ++ " (max " ++ toString highest ++ ")"
  | .noInstructions => "max_instructions must allow at least the final HLT"
  | .reported reason => reason

/-- Who has to act on a diagnostic. -/
inductive Origin where
  /-- The source program is outside what can be compiled. -/
  | source
  /-- The compiler broke one of its own rules. -/
  | internal
  /-- The settings or the exchanged data are malformed. -/
  | configuration
  deriving DecidableEq, Repr

/-- Why a compilation failed. -/
inductive Diagnostic where
  /-- More registers are needed than there are. The line is known once a statement or declaration
  has claimed the failure. -/
  | poolExhausted (requested pool : Nat) (line : Option UInt64)
  /-- The code does not fit in the instruction limit. -/
  | tooLarge (limit : Nat) (line : UInt64)
  | conflict (register : Register) (conflict : Conflict)
  | unsupported (construct : Construct) (line : UInt64)
  | unknownVariable (name : String) (line : UInt64)
  | duplicateVariable (name : String) (line : UInt64)
  | unresolved (problem : LinkProblem)
  /-- The finished program did not pass its check. -/
  | rejected (findings : List String)
  | invalidOptions (problem : OptionsProblem)
  /-- The source program could not be read. -/
  | invalidSource (reason : Option String)
  /-- A label or hole lies where no code can be. -/
  | misplaced
  deriving DecidableEq, Repr

namespace Diagnostic

/-- The text of a diagnostic. -/
def message : Diagnostic → String
  | .poolExhausted requested pool _ =>
    "Register pool exhausted: " ++ toString requested ++ " registers requested, pool holds "
      ++ toString pool
  | .tooLarge limit line =>
    "Program too large at line " ++ toString line.toNat ++ ": more than " ++ toString limit
      ++ " instructions"
  | .conflict r c => "Register conflict on " ++ r.text ++ ": " ++ c.message
  | .unsupported c line =>
    "Unsupported construct at line " ++ toString line.toNat ++ ": " ++ c.message
  | .unknownVariable name line =>
    "Unknown variable '" ++ name ++ "' at line " ++ toString line.toNat
  | .duplicateVariable name line =>
    "Variable '" ++ name ++ "' declared twice (second declaration at line "
      ++ toString line.toNat ++ ")"
  | .unresolved problem => "Unresolved label " ++ problem.message
  | .rejected findings => "Verification failed: " ++ "; ".intercalate findings
  | .invalidOptions problem => "Invalid options: " ++ problem.message
  | .invalidSource none => "Invalid AST"
  | .invalidSource (some reason) => "Invalid AST: " ++ reason
  | .misplaced => "Position outside the code"

/-- Who has to act. -/
def origin : Diagnostic → Origin
  | .poolExhausted _ _ _ => .source
  | .tooLarge _ _ => .source
  | .unsupported _ _ => .source
  | .unknownVariable _ _ => .source
  | .duplicateVariable _ _ => .source
  | .conflict _ _ => .internal
  | .unresolved _ => .internal
  | .rejected _ => .internal
  | .misplaced => .internal
  | .invalidOptions _ => .configuration
  | .invalidSource _ => .configuration

/-- The source line at fault, where one is known. -/
def line? : Diagnostic → Option UInt64
  | .poolExhausted _ _ line => line
  | .tooLarge _ line => some line
  | .unsupported _ line => some line
  | .unknownVariable _ line => some line
  | .duplicateVariable _ line => some line
  | _ => none

/-- Give a line to a diagnostic that should have one and has none yet. -/
def locate (line : UInt64) : Diagnostic → Diagnostic
  | .poolExhausted requested pool none => .poolExhausted requested pool (some line)
  | d => d

end Diagnostic

end Abacus
