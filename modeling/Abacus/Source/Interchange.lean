import Abacus.Source.Basic
import Abacus.Json.Format

/-!
# Source programs in an exchange format

The form of source programs in which parsers hand them over. Whatever the format, each type has
`encode`, which puts its form together, and `decode?`, which reads it and takes the number of
containers that may still be opened. `toJson` and `ofJson?` are these for JSON.
-/

namespace Abacus.Source

open Format (fieldOr)

namespace Operand

variable (F : Format)

/-- The form of an operand. -/
def encode : Operand → F.Value
  | .var name => F.tagged "Variable" (F.text name)
  | .lit value => F.tagged "Literal" (F.word value)

/-- Read an operand. -/
def decode? : (depth : Nat) → F.Value → Option Operand
  | 0, _ => none
  | _ + 1, v =>
    match F.tagged? v with
    | some ("Variable", content) => (F.text? content).map .var
    | some ("Literal", content) => (F.word? content).map .lit
    | _ => none

end Operand

namespace BinOp

variable (F : Format)

/-- The form of an operator. -/
def encode : BinOp → F.Value
  | .add => F.choice "Add"
  | .sub => F.choice "Sub"

/-- Read an operator. -/
def decode? (depth : Nat) (v : F.Value) : Option BinOp :=
  match F.choice? depth v with
  | some "Add" => some .add
  | some "Sub" => some .sub
  | _ => none

end BinOp

namespace Expr

variable (F : Format)

/-- The form of an expression. -/
def encode : Expr → F.Value
  | .operand o => F.tagged "Operand" (o.encode F)
  | .binary op lhs rhs => F.tagged "Binary" <|
    F.record [("op", op.encode F), ("lhs", lhs.encode F), ("rhs", rhs.encode F)]

/-- Read the content of a binary expression. -/
def decodeBinary? : (depth : Nat) → F.Value → Option Expr
  | 0, _ => none
  | depth + 1, v => do
    let [some op, some lhs, some rhs] ← F.fields? ["op", "lhs", "rhs"] v | none
    return .binary (← BinOp.decode? F depth op) (← Operand.decode? F depth lhs)
      (← Operand.decode? F depth rhs)

/-- Read an expression. -/
def decode? : (depth : Nat) → F.Value → Option Expr
  | 0, _ => none
  | depth + 1, v =>
    match F.tagged? v with
    | some ("Operand", content) => (Operand.decode? F depth content).map .operand
    | some ("Binary", content) => decodeBinary? F depth content
    | _ => none

end Expr

namespace Comparison

variable (F : Format)

/-- The form of a comparison. -/
def encode : Comparison → F.Value
  | .eq => F.choice "Eq"
  | .ne => F.choice "Ne"
  | .lt => F.choice "Lt"
  | .le => F.choice "Le"
  | .gt => F.choice "Gt"
  | .ge => F.choice "Ge"

/-- Read a comparison. -/
def decode? (depth : Nat) (v : F.Value) : Option Comparison :=
  match F.choice? depth v with
  | some "Eq" => some .eq
  | some "Ne" => some .ne
  | some "Lt" => some .lt
  | some "Le" => some .le
  | some "Gt" => some .gt
  | some "Ge" => some .ge
  | _ => none

end Comparison

namespace Condition

variable (F : Format)

/-- The form of a condition. -/
def encode (c : Condition) : F.Value :=
  F.record [("lhs", c.lhs.encode F), ("op", c.op.encode F), ("rhs", c.rhs.encode F)]

/-- Read a condition. -/
def decode? : (depth : Nat) → F.Value → Option Condition
  | 0, _ => none
  | depth + 1, v => do
    let [some lhs, some op, some rhs] ← F.fields? ["lhs", "op", "rhs"] v | none
    return ⟨← Operand.decode? F depth lhs, ← Comparison.decode? F depth op,
      ← Operand.decode? F depth rhs⟩

end Condition

namespace Declaration

variable (F : Format)

/-- The form of a declaration. -/
def encode (d : Declaration) : F.Value :=
  F.record [("name", F.text d.name), ("value", F.word d.value), ("line", F.word d.line)]

/-- Read a declaration, which may lack its line. -/
def decode? : (depth : Nat) → F.Value → Option Declaration
  | 0, _ => none
  | _ + 1, v => do
    let [some name, some value, line] ← F.fields? ["name", "value", "line"] v | none
    return ⟨← F.text? name, ← F.word? value, ← fieldOr 0 F.word? line⟩

end Declaration

namespace Stmt

variable (F : Format)

/-- A statement's form: what it does, and its line. -/
def lined (kind : F.Value) (line : UInt64) : F.Value :=
  F.record [("kind", kind), ("line", F.word line)]

mutual

/-- The form of a statement. -/
def encode : Stmt → F.Value
  | .assign target value line =>
    lined F (F.tagged "Assign" <|
      F.record [("target", F.text target), ("value", value.encode F)]) line
  | .branch condition yes no line =>
    lined F (F.tagged "If" <| F.record
      [("condition", condition.encode F), ("then_branch", F.row (encodeList yes)),
        ("else_branch", F.row (encodeList no))]) line
  | .loop counter bound body line =>
    lined F (F.tagged "For" <| F.record
      [("variable", F.text counter), ("bound", bound.encode F),
        ("body", F.row (encodeList body))]) line

/-- The forms of statements in a row. -/
def encodeList : List Stmt → List F.Value
  | [] => []
  | s :: rest => s.encode :: encodeList rest

end

mutual

/-- Read a statement, which may lack its line. -/
def decode? : (depth : Nat) → F.Value → Option Stmt
  | 0, _ => none
  | depth + 1, v => do
    let [some kind, line] ← F.fields? ["kind", "line"] v | none
    decodeKind? depth (← fieldOr 0 F.word? line) kind

/-- Read what a statement does: a choice, and within it a record. -/
def decodeKind? : (depth : Nat) → (line : UInt64) → F.Value → Option Stmt
  | depth + 2, line, v =>
    match F.tagged? v with
    | some ("Assign", content) => do
      let [some target, some value] ← F.fields? ["target", "value"] content | none
      return .assign (← F.text? target) (← Expr.decode? F depth value) line
    | some ("If", content) => do
      let [some condition, some yes, some no] ←
        F.fields? ["condition", "then_branch", "else_branch"] content | none
      return .branch (← Condition.decode? F depth condition) (← decodeList? depth yes)
        (← decodeList? depth no) line
    | some ("For", content) => do
      let [some counter, some bound, some body] ← F.fields? ["variable", "bound", "body"] content
        | none
      return .loop (← F.text? counter) (← Operand.decode? F depth bound)
        (← decodeList? depth body) line
    | _ => none
  | _, _, _ => none

/-- Read statements in a row. -/
def decodeList? : (depth : Nat) → F.Value → Option (List Stmt)
  | 0, _ => none
  | depth + 1, v => do (← F.row? v).mapM (decode? depth)

end

end Stmt

namespace Program

variable (F : Format)

/-- The form of a program. -/
def encode (p : Program) : F.Value :=
  F.record [("declarations", F.row (p.declarations.map (Declaration.encode F))),
    ("body", F.row (Stmt.encodeList F p.body))]

/-- Read declarations in a row. -/
def decodeDeclarations? : (depth : Nat) → F.Value → Option (List Declaration)
  | 0, _ => none
  | depth + 1, v => do (← F.row? v).mapM (Declaration.decode? F depth)

/-- Read a program. -/
def decode? : (depth : Nat) → F.Value → Option Program
  | 0, _ => none
  | depth + 1, v => do
    let [some declarations, some body] ← F.fields? ["declarations", "body"] v | none
    return ⟨← decodeDeclarations? F depth declarations, ← Stmt.decodeList? F depth body⟩

/-- Read the text of a program. -/
def ofText? (s : String) : Option Program := (F.read? s).bind (decode? F F.depthLimit)

end Program

/-! ### JSON -/

/-- The JSON form of an operand. -/
def Operand.toJson : Operand → Json := encode Json.format

/-- Read an operand from its JSON form. -/
def Operand.ofJson? : (depth : Nat) → Json → Option Operand := decode? Json.format

/-- The JSON form of an operator. -/
def BinOp.toJson : BinOp → Json := encode Json.format

/-- Read an operator from its JSON form. -/
def BinOp.ofJson? : (depth : Nat) → Json → Option BinOp := decode? Json.format

/-- The JSON form of an expression. -/
def Expr.toJson : Expr → Json := encode Json.format

/-- Read an expression from its JSON form. -/
def Expr.ofJson? : (depth : Nat) → Json → Option Expr := decode? Json.format

/-- The JSON form of a comparison. -/
def Comparison.toJson : Comparison → Json := encode Json.format

/-- Read a comparison from its JSON form. -/
def Comparison.ofJson? : (depth : Nat) → Json → Option Comparison := decode? Json.format

/-- The JSON form of a condition. -/
def Condition.toJson : Condition → Json := encode Json.format

/-- Read a condition from its JSON form. -/
def Condition.ofJson? : (depth : Nat) → Json → Option Condition := decode? Json.format

/-- The JSON form of a declaration. -/
def Declaration.toJson : Declaration → Json := encode Json.format

/-- Read a declaration from its JSON form. -/
def Declaration.ofJson? : (depth : Nat) → Json → Option Declaration := decode? Json.format

/-- The JSON form of a statement. -/
def Stmt.toJson : Stmt → Json := encode Json.format

/-- Read a statement from its JSON form. -/
def Stmt.ofJson? : (depth : Nat) → Json → Option Stmt := decode? Json.format

/-- The JSON form of a program. -/
def Program.toJson : Program → Json := encode Json.format

end Abacus.Source
