import Abacus.Interchange
import Abacus.Proofs.Printing

/-!
# Handing programs over as text

A source program is handed over as the text of its form in an exchange format. The format is not
part of this library; what reading back relies on are its laws (`Format.Lawful`), each about one
part that forms are put together from, or about the text of a whole value. By them, reading the text
gives back the same program, whatever names, numbers and lines it has, as long as no more containers
are open at once than may be (`Source.Program.ofText_write`).

Each type has a lemma `decode?_encode`, which follows the form of its values: reading succeeds
exactly if the form is not deeper than the reader may go. JSON is a lawful format
(`Json.lawful_format`). The names of a record's fields are distinct, so each field is found
(`Json.fields?_record`).
-/

namespace Abacus

/-! ### The laws of a format -/

namespace Format

/-- The values that are put together from the parts of a format. -/
inductive Formed (F : Format) : F.Value → Prop
  | text (s : String) : Formed F (F.text s)
  | word (value : UInt64) : Formed F (F.word value)
  | choice (tag : String) : Formed F (F.choice tag)
  | row {items : List F.Value} : (∀ v ∈ items, Formed F v) → Formed F (F.row items)
  | record {members : List (String × F.Value)} :
      (∀ m ∈ members, Formed F m.2) → Formed F (F.record members)
  | tagged (tag : String) {content : F.Value} :
      Formed F content → Formed F (F.tagged tag content)

/-- What a format is relied on for: each part is read as what was put into it, what was written is
read, and as many containers may be open at once as is documented of the format. -/
structure Lawful (F : Format) : Prop where
  text?_text : ∀ s, F.text? (F.text s) = some s
  word?_word : ∀ value, F.word? (F.word value) = some value
  row?_row : ∀ items, F.row? (F.row items) = some items
  /-- The fields of a record are found by their names, if these are distinct. -/
  fields?_record : ∀ {names : List String} {members : List (String × F.Value)},
    members.map Prod.fst = names → names.Nodup →
      F.fields? names (F.record members) = some (members.map fun m => some m.2)
  tagged?_tagged : ∀ tag content, F.tagged? (F.tagged tag content) = some (tag, content)
  /-- A choice without content is written so that it opens no container. -/
  choice?_choice : ∀ depth tag, F.choice? depth (F.choice tag) = some tag
  /-- The text of a value is read as that value. Its depth plays no part here: containers are
  counted as their content is looked at. -/
  read?_write : ∀ v, F.Formed v → F.read? (F.write v) = some v
  depthLimit_eq : F.depthLimit = 127

/-- A row of values, of which the first and all others are read up to a depth. -/
private theorem mapM_cons_of_le {α β : Type} {read : β → Option α} {first : β} {rest : List β}
    {x : α} {xs : List α} {k n depth : Nat}
    (hfirst : read first = if k ≤ depth then some x else none)
    (hrest : rest.mapM read = if n ≤ depth then some xs else none) :
    (first :: rest).mapM read = if max k n ≤ depth then some (x :: xs) else none := by
  rw [List.mapM_cons, hfirst, hrest]
  simp only [Nat.max_le]
  by_cases hx : k ≤ depth
  · by_cases hxs : n ≤ depth <;> simp [hx, hxs]
  · simp [hx]

end Format

/-! ### JSON -/

namespace Json

/-- Where names are different, just one member has the name of a given one. -/
private theorem filter_record {members : List (String × Json)}
    (hnodup : (members.map Prod.fst).Nodup)
    {name : String} {value : Json} (hmem : (name, value) ∈ members) :
    (members.map fun m => ((some m.1 : Text), m.2)).filter (fun m => m.1 = some name) =
      [(some name, value)] := by
  induction members with
  | nil => cases hmem
  | cons m rest ih =>
    rw [List.map_cons, List.nodup_cons] at hnodup
    rcases List.mem_cons.mp hmem with rfl | hmem
    · have hrest : (rest.map fun m => ((some m.1 : Text), m.2)).filter
          (fun m => m.1 = some name) = [] := by
        simp only [List.filter_eq_nil_iff, List.mem_map, decide_eq_true_eq]
        rintro _ ⟨m, hm, rfl⟩ heq
        exact hnodup.1 (List.mem_map.mpr ⟨m, hm, Option.some.inj heq⟩)
      simp [hrest]
    · have hne : m.1 ≠ name := by
        rintro rfl
        exact hnodup.1 (List.mem_map.mpr ⟨_, hmem, rfl⟩)
      simpa [hne] using ih hnodup.2 hmem

/-- The member of a given name is found, whatever the order. -/
private theorem member?_record {members : List (String × Json)}
    (hnodup : (members.map Prod.fst).Nodup)
    {name : String} {value : Json} (hmem : (name, value) ∈ members) :
    member? (members.map fun m => (some m.1, m.2)) name = some (some value) := by
  rw [member?, filter_record hnodup hmem]

/-- The fields of a record are found by their names. -/
theorem fields?_record {members : List (String × Json)} (hnodup : (members.map Prod.fst).Nodup) :
    fields? (members.map Prod.fst) (.record members) = some (members.map fun m => some m.2) := by
  have hnamed : (members.map fun m => ((some m.1 : Text), m.2)).all (fun m => m.1.isSome) := by simp
  have hfound : ∀ ms ⊆ members,
      (ms.map Prod.fst).mapM (member? (members.map fun m => (some m.1, m.2))) =
        some (ms.map fun m => some m.2) := by
    intro ms
    induction ms with
    | nil => exact fun _ => rfl
    | cons m ms ih =>
      intro hsub
      obtain ⟨hm, hms⟩ := List.cons_subset.mp hsub
      have hfirst := member?_record hnodup (show (m.1, m.2) ∈ members from hm)
      simp [hfirst, ih hms]
  exact (if_pos hnamed).trans (hfound members fun _ h => h)

/-- Words are read back from their numbers. -/
private theorem word?_toNat (w : UInt64) : word? (.nat w.toNat) = some w := by
  have hlt : w.toNat < UInt64.size := w.toNat_lt
  simp [word?, below?, hlt]

/-- An array of spelled values is spelled. -/
private theorem spelledItems_of_forall {items : List Json} (h : ∀ v ∈ items, v.Spelled) :
    SpelledItems items := by
  induction items with
  | nil => trivial
  | cons v rest ih =>
    obtain ⟨hv, hrest⟩ := List.forall_mem_cons.mp h
    exact ⟨hv, ih hrest⟩

/-- An object of spelled values is spelled. -/
private theorem spelledMembers_of_forall {members : List (String × Json)}
    (h : ∀ m ∈ members, m.2.Spelled) :
    SpelledMembers (members.map fun m => (some m.1, m.2)) := by
  induction members with
  | nil => trivial
  | cons m rest ih =>
    obtain ⟨hm, hrest⟩ := List.forall_mem_cons.mp h
    exact ⟨hm, ih hrest⟩

/-- What is put together from texts, numbers, rows, records and choices can be spelled. -/
private theorem spelled_of_formed {v : format.Value} (h : format.Formed v) : Spelled v := by
  induction h with
  | text s => trivial
  | word value => trivial
  | choice tag => trivial
  | row _ ih => exact spelledItems_of_forall ih
  | record _ ih => exact spelledMembers_of_forall ih
  | tagged tag _ ih => exact ⟨ih, trivial⟩

/-- **JSON is a lawful format.** -/
theorem lawful_format : format.Lawful where
  text?_text _ := rfl
  word?_word := word?_toNat
  row?_row _ := rfl
  fields?_record hnames hnodup := by
    subst hnames
    exact fields?_record hnodup
  tagged?_tagged _ _ := rfl
  choice?_choice _ _ := rfl
  read?_write _ hv := parse?_render (spelled_of_formed hv)
  depthLimit_eq := rfl

end Json

namespace Source

variable {F : Format}

/-! ### Operands, expressions and conditions -/

/-- How many containers are open at once at the deepest place of an expression's form. -/
def Expr.containers : Expr → Nat
  | .operand _ => 2
  | .binary _ _ _ => 3

/-- Operands are read back if one more container may be opened. -/
theorem Operand.decode?_encode (hF : F.Lawful) (depth : Nat) (o : Operand) :
    decode? F depth (o.encode F) = if 1 ≤ depth then some o else none := by
  rcases depth with _ | depth
  · rfl
  · rcases o with name | value
    · simp [decode?, encode, hF.tagged?_tagged, hF.text?_text]
    · simp [decode?, encode, hF.tagged?_tagged, hF.word?_word]

private theorem Operand.formed_encode (o : Operand) : F.Formed (o.encode F) := by
  cases o with
  | var name => exact .tagged _ (.text name)
  | lit value => exact .tagged _ (.word value)

/-- Operators are read back at any depth. -/
theorem BinOp.decode?_encode (hF : F.Lawful) (depth : Nat) (op : BinOp) :
    decode? F depth (op.encode F) = some op := by
  cases op <;> simp [decode?, encode, hF.choice?_choice]

private theorem BinOp.formed_encode (op : BinOp) : F.Formed (op.encode F) := by
  cases op <;> exact .choice _

/-- Comparisons are read back at any depth. -/
theorem Comparison.decode?_encode (hF : F.Lawful) (depth : Nat) (c : Comparison) :
    decode? F depth (c.encode F) = some c := by
  cases c <;> simp [decode?, encode, hF.choice?_choice]

private theorem Comparison.formed_encode (c : Comparison) : F.Formed (c.encode F) := by
  cases c <;> exact .choice _

private theorem Expr.formed_encode (e : Expr) : F.Formed (e.encode F) := by
  rcases e with o | ⟨op, lhs, rhs⟩
  · exact .tagged _ o.formed_encode
  · refine .tagged _ (.record ?_)
    simp [op.formed_encode, lhs.formed_encode, rhs.formed_encode]

/-- Expressions are read back if as many containers may be opened as they have inside each other. -/
theorem Expr.decode?_encode (hF : F.Lawful) (depth : Nat) (e : Expr) :
    decode? F depth (e.encode F) = if e.containers ≤ depth then some e else none := by
  rcases e with o | ⟨op, lhs, rhs⟩
  · rw [containers]
    rcases depth with _ | depth
    · rfl
    · simp only [decode?, encode, hF.tagged?_tagged, Operand.decode?_encode hF]
      rcases depth with _ | depth <;> simp
  · have hfields : F.fields? ["op", "lhs", "rhs"]
        (F.record [("op", op.encode F), ("lhs", lhs.encode F), ("rhs", rhs.encode F)]) =
          some [some (op.encode F), some (lhs.encode F), some (rhs.encode F)] :=
      hF.fields?_record rfl (by simp)
    rw [containers]
    rcases depth with _ | _ | depth
    · rfl
    · simp only [decode?, encode, hF.tagged?_tagged, decodeBinary?]
      rfl
    · simp only [decode?, encode, hF.tagged?_tagged, decodeBinary?, hfields, Option.bind_eq_bind,
        Option.bind_some, BinOp.decode?_encode hF, Operand.decode?_encode hF]
      rcases depth with _ | depth <;> simp

private theorem Condition.formed_encode (c : Condition) : F.Formed (c.encode F) := by
  refine .record ?_
  simp [c.lhs.formed_encode, c.op.formed_encode, c.rhs.formed_encode]

/-- Conditions are read back if two more containers may be opened. -/
theorem Condition.decode?_encode (hF : F.Lawful) (depth : Nat) (c : Condition) :
    decode? F depth (c.encode F) = if 2 ≤ depth then some c else none := by
  rcases depth with _ | depth
  · rfl
  · have hfields : F.fields? ["lhs", "op", "rhs"] (c.encode F) =
        some [some (c.lhs.encode F), some (c.op.encode F), some (c.rhs.encode F)] :=
      hF.fields?_record rfl (by simp)
    rw [decode?, hfields]
    simp only [Option.bind_eq_bind, Option.bind_some, Comparison.decode?_encode hF,
      Operand.decode?_encode hF]
    rcases depth with _ | depth <;> simp

private theorem Declaration.formed_encode (d : Declaration) : F.Formed (d.encode F) := by
  refine .record ?_
  simp [Format.Formed.text, Format.Formed.word]

/-- Declarations are read back if one more container may be opened. -/
theorem Declaration.decode?_encode (hF : F.Lawful) (depth : Nat) (d : Declaration) :
    decode? F depth (d.encode F) = if 1 ≤ depth then some d else none := by
  rcases depth with _ | depth
  · rfl
  · have hfields : F.fields? ["name", "value", "line"] (d.encode F) =
        some [some (F.text d.name), some (F.word d.value), some (F.word d.line)] :=
      hF.fields?_record rfl (by simp)
    rw [decode?, hfields]
    simp [hF.text?_text, hF.word?_word, Format.fieldOr]

/-! ### Statements -/

namespace Stmt

mutual

/-- How many containers are open at once at the deepest place of a statement's form: its own record,
the choice of what it does and the record of it, and what is in there. -/
def containers : Stmt → Nat
  | .assign _ value _ => value.containers + 3
  | .branch _ yes no _ => max 2 (max (rowContainers yes + 1) (rowContainers no + 1)) + 3
  | .loop _ _ body _ => max 1 (rowContainers body + 1) + 3

/-- How many containers are open at once at the deepest place of the forms of statements. -/
def rowContainers : List Stmt → Nat
  | [] => 0
  | s :: rest => max s.containers (rowContainers rest)

end

/-- A kind of statement with its line is formed if the kind is. -/
private theorem formed_lined {kind : F.Value} (h : F.Formed kind) (line : UInt64) :
    F.Formed (lined F kind line) := by
  refine .record ?_
  simp [h, Format.Formed.word]

/-- What a statement does is read after its line. -/
private theorem decode?_lined (hF : F.Lawful) (depth : Nat) (kind : F.Value) (line : UInt64) :
    decode? F (depth + 1) (lined F kind line) = decodeKind? F depth line kind := by
  have hfields : F.fields? ["kind", "line"] (lined F kind line) =
      some [some kind, some (F.word line)] :=
    hF.fields?_record rfl (by simp)
  rw [decode?, hfields]
  simp [Format.fieldOr, hF.word?_word]

/-- A statement opens at least three containers. -/
private theorem decode?_lined_of_lt (hF : F.Lawful) {depth : Nat} (h : depth < 3) (kind : F.Value)
    (line : UInt64) : decode? F depth (lined F kind line) = none := by
  rcases depth with _ | _ | _ | depth
  · rfl
  · rw [decode?_lined hF]
    rfl
  · rw [decode?_lined hF]
    rfl
  · omega

/-- A statement opens three containers around the fields of what it does. -/
private theorem decode?_lined_of_fields (hF : F.Lawful) {kind : F.Value} {line : UInt64} {n : Nat}
    {s : Stmt}
    (h : ∀ depth, decodeKind? F (depth + 2) line kind = if n ≤ depth then some s else none)
    (depth : Nat) :
    decode? F depth (lined F kind line) = if n + 3 ≤ depth then some s else none := by
  rcases Nat.lt_or_ge depth 3 with hlt | hge
  · rw [decode?_lined_of_lt hF hlt, if_neg (by omega)]
  · obtain ⟨depth, rfl⟩ := Nat.exists_eq_add_of_le' hge
    rw [decode?_lined hF, h]
    simp only [Nat.add_le_add_iff_right]

/-- Statements in a row open one more container than the statements themselves. -/
private theorem decodeList?_row (hF : F.Lawful) {ss : List Stmt}
    (h : ∀ depth, (encodeList F ss).mapM (decode? F depth) =
      if rowContainers ss ≤ depth then some ss else none) (depth : Nat) :
    decodeList? F depth (F.row (encodeList F ss)) =
      if rowContainers ss + 1 ≤ depth then some ss else none := by
  rcases depth with _ | depth
  · rfl
  · simp only [decodeList?, hF.row?_row, Option.bind_eq_bind, Option.bind_some, h,
      Nat.add_le_add_iff_right]

mutual

/-- Statements are read back if as many containers may be opened as they have inside each other. -/
theorem decode?_encode (hF : F.Lawful) : ∀ (s : Stmt) (depth : Nat),
    decode? F depth (s.encode F) = if s.containers ≤ depth then some s else none
  | .assign target value line, depth => by
    have hfields : F.fields? ["target", "value"]
        (F.record [("target", F.text target), ("value", value.encode F)]) =
          some [some (F.text target), some (value.encode F)] :=
      hF.fields?_record rfl (by simp)
    rw [containers, encode]
    refine decode?_lined_of_fields hF (fun depth => ?_) depth
    rw [decodeKind?, hF.tagged?_tagged]
    simp only [hfields, Option.bind_eq_bind, Option.bind_some, Expr.decode?_encode hF]
    by_cases hvalue : value.containers ≤ depth <;> simp [hF.text?_text, hvalue]
  | .branch condition yes no line, depth => by
    have hfields : F.fields? ["condition", "then_branch", "else_branch"]
        (F.record [("condition", condition.encode F), ("then_branch", F.row (encodeList F yes)),
          ("else_branch", F.row (encodeList F no))]) =
          some [some (condition.encode F), some (F.row (encodeList F yes)),
            some (F.row (encodeList F no))] :=
      hF.fields?_record rfl (by simp)
    rw [containers, encode]
    refine decode?_lined_of_fields hF (fun depth => ?_) depth
    rw [decodeKind?, hF.tagged?_tagged]
    simp only [hfields, Option.bind_eq_bind, Option.bind_some, Condition.decode?_encode hF,
      decodeList?_row hF (mapM_encodeList hF yes), decodeList?_row hF (mapM_encodeList hF no),
      Nat.max_le]
    by_cases hcondition : 2 ≤ depth
    · by_cases hyes : rowContainers yes + 1 ≤ depth
      · by_cases hno : rowContainers no + 1 ≤ depth <;> simp [hcondition, hyes, hno]
      · simp [hcondition, hyes]
    · simp [hcondition]
  | .loop counter bound body line, depth => by
    have hfields : F.fields? ["variable", "bound", "body"]
        (F.record [("variable", F.text counter), ("bound", bound.encode F),
          ("body", F.row (encodeList F body))]) =
          some [some (F.text counter), some (bound.encode F), some (F.row (encodeList F body))] :=
      hF.fields?_record rfl (by simp)
    rw [containers, encode]
    refine decode?_lined_of_fields hF (fun depth => ?_) depth
    rw [decodeKind?, hF.tagged?_tagged]
    simp only [hfields, Option.bind_eq_bind, Option.bind_some, Operand.decode?_encode hF,
      decodeList?_row hF (mapM_encodeList hF body), Nat.max_le]
    by_cases hbound : 1 ≤ depth
    · by_cases hbody : rowContainers body + 1 ≤ depth <;>
        simp [hF.text?_text, hbound, hbody]
    · simp [hF.text?_text, hbound]

/-- The statements of a block are read back if there is room for the deepest of them. -/
private theorem mapM_encodeList (hF : F.Lawful) : ∀ (ss : List Stmt) (depth : Nat),
    (encodeList F ss).mapM (decode? F depth) =
      if rowContainers ss ≤ depth then some ss else none
  | [], depth => by simp [encodeList, rowContainers]
  | s :: rest, depth => by
    rw [encodeList, rowContainers]
    exact Format.mapM_cons_of_le (decode?_encode hF s depth) (mapM_encodeList hF rest depth)

end

mutual

/-- Statements are written as formed values. -/
private theorem formed_encode : ∀ s : Stmt, F.Formed (s.encode F)
  | .assign target value line => by
    have hcontent : F.Formed
        (F.record [("target", F.text target), ("value", value.encode F)]) := by
      refine .record ?_
      simp [Format.Formed.text, value.formed_encode]
    rw [encode]
    exact formed_lined (.tagged _ hcontent) line
  | .branch condition yes no line => by
    have hcontent : F.Formed (F.record [("condition", condition.encode F),
        ("then_branch", F.row (encodeList F yes)), ("else_branch", F.row (encodeList F no))]) := by
      refine .record ?_
      simp [condition.formed_encode, Format.Formed.row (formed_encodeList yes),
        Format.Formed.row (formed_encodeList no)]
    rw [encode]
    exact formed_lined (.tagged _ hcontent) line
  | .loop counter bound body line => by
    have hcontent : F.Formed (F.record [("variable", F.text counter), ("bound", bound.encode F),
        ("body", F.row (encodeList F body))]) := by
      refine .record ?_
      simp [Format.Formed.text, bound.formed_encode, Format.Formed.row (formed_encodeList body)]
    rw [encode]
    exact formed_lined (.tagged _ hcontent) line

/-- So are the statements of a block. -/
private theorem formed_encodeList : ∀ ss : List Stmt, ∀ v ∈ encodeList F ss, F.Formed v
  | [] => by simp [encodeList]
  | s :: rest => by
    rw [encodeList]
    exact List.forall_mem_cons.mpr ⟨s.formed_encode, formed_encodeList rest⟩

end

end Stmt

/-! ### Programs -/

namespace Program

/-- Programs are written as formed values. -/
private theorem formed_encode (p : Program) : F.Formed (p.encode F) := by
  have hdeclarations : F.Formed (F.row (p.declarations.map (Declaration.encode F))) :=
    .row (List.forall_mem_map.mpr fun d _ => d.formed_encode)
  have hbody : F.Formed (F.row (Stmt.encodeList F p.body)) := .row (Stmt.formed_encodeList p.body)
  refine .record ?_
  simp [hdeclarations, hbody]

/-- How many containers are open at once at the deepest place of a program's form: its own record,
and in it a row of declarations, each a record, and a row of statements. -/
def containers (p : Program) : Nat :=
  max (min p.declarations.length 1 + 1) (Stmt.rowContainers p.body + 1) + 1

/-- The declarations of a program are read back if there is room for one of them. -/
private theorem decodeDeclarations?_row (hF : F.Lawful) (ds : List Declaration) (depth : Nat) :
    decodeDeclarations? F depth (F.row (ds.map (Declaration.encode F))) =
      if min ds.length 1 + 1 ≤ depth then some ds else none := by
  have hrow : ∀ depth, (ds.map (Declaration.encode F)).mapM (Declaration.decode? F depth) =
      if min ds.length 1 ≤ depth then some ds else none := by
    intro depth
    induction ds with
    | nil => simp
    | cons d ds ih =>
      have hmin : min (d :: ds).length 1 = max 1 (min ds.length 1) := by
        rw [List.length_cons]
        omega
      rw [hmin]
      exact Format.mapM_cons_of_le (Declaration.decode?_encode hF depth d) ih
  rcases depth with _ | depth
  · rfl
  · simp only [decodeDeclarations?, hF.row?_row, Option.bind_eq_bind, Option.bind_some, hrow,
      Nat.add_le_add_iff_right]

/-- Programs are read back if as many containers may be opened as they have inside each other, and
refused otherwise. -/
theorem decode?_encode (hF : F.Lawful) (depth : Nat) (p : Program) :
    decode? F depth (p.encode F) = if p.containers ≤ depth then some p else none := by
  have hfields : F.fields? ["declarations", "body"] (p.encode F) =
      some [some (F.row (p.declarations.map (Declaration.encode F))),
        some (F.row (Stmt.encodeList F p.body))] :=
    hF.fields?_record rfl (by simp)
  rw [containers]
  rcases depth with _ | depth
  · rfl
  · rw [decode?]
    simp only [hfields, Option.bind_eq_bind, Option.bind_some, decodeDeclarations?_row hF,
      Stmt.decodeList?_row hF (Stmt.mapM_encodeList hF p.body), Nat.add_le_add_iff_right,
      Nat.max_le]
    by_cases hdeclarations : min p.declarations.length 1 + 1 ≤ depth
    · by_cases hbody : Stmt.rowContainers p.body + 1 ≤ depth <;> simp [hdeclarations, hbody]
    · simp [hdeclarations]

end Program

/-! ### The depth of JSON

In JSON the containers are the arrays and objects, and the count of those that are open at once is
the depth of a value. -/

private theorem Operand.depth_toJson (o : Operand) : o.toJson.depth = 1 := by
  cases o <;> rfl

private theorem Expr.depth_toJson (e : Expr) : e.toJson.depth = e.containers := by
  rcases e with o | ⟨op, lhs, rhs⟩
  · cases o <;> rfl
  · cases op <;> cases lhs <;> cases rhs <;> rfl

private theorem Condition.depth_toJson (c : Condition) : c.toJson.depth = 2 := by
  obtain ⟨lhs, op, rhs⟩ := c
  cases op <;> cases lhs <;> cases rhs <;> rfl

namespace Stmt

/-- A statement's record, with the choice of what it does and the record of that. -/
private theorem depth_lined_tagged (tag : String) (members : List (String × Json)) (line : UInt64) :
    Json.depth (lined Json.format (Json.tagged tag (.record members)) line) =
      Json.depthMembers (members.map fun m => (some m.1, m.2)) + 3 := by
  change
    Json.depth (.record [("kind", .tagged tag (.record members)), ("line", .nat line.toNat)]) = _
  simp [Json.tagged, Json.record, Json.depth, Json.depthMembers]

mutual

/-- The depth of a statement as JSON is the number of its containers inside each other. -/
private theorem depth_toJson : ∀ s : Stmt, s.toJson.depth = s.containers
  | .assign target value line => by
    have hform : (Stmt.assign target value line).toJson =
        lined Json.format (Json.tagged "Assign" <|
          .record [("target", .text target), ("value", value.toJson)]) line := by
      rw [toJson, encode]
      rfl
    rw [hform, depth_lined_tagged, containers]
    simp [Json.depthMembers, Json.depth, Json.text, value.depth_toJson]
  | .branch condition yes no line => by
    have hform : (Stmt.branch condition yes no line).toJson =
        lined Json.format (Json.tagged "If" <| .record [("condition", condition.toJson),
          ("then_branch", .arr (encodeList Json.format yes)),
          ("else_branch", .arr (encodeList Json.format no))]) line := by
      rw [toJson, encode]
      rfl
    rw [hform, depth_lined_tagged, containers]
    simp [Json.depthMembers, Json.depth, condition.depth_toJson, depthItems_encodeList yes,
      depthItems_encodeList no]
  | .loop counter bound body line => by
    have hform : (Stmt.loop counter bound body line).toJson =
        lined Json.format (Json.tagged "For" <| .record [("variable", .text counter),
          ("bound", bound.toJson), ("body", .arr (encodeList Json.format body))]) line := by
      rw [toJson, encode]
      rfl
    rw [hform, depth_lined_tagged, containers]
    simp [Json.depthMembers, Json.depth, Json.text, bound.depth_toJson, depthItems_encodeList body]

/-- The depth of the statements of a block is that of the deepest of them. -/
private theorem depthItems_encodeList : ∀ ss : List Stmt,
    Json.depthItems (encodeList Json.format ss) = rowContainers ss
  | [] => by
    rw [encodeList, rowContainers]
    rfl
  | s :: rest => by
    rw [encodeList, rowContainers, ← s.depth_toJson, ← depthItems_encodeList rest]
    rfl

end

end Stmt

/-- The depth of a program as JSON is the number of its containers inside each other. -/
private theorem Program.depth_toJson (p : Program) : p.toJson.depth = p.containers := by
  have hdeclarations : Json.depthItems (p.declarations.map Declaration.toJson) =
      min p.declarations.length 1 := by
    induction p.declarations with
    | nil => rfl
    | cons d ds ih =>
      rw [List.map_cons, Json.depthItems, ih, List.length_cons]
      have hdepth : d.toJson.depth = 1 := rfl
      omega
  have hform : p.toJson = .record [("declarations", .arr (p.declarations.map Declaration.toJson)),
      ("body", .arr (Stmt.encodeList Json.format p.body))] := rfl
  rw [hform, containers, ← hdeclarations, ← Stmt.depthItems_encodeList]
  simp [Json.record, Json.depth, Json.depthMembers]

namespace Program

/-! ### The text of a program -/

/-- **Programs survive being handed over.** In a lawful format, the text of a program's form is read
as that very program, so compiling the text is compiling the program, if no more than 127 containers
are open at once in it. A deeper form is refused. -/
theorem ofText_write (hF : F.Lawful) (p : Program) :
    (p.containers ≤ 127 →
      Program.ofText (F.write (p.encode F)) F = .ok p ∧
        ∀ o, compileText o (F.write (p.encode F)) F = compile o p) ∧
    (127 < p.containers →
      Program.ofText (F.write (p.encode F)) F = .error (.invalidSource none)) := by
  have hread : ofText? F (F.write (p.encode F)) = if p.containers ≤ 127 then some p else none := by
    rw [ofText?, hF.read?_write _ p.formed_encode, Option.bind_some, hF.depthLimit_eq]
    exact decode?_encode hF 127 p
  constructor
  · intro h
    have hok : Program.ofText (F.write (p.encode F)) F = .ok p := by
      rw [Program.ofText, hread, if_pos h]
    exact ⟨hok, fun o => by rw [compileText, hok]; rfl⟩
  · intro h
    rw [Program.ofText, hread, if_neg (Nat.not_le.mpr h)]

/-- An assignment within thirty loops, over names that are full of escapes. -/
def nestedLoops (value : Expr) : Program where
  declarations := [⟨"\"größe\\\n\x01", 18446744073709551615, 1⟩]
  body := Nat.repeat (fun body => [.loop "\t😀" (.var "\"größe\\\n\x01") body 2]) 30
    [.assign "\"größe\\\n\x01" value 3]

/-- The form of the first of these programs is as deep as it may be, and that of the second is one
container deeper. -/
theorem ofText_write_nestedLoops :
    let copying := nestedLoops (.operand (.lit 18446744073709551615))
    let adding := nestedLoops (.binary .add (.var "\t😀") (.lit 1))
    Json.format.Lawful ∧
      (copying.containers ≤ 127 ∧ copying.toJson.depth = 127 ∧
        Program.ofText copying.toJson.render = .ok copying ∧
        ∀ o, compileText o copying.toJson.render = compile o copying) ∧
      127 < adding.containers ∧ adding.toJson.depth = 128 ∧
        Program.ofText adding.toJson.render = .error (.invalidSource none) := by
  intro copying adding
  have hcopying : copying.containers = 127 := by decide +kernel
  have hadding : adding.containers = 128 := by decide +kernel
  have hshallow : copying.containers ≤ 127 := Nat.le_of_eq hcopying
  have hdeep : 127 < adding.containers := hadding ▸ Nat.lt_succ_self 127
  exact ⟨Json.lawful_format,
    ⟨hshallow, copying.depth_toJson.trans hcopying,
      (ofText_write Json.lawful_format copying).1 hshallow⟩,
    hdeep, adding.depth_toJson.trans hadding, (ofText_write Json.lawful_format adding).2 hdeep⟩

end Program

end Source

end Abacus
