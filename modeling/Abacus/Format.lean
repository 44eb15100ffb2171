/-!
# Exchange formats

What is handed over as text is written in a format that is not part of this library: records of
named fields, choices, rows, texts and numbers are formed by it, written as text, and read back. A
`Format` gives the operations for this, and the forms of source programs are put together from them
whatever the format is. `Json.format` is the one that texts are read and written in.
-/

namespace Abacus

/-- The operations of an exchange format. Rows, records and choices with content are containers; as
a text is read, so many of them may be open at once. -/
structure Format where
  /-- The values of the format. -/
  Value : Type
  /-- A text. -/
  text : String → Value
  /-- A number of 64 bits. -/
  word : UInt64 → Value
  /-- Values in a row. -/
  row : List Value → Value
  /-- A record of named fields. -/
  record : List (String × Value) → Value
  /-- A choice with content. -/
  tagged : String → Value → Value
  /-- A choice without content. -/
  choice : String → Value
  /-- Read a text. -/
  text? : Value → Option String
  /-- Read a number of 64 bits. -/
  word? : Value → Option UInt64
  /-- Read values in a row. Opens one container. -/
  row? : Value → Option (List Value)
  /-- Read the fields of a record, in the order of the given names; a field may be absent. Opens one
  container. -/
  fields? : List String → Value → Option (List (Option Value))
  /-- Read a choice with content. Opens one container. -/
  tagged? : Value → Option (String × Value)
  /-- Read a choice without content, given how many containers may still be opened: it may or may
  not open one. -/
  choice? : (depth : Nat) → Value → Option String
  /-- The text of a value. -/
  write : Value → String
  /-- Read the text of a value. -/
  read? : String → Option Value
  /-- How many containers may be open at once. -/
  depthLimit : Nat

namespace Format

/-- A field that may be absent, with the value it has then. -/
def fieldOr {α β : Type} (default : α) (read : β → Option α) : Option β → Option α
  | some value => read value
  | none => some default

end Format

end Abacus
