import Abacus.Format
import Abacus.Json.Decode
import Abacus.Json.Print

/-!
# JSON as an exchange format

Texts and choices without content are strings, rows are arrays, and records and choices with content
are objects.
-/

namespace Abacus

/-- The items of an array. -/
def Json.row? : Json → Option (List Json)
  | .arr items => some items
  | _ => none

/-- JSON, as records and choices are written in it. -/
def Json.format : Format where
  Value := Json
  text := text
  word value := .nat value.toNat
  row := .arr
  record := record
  tagged := tagged
  choice := text
  text? := text?
  word? := word?
  row? := row?
  fields? := fields?
  tagged? := tagged?
  choice? := choice?
  write := render
  read? := parse?
  depthLimit := containerLimit

end Abacus
