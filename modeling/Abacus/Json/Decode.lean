import Abacus.Json.Read

/-!
# Decoding JSON values

Readers for the parts that records of named fields and tagged choices are made of. A record is an
object, in which members of other names are passed over, or an array of the fields in their
order. A choice with content is an object with one member, named by the choice; a choice without
content is its name, or such an object with the content null.

Readers are given the number of arrays and objects that may still be opened. Values that are passed
over may be of any depth.
-/

namespace Abacus.Json

/-- How many arrays and objects may be open at once. -/
def containerLimit : Nat := 127

/-- The value of a member that is there at most once. -/
def member? (members : List (Text × Json)) (name : String) : Option (Option Json) :=
  match members.filter fun m => m.1 = some name with
  | [] => some none
  | [(_, value)] => some (some value)
  | _ => none

/-- The fields of a record, in the order of their names; a field may be absent. Opens one
container. -/
def fields? (names : List String) : Json → Option (List (Option Json))
  | .obj members =>
    if members.all fun m => m.1.isSome then names.mapM (member? members) else none
  | .arr items =>
    if items.length ≤ names.length then
      some (items.map some ++ List.replicate (names.length - items.length) none)
    else
      none
  | _ => none

/-- The choice and the content of a tagged value. Opens one container. -/
def tagged? : Json → Option (String × Json)
  | .obj [(some tag, content)] => some (tag, content)
  | _ => none

/-- The choice of a value without content, which may or may not open a container. -/
def choice? (depth : Nat) : Json → Option String
  | .str (some tag) => some tag
  | .obj [(some tag, .null)] => if depth = 0 then none else some tag
  | _ => none

/-- A text. -/
def text? : Json → Option String
  | .str s => s
  | _ => none

/-- A natural number below a bound. -/
def below? (bound : Nat) : Json → Option Nat
  | .nat n => if n < bound then some n else none
  | _ => none

/-- A number of 64 bits. -/
def word? (value : Json) : Option UInt64 := (below? UInt64.size value).map UInt64.ofNat

/-- Read a text with a reader of values. -/
def decode? {α : Type} (read : (depth : Nat) → Json → Option α) (s : String) : Option α :=
  (parse? s).bind (read containerLimit)

end Abacus.Json
