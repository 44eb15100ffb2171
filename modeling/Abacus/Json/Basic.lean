/-!
# JSON values

Values of the JSON data format, with as much of their spelling as matters to readers: an object
keeps its members in order and keeps repeated names, plain natural numbers are told apart from
all other numbers, and a string may turn out to denote no text.
-/

namespace Abacus

/-- What a string literal denotes. A literal may contain the escape of an unpaired surrogate; it is
well formed then, but denotes no text. -/
abbrev Json.Text := Option String

/-- A JSON value. -/
inductive Json where
  | null
  | bool (value : Bool)
  /-- A number written in digits alone. -/
  | nat (value : Nat)
  /-- Any other number, as it is written. -/
  | number (text : String)
  | str (text : Json.Text)
  | arr (items : List Json)
  | obj (members : List (Json.Text × Json))

namespace Json

/-- A string that denotes a text. -/
def text (s : String) : Json := .str (some s)

/-- An object whose member names are texts. -/
def record (members : List (String × Json)) : Json :=
  .obj (members.map fun (name, value) => (some name, value))

/-- An object with a single member. -/
def tagged (tag : String) (content : Json) : Json := .record [(tag, content)]

/-- The value, or null if there is none. -/
def ofOption : Option Json → Json
  | some value => value
  | none => .null

mutual

/-- How many arrays and objects are open at once at the deepest place of a value. -/
def depth : Json → Nat
  | .arr items => depthItems items + 1
  | .obj members => depthMembers members + 1
  | _ => 0

/-- The depth of the deepest item. -/
def depthItems : List Json → Nat
  | [] => 0
  | item :: rest => max (depth item) (depthItems rest)

/-- The depth of the deepest member. -/
def depthMembers : List (Text × Json) → Nat
  | [] => 0
  | (_, value) :: rest => max (depth value) (depthMembers rest)

end

end Json

end Abacus
