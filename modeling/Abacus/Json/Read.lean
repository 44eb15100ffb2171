import Abacus.Json.Token

/-!
# Reading JSON text

Values are put together token by token, with the arrays and objects that are still open on a
stack. Nothing is recursive here, so nesting is bounded by the text alone; how deep a value may be
is up to the readers of values.
-/

namespace Abacus.Json

/-- An array or object that is still open. What it holds so far is kept with the last part
first. -/
inductive Frame where
  | arr (items : List Json)
  /-- An object, of which the member called `name` is being read. -/
  | obj (members : List (Text × Json)) (name : Text)

/-- What may come next, within the frames that are open. -/
inductive Reader where
  /-- A value. -/
  | wantValue (stack : List Frame)
  /-- A value, or the end of the array that was just opened. -/
  | wantFirstItem (stack : List Frame)
  /-- A member's name. -/
  | wantName (members : List (Text × Json)) (stack : List Frame)
  /-- A member's name, or the end of the object that was just opened. -/
  | wantFirstName (stack : List Frame)
  /-- The colon after a member's name. -/
  | wantColon (members : List (Text × Json)) (name : Text) (stack : List Frame)
  /-- The end, or what follows a value in the innermost frame. -/
  | after (value : Json) (stack : List Frame)

namespace Reader

/-- Read the first token of a value. -/
def beginValue (stack : List Frame) : Token → Option Reader
  | .openBracket => some (.wantFirstItem stack)
  | .openBrace => some (.wantFirstName stack)
  | .str text => some (.after (.str text) stack)
  | .bare value => some (.after value stack)
  | _ => none

/-- Read a token. -/
def step : Reader → Token → Option Reader
  | .wantValue stack, token => beginValue stack token
  | .wantFirstItem stack, .closeBracket => some (.after (.arr []) stack)
  | .wantFirstItem stack, token => beginValue (.arr [] :: stack) token
  | .wantName members stack, .str name => some (.wantColon members name stack)
  | .wantFirstName stack, .closeBrace => some (.after (.obj []) stack)
  | .wantFirstName stack, .str name => some (.wantColon [] name stack)
  | .wantColon members name stack, .colon => some (.wantValue (.obj members name :: stack))
  | .after value (.arr items :: stack), .comma => some (.wantValue (.arr (value :: items) :: stack))
  | .after value (.arr items :: stack), .closeBracket =>
    some (.after (.arr (value :: items).reverse) stack)
  | .after value (.obj members name :: stack), .comma =>
    some (.wantName ((name, value) :: members) stack)
  | .after value (.obj members name :: stack), .closeBrace =>
    some (.after (.obj ((name, value) :: members).reverse) stack)
  | _, _ => none

/-- The value that was read, if the text may end here. -/
def finish : Reader → Option Json
  | .after value [] => some value
  | _ => none

end Reader

/-- The value that tokens spell. -/
def ofTokens? (tokens : List Token) : Option Json :=
  (tokens.foldlM Reader.step (.wantValue [])).bind Reader.finish

/-- The value that a text spells, if it is JSON. -/
def parse? (s : String) : Option Json :=
  (scan s.toList).bind ofTokens?

end Abacus.Json
