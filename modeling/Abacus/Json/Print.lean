import Abacus.Json.Basic

/-!
# Printing JSON values

Values are printed without blanks. In strings, quotes, backslashes and control characters are
escaped and all other characters stand for themselves.
-/

namespace Abacus.Json

/-- A hexadecimal digit. -/
def hexDigit (n : Nat) : Char :=
  if n < 10 then Char.ofNat ('0'.toNat + n) else Char.ofNat ('a'.toNat + (n - 10))

/-- A character as it stands in a string literal. -/
def escape (c : Char) : List Char :=
  match c with
  | '"' => ['\\', '"']
  | '\\' => ['\\', '\\']
  | '\x08' => ['\\', 'b']
  | '\x0c' => ['\\', 'f']
  | '\n' => ['\\', 'n']
  | '\r' => ['\\', 'r']
  | '\t' => ['\\', 't']
  | c =>
    if c.toNat < 0x20 then
      ['\\', 'u', '0', '0', hexDigit (c.toNat / 16), hexDigit (c.toNat % 16)]
    else
      [c]

/-- Write a string literal. A string that denotes no text is written as an unpaired surrogate. -/
def writeText (out : String) : Text → String
  | some s => (s.foldl (fun out c => (escape c).foldl String.push out) (out.push '"')).push '"'
  | none => out ++ "\"\\ud800\""

mutual

/-- Write a value after `out`. -/
def write (out : String) : Json → String
  | .null => out ++ "null"
  | .bool true => out ++ "true"
  | .bool false => out ++ "false"
  | .nat n => out ++ toString n
  | .number s => out ++ s
  | .str s => writeText out s
  | .arr items => (writeItems (out.push '[') items).push ']'
  | .obj members => (writeMembers (out.push '\x7b') members).push '\x7d'

/-- Write the items of an array. -/
def writeItems (out : String) : List Json → String
  | [] => out
  | [item] => write out item
  | item :: next :: rest => writeItems ((write out item).push ',') (next :: rest)

/-- Write the members of an object. -/
def writeMembers (out : String) : List (Text × Json) → String
  | [] => out
  | [(name, value)] => write ((writeText out name).push ':') value
  | (name, value) :: next :: rest =>
    writeMembers ((write ((writeText out name).push ':') value).push ',') (next :: rest)

end

/-- The text of a value. -/
def render (value : Json) : String := write "" value

end Abacus.Json
