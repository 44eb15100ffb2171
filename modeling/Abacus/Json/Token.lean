import Abacus.Json.Basic

/-!
# Tokens of JSON text

`Json.scan` cuts a text into tokens, character by character. Outside strings, characters other than
blanks and punctuation form bare words, each of which has to be a literal name or a number.
Inside strings, characters and escapes are gathered as code points, so that surrogates written as
two escapes can be paired at the end.
-/

namespace Abacus.Json

/-- A token. -/
inductive Token where
  | openBrace
  | closeBrace
  | openBracket
  | closeBracket
  | colon
  | comma
  | str (text : Text)
  /-- A literal name or a number. -/
  | bare (value : Json)

/-! ### Strings -/

/-- A code point that only stands for half a character. -/
def isSurrogate (point : Nat) : Bool := 0xD800 ≤ point && point < 0xE000

/-- The character of a surrogate pair, if the two are a leading and a trailing one. -/
def pairSurrogates? (leading trailing : Nat) : Option Char :=
  if 0xD800 ≤ leading ∧ leading < 0xDC00 ∧ 0xDC00 ≤ trailing ∧ trailing < 0xE000 then
    some (Char.ofNat (0x10000 + (leading - 0xD800) * 0x400 + (trailing - 0xDC00)))
  else
    none

/-- Put the characters of code points, the last of which comes first, before `tail`. There are
none if a surrogate is left without its partner. -/
def charsOf? (tail : List Char) : List Nat → Option (List Char)
  | [] => some tail
  | [point] => if isSurrogate point then none else some (Char.ofNat point :: tail)
  | point :: previous :: rest =>
    match pairSurrogates? previous point with
    | some c => charsOf? (c :: tail) rest
    | none =>
      if isSurrogate point then none else charsOf? (Char.ofNat point :: tail) (previous :: rest)

/-- The text that code points, the last of which comes first, denote. -/
def textOf (points : List Nat) : Text := (charsOf? [] points).map String.ofList

/-- The character that a one-letter escape stands for. -/
def escaped? : Char → Option Char
  | '"' => some '"'
  | '\\' => some '\\'
  | '/' => some '/'
  | 'b' => some '\x08'
  | 'f' => some '\x0c'
  | 'n' => some '\n'
  | 'r' => some '\r'
  | 't' => some '\t'
  | _ => none

/-- The value of a hexadecimal digit. -/
def hexDigit? (c : Char) : Option Nat :=
  if c.isDigit then some (c.toNat - '0'.toNat)
  else if 'a' ≤ c ∧ c ≤ 'f' then some (c.toNat - 'a'.toNat + 10)
  else if 'A' ≤ c ∧ c ≤ 'F' then some (c.toNat - 'A'.toNat + 10)
  else none

/-! ### Bare words -/

/-- Whether a character can be part of a bare word. -/
def isBare (c : Char) : Bool := c.isAlphanum || c == '+' || c == '-' || c == '.'

/-- The number that a nonempty row of digits denotes in base ten; no digit comes after a leading
zero. -/
def natural? : List Char → Option Nat
  | [] => none
  | ['0'] => some 0
  | '0' :: _ => none
  | digits =>
    if digits.all Char.isDigit then
      some (digits.foldl (fun n c => 10 * n + (c.toNat - '0'.toNat)) 0)
    else
      none

/-- The characters after the exponent of a number, which may be missing. -/
def afterExponent? : List Char → Option (List Char)
  | e :: rest =>
    if e = 'e' ∨ e = 'E' then
      let digits :=
        match rest with
        | '+' :: rest => rest
        | '-' :: rest => rest
        | _ => rest
      match digits with
      | d :: rest => if d.isDigit then some (rest.dropWhile Char.isDigit) else none
      | [] => none
    else
      some (e :: rest)
  | [] => some []

/-- The characters after the fraction of a number, which may be missing. -/
def afterFraction? : List Char → Option (List Char)
  | '.' :: d :: rest => if d.isDigit then some (rest.dropWhile Char.isDigit) else none
  | '.' :: [] => none
  | rest => some rest

/-- The characters after the whole part of a number. -/
def afterWhole? : List Char → Option (List Char)
  | '0' :: rest => some rest
  | d :: rest => if d.isDigit then some (rest.dropWhile Char.isDigit) else none
  | [] => none

/-- Whether a word is a number: a sign, a whole part, a fraction and an exponent, of which only the
whole part has to be there. -/
def isNumber (word : List Char) : Bool :=
  let unsigned :=
    match word with
    | '-' :: rest => rest
    | _ => word
  ((afterWhole? unsigned).bind afterFraction? |>.bind afterExponent?) == some []

/-- What a bare word denotes. -/
def bare? (word : List Char) : Option Json :=
  if word = ['n', 'u', 'l', 'l'] then some .null
  else if word = ['t', 'r', 'u', 'e'] then some (.bool true)
  else if word = ['f', 'a', 'l', 's', 'e'] then some (.bool false)
  else
    match natural? word with
    | some n => some (.nat n)
    | none => if isNumber word then some (.number (String.ofList word)) else none

/-! ### Scanning -/

/-- What is being read. Words and strings are gathered with the last part first. -/
inductive Mode where
  | between
  | word (chars : List Char)
  | string (points : List Nat)
  /-- After a backslash. -/
  | escape (points : List Nat)
  /-- Within an escape of four hexadecimal digits, of which `left` are to come. -/
  | hex (points : List Nat) (value left : Nat)

/-- The scanned part of a text: its tokens, the last first, and what comes next. -/
structure Scanner where
  mode : Mode := .between
  tokens : List Token := []

namespace Scanner

/-- Read a character between tokens. -/
def begin (tokens : List Token) (c : Char) : Option Scanner :=
  match c with
  | ' ' => some ⟨.between, tokens⟩
  | '\t' => some ⟨.between, tokens⟩
  | '\n' => some ⟨.between, tokens⟩
  | '\r' => some ⟨.between, tokens⟩
  | '\x7b' => some ⟨.between, .openBrace :: tokens⟩
  | '\x7d' => some ⟨.between, .closeBrace :: tokens⟩
  | '[' => some ⟨.between, .openBracket :: tokens⟩
  | ']' => some ⟨.between, .closeBracket :: tokens⟩
  | ':' => some ⟨.between, .colon :: tokens⟩
  | ',' => some ⟨.between, .comma :: tokens⟩
  | '"' => some ⟨.string [], tokens⟩
  | c => if isBare c then some ⟨.word [c], tokens⟩ else none

/-- End a bare word. -/
def endWord (tokens : List Token) (chars : List Char) : Option (List Token) :=
  (bare? chars.reverse).map fun value => .bare value :: tokens

/-- Read a character. -/
def step (s : Scanner) (c : Char) : Option Scanner :=
  match s.mode with
  | .between => begin s.tokens c
  | .word chars =>
    if isBare c then
      some { s with mode := .word (c :: chars) }
    else
      (endWord s.tokens chars).bind fun tokens => begin tokens c
  | .string points =>
    if c = '"' then
      some ⟨.between, .str (textOf points) :: s.tokens⟩
    else if c = '\\' then
      some { s with mode := .escape points }
    else if c.toNat < 0x20 then
      none
    else
      some { s with mode := .string (c.toNat :: points) }
  | .escape points =>
    if c = 'u' then
      some { s with mode := .hex points 0 4 }
    else
      (escaped? c).map fun e => { s with mode := .string (e.toNat :: points) }
  | .hex points value left =>
    (hexDigit? c).map fun digit =>
      if left ≤ 1 then
        { s with mode := .string ((16 * value + digit) :: points) }
      else
        { s with mode := .hex points (16 * value + digit) (left - 1) }

/-- The tokens of a text that ends here, in order. -/
def finish (s : Scanner) : Option (List Token) :=
  match s.mode with
  | .between => some s.tokens.reverse
  | .word chars => (endWord s.tokens chars).map List.reverse
  | _ => none

end Scanner

/-- The tokens of a text. -/
def scan (chars : List Char) : Option (List Token) :=
  (chars.foldlM Scanner.step {}).bind Scanner.finish

end Abacus.Json
