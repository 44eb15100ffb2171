import Abacus.Json.Print
import Abacus.Json.Read

/-!
# Printed values are read back

The text of a value spells that value (`Json.parse?_render`): nothing is lost in escapes, digits or
punctuation. The argument goes along the two stages of reading. A value is spelled by tokens
(`Json.tokens`), and the scanner cuts its characters into these tokens, up to a last word that
only ends with the next character. From the tokens the reader puts the value together again.

A number that is not written in digits alone is kept as it is written, so a value is read back
only if each such number is spelled as one (`Json.Spelled`).
-/

namespace Abacus.Json

/-! ### The characters of a value -/

/-- The characters of a string literal. -/
def literal : Text → List Char
  | some s => '"' :: (s.toList.flatMap escape ++ ['"'])
  | none => ['"', '\\', 'u', 'd', '8', '0', '0', '"']

mutual

/-- The characters that a value is printed as. -/
def spelling : Json → List Char
  | .null => ['n', 'u', 'l', 'l']
  | .bool true => ['t', 'r', 'u', 'e']
  | .bool false => ['f', 'a', 'l', 's', 'e']
  | .nat n => Nat.toDigits 10 n
  | .number s => s.toList
  | .str s => literal s
  | .arr items => '[' :: (spellingItems items ++ [']'])
  | .obj members => '\x7b' :: (spellingMembers members ++ ['\x7d'])

/-- The characters of the items of an array. -/
def spellingItems : List Json → List Char
  | [] => []
  | [item] => spelling item
  | item :: next :: rest => spelling item ++ ',' :: spellingItems (next :: rest)

/-- The characters of the members of an object. -/
def spellingMembers : List (Text × Json) → List Char
  | [] => []
  | [(name, value)] => literal name ++ ':' :: spelling value
  | (name, value) :: next :: rest =>
    literal name ++ ':' :: (spelling value ++ ',' :: spellingMembers (next :: rest))

end

/-- Characters that are pushed one by one come after the text. -/
private theorem toList_foldl_push (out : String) (cs : List Char) :
    (cs.foldl String.push out).toList = out.toList ++ cs := by
  induction cs generalizing out with
  | nil => simp
  | cons c cs ih => simp [ih, String.toList_push]

/-- A string literal is written after the text. -/
private theorem toList_writeText (out : String) (text : Text) :
    (writeText out text).toList = out.toList ++ literal text := by
  have hescapes : ∀ (cs : List Char) (out : String),
      (cs.foldl (fun out c => (escape c).foldl String.push out) out).toList =
        out.toList ++ cs.flatMap escape := by
    intro cs
    induction cs with
    | nil => simp
    | cons c cs ih => simp [ih, toList_foldl_push]
  rcases text with _ | s
  · rw [writeText, String.toList_append]
    rfl
  · simp [writeText, literal, String.foldl_eq_foldl_toList, hescapes, String.toList_push]

mutual

/-- A value is written after the text, as it is spelled. -/
private theorem toList_write : ∀ (out : String) (value : Json),
    (write out value).toList = out.toList ++ spelling value
  | out, .null => by
    rw [write, String.toList_append]
    rfl
  | out, .bool true => by
    rw [write, String.toList_append]
    rfl
  | out, .bool false => by
    rw [write, String.toList_append]
    rfl
  | out, .nat n => by
    rw [write, String.toList_append, Nat.toString_eq_ofList_toDigits, String.toList_ofList,
      spelling]
  | out, .number s => by rw [write, String.toList_append, spelling]
  | out, .str s => by rw [write, toList_writeText, spelling]
  | out, .arr items => by
    rw [write, String.toList_push, toList_writeItems, String.toList_push, spelling]
    simp
  | out, .obj members => by
    rw [write, String.toList_push, toList_writeMembers, String.toList_push, spelling]
    simp

/-- Items are written after the text, as they are spelled. -/
private theorem toList_writeItems : ∀ (out : String) (items : List Json),
    (writeItems out items).toList = out.toList ++ spellingItems items
  | out, [] => by simp [writeItems, spellingItems]
  | out, [item] => by rw [writeItems, toList_write, spellingItems]
  | out, item :: next :: rest => by
    rw [writeItems, toList_writeItems, String.toList_push, toList_write, spellingItems]
    simp

/-- Members are written after the text, as they are spelled. -/
private theorem toList_writeMembers : ∀ (out : String) (members : List (Text × Json)),
    (writeMembers out members).toList = out.toList ++ spellingMembers members
  | out, [] => by simp [writeMembers, spellingMembers]
  | out, [(name, value)] => by
    rw [writeMembers, toList_write, String.toList_push, toList_writeText, spellingMembers]
    simp
  | out, (name, value) :: next :: rest => by
    rw [writeMembers, toList_writeMembers, String.toList_push, toList_write, String.toList_push,
      toList_writeText, spellingMembers]
    simp

end

/-- The text of a value is its spelling. -/
private theorem toList_render (value : Json) : (render value).toList = spelling value :=
  (toList_write "" value).trans (List.nil_append _)

/-! ### Tokens -/

mutual

/-- The tokens that a value is spelled by. -/
def tokens : Json → List Token
  | .null => [.bare .null]
  | .bool b => [.bare (.bool b)]
  | .nat n => [.bare (.nat n)]
  | .number s => [.bare (.number s)]
  | .str s => [.str s]
  | .arr items => .openBracket :: (tokensOfItems items ++ [.closeBracket])
  | .obj members => .openBrace :: (tokensOfMembers members ++ [.closeBrace])

/-- The tokens of the items of an array. -/
def tokensOfItems : List Json → List Token
  | [] => []
  | [item] => tokens item
  | item :: next :: rest => tokens item ++ .comma :: tokensOfItems (next :: rest)

/-- The tokens of the members of an object. -/
def tokensOfMembers : List (Text × Json) → List Token
  | [] => []
  | [(name, value)] => .str name :: .colon :: tokens value
  | (name, value) :: next :: rest =>
    .str name :: .colon :: (tokens value ++ .comma :: tokensOfMembers (next :: rest))

/-- Every number of a value that is not written in digits alone is spelled as a number. -/
def Spelled : Json → Prop
  | .number s => s.toList.all isBare ∧ s.toList ≠ [] ∧ bare? s.toList = some (.number s)
  | .arr items => SpelledItems items
  | .obj members => SpelledMembers members
  | _ => True

/-- All items of an array are spelled. -/
def SpelledItems : List Json → Prop
  | [] => True
  | item :: rest => Spelled item ∧ SpelledItems rest

/-- The values of all members of an object are spelled. -/
def SpelledMembers : List (Text × Json) → Prop
  | [] => True
  | (_, value) :: rest => Spelled value ∧ SpelledMembers rest

end

/-! ### Steps in a row -/

/-- Steps over all inputs of a list take one state to another. -/
def Leads {σ α : Type} (step : σ → α → Option σ) (s : σ) (inputs : List α) (s' : σ) : Prop :=
  inputs.foldlM step s = some s'

namespace Leads

variable {σ α : Type} {step : σ → α → Option σ} {s s' s'' : σ} {xs ys : List α} {x : α}

/-- Without input a state is left as it is. -/
theorem nil : Leads step s [] s := rfl

/-- A step, and then more steps. -/
theorem cons (h : step s x = some s') (h' : Leads step s' xs s'') : Leads step s (x :: xs) s'' := by
  rw [Leads, List.foldlM_cons, h]
  exact h'

/-- Inputs in a row lead on from one state to the next. -/
theorem append (h : Leads step s xs s') (h' : Leads step s' ys s'') :
    Leads step s (xs ++ ys) s'' := by
  rw [Leads, List.foldlM_append, show xs.foldlM step s = some s' from h]
  exact h'

/-- Steps, and then one more. -/
private theorem snoc (h : Leads step s xs s') (h' : step s' x = some s'') :
    Leads step s (xs ++ [x]) s'' :=
  h.append (.cons h' .nil)

end Leads

namespace Scanner

/-- The tokens read so far, with the word that is being read as the last. There are none within a
string. -/
def ended (s : Scanner) : Option (List Token) :=
  match s.mode with
  | .between => some s.tokens
  | .word chars => endWord s.tokens chars
  | _ => none

/-- The tokens of a text are those that were collected, in order. -/
private theorem finish_eq (s : Scanner) : s.finish = s.ended.map List.reverse := by
  obtain ⟨mode, tokens⟩ := s
  cases mode <;> rfl

/-- A character that is not part of a word ends the word before it. -/
private theorem step_of_ended {s : Scanner} {tokens : List Token} {c : Char}
    (h : s.ended = some tokens) (hc : isBare c = false) : s.step c = begin tokens c := by
  obtain ⟨mode, before⟩ := s
  cases mode with
  | between =>
    obtain rfl := Option.some.inj h
    rfl
  | word chars =>
    have hend : endWord before chars = some tokens := h
    simp only [step, hc, hend, Bool.false_eq_true, if_false, Option.bind_some]
  | _ => cases h

end Scanner

/-! ### Scanning words -/

variable {before : List Token}

/-- A character of a bare word begins one. -/
private theorem begin_of_isBare {c : Char} (hc : isBare c) :
    Scanner.begin before c = some ⟨.word [c], before⟩ := by
  unfold Scanner.begin
  split
  case h_12 => rw [if_pos hc]
  all_goals exact absurd hc (by decide)

/-- The characters of a bare word are collected. -/
private theorem leads_word {c : Char} {cs : List Char} (hc : isBare c) (hcs : cs.all isBare) :
    Leads Scanner.step ⟨.between, before⟩ (c :: cs) ⟨.word (c :: cs).reverse, before⟩ := by
  refine .cons (begin_of_isBare hc) ?_
  suffices hrest : ∀ chars, Leads Scanner.step ⟨.word chars, before⟩ cs
      ⟨.word (cs.reverse ++ chars), before⟩ by
    simpa using hrest [c]
  induction cs with
  | nil => exact fun chars => .nil
  | cons d cs ih =>
    intro chars
    rw [List.all_cons, Bool.and_eq_true] at hcs
    have hstep : Scanner.step ⟨.word chars, before⟩ d = some ⟨.word (d :: chars), before⟩ :=
      if_pos hcs.1
    simpa using Leads.cons hstep (ih hcs.2 (d :: chars))

/-- A word that denotes a value becomes one token, as soon as it ends. -/
private theorem exists_leads_word {cs : List Char} {value : Json} (hne : cs ≠ [])
    (hcs : cs.all isBare) (hvalue : bare? cs = some value) :
    ∃ s, Leads Scanner.step ⟨.between, before⟩ cs s ∧ s.ended = some (.bare value :: before) := by
  obtain ⟨c, cs, rfl⟩ := List.exists_cons_of_ne_nil hne
  obtain ⟨hc, hrest⟩ := Bool.and_eq_true_iff.mp (List.all_cons ▸ hcs)
  refine ⟨_, leads_word hc hrest, ?_⟩
  simp only [Scanner.ended, Scanner.endWord, List.reverse_reverse, hvalue, Option.map_some]

/-- Digits are characters of bare words. -/
private theorem isBare_of_isDigit {c : Char} (h : c.isDigit) : isBare c := by
  simp [isBare, Char.isAlphanum, h]

/-- Only the digits of zero start with a zero. -/
private theorem head_toDigits_ne_zero {n : Nat} (hn : n ≠ 0) {cs : List Char} :
    Nat.toDigits 10 n ≠ '0' :: cs := by
  induction n using Nat.strongRecOn generalizing cs with
  | ind n ih =>
    rcases Nat.lt_or_ge n 10 with hlt | hge
    · rw [Nat.toDigits_of_lt_base hlt]
      intro h
      obtain ⟨hdigit, -⟩ := List.cons.inj h
      have hdigits : ∀ k < 10, k ≠ 0 → k.digitChar ≠ '0' := by decide
      exact hdigits n hlt hn hdigit
    · rw [Nat.toDigits_of_base_le (by decide) hge]
      intro h
      have hne : Nat.toDigits 10 (n / 10) ≠ [] := Nat.toDigits_ne_nil
      obtain ⟨d, ds, hds⟩ := List.exists_cons_of_ne_nil hne
      rw [hds, List.cons_append] at h
      obtain ⟨rfl, -⟩ := List.cons.inj h
      exact ih (n / 10) (by omega) (by omega) hds

/-- Decimal digits are read as the number that they were written for. -/
private theorem natural?_toDigits (n : Nat) : natural? (Nat.toDigits 10 n) = some n := by
  by_cases hn : n = 0
  · subst hn
    rfl
  · have hdigits : (Nat.toDigits 10 n).all Char.isDigit := List.all_eq_true.mpr fun c hc =>
      Nat.isDigit_of_mem_toDigits (by decide) (by decide) hc
    have hvalue : (Nat.toDigits 10 n).foldl (fun n c => 10 * n + (c.toNat - '0'.toNat)) 0 = n :=
      Nat.ofDigitChars_eq_foldl.symm.trans Nat.ofDigitChars_ten_toDigits
    unfold natural?
    split
    next h => exact absurd h Nat.toDigits_ne_nil
    next h => exact absurd h (head_toDigits_ne_zero hn)
    next h => exact absurd h (head_toDigits_ne_zero hn)
    next => rw [if_pos hdigits, hvalue]

/-- A number in decimal digits is read as that number. -/
private theorem bare?_toDigits (n : Nat) : bare? (Nat.toDigits 10 n) = some (.nat n) := by
  -- the letters of the literal names are no digits
  have hne : ∀ {c : Char} {cs : List Char}, c.isDigit = false → Nat.toDigits 10 n ≠ c :: cs := by
    intro c cs hc h
    have hmem : c ∈ Nat.toDigits 10 n := h ▸ List.mem_cons_self
    rw [Nat.isDigit_of_mem_toDigits (by decide) (by decide) hmem] at hc
    cases hc
  rw [bare?, if_neg (hne (by decide)), if_neg (hne (by decide)), if_neg (hne (by decide)),
    natural?_toDigits]

/-! ### Scanning strings -/

/-- Characters are no surrogates. -/
private theorem isSurrogate_toNat (c : Char) : isSurrogate c.toNat = false := by
  have hvalid : c.toNat < 0xd800 ∨ 0xdfff < c.toNat ∧ c.toNat < 0x110000 := c.valid
  simp only [isSurrogate, Bool.and_eq_false_iff, decide_eq_false_iff_not]
  omega

/-- A character does not complete a pair of surrogates. -/
private theorem pairSurrogates?_toNat (leading : Nat) (c : Char) :
    pairSurrogates? leading c.toNat = none := by
  have hvalid : c.toNat < 0xd800 ∨ 0xdfff < c.toNat ∧ c.toNat < 0x110000 := c.valid
  exact if_neg fun h => by omega

/-- The numbers of characters are read as those characters. -/
private theorem charsOf?_map_toNat (tail cs : List Char) :
    charsOf? tail (cs.map Char.toNat) = some (cs.reverse ++ tail) := by
  induction cs generalizing tail with
  | nil => rfl
  | cons c cs ih =>
    rcases cs with _ | ⟨d, cs⟩
    · simp [charsOf?, isSurrogate_toNat, Char.ofNat_toNat]
    · have hrest := ih (c :: tail)
      rw [List.map_cons] at hrest
      simp [charsOf?, pairSurrogates?_toNat, isSurrogate_toNat, Char.ofNat_toNat, hrest]

/-- The numbers of the characters of a text are read as that text. -/
private theorem textOf_map_toNat (s : String) :
    textOf (s.toList.map Char.toNat).reverse = some s := by
  rw [← List.map_reverse, textOf, charsOf?_map_toNat]
  simp

/-- Hexadecimal digits are read as the number that they were written for. -/
private theorem hexDigit?_hexDigit {n : Nat} (h : n < 16) : hexDigit? (hexDigit n) = some n := by
  have hall : ∀ k < 16, hexDigit? (hexDigit k) = some k := by decide
  exact hall n h

/-- In a string, an escaped character is read as that character. -/
private theorem leads_escape (points : List Nat) (c : Char) :
    Leads Scanner.step ⟨.string points, before⟩ (escape c)
      ⟨.string (c.toNat :: points), before⟩ := by
  unfold escape
  split
  case h_8 hquote hback _ _ _ _ _ =>
    split
    next hcontrol =>
      -- two zeros, and the two digits of the character's number
      have hhigh : hexDigit? (hexDigit (c.toNat / 16)) = some (c.toNat / 16) :=
        hexDigit?_hexDigit (by omega)
      have hlow : hexDigit? (hexDigit (c.toNat % 16)) = some (c.toNat % 16) :=
        hexDigit?_hexDigit (by omega)
      have hvalue : 16 * (c.toNat / 16) + c.toNat % 16 = c.toNat := by omega
      have hzeros : Leads Scanner.step ⟨.string points, before⟩ ['\\', 'u', '0', '0']
          ⟨.hex points 0 2, before⟩ := rfl
      have hfirst : Scanner.step ⟨.hex points 0 2, before⟩ (hexDigit (c.toNat / 16)) =
          some ⟨.hex points (c.toNat / 16) 1, before⟩ := by
        simp [Scanner.step, hhigh]
      have hsecond : Scanner.step ⟨.hex points (c.toNat / 16) 1, before⟩ (hexDigit (c.toNat % 16)) =
          some ⟨.string (c.toNat :: points), before⟩ := by
        simp [Scanner.step, hlow, hvalue]
      exact (hzeros.snoc hfirst).snoc hsecond
    next hplain =>
      have hstep : Scanner.step ⟨.string points, before⟩ c =
          some ⟨.string (c.toNat :: points), before⟩ :=
        (if_neg hquote).trans ((if_neg hback).trans (if_neg hplain))
      exact .cons hstep .nil
  all_goals exact .cons rfl (.cons rfl .nil)

/-- In a string, escaped characters are read as those characters. -/
private theorem leads_escapes (points : List Nat) (cs : List Char) :
    Leads Scanner.step ⟨.string points, before⟩ (cs.flatMap escape)
      ⟨.string ((cs.map Char.toNat).reverse ++ points), before⟩ := by
  induction cs generalizing points with
  | nil => exact .nil
  | cons c cs ih => simpa using (leads_escape points c).append (ih (c.toNat :: points))

/-- A string literal is one token. -/
private theorem leads_literal (text : Text) :
    Leads Scanner.step ⟨.between, before⟩ (literal text) ⟨.between, .str text :: before⟩ := by
  rcases text with _ | s
  · rfl
  · have hend : Scanner.step ⟨.string ((s.toList.map Char.toNat).reverse ++ []), before⟩ '"' =
        some ⟨.between, .str (some s) :: before⟩ := by
      rw [List.append_nil, ← textOf_map_toNat s]
      rfl
    exact .cons rfl ((leads_escapes [] s.toList).snoc hend)

/-! ### Scanning values -/

/-- What is scanned up to a last word: that word becomes a token as soon as it ends. -/
def Scans (before : List Token) (cs : List Char) (scanned : List Token) : Prop :=
  ∃ s, Leads Scanner.step ⟨.between, before⟩ cs s ∧ s.ended = some (scanned.reverse ++ before)

namespace Scans

variable {cs ds : List Char} {scanned more : List Token} {c : Char} {token : Token}

/-- Without characters there are no tokens. -/
theorem nil : Scans before [] [] := ⟨_, .nil, rfl⟩

/-- Characters that lead to a token are scanned as it. -/
private theorem of_leads
    (h : Leads Scanner.step ⟨.between, before⟩ cs ⟨.between, token :: before⟩) :
    Scans before cs [token] :=
  ⟨_, h, rfl⟩

/-- Characters that lead to tokens may stand before others. -/
private theorem of_leads_append
    (h : Leads Scanner.step ⟨.between, before⟩ cs ⟨.between, scanned.reverse ++ before⟩)
    (h' : Scans (scanned.reverse ++ before) ds more) :
    Scans before (cs ++ ds) (scanned ++ more) := by
  obtain ⟨s, hleads, hended⟩ := h'
  exact ⟨s, h.append hleads, by simpa using hended⟩

/-- A character of punctuation ends what was scanned before it. -/
private theorem leads_snoc (h : Scans before cs scanned) (hc : isBare c = false)
    (hbegin : ∀ tokens, Scanner.begin tokens c = some ⟨.between, token :: tokens⟩) :
    Leads Scanner.step ⟨.between, before⟩ (cs ++ [c])
      ⟨.between, (scanned ++ [token]).reverse ++ before⟩ := by
  obtain ⟨s, hleads, hended⟩ := h
  have hstep := (Scanner.step_of_ended hended hc).trans (hbegin _)
  simpa using hleads.snoc hstep

/-- A character that is a token of its own may stand after others. -/
private theorem snoc (h : Scans before cs scanned) (hc : isBare c = false)
    (hbegin : ∀ tokens, Scanner.begin tokens c = some ⟨.between, token :: tokens⟩) :
    Scans before (cs ++ [c]) (scanned ++ [token]) :=
  ⟨_, h.leads_snoc hc hbegin, rfl⟩

/-- Values with punctuation between them. -/
theorem append (h : Scans before cs scanned) (hc : isBare c = false)
    (hbegin : ∀ tokens, Scanner.begin tokens c = some ⟨.between, token :: tokens⟩)
    (h' : ∀ before, Scans before ds more) :
    Scans before (cs ++ c :: ds) (scanned ++ token :: more) := by
  simpa using of_leads_append (h.leads_snoc hc hbegin) (h' _)

/-- A character that is a token of its own may stand before others. -/
theorem cons (hbegin : ∀ tokens, Scanner.begin tokens c = some ⟨.between, token :: tokens⟩)
    (h : ∀ before, Scans before cs scanned) : Scans before (c :: cs) (token :: scanned) := by
  have hfirst : Leads Scanner.step ⟨.between, before⟩ [c] ⟨.between, [token].reverse ++ before⟩ :=
    .cons (hbegin before) .nil
  exact of_leads_append hfirst (h _)

end Scans

mutual

/-- The characters of a value are cut into its tokens. -/
private theorem scans_spelling : ∀ (value : Json), Spelled value → ∀ before,
    Scans before (spelling value) (tokens value)
  | .null, _, _ => exists_leads_word (by decide) (by decide) rfl
  | .bool true, _, _ => exists_leads_word (by decide) (by decide) rfl
  | .bool false, _, _ => exists_leads_word (by decide) (by decide) rfl
  | .nat n, _, _ =>
    exists_leads_word Nat.toDigits_ne_nil
      (List.all_eq_true.mpr fun _ hc =>
        isBare_of_isDigit (Nat.isDigit_of_mem_toDigits (by decide) (by decide) hc))
      (bare?_toDigits n)
  | .number _, h, _ => by
    rw [Spelled] at h
    exact exists_leads_word h.2.1 h.1 h.2.2
  | .str s, _, _ => .of_leads (leads_literal s)
  | .arr items, h, _ => by
    rw [Spelled] at h
    rw [spelling, tokens]
    exact .cons (fun _ => rfl) fun before =>
      (scans_spellingItems items h before).snoc (by decide) fun _ => rfl
  | .obj members, h, _ => by
    rw [Spelled] at h
    rw [spelling, tokens]
    exact .cons (fun _ => rfl) fun before =>
      (scans_spellingMembers members h before).snoc (by decide) fun _ => rfl

/-- The spelling of items is scanned as their tokens. -/
private theorem scans_spellingItems : ∀ (items : List Json), SpelledItems items → ∀ before,
    Scans before (spellingItems items) (tokensOfItems items)
  | [], _, _ => .nil
  | [item], h, before => by
    rw [SpelledItems] at h
    rw [spellingItems, tokensOfItems]
    exact scans_spelling item h.1 before
  | item :: next :: rest, h, before => by
    rw [SpelledItems] at h
    rw [spellingItems, tokensOfItems]
    exact (scans_spelling item h.1 before).append (by decide) (fun _ => rfl)
      (scans_spellingItems (next :: rest) h.2)

/-- The spelling of members is scanned as their tokens. -/
private theorem scans_spellingMembers : ∀ (members : List (Text × Json)), SpelledMembers members →
    ∀ before, Scans before (spellingMembers members) (tokensOfMembers members)
  | [], _, _ => .nil
  | [(name, value)], h, _ => by
    rw [SpelledMembers] at h
    rw [spellingMembers, tokensOfMembers]
    exact (Scans.of_leads (leads_literal name)).append (by decide) (fun _ => rfl)
      (scans_spelling value h.1)
  | (name, value) :: next :: rest, h, _ => by
    rw [SpelledMembers] at h
    rw [spellingMembers, tokensOfMembers]
    exact (Scans.of_leads (leads_literal name)).append (by decide) (fun _ => rfl) fun before =>
      (scans_spelling value h.1 before).append (by decide) (fun _ => rfl)
        (scans_spellingMembers (next :: rest) h.2)

end

/-- The spelling of a value is scanned as its tokens. -/
private theorem scan_spelling {value : Json} (h : Spelled value) :
    scan (spelling value) = some (tokens value) := by
  obtain ⟨s, hleads, hended⟩ := scans_spelling value h []
  rw [scan, show (spelling value).foldlM Scanner.step {} = some s from hleads, Option.bind_some,
    Scanner.finish_eq, hended]
  simp

/-! ### Putting values together -/

/-- Values begin with a token, and it is not the end of an array. -/
private theorem exists_tokens_eq_cons (value : Json) :
    ∃ token rest, tokens value = token :: rest ∧ token ≠ .closeBracket := by
  cases value <;> exact ⟨_, _, by rw [tokens], by simp⟩

/-- Where an array may end, an item is read as anywhere else. -/
private theorem step_wantFirstItem {token : Token} (stack : List Frame)
    (h : token ≠ .closeBracket) :
    Reader.step (.wantFirstItem stack) token =
      Reader.step (.wantValue (.arr [] :: stack)) token := by
  cases token with
  | closeBracket => exact absurd rfl h
  | _ => rfl

/-- The first item of an array is read like any other value. -/
private theorem leads_wantFirstItem {value : Json} {stack : List Frame} {rest : List Token}
    {r : Reader} (h : Leads Reader.step (.wantValue (.arr [] :: stack)) (tokens value ++ rest) r) :
    Leads Reader.step (.wantFirstItem stack) (tokens value ++ rest) r := by
  obtain ⟨token, more, htokens, hne⟩ := exists_tokens_eq_cons value
  rw [htokens, List.cons_append, Leads, List.foldlM_cons] at h ⊢
  rwa [step_wantFirstItem stack hne]

mutual

/-- The tokens of a value are put together to that value, within any open frames. -/
private theorem leads_tokens : ∀ (value : Json) (stack : List Frame),
    Leads Reader.step (.wantValue stack) (tokens value) (.after value stack)
  | .null, _ => rfl
  | .bool _, _ => rfl
  | .nat _, _ => rfl
  | .number _, _ => rfl
  | .str _, _ => rfl
  | .arr [], _ => rfl
  | .arr [item], stack => by
    rw [tokens]
    exact .cons rfl (leads_wantFirstItem (leads_tokensOfItems [item] (by simp) [] stack))
  | .arr (item :: next :: rest), stack => by
    have hitems := leads_tokensOfItems (item :: next :: rest) (by simp) [] stack
    rw [tokensOfItems, List.append_assoc] at hitems
    rw [tokens, tokensOfItems, List.append_assoc]
    exact .cons rfl (leads_wantFirstItem hitems)
  | .obj [], _ => rfl
  | .obj ((name, value) :: rest), stack => by
    have hmembers := leads_tokensOfMembers ((name, value) :: rest) (by simp) [] stack
    rw [tokens]
    rcases rest with _ | ⟨next, rest⟩
    · rw [tokensOfMembers] at hmembers ⊢
      exact .cons rfl hmembers
    · rw [tokensOfMembers] at hmembers ⊢
      exact .cons rfl hmembers

/-- The items of an array come after those that were read. -/
private theorem leads_tokensOfItems : ∀ (items : List Json), items ≠ [] → ∀ done stack,
    Leads Reader.step (.wantValue (.arr done :: stack)) (tokensOfItems items ++ [.closeBracket])
      (.after (.arr (done.reverse ++ items)) stack)
  | [], h, _, _ => absurd rfl h
  | [item], _, done, stack => by
    rw [tokensOfItems]
    refine (leads_tokens item (.arr done :: stack)).snoc ?_
    rw [Reader.step, List.reverse_cons]
  | item :: next :: rest, _, done, stack => by
    have hrest := leads_tokensOfItems (next :: rest) (by simp) (item :: done) stack
    rw [List.reverse_cons, List.append_assoc, List.singleton_append] at hrest
    rw [tokensOfItems, List.append_assoc, List.cons_append]
    exact (leads_tokens item (.arr done :: stack)).append (.cons rfl hrest)

/-- The members of an object come after those that were read. -/
private theorem leads_tokensOfMembers :
    ∀ (members : List (Text × Json)), members ≠ [] → ∀ done stack,
    Leads Reader.step (.wantName done stack) (tokensOfMembers members ++ [.closeBrace])
      (.after (.obj (done.reverse ++ members)) stack)
  | [], h, _, _ => absurd rfl h
  | [(name, value)], _, done, stack => by
    rw [tokensOfMembers, List.cons_append, List.cons_append]
    refine .cons rfl (.cons rfl ((leads_tokens value (.obj done name :: stack)).snoc ?_))
    rw [Reader.step, List.reverse_cons]
  | (name, value) :: next :: rest, _, done, stack => by
    have hrest := leads_tokensOfMembers (next :: rest) (by simp) ((name, value) :: done) stack
    rw [List.reverse_cons, List.append_assoc, List.singleton_append] at hrest
    rw [tokensOfMembers, List.cons_append, List.cons_append, List.append_assoc, List.cons_append]
    exact .cons rfl (.cons rfl
      ((leads_tokens value (.obj done name :: stack)).append (.cons rfl hrest)))

end

/-- The tokens of a value are read as that value. -/
private theorem ofTokens?_tokens (value : Json) : ofTokens? (tokens value) = some value := by
  have hleads : (tokens value).foldlM Reader.step (.wantValue []) = some (.after value []) :=
    leads_tokens value []
  rw [ofTokens?, hleads]
  rfl

/-- **Printed values are read back.** -/
theorem parse?_render {value : Json} (h : Spelled value) : parse? (render value) = some value := by
  rw [parse?, toList_render, scan_spelling h]
  exact ofTokens?_tokens value

end Abacus.Json
