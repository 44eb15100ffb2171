import Mathlib.Data.List.Basic
import Abacus.Machine.Program

/-!
# The listing of a program

A listing has one line for each instruction: its mnemonic, and then its operands in decimal. Numbers
have no fixed width, so it is the separators that tell the parts of a listing apart. No digit is a
comma, so a line can be cut into its operands again (`Instr.operandText_injective`), and no line
holds a line break, so a listing can be cut into its lines (`Program.splitOn_listing`). Programs
with one listing therefore have the same code (`Program.listing_unambiguous`).
-/

namespace Abacus.Machine

namespace Instr

/-- The numbers that an instruction names, in the order in which a listing shows them. -/
def operands : Instr → List Nat
  | .inc r => [r.id]
  | .dec r => [r.id]
  | .jmp a => [a]
  | .tst r a b => [r.id, a, b]
  | .hlt => []

/-- The characters of a number: a blank, and then its digits. -/
def numberText (n : Nat) : List Char := ' ' :: Nat.toDigits 10 n

/-- The characters of the operands: the numbers, with commas between them. -/
def operandText (operands : List Nat) : List Char := [','].intercalate (operands.map numberText)

/-! ### Numbers -/

private theorem notMem_numberText {c : Char} (hblank : c ≠ ' ') (hdigit : c.isDigit = false)
    (n : Nat) :
    c ∉ numberText n := by
  rw [numberText, List.mem_cons, not_or]
  refine ⟨hblank, fun hmem => ?_⟩
  have hc : c.isDigit := Nat.isDigit_of_mem_toDigits (by decide) (by decide) hmem
  simp [hdigit] at hc

private theorem numberText_injective : Function.Injective numberText := by
  intro n m h
  have hdigits : Nat.toDigits 10 n = Nat.toDigits 10 m := (List.cons.inj h).2
  rw [← Nat.ofDigitChars_ten_toDigits (n := n), hdigits, Nat.ofDigitChars_ten_toDigits]

private theorem notMem_operandText {c : Char} (hcomma : c ≠ ',') (hblank : c ≠ ' ')
    (hdigit : c.isDigit = false) (ns : List Nat) : c ∉ operandText ns := by
  unfold operandText
  induction ns with
  | nil => exact List.not_mem_nil
  | cons n rest ih =>
    have hfirst := notMem_numberText hblank hdigit n
    cases rest with
    | nil => simpa using hfirst
    | cons m rest =>
      rw [List.map_cons, List.map_cons, List.intercalate_cons_cons]
      simpa [hfirst, hcomma] using ih

/-- Cut at the commas, the text of some operands is the text of each. -/
private theorem splitOn_operandText {ns : List Nat} (hne : ns ≠ []) :
    (operandText ns).splitOn ',' = ns.map numberText := by
  refine List.splitOn_intercalate ',' (fun number hmem => ?_) (by simpa using hne)
  obtain ⟨n, -, rfl⟩ := List.mem_map.mp hmem
  exact notMem_numberText (by decide) (by decide) n

private theorem operandText_eq_nil_iff {ns : List Nat} : operandText ns = [] ↔ ns = [] := by
  refine ⟨fun h => ?_, fun h => by rw [h]; rfl⟩
  by_contra hne
  -- cut at the commas, no text is a number without characters
  have hsplit := splitOn_operandText hne
  rw [h, List.splitOn_nil, eq_comm, List.map_eq_singleton_iff] at hsplit
  obtain ⟨n, -, hn⟩ := hsplit
  exact List.cons_ne_nil _ _ hn

theorem operandText_injective : Function.Injective operandText := by
  intro ns ms h
  by_cases hns : ns = []
  · rw [hns, eq_comm, ← operandText_eq_nil_iff, ← h, operandText_eq_nil_iff, hns]
  · have hms : ms ≠ [] := by rwa [Ne, ← operandText_eq_nil_iff, ← h, operandText_eq_nil_iff]
    refine List.map_injective_iff.mpr numberText_injective ?_
    rw [← splitOn_operandText hns, h, splitOn_operandText hms]

/-! ### Lines -/

private theorem toList_text (i : Instr) :
    i.text.toList = i.mnemonic.toList ++ operandText i.operands := by
  cases i <;> simp [text, mnemonic, operands, operandText, numberText, List.intercalate]

private theorem length_mnemonic (i : Instr) : i.mnemonic.toList.length = 3 := by
  cases i <;> simp [mnemonic]

/-- An instruction is its mnemonic and its operands. -/
private theorem eq_of_mnemonic_of_operands {i j : Instr} (hmnemonic : i.mnemonic = j.mnemonic)
    (hoperands : i.operands = j.operands) : i = j := by
  rcases i with ⟨⟨n⟩⟩ | ⟨⟨n⟩⟩ | a | ⟨⟨n⟩, a, b⟩ | _ <;>
    rcases j with ⟨⟨m⟩⟩ | ⟨⟨m⟩⟩ | a' | ⟨⟨m⟩, a', b'⟩ | _ <;>
      simp_all [mnemonic, operands]

/-- Every instruction has a line of its own. -/
private theorem text_injective : Function.Injective text := by
  intro i j h
  have hchars := congrArg String.toList h
  rw [toList_text, toList_text] at hchars
  -- mnemonics are equally long, so that the operands begin at one place
  obtain ⟨hmnemonic, hoperands⟩ :=
    List.append_inj hchars ((length_mnemonic i).trans (length_mnemonic j).symm)
  exact eq_of_mnemonic_of_operands (String.ext hmnemonic) (operandText_injective hoperands)

private theorem newline_notMem_text (i : Instr) : '\n' ∉ i.text.toList := by
  rw [toList_text, List.mem_append, not_or]
  refine ⟨?_, notMem_operandText (by decide) (by decide) (by decide) _⟩
  cases i <;> simp [mnemonic]

end Instr

namespace Program

/-! ### Listings -/

/-- Cut at the line breaks, a listing is the lines of the instructions, with nothing after the last
line break. -/
theorem splitOn_listing (p : Program) :
    p.listing.toList.splitOn '\n' = p.code.toList.map (fun i => i.text.toList) ++ [[]] := by
  have hchars : p.listing.toList = p.code.toList.flatMap fun i => i.text.toList ++ ['\n'] := by
    simp [listing, String.toList_join, List.flatMap_map]
  rw [hchars]
  induction p.code.toList with
  | nil => rfl
  | cons i rest ih =>
    rw [List.flatMap_cons, List.append_assoc, List.singleton_append,
      List.splitOn_append_cons_self_of_not_mem i.newline_notMem_text, ih, List.map_cons,
      List.cons_append]

/-- **Listings are unambiguous.** Two programs have the same listing exactly if they have the same
instructions, with the same registers and targets, in the same order. Cut at its line breaks, the
listing of a program is one line for each instruction, and every line is ended. -/
theorem listing_unambiguous (p q : Program) :
    (p.listing = q.listing ↔ p.code = q.code) ∧
      p.listing.toList.splitOn '\n' = p.code.toList.map (fun i => i.text.toList) ++ [[]] := by
  refine ⟨⟨fun h => ?_, fun h => by rw [listing, listing, h]⟩, p.splitOn_listing⟩
  have hlines : p.code.toList.map (fun i => i.text.toList) =
      q.code.toList.map fun i => i.text.toList := by
    rw [← List.append_left_inj [[]], ← splitOn_listing, ← splitOn_listing, h]
  have hinjective : Function.Injective fun i : Instr => i.text.toList :=
    fun i j hij => Instr.text_injective (String.ext hij)
  exact Array.toList_inj.mp (List.map_injective_iff.mpr hinjective hlines)

end Program

end Abacus.Machine
