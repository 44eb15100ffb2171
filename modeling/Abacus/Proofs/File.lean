import Abacus.Machine.Run

/-!
# Register files

What code does to a register file is said register by register: `File.val` reads a register,
`File.put` sets one, and two files of one size that hold the same counts are equal (`File.ext`).
`File.assign?` sets a register to a count that it can hold and is `none` for a larger one, which is
how an overflow shows; additions to registers commute and add up (`File.add?_comm`,
`File.add?_add?`), whether or not one of them overflows.
-/

namespace Abacus.Machine

/-- The counts in the registers of a machine. -/
abbrev File := Array Nat

namespace File

/-- The count in a register. A register that the file does not have holds nothing. -/
def val (file : File) (r : Register) : Nat := file.getD r.index 0

/-- The file after a register is set. -/
def put (file : File) (r : Register) (n : Nat) : File := file.setIfInBounds r.index n

/-- Whether the file has a register. -/
def Has (file : File) (r : Register) : Prop := 0 < r.id ∧ r.id ≤ file.size

/-- Setting a register leaves the number of registers. -/
@[simp]
theorem size_put (file : File) (r : Register) (n : Nat) : (file.put r n).size = file.size :=
  Array.size_setIfInBounds

/-- Setting a register neither adds nor removes any. -/
@[simp]
theorem has_put {file : File} {r s : Register} {n : Nat} :
    (file.put r n).Has s ↔ file.Has s := by
  rw [Has, Has, size_put]

theorem Has.index_lt {file : File} {r : Register} (h : file.Has r) : r.index < file.size := by
  obtain ⟨hpos, hle⟩ := h
  unfold Register.index
  omega

/-- Registers are told apart by their places. -/
theorem Has.index_ne {file : File} {r s : Register} (hr : file.Has r) (hs : file.Has s)
    (hne : r ≠ s) : r.index ≠ s.index := by
  intro h
  apply hne
  obtain ⟨i⟩ := r
  obtain ⟨j⟩ := s
  simp only [Has, Register.index] at hr hs h
  congr 1
  omega

/-- What is beyond the file reads as zero. -/
theorem val_eq_zero_of_size_lt {file : File} {r : Register} (h : file.size < r.id) :
    file.val r = 0 := by
  have hle : file.size ≤ r.index := by
    unfold Register.index
    omega
  simp [val, Array.getD_eq_getD_getElem?, hle]

/-- A register that was set has the value it was set to. -/
theorem val_put_self {file : File} {r : Register} (h : file.Has r) (n : Nat) :
    (file.put r n).val r = n := by
  simp [val, put, Array.getD_eq_getD_getElem?, h.index_lt]

/-- Setting a register leaves the others. -/
theorem val_put_of_ne {file : File} {r s : Register} (hr : file.Has r) (hs : file.Has s)
    (hne : s ≠ r) (n : Nat) : (file.put r n).val s = file.val s := by
  simp [val, put, Array.getD_eq_getD_getElem?, (hr.index_ne hs hne.symm)]

/-- The values after a register was set. -/
@[grind =]
theorem val_put {file : File} {r s : Register} (hr : file.Has r) (hs : file.Has s) (n : Nat) :
    (file.put r n).val s = if s = r then n else file.val s := by
  split
  next h => rw [h, val_put_self hr]
  next h => rw [val_put_of_ne hr hs h]

/-- Files of one size that hold the same counts are equal. -/
protected theorem ext {file file' : File} (hsize : file.size = file'.size)
    (hval : ∀ r, file.Has r → file.val r = file'.val r) : file = file' := by
  refine Array.ext hsize fun i hi hi' => ?_
  have h := hval ⟨i + 1⟩ ⟨by simp, hi⟩
  simpa [val, Register.index, Array.getD_eq_getD_getElem?, hi, hi'] using h

/-- Of two settings of a register the later one counts. -/
@[simp]
theorem put_put (file : File) (r : Register) (n m : Nat) :
    (file.put r n).put r m = file.put r m := by
  simp [put]

/-- Different registers can be set in either order. -/
theorem put_comm {file : File} {r s : Register} (hr : file.Has r) (hs : file.Has s) (hne : r ≠ s)
    (n m : Nat) : (file.put r n).put s m = (file.put s m).put r n :=
  Array.setIfInBounds_comm n m (hr.index_ne hs hne)

/-- Setting a register to its own value changes nothing. -/
theorem put_eq_self {file : File} {r : Register} {n : Nat} (hr : file.Has r)
    (h : file.val r = n) : file.put r n = file := by
  refine File.ext (size_put ..) fun s hs => ?_
  rw [val_put hr (has_put.mp hs)]
  split
  next hsr => rw [hsr, h]
  next => rfl

/-! ### Counts that a register can hold -/

/-- Every register holds a count below the bound. -/
def Bounded (file : File) : Prop := ∀ r, file.Has r → file.val r < wordBound

/-- Set a register to a count, if it can hold it. -/
def assign? (file : File) (r : Register) (n : Nat) : Option File :=
  if n < wordBound then some (file.put r n) else none

/-- Add a number to a register, if it can hold the sum. -/
def add? (file : File) (r : Register) (n : Nat) : Option File := file.assign? r (file.val r + n)

/-- Add a number to each of some registers, if they can hold the sums. -/
def addAll? (file : File) (targets : List Register) (n : Nat) : Option File :=
  targets.foldlM (fun file r => file.add? r n) file

/-- A value within the word bound can be stored. -/
theorem assign?_of_lt {file : File} {r : Register} {n : Nat} (h : n < wordBound) :
    file.assign? r n = some (file.put r n) :=
  if_pos h

/-- A value beyond the word bound cannot be stored. -/
theorem assign?_of_le {file : File} {r : Register} {n : Nat} (h : wordBound ≤ n) :
    file.assign? r n = none :=
  if_neg (Nat.not_lt.mpr h)

/-- A register that was set by an assignment has a value within the word bound. -/
theorem eq_put_of_assign? {file file' : File} {r : Register} {n : Nat}
    (h : file.assign? r n = some file') : n < wordBound ∧ file' = file.put r n := by
  unfold assign? at h
  split at h
  next hn => exact ⟨hn, (Option.some.inj h).symm⟩
  next => exact absurd h (by simp)

/-- Counts stay below the bound if a register is set to such a count. -/
theorem Bounded.put {file : File} (hb : file.Bounded) {r : Register} (hr : file.Has r) {n : Nat}
    (hn : n < wordBound) : (file.put r n).Bounded := by
  intro s hs
  rw [val_put hr (has_put.mp hs)]
  split
  · exact hn
  · exact hb s (has_put.mp hs)

@[simp]
theorem addAll?_nil (file : File) (n : Nat) : file.addAll? [] n = some file := rfl

theorem addAll?_cons (file : File) (r : Register) (rs : List Register) (n : Nat) :
    file.addAll? (r :: rs) n = (file.add? r n).bind fun file => file.addAll? rs n := rfl

/-- Adding zero changes nothing. -/
theorem add?_zero {file : File} (hb : file.Bounded) {r : Register} (hr : file.Has r) :
    file.add? r 0 = some file := by
  rw [add?, Nat.add_zero, assign?_of_lt (hb r hr), put_eq_self hr rfl]

/-- Two additions to one register are one. -/
theorem add?_add? {file : File} {r : Register} (hr : file.Has r) (n m : Nat) :
    (file.add? r n).bind (fun file => file.add? r m) = file.add? r (n + m) := by
  unfold add? assign?
  by_cases h : file.val r + n < wordBound
  · simp only [if_pos h, Option.bind_some, val_put_self hr, put_put, Nat.add_assoc]
  · have h' : ¬file.val r + (n + m) < wordBound := by omega
    simp only [if_neg h, if_neg h', Option.bind_none]

/-- Additions may change places. -/
theorem add?_comm {file : File} {r s : Register} (hr : file.Has r) (hs : file.Has s) (n m : Nat) :
    (file.add? r n).bind (fun file => file.add? s m)
      = (file.add? s m).bind (fun file => file.add? r n) := by
  by_cases hne : r = s
  · rw [← hne, add?_add? hr, add?_add? hr, Nat.add_comm]
  · unfold add? assign?
    by_cases h : file.val r + n < wordBound <;> by_cases h' : file.val s + m < wordBound <;>
      simp [h, h', val_put_of_ne hr hs (Ne.symm hne), val_put_of_ne hs hr hne, put_comm hr hs hne]

/-- Setting one register and adding to another may change places. -/
private theorem add?_put {file : File} {r s : Register} (hr : file.Has r) (hs : file.Has s)
    (hne : r ≠ s)
    (n m : Nat) : (file.put s m).add? r n = (file.add? r n).map fun file => file.put s m := by
  unfold add? assign?
  rw [val_put_of_ne hs hr hne]
  by_cases h : file.val r + n < wordBound
  · simp [h, put_comm hr hs hne]
  · simp [h]

/-! ### Adding to several registers -/

/-- Addition leaves the number of registers. -/
private theorem size_of_add? {file file' : File} {r : Register} {n : Nat}
    (h : file.add? r n = some file') :
    file'.size = file.size := by
  rw [(eq_put_of_assign? h).2, size_put]

/-- Addition neither adds nor removes registers. -/
theorem has_of_add? {file file' : File} {r s : Register} {n : Nat}
    (h : file.add? r n = some file') : file'.Has s ↔ file.Has s := by
  rw [Has, Has, size_of_add? h]

/-- Adding zero to any registers changes nothing. -/
theorem addAll?_zero {file : File} (hb : file.Bounded) {targets : List Register}
    (htargets : ∀ t ∈ targets, file.Has t) : file.addAll? targets 0 = some file := by
  induction targets with
  | nil => rfl
  | cons t rest ih =>
    rw [addAll?_cons, add?_zero hb (htargets t List.mem_cons_self), Option.bind_some]
    exact ih fun t ht => htargets t (List.mem_cons_of_mem _ ht)

/-- An addition to one register and additions to several may change places. -/
private theorem addAll?_add?_comm {file : File} {r : Register} (hr : file.Has r)
    {targets : List Register} (htargets : ∀ t ∈ targets, file.Has t) (n m : Nat) :
    (file.addAll? targets n).bind (fun file => file.add? r m)
      = (file.add? r m).bind (fun file => file.addAll? targets n) := by
  induction targets generalizing file with
  | nil => simp
  | cons t rest ih =>
    have ht := htargets t List.mem_cons_self
    calc (file.addAll? (t :: rest) n).bind (fun file => file.add? r m)
        = (file.add? t n).bind fun file =>
            (file.addAll? rest n).bind fun file => file.add? r m := Option.bind_assoc _ _ _
      _ = (file.add? t n).bind fun file =>
            (file.add? r m).bind fun file => file.addAll? rest n := by
          refine Option.bind_congr fun file' h => ?_
          exact ih ((has_of_add? h).mpr hr) fun t ht =>
            (has_of_add? h).mpr (htargets t (List.mem_cons_of_mem _ ht))
      _ = ((file.add? t n).bind fun file => file.add? r m).bind fun file =>
            file.addAll? rest n := (Option.bind_assoc _ _ _).symm
      _ = ((file.add? r m).bind fun file => file.add? t n).bind fun file =>
            file.addAll? rest n := by rw [add?_comm ht hr]
      _ = (file.add? r m).bind fun file => file.addAll? (t :: rest) n := Option.bind_assoc _ _ _

/-- Adding to several registers twice is adding once. -/
theorem addAll?_addAll? {file : File} {targets : List Register}
    (htargets : ∀ t ∈ targets, file.Has t) (n m : Nat) :
    (file.addAll? targets n).bind (fun file => file.addAll? targets m)
      = file.addAll? targets (n + m) := by
  induction targets generalizing file with
  | nil => rfl
  | cons t rest ih =>
    have ht := htargets t List.mem_cons_self
    have hrest : ∀ t ∈ rest, file.Has t := fun t ht => htargets t (List.mem_cons_of_mem _ ht)
    calc (file.addAll? (t :: rest) n).bind (fun file => file.addAll? (t :: rest) m)
        = (file.add? t n).bind fun file => ((file.addAll? rest n).bind fun file =>
            file.add? t m).bind fun file => file.addAll? rest m := by
          rw [addAll?_cons, Option.bind_assoc]
          exact Option.bind_congr fun _ _ => (Option.bind_assoc _ _ _).symm
      _ = (file.add? t n).bind fun file => ((file.add? t m).bind fun file =>
            file.addAll? rest n).bind fun file => file.addAll? rest m := by
          refine Option.bind_congr fun file' h => ?_
          rw [addAll?_add?_comm ((has_of_add? h).mpr ht) fun t ht =>
            (has_of_add? h).mpr (hrest t ht)]
      _ = ((file.add? t n).bind fun file => file.add? t m).bind fun file =>
            (file.addAll? rest n).bind fun file => file.addAll? rest m := by
          rw [Option.bind_assoc]
          exact Option.bind_congr fun _ _ => Option.bind_assoc _ _ _
      _ = (file.add? t (n + m)).bind fun file => file.addAll? rest (n + m) := by
          rw [add?_add? ht]
          exact Option.bind_congr fun file' h => ih fun t ht => (has_of_add? h).mpr (hrest t ht)

/-- Setting a register and adding to others may change places. -/
theorem addAll?_put {file : File} {s : Register} (hs : file.Has s) {targets : List Register}
    (htargets : ∀ t ∈ targets, file.Has t) (hne : s ∉ targets) (n m : Nat) :
    (file.put s m).addAll? targets n = (file.addAll? targets n).map fun file => file.put s m := by
  induction targets generalizing file with
  | nil => rfl
  | cons t rest ih =>
    rw [List.mem_cons, not_or] at hne
    rw [addAll?_cons, addAll?_cons, add?_put (htargets t List.mem_cons_self) hs (Ne.symm hne.1)]
    cases h : file.add? t n with
    | none => rfl
    | some file' =>
      exact ih ((has_of_add? h).mpr hs) (fun t ht =>
        (has_of_add? h).mpr (htargets t (List.mem_cons_of_mem _ ht))) hne.2

/-- Adding to several registers leaves their number. -/
theorem size_of_addAll? {file file' : File} {targets : List Register} {n : Nat}
    (h : file.addAll? targets n = some file') : file'.size = file.size := by
  induction targets generalizing file with
  | nil => rw [Option.some.inj h]
  | cons t rest ih =>
    obtain ⟨file₁, hadd, hrest⟩ := Option.bind_eq_some_iff.mp h
    exact (ih hrest).trans (size_of_add? hadd)

/-- Adding to several registers keeps counts below the bound and leaves other registers alone. -/
theorem of_addAll? {file file' : File} {s : Register} (hs : file.Has s) {targets : List Register}
    (hb : file.Bounded) (htargets : ∀ t ∈ targets, file.Has t) (hne : s ∉ targets) {n : Nat}
    (h : file.addAll? targets n = some file') :
    file'.Bounded ∧ file'.val s = file.val s := by
  induction targets generalizing file with
  | nil =>
    obtain rfl := Option.some.inj h
    exact ⟨hb, rfl⟩
  | cons t rest ih =>
    rw [List.mem_cons, not_or] at hne
    have ht := htargets t List.mem_cons_self
    obtain ⟨file₁, hadd, hrest⟩ := Option.bind_eq_some_iff.mp h
    obtain ⟨hlt, hput⟩ := eq_put_of_assign? hadd
    have hb₁ : file₁.Bounded := hput ▸ hb.put ht hlt
    obtain ⟨hb', hval⟩ := ih ((has_of_add? hadd).mpr hs) hb₁ (fun t ht =>
      (has_of_add? hadd).mpr (htargets t (List.mem_cons_of_mem _ ht))) hne.2 hrest
    refine ⟨hb', hval.trans ?_⟩
    rw [hput, val_put_of_ne ht hs hne.1]

/-! ### Empty registers -/

/-- Counts are below the bound, and the registers numbered after `used` are empty. -/
structure Clean (file : File) (used : Nat) : Prop where
  bounded : file.Bounded
  empty : ∀ r : Register, used < r.id → file.val r = 0

/-- What is empty after some registers is so after more of them. -/
theorem Clean.mono {file : File} {used used' : Nat} (h : file.Clean used) (hle : used ≤ used') :
    file.Clean used' :=
  ⟨h.bounded, fun r hr => h.empty r (Nat.lt_of_le_of_lt hle hr)⟩

/-- Setting a register in use leaves those after it empty. -/
theorem Clean.put {file : File} {used : Nat} (h : file.Clean used) {r : Register}
    (hr : file.Has r) (hused : r.id ≤ used) {n : Nat} (hn : n < wordBound) :
    (file.put r n).Clean used where
  bounded := h.bounded.put hr hn
  empty s hs := by
    have hne : s ≠ r := by
      rintro rfl
      omega
    rcases Nat.lt_or_ge file.size s.id with hlt | hge
    · exact val_eq_zero_of_size_lt (by rwa [size_put])
    · rw [val_put_of_ne hr ⟨Nat.zero_lt_of_lt hs, hge⟩ hne]
      exact h.empty s hs

/-- An assignment to a register in use leaves those after it empty. -/
theorem Clean.of_assign? {file file' : File} {used : Nat} (h : file.Clean used) {r : Register}
    (hr : file.Has r) (hused : r.id ≤ used) {n : Nat} (hassign : file.assign? r n = some file') :
    file'.Clean used ∧ file'.size = file.size := by
  obtain ⟨hn, rfl⟩ := eq_put_of_assign? hassign
  exact ⟨h.put hr hused hn, size_put ..⟩

/-- Adding to registers in use leaves those after them empty. -/
theorem Clean.of_addAll? {file file' : File} {used n : Nat} {targets : List Register}
    (h : file.Clean used) (htargets : ∀ t ∈ targets, file.Has t ∧ t.id ≤ used)
    (hadd : file.addAll? targets n = some file') : file'.Clean used := by
  induction targets generalizing file with
  | nil => exact Option.some.inj hadd ▸ h
  | cons t rest ih =>
    obtain ⟨file₁, hfirst, hrest⟩ := Option.bind_eq_some_iff.mp hadd
    obtain ⟨ht, hle⟩ := htargets t List.mem_cons_self
    refine ih (h.of_assign? ht hle hfirst).1 (fun t ht => ?_) hrest
    exact (htargets t (List.mem_cons_of_mem _ ht)).imp_left (has_of_add? hfirst).mpr

end File

end Abacus.Machine
