import Abacus.Proofs.Linking
import Abacus.Proofs.Tightening

/-!
# Corresponding positions

Two linked fragments do the same when the positions of one can be renumbered into positions of the
other that hold the same instructions, once jumps that the other fragment does without are taken.
`Correspondence` collects what has to be shown of such a renumbering, without any run of more than
jumps, and `Correspondence.tightens` is the simulation that follows from it.
-/

namespace Abacus.Code

open Machine

/-- An instruction without targets goes on to the next one or ends, wherever it stands. -/
private theorem perform_straight {i : Instr} (hi : i.targets = []) (x y : Nat) (file : File) :
    (∃ file', i.perform ⟨x, file⟩ = .next ⟨x + 1, file'⟩ ∧
        i.perform ⟨y, file⟩ = .next ⟨y + 1, file'⟩) ∨
      (i.perform ⟨x, file⟩).Last ∧ (i.perform ⟨y, file⟩).Last ∧
        (i.perform ⟨x, file⟩).Alike (i.perform ⟨y, file⟩) := by
  have hread : ∀ r, (Config.mk y file).read? r = (Config.mk x file).read? r := fun _ => rfl
  cases i with
  | inc r =>
    simp only [Instr.perform, hread]
    cases (Config.mk x file).read? r with
    | none => exact .inr ⟨trivial, trivial, .fault rfl⟩
    | some n =>
      by_cases hn : n + 1 < wordBound
      · simp only [if_pos hn]
        exact .inl ⟨_, rfl, rfl⟩
      · simp only [if_neg hn]
        exact .inr ⟨trivial, trivial, .fault rfl⟩
  | dec r =>
    simp only [Instr.perform, hread]
    cases (Config.mk x file).read? r with
    | none => exact .inr ⟨trivial, trivial, .fault rfl⟩
    | some n =>
      cases n with
      | zero => exact .inr ⟨trivial, trivial, .fault rfl⟩
      | succ n => exact .inl ⟨_, rfl, rfl⟩
  | hlt => exact .inr ⟨trivial, trivial, .halted file⟩
  | jmp _ => exact absurd hi (by simp [Instr.targets])
  | tst _ _ _ => exact absurd hi (by simp [Instr.targets])

/-- Tests of one register take the same way or fail alike, wherever they stand. -/
private theorem perform_tst (r : Register) (x y a b a' b' : Nat) (file : File) :
    (∃ zero : Bool,
        (Instr.tst r a b).perform ⟨x, file⟩ = .next ⟨if zero then b else a, file⟩ ∧
        (Instr.tst r a' b').perform ⟨y, file⟩ = .next ⟨if zero then b' else a', file⟩) ∨
      ∃ f f', (Instr.tst r a b).perform ⟨x, file⟩ = .fault f ∧
        (Instr.tst r a' b').perform ⟨y, file⟩ = .fault f' ∧ f.anywhere = f'.anywhere := by
  have hread : (Config.mk y file).read? r = (Config.mk x file).read? r := rfl
  simp only [Instr.perform, hread]
  cases (Config.mk x file).read? r with
  | none => exact .inr ⟨_, _, rfl, rfl, rfl⟩
  | some n =>
    cases n with
    | zero => exact .inl ⟨true, rfl, rfl⟩
    | succ n => exact .inl ⟨false, rfl, rfl⟩

/-- Position `i` of one fragment and position `j` of another hold the same instruction, which goes
on to corresponding positions: `next` relates positions and `leads` relates labels. -/
inductive SameInstr (f g : Fragment) (next : Nat → Nat → Prop) (leads : Label → Label → Prop)
    (i j : Nat) : Prop
  | straight {instr : Instr} : f.code[i]? = some instr → g.code[j]? = some instr →
      instr.targets = [] → next (i + 1) (j + 1) → SameInstr f g next leads i j
  | jump {l l' : Label} : Hole.jump i l ∈ f.holes → Hole.jump j l' ∈ g.holes → leads l l' →
      SameInstr f g next leads i j
  | test {r : Register} {a b a' b' : Nat} {l m l' m' : Label} :
      Hole.test i l m ∈ f.holes → f.code[i]? = some (.tst r a b) →
      Hole.test j l' m' ∈ g.holes → g.code[j]? = some (.tst r a' b') →
      leads l l' → leads m m' → SameInstr f g next leads i j
  | finish : i = f.size → j = g.size → SameInstr f g next leads i j
  | beyond : f.size < i → g.size < j → SameInstr f g next leads i j

/-- From the address of one label, jumps lead to where the other label corresponds. -/
def Leads (p q : Program) (f g : Fragment) (next : Nat → Nat → Prop) (l l' : Label) : Prop :=
  ∀ file, ∃ i j, p.Reaches ⟨f.address p.base.first l, file⟩ ⟨p.base.first + i, file⟩ ∧
    g.address q.base.first l' = q.base.first + j ∧ next i j

/-- A renumbering `next` of the positions of a linked fragment into those of another. -/
structure Correspondence (p q : Program) (f g : Fragment) (next : Nat → Nat → Prop) : Prop where
  linked : Linked p f
  linked_other : Linked q g
  start : next 0 0
  /-- Jumps lead from any position to one that holds the instruction of the other program. -/
  same : ∀ i j, next i j → ∀ file, ∃ i',
    p.Reaches ⟨p.base.first + i, file⟩ ⟨p.base.first + i', file⟩ ∧
      SameInstr f g next (Leads p q f g next) i' j

/-- The configurations at corresponding positions. -/
private def At (p q : Program) (next : Nat → Nat → Prop) (c d : Config) : Prop :=
  ∃ i j, next i j ∧ c.address = p.base.first + i ∧ d.address = q.base.first + j ∧
    c.registers = d.registers

private theorem fetch?_beyond {p : Program} {f : Fragment} (hp : Linked p f) {i : Nat}
    (hi : f.size < i) : p.fetch? (p.base.first + i) = none := by
  rw [fetch?_first_add, Array.getElem?_eq_none_iff, hp.size]
  omega

section SameInstr

variable {p q : Program} {f g : Fragment} {next : Nat → Nat → Prop} {i j : Nat}

private theorem matches_straight (h : Correspondence p q f g next) {instr : Instr}
    (hf : f.code[i]? = some instr) (hg : g.code[j]? = some instr) (htargets : instr.targets = [])
    (hnext : next (i + 1) (j + 1)) (file : File) :
    p.Matches (At p q next) ⟨p.base.first + i, file⟩ (q.step ⟨q.base.first + j, file⟩) := by
  have hp := Program.step_of_fetch? (h.linked.placed.straight i instr hf htargets) file
  have hq := Program.step_of_fetch? (h.linked_other.placed.straight j instr hg htargets) file
  rw [hq]
  rcases perform_straight htargets (p.base.first + i) (q.base.first + j) file with
    ⟨file', hx, hy⟩ | ⟨hx, hy, halike⟩
  · rw [hy]
    exact ⟨0, _, .single (hp.trans hx), i + 1, j + 1, hnext, rfl, rfl, rfl⟩
  · have hmatch : ∃ n o', p.Ends n ⟨p.base.first + i, file⟩ o' ∧
        o'.Alike (instr.perform ⟨q.base.first + j, file⟩) :=
      ⟨0, _, ⟨_, .refl _, hp, hx⟩, halike⟩
    revert hy hmatch
    cases instr.perform ⟨q.base.first + j, file⟩ with
    | next _ => exact fun hy _ => hy.elim
    | halted _ => exact fun _ hmatch => hmatch
    | fault _ => exact fun _ hmatch => hmatch

private theorem matches_test (h : Correspondence p q f g next) {r : Register} {a b a' b' : Nat}
    {l m l' m' : Label} (hf : Hole.test i l m ∈ f.holes) (hcode : f.code[i]? = some (.tst r a b))
    (hg : Hole.test j l' m' ∈ g.holes) (hcode' : g.code[j]? = some (.tst r a' b'))
    (hleads : Leads p q f g next l l') (hleads' : Leads p q f g next m m') (file : File) :
    p.Matches (At p q next) ⟨p.base.first + i, file⟩ (q.step ⟨q.base.first + j, file⟩) := by
  have hp := Program.step_of_fetch? (h.linked.placed.test i l m hf r a b hcode) file
  have hq := Program.step_of_fetch? (h.linked_other.placed.test j l' m' hg r a' b' hcode') file
  rw [hq]
  rcases perform_tst r (p.base.first + i) (q.base.first + j) (f.address p.base.first l)
    (f.address p.base.first m) (g.address q.base.first l') (g.address q.base.first m') file with
    ⟨zero, hx, hy⟩ | ⟨fl, fl', hx, hy, hfault⟩
  · rw [hy]
    -- the branch taken is the same on both sides; its labels lead to corresponding positions
    cases zero with
    | false =>
      obtain ⟨i', j', ⟨n, hsteps⟩, haddress, hnext⟩ := hleads file
      exact ⟨n, _, .head (hp.trans hx) hsteps, i', j', hnext, rfl, haddress, rfl⟩
    | true =>
      obtain ⟨i', j', ⟨n, hsteps⟩, haddress, hnext⟩ := hleads' file
      exact ⟨n, _, .head (hp.trans hx) hsteps, i', j', hnext, rfl, haddress, rfl⟩
  · rw [hy]
    exact ⟨0, _, ⟨_, .refl _, hp.trans hx, trivial⟩, .fault hfault⟩

/-- The same instruction is matched, once the jumps before it are taken. -/
private theorem matches_of_sameInstr (h : Correspondence p q f g next) (file : File)
    (hsame : SameInstr f g next (Leads p q f g next) i j) :
    p.Matches (At p q next) ⟨p.base.first + i, file⟩ (q.step ⟨q.base.first + j, file⟩) := by
  cases hsame with
  | straight hf hg htargets hnext => exact matches_straight h hf hg htargets hnext file
  | @jump l l' hf hg hleads =>
    rw [Program.step_jmp (h.linked_other.placed.jump j l' hg)]
    obtain ⟨i', j', ⟨n, hsteps⟩, haddress, hnext⟩ := hleads file
    exact ⟨n, _, .head (Program.step_jmp (h.linked.placed.jump i l hf)) hsteps,
      i', j', hnext, rfl, haddress, rfl⟩
  | test hf hcode hg hcode' hleads hleads' =>
    exact matches_test h hf hcode hg hcode' hleads hleads' file
  | finish hi hj =>
    subst hi hj
    have hp := Program.step_of_fetch? h.linked.halt file
    rw [Program.step_of_fetch? h.linked_other.halt file]
    exact ⟨0, _, ⟨_, .refl _, hp, trivial⟩, .halted file⟩
  | beyond hi hj =>
    have hp : p.step ⟨p.base.first + i, file⟩ = .fault (.badAddress (p.base.first + i)) := by
      simp only [Program.step, fetch?_beyond h.linked hi]
    have hq : q.step ⟨q.base.first + j, file⟩ = .fault (.badAddress (q.base.first + j)) := by
      simp only [Program.step, fetch?_beyond h.linked_other hj]
    rw [hq]
    exact ⟨0, _, ⟨_, .refl _, hp, trivial⟩, .fault rfl⟩

end SameInstr

/-- Steps taken before a match can be put in front of it. -/
private theorem matches_of_reaches {p : Program} {R : Config → Config → Prop} {c c' : Config}
    {o : Outcome} (hreach : p.Reaches c c') (hmatch : p.Matches R c' o) : p.Matches R c o := by
  obtain ⟨k, hk⟩ := hreach
  cases o with
  | next d =>
    obtain ⟨n, c'', hsteps, hR⟩ := hmatch
    exact ⟨k + n, c'', hk.trans hsteps, hR⟩
  | halted _ | fault _ =>
    obtain ⟨n, o', hends, halike⟩ := hmatch
    exact ⟨k + n, o', hk.ends hends, halike⟩

/-- A program with corresponding positions is a tighter one. -/
theorem Correspondence.tightens {p q : Program} {f g : Fragment} {next : Nat → Nat → Prop}
    (h : Correspondence p q f g next) : q.Tightens p := by
  refine Program.Simulates.tightens (R := At p q next) ?_ fun file => ⟨0, 0, h.start, rfl, rfl, rfl⟩
  rintro ⟨x, file⟩ ⟨y, file'⟩ ⟨i, j, hnext, rfl, rfl, rfl⟩
  obtain ⟨i', hreach, hsame⟩ := h.same i j hnext file
  exact matches_of_reaches hreach (matches_of_sameInstr h file hsame)

end Abacus.Code
