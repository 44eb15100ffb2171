import Abacus.Proofs.Chains
import Abacus.Proofs.Weaving

/-!
# The shape of emitted code

Emitted code has three kinds of jumps (`Fragment.Direction`). The jump at the end of a loop leads
back, to code that starts with a test, and no label stands at the jump itself. The jump into a loop,
and the one over the second block of a conditional, lead forward over code that does not start with
a jump. And where that second block is without code, the jump over it leads to the next position.

Jumps over second blocks come to stand in a row where a conditional is the last thing in the first
block of another one. So there are no more of them in a row than conditionals are nested in this way
(`Source.blockThenDepth`). All of this is `Fragment.Shaped`; the code of every block has this shape
(`Emit.shapes_block`).
-/

namespace Abacus

open Machine Code Fragment
open Source hiding Program

namespace Code.Fragment

variable {f g : Fragment} {k o n m : Nat} {l : Label}

/-! ### Jumps and labels of a concatenation -/

/-- The jumps of two fragments in a row are those of the first, and those of the second further on.
-/
private theorem jump_mem_append : Hole.jump k l ∈ (f ++ g).holes ↔
    Hole.jump k l ∈ f.holes ∨ ∃ k', Hole.jump k' l ∈ g.holes ∧ k = f.size + k' := by
  rw [holes_append, List.mem_append, List.mem_map]
  refine or_congr_right ⟨?_, ?_⟩
  · rintro ⟨hole, hhole, heq⟩
    cases hole with
    | jump k' l' =>
      cases heq
      exact ⟨k', hhole, rfl⟩
    | test => cases heq
  · rintro ⟨k', hjump, rfl⟩
    exact ⟨_, hjump, rfl⟩

/-- The labels of two fragments in a row are those of the first, and those of the second further on.
-/
private theorem label_mem_append : (l, o) ∈ (f ++ g).labels ↔
    (l, o) ∈ f.labels ∨ ∃ o', (l, o') ∈ g.labels ∧ o = f.size + o' := by
  simp [labels_append, eq_comm]

/-- Within the first fragment there are the jumps that were there. -/
private theorem jumpAt_append_left (hk : k < f.size) : (f ++ g).JumpAt k ↔ f.JumpAt k := by
  constructor
  · rintro ⟨l, hjump⟩
    rcases jump_mem_append.mp hjump with hf | ⟨k', -, rfl⟩
    · exact ⟨l, hf⟩
    · omega
  · rintro ⟨l, hjump⟩
    exact ⟨l, jump_mem_append.mpr (.inl hjump)⟩

/-- After the first fragment there are the jumps of the second one. -/
private theorem WellFormed.jumpAt_append_right (hf : f.WellFormed) :
    (f ++ g).JumpAt (f.size + k) ↔ g.JumpAt k := by
  constructor
  · rintro ⟨l, hjump⟩
    rcases jump_mem_append.mp hjump with hleft | ⟨k', hright, heq⟩
    · have hlt : f.size + k < f.size := hf.index_lt hleft
      omega
    · obtain rfl : k = k' := by omega
      exact ⟨l, hright⟩
  · rintro ⟨l, hjump⟩
    exact ⟨l, jump_mem_append.mpr (.inr ⟨k, hjump, rfl⟩)⟩

/-! ### Directions of jumps -/

/-- How the jump at a position leads to its label. -/
inductive Direction (f : Fragment) (k : Nat) (l : Label) : Prop
  | back {o : Nat} : (l, o) ∈ f.labels → o ≤ k → ¬f.JumpAt o → (∀ l', (l', k) ∉ f.labels) →
      Direction f k l
  | skip {o : Nat} : (l, o) ∈ f.labels → k + 1 < o → ¬f.JumpAt (k + 1) → Direction f k l
  | next : (l, k + 1) ∈ f.labels → l.kind = .endIf → Direction f k l

/-- Code that is added after a jump does not change where it leads. -/
private theorem Direction.append_left (h : f.Direction k l) (hf : f.WellFormed) (hk : k < f.size)
    (g : Fragment) : (f ++ g).Direction k l := by
  rcases h with ⟨hl, hle, hjump, hlabels⟩ | ⟨hl, hlt, hjump⟩ | ⟨hl, hkind⟩
  · refine .back (label_mem_append.mpr (.inl hl)) hle ?_ fun l' hl' => ?_
    · rwa [jumpAt_append_left (by omega)]
    · rcases label_mem_append.mp hl' with hleft | ⟨o', -, rfl⟩
      · exact hlabels l' hleft
      · omega
  · have hle := hf.label_le _ hl
    refine .skip (label_mem_append.mpr (.inl hl)) hlt ?_
    rwa [jumpAt_append_left (by simp only at hle; omega)]
  · exact .next (label_mem_append.mpr (.inl hl)) hkind

/-- Code that is added before a jump does not change where it leads, unless the jump comes first. -/
private theorem Direction.append_right (h : g.Direction k l) (hf : f.WellFormed) (hk : 0 < k) :
    (f ++ g).Direction (f.size + k) l := by
  rcases h with ⟨hl, hle, hjump, hlabels⟩ | ⟨hl, hlt, hjump⟩ | ⟨hl, hkind⟩
  · refine .back (label_mem_append.mpr (.inr ⟨_, hl, rfl⟩)) (by omega) ?_ fun l' hl' => ?_
    · rwa [hf.jumpAt_append_right]
    · rcases label_mem_append.mp hl' with hleft | ⟨o', hright, heq⟩
      · have hle := hf.label_le _ hleft
        simp only at hle
        omega
      · obtain rfl : k = o' := by omega
        exact hlabels l' hright
  · refine .skip (label_mem_append.mpr (.inr ⟨_, hl, rfl⟩)) (by omega) ?_
    rwa [Nat.add_assoc, hf.jumpAt_append_right]
  · exact .next (label_mem_append.mpr (.inr ⟨_, hl, by omega⟩)) hkind

/-! ### Shaped fragments -/

/-- Jumps over the second blocks of conditionals, in a row. -/
def Row (f : Fragment) (k n : Nat) : Prop :=
  ∀ i < n, ∃ l, Hole.jump (k + i) l ∈ f.holes ∧ l.kind = .endIf

/-- A row within the first fragment. -/
private theorem Row.append_left (h : (f ++ g).Row k n) (hle : k + n ≤ f.size) : f.Row k n := by
  intro i hi
  obtain ⟨l, hjump, hkind⟩ := h i hi
  rcases jump_mem_append.mp hjump with hleft | ⟨k', -, heq⟩
  · exact ⟨l, hleft, hkind⟩
  · omega

/-- A row within the second fragment. -/
private theorem Row.append_right (h : (f ++ g).Row (f.size + k) n) (hf : f.WellFormed) :
    g.Row k n := by
  intro i hi
  obtain ⟨l, hjump, hkind⟩ := h i hi
  rcases jump_mem_append.mp hjump with hleft | ⟨k', hright, heq⟩
  · have hlt : f.size + k + i < f.size := hf.index_lt hleft
    omega
  · obtain rfl : k' = k + i := by omega
    exact ⟨l, hright, hkind⟩

/-- A row lies on one side of a place where code without a jump starts. -/
private theorem Row.append_cases (h : (f ++ g).Row k n) (hf : f.WellFormed) (hg : ¬g.JumpAt 0) :
    k + n ≤ f.size ∧ f.Row k n ∨ ∃ k', g.Row k' n := by
  rcases Nat.lt_or_ge k f.size with hlt | hge
  · have hle : k + n ≤ f.size := by
      refine Nat.le_of_not_lt fun hlt' => hg ?_
      obtain ⟨l, hjump, -⟩ := h (f.size - k) (by omega)
      rw [Nat.add_sub_cancel' (Nat.le_of_lt hlt)] at hjump
      exact hf.jumpAt_append_right.mp ⟨l, hjump⟩
    exact .inl ⟨hle, h.append_left hle⟩
  · obtain ⟨k, rfl⟩ := Nat.exists_eq_add_of_le hge
    exact .inr ⟨k, h.append_right hf⟩

/-- Code does not start with a jump, its jumps have their directions, and at most `depth` of them
stand in a row. -/
structure Shaped (f : Fragment) (depth : Nat) : Prop extends f.WellFormed where
  first : ¬f.JumpAt 0
  direction : ∀ k l, Hole.jump k l ∈ f.holes → f.Direction k l
  row_le : ∀ k n, f.Row k n → n ≤ depth

/-- Rows that are short enough for a depth are so for a larger one. -/
theorem Shaped.mono (h : f.Shaped m) (hle : m ≤ n) : f.Shaped n :=
  ⟨h.toWellFormed, h.first, h.direction, fun k i hrow => Nat.le_trans (h.row_le k i hrow) hle⟩

/-- Code without jumps is shaped. -/
private theorem shaped_of_forall_notMem (hf : f.WellFormed) (h : ∀ k l, Hole.jump k l ∉ f.holes)
    (n : Nat) :
    f.Shaped n where
  toWellFormed := hf
  first := fun ⟨l, hjump⟩ => h 0 l hjump
  direction k l hjump := absurd hjump (h k l)
  row_le k i hrow := by
    refine Nat.le_of_not_lt fun hi => ?_
    obtain ⟨l, hjump, -⟩ := hrow 0 (Nat.zero_lt_of_lt hi)
    exact h _ l hjump

/-- No row runs on from the first fragment into the second one, which does not start with a jump. -/
theorem Shaped.append (hf : f.Shaped n) (hg : g.Shaped n) : (f ++ g).Shaped n where
  toWellFormed := hf.toWellFormed.append hg.toWellFormed
  first := by
    rintro ⟨l, hjump⟩
    rcases jump_mem_append.mp hjump with hleft | ⟨k, hright, heq⟩
    · exact hf.first ⟨l, hleft⟩
    · obtain rfl : k = 0 := by omega
      exact hg.first ⟨l, hright⟩
  direction k l hjump := by
    rcases jump_mem_append.mp hjump with hleft | ⟨k, hright, rfl⟩
    · exact (hf.direction k l hleft).append_left hf.toWellFormed (hf.index_lt hleft) g
    · refine (hg.direction k l hright).append_right hf.toWellFormed (Nat.pos_of_ne_zero ?_)
      rintro rfl
      exact hg.first ⟨l, hright⟩
  row_le k i hrow := by
    rcases hrow.append_cases hf.toWellFormed hg.first with ⟨-, hleft⟩ | ⟨k', hright⟩
    · exact hf.row_le k i hleft
    · exact hg.row_le k' i hright

/-- Code with a jump in the middle. If that jump leads past a conditional, it makes the rows before
it longer by one. -/
private theorem Shaped.append_jump (hf : f.Shaped m) (hg : g.Shaped n) (hpos : 0 < f.size)
    (hdirection : (f ++ jump l ++ g).Direction f.size l) (hle : m ≤ n)
    (hlt : l.kind = .endIf → m < n) : (f ++ jump l ++ g).Shaped n := by
  have hwf := hf.toWellFormed.append (wellFormed_jump l)
  have hsize : (f ++ jump l).size = f.size + 1 := size_append f (jump l)
  have hjump : ∀ k l', Hole.jump k l' ∈ (f ++ jump l).holes →
      Hole.jump k l' ∈ f.holes ∨ k = f.size ∧ l' = l := by
    intro k l' hmem
    refine (jump_mem_append.mp hmem).imp_right ?_
    rintro ⟨k', hmem', rfl⟩
    cases List.mem_singleton.mp hmem'
    exact ⟨rfl, rfl⟩
  refine ⟨hwf.append hg.toWellFormed, ?_, fun k l' hmem => ?_, fun k i hrow => ?_⟩
  · rw [jumpAt_append_left (by omega), jumpAt_append_left hpos]
    exact hf.first
  · rcases jump_mem_append.mp hmem with hleft | ⟨k, hright, rfl⟩
    · rcases hjump k l' hleft with hleft | ⟨rfl, rfl⟩
      · have hk : k < f.size := hf.index_lt hleft
        rw [append_assoc]
        exact (hf.direction k l' hleft).append_left hf.toWellFormed hk _
      · exact hdirection
    · refine (hg.direction k l' hright).append_right hwf (Nat.pos_of_ne_zero ?_)
      rintro rfl
      exact hg.first ⟨l', hright⟩
  · rcases hrow.append_cases hwf hg.first with ⟨hend, hleft⟩ | ⟨k', hright⟩
    · rcases Nat.lt_or_ge f.size (k + i) with hover | hwithin
      · -- the row ends with the jump itself, and what comes before it is a row by itself
        rcases i with _ | i
        · exact Nat.zero_le n
        have hbefore : (f ++ jump l).Row k i := fun j hj => hleft j (by omega)
        have hi := hf.row_le k i (hbefore.append_left (by omega))
        obtain ⟨l', hmem, hkind⟩ := hleft i (Nat.lt_succ_self i)
        rcases hjump _ l' hmem with hmem | ⟨-, rfl⟩
        · have hk : k + i < f.size := hf.index_lt hmem
          omega
        · exact Nat.lt_of_le_of_lt hi (hlt hkind)
      · exact Nat.le_trans (hf.row_le k i (hleft.append_left hwithin)) hle
    · exact hg.row_le k' i hright

/-- A jump back to the start of the code before it, at whose end no label stands. -/
private theorem Shaped.append_back (hf : f.Shaped n) (hg : g.Shaped n) (hl : (l, 0) ∈ f.labels)
    (hlabels : ∀ x ∈ f.labels, x.2 < f.size) (hkind : l.kind ≠ .endIf) :
    (f ++ jump l ++ g).Shaped n := by
  have hpos : 0 < f.size := hlabels _ hl
  refine hf.append_jump hg hpos ?_ (Nat.le_refl n) fun h => absurd h hkind
  rw [append_assoc]
  refine .back (label_mem_append.mpr (.inl hl)) (Nat.zero_le _) ?_ fun l' hl' => ?_
  · rw [jumpAt_append_left hpos]
    exact hf.first
  · rcases label_mem_append.mp hl' with hleft | ⟨o, hright, heq⟩
    · exact Nat.lt_irrefl _ (hlabels _ hleft)
    · rcases label_mem_append.mp hright with hnone | ⟨o', -, rfl⟩
      · exact absurd hnone List.not_mem_nil
      · have hsize : (jump l).size = 1 := rfl
        omega

/-- A jump to a label in the code after it. -/
private theorem Shaped.append_forward (hf : f.Shaped m) (hg : g.Shaped n) (hpos : 0 < f.size)
    (hl : (l, o) ∈ g.labels) (hkind : o = 0 → l.kind = .endIf) (hle : m ≤ n)
    (hlt : l.kind = .endIf → m < n) : (f ++ jump l ++ g).Shaped n := by
  have hwf := hf.toWellFormed.append (wellFormed_jump l)
  have hsize : (f ++ jump l).size = f.size + 1 := size_append f (jump l)
  refine hf.append_jump hg hpos ?_ hle hlt
  have hl' : (l, f.size + 1 + o) ∈ (f ++ jump l ++ g).labels :=
    label_mem_append.mpr (.inr ⟨o, hl, by rw [hsize]⟩)
  rcases Nat.eq_zero_or_pos o with rfl | ho
  · exact .next hl' (hkind rfl)
  · refine .skip hl' (by omega) ?_
    rw [← hsize, ← Nat.add_zero (f ++ jump l).size, hwf.jumpAt_append_right]
    exact hg.first

/-- Where code without labels comes last, no label stands at the end. -/
private theorem WellFormed.label_lt_append (hf : f.WellFormed) (hlabels : g.labels = [])
    (hpos : 0 < g.size) : ∀ x ∈ (f ++ g).labels, x.2 < (f ++ g).size := by
  rintro ⟨l, o⟩ hx
  rcases label_mem_append.mp hx with hleft | ⟨o', hright, -⟩
  · have hle : o ≤ f.size := hf.label_le _ hleft
    rw [size_append]
    exact Nat.lt_of_le_of_lt hle (Nat.lt_add_of_pos_right hpos)
  · rw [hlabels] at hright
    exact absurd hright List.not_mem_nil

/-! ### Pieces of code without jumps -/

private theorem shaped_empty (n : Nat) : (∅ : Fragment).Shaped n :=
  shaped_of_forall_notMem wellFormed_empty (fun _ _ => List.not_mem_nil) n

private theorem shaped_define (l : Label) (n : Nat) : (define l).Shaped n :=
  shaped_of_forall_notMem (wellFormed_define l) (fun _ _ => List.not_mem_nil) n

private theorem shaped_inc (r : Register) (n : Nat) : (inc r).Shaped n :=
  shaped_of_forall_notMem (wellFormed_inc r) (fun _ _ => List.not_mem_nil) n

private theorem shaped_dec (r : Register) (n : Nat) : (dec r).Shaped n :=
  shaped_of_forall_notMem (wellFormed_dec r) (fun _ _ => List.not_mem_nil) n

private theorem shaped_test (r : Register) (l l' : Label) (n : Nat) : (test r l l').Shaped n :=
  shaped_of_forall_notMem (wellFormed_test r l l') (by simp [test]) n

private theorem shaped_join_inc (targets : List Register) (n : Nat) :
    (join (targets.map inc)).Shaped n :=
  shaped_of_forall_notMem (Emit.sealed_join_inc targets 0).wellFormed
    (fun k l => by simp [(Emit.straight_join_inc targets).1]) n

end Code.Fragment

/-! ### The patterns of emitted code -/

namespace Emit

variable {n : Nat}

/-- A loop around a test and straight code. -/
private theorem shaped_transfer {top : Label} (htop : top.kind ≠ .endIf) (step done : Label)
    (source : Register) {rest : Fragment} (hrest : rest.Shaped n) (hlabels : rest.labels = []) :
    (define top ++ test source step done ++ define step ++ dec source ++ rest ++ jump top
      ++ define done).Shaped n := by
  have hhead := ((shaped_define top n).append (shaped_test source step done n)).append
    (shaped_define step n)
  refine ((hhead.append (shaped_dec source n)).append hrest).append_back (shaped_define done n) ?_
    ?_ htop
  · simp [define]
  · rw [append_assoc]
    refine hhead.label_lt_append ?_ ?_
    · simp [dec, hlabels]
    · simp [dec, size]

/-- A loop around two tests, with two jumps back to its start. -/
private theorem shaped_deduct {top : Label} (htop : top.kind ≠ .endIf)
    (check step rest done : Label) (count target : Register) :
    (define top ++ test count check done ++ define check ++ test target step rest ++ define step
      ++ dec target ++ dec count ++ jump top ++ define rest ++ dec count ++ jump top
      ++ define done).Shaped n := by
  have hhead := ((((shaped_define top n).append (shaped_test count check done n)).append
    (shaped_define check n)).append (shaped_test target step rest n)).append (shaped_define step n)
  have hrest := (shaped_define rest n).append (shaped_dec count n)
  have hstep := hhead.append (shaped_dec target n)
  -- both ways around the loop end with a jump to its top
  have hfirst := (hstep.append (shaped_dec count n)).append_back hrest (by simp [define])
    (hstep.label_lt_append rfl (by simp [dec, size])) htop
  have hlabels := (((hstep.append (shaped_dec count n)).toWellFormed.append
    (wellFormed_jump top)).append (wellFormed_define rest)).label_lt_append (g := dec count) rfl
      (by simp [dec, size])
  rw [append_assoc _ (define rest)] at hlabels
  have hboth := hfirst.append_back (shaped_define done n) (by simp [define]) hlabels htop
  simpa only [append_assoc] using hboth

/-- The jump over the second block is one more in a row after the jumps at the end of the first
block. -/
private theorem shaped_branch {yes no : Fragment} {m : Nat} (zeroTest : ZeroTest) (r : Register)
    {thenLabel elseLabel endLabel : Label} (hend : endLabel.kind = .endIf) (hyes : yes.Shaped m)
    (hno : no.Shaped n) (hlt : m < n) : (zeroTest.code r thenLabel elseLabel ++ define thenLabel
      ++ yes ++ jump endLabel ++ define elseLabel ++ no ++ define endLabel).Shaped n := by
  have hcode : (zeroTest.code r thenLabel elseLabel).Shaped m := by
    cases zeroTest <;> exact shaped_test _ _ _ _
  have hfirst := (hcode.append (shaped_define thenLabel m)).append hyes
  have hsecond := ((shaped_define elseLabel n).append hno).append (shaped_define endLabel n)
  have hpos : 0 < (zeroTest.code r thenLabel elseLabel ++ define thenLabel ++ yes).size := by
    cases zeroTest <;> simp [ZeroTest.code, size, test]
  have hshaped := hfirst.append_forward hsecond hpos
    (label_mem_append.mpr (.inr ⟨0, List.mem_singleton.mpr rfl, rfl⟩)) (fun _ => hend)
    (Nat.le_of_lt hlt) (fun _ => hlt)
  simpa only [append_assoc] using hshaped

/-- A loop enters its body by a jump over its header, and comes back to the header by another one.
-/
private theorem shaped_rounds {start body : Fragment} {v : Option Symbol} (counter : Register)
    {entry header step bodyLabel exit : Label} (hheader : header.kind = .loopHeader)
    (hbodyLabel : bodyLabel.kind = .loopBody) (hstart : start.Shaped n) (hbody : body.Shaped n) :
    (test counter entry exit ++ define entry ++ start ++ jump bodyLabel ++ define header
      ++ test counter step exit ++ define step ++ advance v ++ define bodyLabel ++ body
      ++ dec counter ++ jump header ++ define exit).Shaped n := by
  have hadvance : (advance v).Shaped n := by
    rcases v with _ | x
    · exact shaped_empty n
    · exact shaped_inc x.register n
  have hentry := ((shaped_test counter entry exit n).append (shaped_define entry n)).append hstart
  have htest := (((shaped_define header n).append (shaped_test counter step exit n)).append
    (shaped_define step n)).append hadvance
  have hround := (htest.append (shaped_define bodyLabel n)).append hbody
  have hback := (hround.append (shaped_dec counter n)).append_back (l := header)
    (shaped_define exit n) (by simp [define])
    (hround.label_lt_append rfl (by simp [dec, size])) (by simp [hheader])
  have hshaped := hentry.append_forward (l := bodyLabel) hback (by simp [test, size])
    (o := (define header ++ test counter step exit ++ define step ++ advance v).size)
    (by simp [define]) (by simp) (Nat.le_refl n) (by simp [hbodyLabel])
  simpa only [append_assoc] using hshaped

/-- Woven code is shaped. -/
theorem Woven.shaped {f : Fragment} (h : Woven n f) : f.Shaped n := by
  induction h with
  | empty => exact shaped_empty _
  | inc r => exact shaped_inc r _
  | append _ _ ihf ihg => exact ihf.append ihg
  | guarded r step skip =>
    exact (((shaped_test r step skip _).append (shaped_define step _)).append
      (shaped_dec r _)).append (shaped_define skip _)
  | transfer htop step done source targets =>
    exact shaped_transfer htop step done source (shaped_join_inc targets _)
      (straight_join_inc targets).2.1
  | deduct htop check step rest done count target =>
    exact shaped_deduct htop check step rest done count target
  | branch zeroTest r _ _ hend _ _ hlt ihyes ihno =>
    exact shaped_branch zeroTest r hend ihyes ihno hlt
  | rounds counter v _ _ _ hheader hbodyLabel _ _ ihstart ihbody =>
    exact shaped_rounds counter hheader hbodyLabel ihstart ihbody

/-- The code of a block is shaped. -/
theorem shapes_block (ctx : Context) (b : List Stmt) {s s' : State} {f : Fragment}
    (h : block ctx b s = .ok f s') : f.Shaped (blockThenDepth b) :=
  (weaves_block ctx b h).shaped

end Emit

end Abacus
