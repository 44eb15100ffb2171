import Mathlib.Data.List.Induction
import Abacus.Code.Fallthrough
import Abacus.Proofs.Threading

/-!
# Dropping jumps keeps the meaning of a program

`Fragment.without` is a fragment with some of its instructions left out. Every position goes to the
number of positions below it that are kept (`keptBelow`), and what is dropped are jumps to the next
position, so that a position and the first kept one at or after it have the same number. This is
what `Fragment.dropFallthroughs` computes (`Fragment.dropFallthroughs_eq`), and it makes a tighter
program wherever the fragment stands (`Fragment.tightens_without`).
-/

namespace Abacus.Code

open Machine

/-! ### Counting what is kept -/

/-- How many of the positions below a position are kept. -/
def keptBelow (dropped : Nat → Bool) : Nat → Nat
  | 0 => 0
  | k + 1 => if dropped k then keptBelow dropped k else keptBelow dropped k + 1

section KeptBelow

variable {dropped : Nat → Bool}

theorem keptBelow_succ_of_dropped {k : Nat} (h : dropped k) :
    keptBelow dropped (k + 1) = keptBelow dropped k := by
  rw [keptBelow, if_pos h]

theorem keptBelow_succ_of_kept {k : Nat} (h : dropped k = false) :
    keptBelow dropped (k + 1) = keptBelow dropped k + 1 := by
  simp [keptBelow, h]

/-- Positions are counted up to one and from there on. -/
theorem keptBelow_add (dropped : Nat → Bool) (a b : Nat) :
    keptBelow dropped (a + b) = keptBelow dropped a + keptBelow (fun k => dropped (a + k)) b := by
  induction b with
  | zero => rfl
  | succ b ih =>
    rw [← Nat.add_assoc, keptBelow, keptBelow, ih]
    split <;> rfl

/-- There are no fewer positions kept below a later one. -/
private theorem keptBelow_mono (dropped : Nat → Bool) {a b : Nat} (h : a ≤ b) :
    keptBelow dropped a ≤ keptBelow dropped b := by
  obtain ⟨c, rfl⟩ := Nat.exists_eq_add_of_le h
  rw [keptBelow_add]
  omega

/-- A position that is kept counts for the later ones. -/
private theorem keptBelow_lt {a b : Nat} (ha : dropped a = false) (h : a < b) :
    keptBelow dropped a < keptBelow dropped b :=
  calc keptBelow dropped a < keptBelow dropped (a + 1) := by
        rw [keptBelow_succ_of_kept ha]
        omega
    _ ≤ keptBelow dropped b := keptBelow_mono dropped h

/-- Kept positions are told apart by their new numbers. -/
theorem keptBelow_inj {a b : Nat} (ha : dropped a = false) (hb : dropped b = false)
    (h : keptBelow dropped a = keptBelow dropped b) : a = b := by
  rcases Nat.lt_trichotomy a b with hlt | heq | hgt
  · exact absurd h (Nat.ne_of_lt (keptBelow_lt ha hlt))
  · exact heq
  · exact absurd h.symm (Nat.ne_of_lt (keptBelow_lt hb hgt))

/-- Where nothing is dropped, positions stay as they are. -/
theorem keptBelow_of_forall {n : Nat} (h : ∀ k < n, dropped k = false) :
    keptBelow dropped n = n := by
  induction n with
  | zero => rfl
  | succ n ih =>
    rw [keptBelow_succ_of_kept (h n (Nat.lt_succ_self n)), ih fun k hk => h k (by omega)]

/-- No more positions are kept than there are. -/
private theorem keptBelow_le (dropped : Nat → Bool) (n : Nat) : keptBelow dropped n ≤ n := by
  induction n with
  | zero => exact Nat.le_refl 0
  | succ n ih =>
    rw [keptBelow]
    split <;> omega

/-- A position that is dropped does not count. -/
theorem keptBelow_lt_self {k n : Nat} (hk : dropped k) (hlt : k < n) : keptBelow dropped n < n := by
  obtain ⟨m, rfl⟩ := Nat.exists_eq_add_of_lt hlt
  have hle := keptBelow_le dropped k
  have hle' := keptBelow_le (fun j => dropped (k + 1 + j)) m
  rw [Nat.add_right_comm, keptBelow_add, keptBelow_succ_of_dropped hk]
  omega

end KeptBelow

/-- Code without the instructions at some positions. -/
def keep (dropped : Nat → Bool) (code : List Instr) : List Instr :=
  code.zipIdx.filterMap fun (i, index) => if dropped index then none else some i

/-- What is kept are the instructions at positions that are not dropped. -/
theorem keep_eq_map_filter (dropped : Nat → Bool) (code : List Instr) :
    keep dropped code = (code.zipIdx.filter fun x => !dropped x.2).map Prod.fst := by
  rw [keep, ← List.filterMap_eq_map, List.filterMap_filter]
  refine List.filterMap_congr fun x _ => ?_
  cases hdropped : dropped x.2 <;> simp [hdropped]

theorem keep_sublist (dropped : Nat → Bool) (code : List Instr) :
    (keep dropped code).Sublist code := by
  rw [keep_eq_map_filter]
  refine (List.filter_sublist.map Prod.fst).trans ?_
  rw [List.zipIdx_map_fst]

/-- Code in a row is kept part by part. -/
private theorem keep_append (dropped : Nat → Bool) (code rest : List Instr) :
    keep dropped (code ++ rest) =
      keep dropped code ++ keep (fun k => dropped (code.length + k)) rest := by
  have hshift : rest.zipIdx code.length = rest.zipIdx.map fun (i, k) => (i, code.length + k) :=
    List.zipIdx_eq_map_add
  simp only [keep, List.zipIdx_append, List.filterMap_append, Nat.zero_add]
  rw [hshift, List.filterMap_map]
  rfl

private theorem keep_singleton (dropped : Nat → Bool) (i : Instr) :
    keep dropped [i] = if dropped 0 then [] else [i] := by
  simp only [keep, List.zipIdx_cons, List.zipIdx_nil, List.filterMap_cons, List.filterMap_nil]
  split <;> split <;> simp_all

/-- The length of what is kept. -/
private theorem length_keep (dropped : Nat → Bool) (code : List Instr) :
    (keep dropped code).length = keptBelow dropped code.length := by
  induction code using List.reverseRecOn with
  | nil => rfl
  | append_singleton code i ih =>
    rw [keep_append, keep_singleton, List.length_append, List.length_append, ih,
      List.length_singleton, keptBelow_add]
    simp only [keptBelow, Nat.add_zero]
    split <;> rfl

/-- A kept instruction stands where the kept ones below it end. -/
theorem getElem?_keep {dropped : Nat → Bool} {code : List Instr} {k : Nat} {i : Instr}
    (hi : code[k]? = some i) (hk : dropped k = false) :
    (keep dropped code)[keptBelow dropped k]? = some i := by
  obtain ⟨hlt, hget⟩ := List.getElem?_eq_some_iff.mp hi
  have hlen : (code.take k).length = k := by
    rw [List.length_take]
    omega
  have hsplit : code = code.take k ++ ([i] ++ code.drop (k + 1)) := by
    rw [List.singleton_append, ← hget, ← List.drop_eq_getElem_cons hlt, List.take_append_drop]
  have hbefore : (keep dropped (code.take k)).length = keptBelow dropped k := by
    rw [length_keep, hlen]
  rw [hsplit, keep_append, keep_append, keep_singleton, hlen,
    List.getElem?_append_right (Nat.le_of_eq hbefore), hbefore, Nat.sub_self]
  simp [hk]

/-- Every instruction that is left was kept. -/
theorem exists_of_getElem?_keep {dropped : Nat → Bool} {code : List Instr} {k : Nat} {i : Instr}
    (hi : (keep dropped code)[k]? = some i) :
    ∃ k', code[k']? = some i ∧ dropped k' = false ∧ keptBelow dropped k' = k := by
  induction code using List.reverseRecOn with
  | nil => exact absurd hi (by simp [keep])
  | append_singleton code i' ih =>
    rw [keep_append] at hi
    rcases Nat.lt_or_ge k (keep dropped code).length with hlt | hge
    · rw [List.getElem?_append_left hlt] at hi
      obtain ⟨k', hk', hkept, hnumber⟩ := ih hi
      exact ⟨k', by rw [List.getElem?_append_left (List.getElem?_eq_some_iff.mp hk').1, hk'],
        hkept, hnumber⟩
    · rw [List.getElem?_append_right hge, keep_singleton, Nat.add_zero] at hi
      split at hi
      next => exact absurd hi (by simp)
      next hkept =>
        obtain ⟨hlt, hget⟩ := List.getElem?_eq_some_iff.mp hi
        rw [length_keep] at hge hlt
        rw [List.length_singleton] at hlt
        refine ⟨code.length, ?_, by simpa using hkept, by omega⟩
        rw [List.getElem?_concat_length, ← hget]
        simp

/-! ### Fragments with instructions left out -/

namespace Fragment

/-- A fragment without the instructions at some positions, and without their holes. -/
def without (dropped : Nat → Bool) (f : Fragment) : Fragment where
  code := keep dropped f.code
  holes := (f.holes.filter fun h => !dropped h.index).map (Hole.move (keptBelow dropped))
  labels := f.labels.map fun (l, offset) => (l, keptBelow dropped offset)

/-- The size of what is kept. -/
theorem size_without (dropped : Nat → Bool) (f : Fragment) :
    (f.without dropped).size = keptBelow dropped f.size :=
  length_keep dropped f.code

/-- Dropping instructions drops no labels. -/
@[simp]
theorem defined_without (dropped : Nat → Bool) (f : Fragment) :
    (f.without dropped).defined = f.defined := by
  simp [defined, without]

/-- The holes of kept instructions move with them. -/
theorem mem_holes_without {dropped : Nat → Bool} {f : Fragment} {h : Hole} (hh : h ∈ f.holes)
    (hkept : dropped h.index = false) : h.move (keptBelow dropped) ∈ (f.without dropped).holes :=
  List.mem_map_of_mem (List.mem_filter.mpr ⟨hh, by simp [hkept]⟩)

/-- Dropping instructions adds no names of labels. -/
theorem wanted_without {dropped : Nat → Bool} {f : Fragment} {l : Label}
    (hl : l ∈ (f.without dropped).wanted) : l ∈ f.wanted := by
  obtain ⟨h, hh, hl⟩ := List.mem_flatMap.mp hl
  obtain ⟨h', hh', rfl⟩ := List.mem_map.mp hh
  rw [Hole.labels_move] at hl
  exact List.mem_flatMap.mpr ⟨h', (List.mem_filter.mp hh').1, hl⟩

/-- Labels move with the instructions that they stand before. -/
private theorem offsetOf?_without (dropped : Nat → Bool) (f : Fragment) (l : Label) :
    (f.without dropped).offsetOf? l = (f.offsetOf? l).map (keptBelow dropped) := by
  unfold offsetOf? without
  induction f.labels with
  | nil => rfl
  | cons head rest ih =>
    obtain ⟨l', o⟩ := head
    simp only [List.map_cons, List.lookup_cons]
    split
    · rfl
    · exact ih

/-- The address of a label moves with the position it stands at. -/
private theorem address_without (dropped : Nat → Bool) (f : Fragment) (first : Nat) (l : Label) :
    (f.without dropped).address first l =
      first + keptBelow dropped ((f.offsetOf? l).getD 0) := by
  rw [address, offsetOf?_without]
  cases f.offsetOf? l <;> rfl

/-- Dropping instructions leaves a fragment well-formed. -/
theorem WellFormed.without {f : Fragment} (hf : f.WellFormed) (dropped : Nat → Bool) :
    (f.without dropped).WellFormed where
  label_le := by
    intro l hl
    obtain ⟨l', hl', rfl⟩ := List.mem_map.mp hl
    rw [size_without]
    exact keptBelow_mono dropped (hf.label_le l' hl')
  hole_fits := by
    intro h hh
    obtain ⟨h', hh', rfl⟩ := List.mem_map.mp hh
    obtain ⟨hmem, hkept⟩ := List.mem_filter.mp hh'
    obtain ⟨i, hi, hfit⟩ := hf.hole_fits h' hmem
    refine ⟨i, ?_, Hole.fits_move.mpr hfit⟩
    rw [Hole.index_move]
    exact getElem?_keep hi (by simpa using hkept)
  hole_exists := by
    intro k i hi htargets
    obtain ⟨k', hk', hkept, rfl⟩ := exists_of_getElem?_keep hi
    obtain ⟨h, hh, rfl⟩ := hf.hole_exists k' i hk' htargets
    exact ⟨_, mem_holes_without hh hkept, Hole.index_move ..⟩
  hole_unique := by
    rw [Fragment.without, List.map_map]
    refine List.Nodup.map_on ?_ ((List.Nodup.of_map _ hf.hole_unique).filter _)
    intro h hh h' hh' heq
    obtain ⟨hmem, hkept⟩ := List.mem_filter.mp hh
    obtain ⟨hmem', hkept'⟩ := List.mem_filter.mp hh'
    simp only [Function.comp_apply, Hole.index_move] at heq
    exact hf.hole_eq hmem hmem' (keptBelow_inj (by simpa using hkept) (by simpa using hkept') heq)

/-- Leaving nothing out changes nothing. -/
theorem without_eq_self {f : Fragment} (hf : f.InRange) {dropped : Nat → Bool}
    (h : ∀ k < f.size, dropped k = false) : f.without dropped = f := by
  have hbelow : ∀ k ≤ f.size, keptBelow dropped k = k := fun k hk =>
    keptBelow_of_forall fun j hj => h j (by omega)
  refine Fragment.ext ?_ ?_ ?_
  · refine List.ext_getElem? fun k => ?_
    rcases Nat.lt_or_ge k f.size with hk | hk
    · have hi := List.getElem?_eq_getElem hk
      have hkeep := getElem?_keep hi (h k hk)
      rw [hbelow k (Nat.le_of_lt hk)] at hkeep
      exact hkeep.trans hi.symm
    · have hlen : (f.without dropped).code.length = f.size := by
        rw [← hbelow f.size (Nat.le_refl _)]
        exact size_without dropped f
      rw [List.getElem?_eq_none (by omega), List.getElem?_eq_none hk]
  · have hall : (f.holes.filter fun h => !dropped h.index) = f.holes := by
      rw [List.filter_eq_self]
      intro x hx
      simp [h x.index (hf.index_lt x hx)]
    simp only [without, hall]
    refine (List.map_congr_left fun x hx => ?_).trans (List.map_id _)
    have hx' := hbelow x.index (Nat.le_of_lt (hf.index_lt x hx))
    cases x with
    | jump => exact congrArg (Hole.jump · _) hx'
    | test => exact congrArg (Hole.test · _ _) hx'
  · refine (List.map_congr_left fun x hx => ?_).trans (List.map_id _)
    exact congrArg (x.1, ·) (hbelow x.2 (hf.label_le x hx))

/-- What is left of a concatenation is what is left of its parts. -/
private theorem without_append (f g : Fragment) (dropped : Nat → Bool) :
    (f ++ g).without dropped =
      f.without dropped ++ g.without fun k => dropped (f.size + k) := by
  have hmove : ∀ k, keptBelow dropped (f.size + k) =
      (f.without dropped).size + keptBelow (fun k => dropped (f.size + k)) k := fun k => by
    rw [keptBelow_add, size_without]
  refine Fragment.ext (keep_append dropped f.code g.code) ?_ ?_
  · simp only [without, holes_append, List.filter_append, List.map_append, List.filter_map,
      List.map_map]
    congr 1
    have hfilter : (fun h : Hole => !dropped h.index) ∘ Hole.move (f.size + ·) =
        fun h => !dropped (f.size + h.index) := by
      funext h
      simp
    rw [hfilter]
    refine List.map_congr_left fun x _ => ?_
    cases x <;> simp only [Function.comp_apply, Hole.move, hmove] <;> rfl
  · simp only [without, labels_append, List.map_append, List.map_map]
    congr 1
    refine List.map_congr_left fun x _ => ?_
    simp only [Function.comp_apply, hmove]
    rfl

/-! ### Jumps to the next position -/

/-- The instructions left out are jumps to the position after them. -/
def FallsThrough (f : Fragment) (dropped : Nat → Bool) : Prop :=
  ∀ k, dropped k → ∃ l, Hole.jump k l ∈ f.holes ∧ (l, k + 1) ∈ f.labels

/-- From any position, the jumps left out lead to the first one that is kept. -/
private theorem FallsThrough.reaches_kept {f : Fragment} {dropped : Nat → Bool} {p : Program}
    {address : Label → Nat} {a : Nat} (hwf : f.WellFormed) (hdropped : f.FallsThrough dropped)
    (hf : f.Placed p address a) (i : Nat) (file : File) :
    ∃ i', p.Reaches ⟨a + i, file⟩ ⟨a + i', file⟩ ∧ dropped i' = false ∧
      keptBelow dropped i' = keptBelow dropped i := by
  -- a dropped position lies within the fragment, so its end bounds the search
  induction hn : f.size - i generalizing i with
  | zero =>
    refine ⟨i, .refl _, ?_, rfl⟩
    by_contra hi
    obtain ⟨l, hjump, -⟩ := hdropped i (by simpa using hi)
    have := hwf.index_lt hjump
    simp only [Hole.index] at this
    omega
  | succ n ih =>
    by_cases hi : dropped i
    · obtain ⟨l, hjump, hlabel⟩ := hdropped i hi
      obtain ⟨i', hreach, hkept, hnumber⟩ := ih (i + 1) (by omega)
      refine ⟨i', .head (Program.step_jmp (hf.jump i l hjump)) ?_, hkept,
        hnumber.trans (keptBelow_succ_of_dropped hi)⟩
      rwa [hf.label l (i + 1) hlabel]
    · exact ⟨i, .refl _, by simpa using hi, rfl⟩

/-- A program without some of its jumps to the next position is a tighter one. -/
theorem FallsThrough.tightens {f : Fragment} {dropped : Nat → Bool} {p q : Program}
    (hwf : f.WellFormed) (hdropped : f.FallsThrough dropped) (hp : Linked p f)
    (hq : Linked q (f.without dropped)) : q.Tightens p := by
  suffices hcorr : Correspondence p q f (f.without dropped)
    (fun i j => j = keptBelow dropped i) from hcorr.tightens
  have hleads : ∀ l, Leads p q f (f.without dropped) (fun i j => j = keptBelow dropped i) l l :=
    fun l file => ⟨_, _, .refl _, address_without dropped f q.base.first l, rfl⟩
  refine ⟨hp, hq, rfl, ?_⟩
  rintro i _ rfl file
  obtain ⟨i, hreach, hkept, hnumber⟩ := hdropped.reaches_kept hwf hp.placed i file
  refine ⟨i, hreach, ?_⟩
  rw [← hnumber]
  rcases Nat.lt_trichotomy i f.size with hlt | rfl | hgt
  · have hi := List.getElem?_eq_getElem hlt
    rcases hwf.toHoled.cases hi with htargets | ⟨h, hh, rfl, hfit⟩
    · exact .straight hi (getElem?_keep hi hkept) htargets (keptBelow_succ_of_kept hkept).symm
    · have hh' := mem_holes_without hh hkept
      cases h with
      | jump k l => exact .jump hh hh' (hleads l)
      | test k l m =>
        obtain ⟨r, t, t', htest⟩ := hfit.exists_eq_tst
        rw [htest] at hi
        exact .test hh hi hh' (getElem?_keep hi hkept) (hleads l) (hleads m)
  · exact .finish rfl (size_without dropped f).symm
  · refine .beyond hgt ?_
    rw [size_without]
    refine keptBelow_lt ?_ hgt
    by_contra hi
    obtain ⟨l, hjump, -⟩ := hdropped f.size (by simpa using hi)
    exact Nat.lt_irrefl _ (hwf.index_lt hjump)

/-- The jumps of a fragment to their next positions are such jumps wherever it stands. -/
theorem FallsThrough.append {f : Fragment} {dropped : Nat → Bool}
    (hdropped : f.FallsThrough dropped) (before after : Fragment) :
    (before ++ f ++ after).FallsThrough
      fun k => decide (before.size ≤ k) && dropped (k - before.size) := by
  intro k hk
  obtain ⟨hle, hk⟩ := Bool.and_eq_true_iff.mp hk
  obtain ⟨l, hjump, hlabel⟩ := hdropped _ hk
  have hadd : before.size + (k - before.size) = k := Nat.add_sub_cancel' (of_decide_eq_true hle)
  refine ⟨l, ?_, ?_⟩
  · rw [holes_append, holes_append, List.mem_append, List.mem_append, List.mem_map]
    exact .inl (.inr ⟨_, hjump, congrArg (Hole.jump · l) hadd⟩)
  · rw [labels_append, labels_append, List.mem_append, List.mem_append, List.mem_map]
    exact .inl (.inr ⟨_, hlabel, congrArg (l, · + 1) hadd⟩)

/-- Wherever a fragment stands in a program, leaving out its jumps to the next position makes a
tighter program. -/
theorem tightens_without {before f after : Fragment} {dropped : Nat → Bool} {p q : Program}
    (hbefore : before.WellFormed) (hf : f.WellFormed) (hafter : after.WellFormed)
    (hdropped : f.FallsThrough dropped) (hp : Linked p (before ++ f ++ after))
    (hq : Linked q (before ++ f.without dropped ++ after)) : q.Tightens p := by
  refine (hdropped.append before after).tightens ((hbefore.append hf).append hafter) hp ?_
  have hleft : before.without (fun k => decide (before.size ≤ k) && dropped (k - before.size)) =
      before := without_eq_self hbefore.inRange fun k hk => by simp [Nat.not_le.mpr hk]
  have hmid : (fun k => decide (before.size ≤ before.size + k) &&
      dropped (before.size + k - before.size)) = dropped := by
    funext k
    simp
  have hright : after.without (fun k => decide (before.size ≤ (before ++ f).size + k) &&
      dropped ((before ++ f).size + k - before.size)) = after := by
    refine without_eq_self hafter.inRange fun k _ => ?_
    -- a position past the fragment holds none of its jumps
    by_contra hk
    obtain ⟨l, hjump, -⟩ := hdropped _ (Bool.and_eq_true_iff.mp (Bool.not_eq_false _ ▸ hk)).2
    have := hf.index_lt hjump
    simp only [Hole.index, size_append] at this
    omega
  rw [without_append, without_append, hleft, hmid, hright]
  exact hq

/-! ### The pass computes it -/

/-- The new numbers of positions count those that are kept. -/
private theorem renumbering_eq (dropped : Nat → Bool) (size : Nat) :
    renumbering dropped size = ((List.range (size + 1)).map (keptBelow dropped)).toArray := by
  suffices hfold : (List.range size).foldl
      (fun state index =>
        (state.1.push (if dropped index then state.2 else state.2 + 1),
          if dropped index then state.2 else state.2 + 1))
      ((#[0], 0) : Array Nat × Nat) =
      (((List.range (size + 1)).map (keptBelow dropped)).toArray, keptBelow dropped size) from
    congrArg Prod.fst hfold
  induction size with
  | zero => rfl
  | succ size ih =>
    rw [List.range_succ, List.foldl_append, ih, List.range_succ (n := size + 1), List.map_append,
      List.foldl_cons, List.foldl_nil]
    simp [keptBelow]

/-- Every position up to the end has a new number. -/
private theorem getElem?_renumbering {dropped : Nat → Bool} {size k : Nat} (hk : k ≤ size) :
    (renumbering dropped size)[k]? = some (keptBelow dropped k) := by
  have hlt : k < size + 1 := by omega
  simp [renumbering_eq, hlt]

/-- The jumps that the pass drops lead to their next position. -/
theorem fallsThrough_fallthroughs (f : Fragment) : f.FallsThrough f.fallthroughs.contains := by
  intro k hk
  obtain ⟨l, hjump, hoffset⟩ := contains_fallthroughs_iff.mp hk
  exact ⟨l, hjump, mem_labels_of_lastOffset? hoffset⟩

private theorem mapM_eq_some_map {α β : Type} {f : α → Option β} {g : α → β} {xs : List α}
    (h : ∀ x ∈ xs, f x = some (g x)) : xs.mapM f = some (xs.map g) := by
  induction xs with
  | nil => rfl
  | cons x xs ih =>
    rw [List.mapM_cons, h x List.mem_cons_self, ih fun y hy => h y (List.mem_cons_of_mem _ hy)]
    rfl

/-- The pass always has a result for a fragment whose labels and holes are in range, the fragment
without its jumps to the next position. -/
theorem dropFallthroughs_eq {f : Fragment} (hf : f.InRange) :
    f.dropFallthroughs = some (f.without f.fallthroughs.contains, f.fallthroughs.size) := by
  rw [dropFallthroughs]
  split
  next hempty =>
    have hnone : ∀ k < f.size, f.fallthroughs.contains k = false := fun k _ =>
      Std.HashSet.contains_of_isEmpty hempty
    have hsize : f.fallthroughs.size = 0 := by
      rw [Std.HashSet.isEmpty_eq_size_eq_zero] at hempty
      exact eq_of_beq hempty
    rw [without_eq_self hf hnone, hsize]
  next =>
    have hholes : ∀ h ∈ f.holes.filter (fun h => !f.fallthroughs.contains h.index),
        ((renumbering f.fallthroughs.contains f.size)[h.index]?.map fun index =>
          h.move fun _ => index) = some (h.move (keptBelow f.fallthroughs.contains)) := by
      intro h hh
      have hlt := hf.index_lt h (List.mem_filter.mp hh).1
      rw [getElem?_renumbering (Nat.le_of_lt hlt)]
      cases h <;> rfl
    have hlabels : ∀ l ∈ f.labels,
        ((renumbering f.fallthroughs.contains f.size)[l.2]?.map fun offset => (l.1, offset)) =
          some (l.1, keptBelow f.fallthroughs.contains l.2) := by
      intro l hl
      rw [getElem?_renumbering (hf.label_le l hl)]
      rfl
    simp only [mapM_eq_some_map hholes, mapM_eq_some_map hlabels]
    rfl

end Fragment

end Abacus.Code
