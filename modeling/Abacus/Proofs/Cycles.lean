import Mathlib.Dynamics.PeriodicPts.Defs
import Abacus.Proofs.Chains

/-!
# Chains of jumps that may be cycles

In an arbitrary fragment a chain of jumps may lead to a label that nobody defines, or run into a
cycle, and several labels may stand at one place. `Fragment.chase` follows a chain turn by turn and
notes the labels it has seen. What holds after each turn is `Fragment.Trail`: the labels seen are
those that the chain has passed, all different. The chain is therefore done after at most as many
turns as there are labels, and `follow` gives the label it ends at (`Fragment.chase_eq_follow`).

The ends of chains are the labels that come back to themselves when the chain goes on from them,
where a label that stands before no jump stays where it is (`Fragment.follow_mem_periodicPts`,
`Fragment.follow_eq_self`). Threading changes no jump that leads from such a label, so it leaves
nothing to do for another threading (`Fragment.threadJumps_settles`).
-/

namespace Abacus.Code

namespace Fragment

open Function

variable {f : Fragment} {l l' start : Label} {seen : List Label} {n turns : Nat}

/-! ### Following a chain turn by turn -/

/-- A label stands before a jump to another label. -/
def Hops (f : Fragment) (l l' : Label) : Prop := f.link? l = some l'

/-- Follow a chain of jumps for a number of turns. It is over at a label that stands before no jump
or that has been seen; there is no result yet if the turns are used up before. -/
def chase (f : Fragment) : (turns : Nat) → (seen : List Label) → Label → Option Label
  | 0, _, _ => none
  | turns + 1, seen, l =>
    match f.link? l with
    | none => some l
    | some next => if l ∈ seen then some l else f.chase turns (l :: seen) next

/-- A label that stands before no jump ends the chase. -/
private theorem chase_of_link?_eq_none (h : f.link? l = none) :
    f.chase (turns + 1) seen l = some l := by
  rw [chase, h]

/-- So does a label that has been seen. -/
private theorem chase_of_mem (h : l ∈ seen) : f.chase (turns + 1) seen l = some l := by
  rw [chase]
  split
  · rfl
  · exact if_pos h

/-- From any other label the chase goes on. -/
private theorem chase_of_link? (h : f.link? l = some l') (hnew : l ∉ seen) :
    f.chase (turns + 1) seen l = f.chase turns (l :: seen) l' := by
  rw [chase, h]
  exact if_neg hnew

/-- To take a link away when it is used is to note that its label has been seen. -/
private theorem chase_eq_follow_of_links (links : Std.HashMap Label Label) (l : Label)
    (seen : List Label) (turns : Nat)
    (hlinks : ∀ x, links[x]? = if x ∈ seen then none else f.link? x) (hturns : links.size < turns) :
    f.chase turns seen l = some (follow links l) := by
  fun_induction follow links l generalizing seen turns with
  | case1 links l linked next ih =>
    have hnext : links[l]? = some next := Std.HashMap.getElem?_eq_some_getElem linked
    have hnew : l ∉ seen := by
      intro hseen
      rw [hlinks, if_pos hseen] at hnext
      cases hnext
    have hlink : f.link? l = some next := by
      rw [← hnext, hlinks, if_neg hnew]
    have hnonempty : links.size ≠ 0 := by
      intro hempty
      refine Std.HashMap.not_mem_of_isEmpty ?_ linked
      rw [Std.HashMap.isEmpty_eq_size_eq_zero, hempty]
      rfl
    obtain ⟨turns, rfl⟩ := Nat.exists_eq_add_of_lt hturns
    rw [chase_of_link? hlink hnew]
    refine ih (l :: seen) _ (fun x => ?_) ?_
    · rw [Std.HashMap.getElem?_erase, hlinks]
      by_cases heq : l = x
      · simp [heq]
      · simp [heq, Ne.symm heq]
    · rw [Std.HashMap.size_erase, if_pos linked]
      omega
  | case2 links l linked =>
    have hnone : links[l]? = none := Std.HashMap.getElem?_eq_none linked
    obtain ⟨turns, rfl⟩ := Nat.exists_eq_add_of_lt hturns
    by_cases hseen : l ∈ seen
    · exact chase_of_mem hseen
    · rw [hlinks, if_neg hseen] at hnone
      exact chase_of_link?_eq_none hnone

/-- There are no more links than labels. -/
private theorem size_links_le (f : Fragment) : f.links.size ≤ f.labels.length :=
  Nat.le_trans Std.HashMap.size_filterMap_le_size Std.HashMap.size_ofList_le

/-- With more turns than there are labels every chain is followed to its end. -/
theorem chase_eq_follow (l : Label) (hturns : f.labels.length < turns) :
    f.chase turns [] l = some (follow f.links l) :=
  chase_eq_follow_of_links f.links l [] turns (fun x => by simp [getElem?_links])
    (Nat.lt_of_le_of_lt f.size_links_le hturns)

/-! ### The labels that a chain passes -/

/-- The label after a label in its chain. A label that stands before no jump stays where it is. -/
def hop (f : Fragment) (l : Label) : Label := (f.link? l).getD l

/-- To hop is to take the link. -/
private theorem Hops.hop_eq (h : f.Hops l l') : f.hop l = l' := by
  rw [hop, h, Option.getD_some]

/-- A label that stands before no jump stays. -/
private theorem hop_eq_self (h : f.link? l = none) : f.hop l = l := by
  rw [hop, h, Option.getD_none]

/-- The chain from `start` has come to a label after `n` turns, past the labels seen. -/
structure Trail (f : Fragment) (start : Label) (n : Nat) (seen : List Label) (l : Label) :
    Prop where
  iterate : f.hop^[n] start = l
  mem_iff : ∀ x, x ∈ seen ↔ ∃ i < n, f.hop^[i] start = x
  hops : ∀ i < n, f.Hops (f.hop^[i] start) (f.hop^[i + 1] start)
  ne : ∀ i < n, ∀ j < i, f.hop^[j] start ≠ f.hop^[i] start

/-- A chain starts with no turns. -/
private theorem trail_start (f : Fragment) (l : Label) : f.Trail l 0 [] l where
  iterate := rfl
  mem_iff := by simp
  hops := by simp
  ne := by simp

/-- One more turn. -/
private theorem Trail.turn (h : f.Trail start n seen l) (hlink : f.link? l = some l')
    (hnew : l ∉ seen) :
    f.Trail start (n + 1) (l :: seen) l' where
  iterate := by rw [iterate_succ_apply', h.iterate, Hops.hop_eq hlink]
  mem_iff x := by
    rw [List.mem_cons, h.mem_iff, Nat.exists_lt_succ_right, h.iterate, or_comm, eq_comm]
  hops i hi := by
    rcases Nat.lt_succ_iff_lt_or_eq.mp hi with hi | rfl
    · exact h.hops i hi
    · rw [iterate_succ_apply', h.iterate, Hops.hop_eq hlink]
      exact hlink
  ne i hi j hj := by
    rcases Nat.lt_succ_iff_lt_or_eq.mp hi with hi | rfl
    · exact h.ne i hi j hj
    · rw [h.iterate]
      rintro rfl
      exact hnew ((h.mem_iff _).mpr ⟨j, hj, rfl⟩)

/-- All turns. -/
theorem Trail.chase (h : f.Trail start n seen l) (hchase : f.chase turns seen l = some l') :
    ∃ m seen', f.Trail start m seen' l' ∧ (f.link? l' = none ∨ l' ∈ seen') := by
  induction turns generalizing n seen l with
  | zero => cases hchase
  | succ turns ih =>
    cases hlink : f.link? l with
    | none =>
      rw [chase_of_link?_eq_none hlink] at hchase
      cases hchase
      exact ⟨n, seen, h, .inl hlink⟩
    | some next =>
      by_cases hseen : l ∈ seen
      · rw [chase_of_mem hseen] at hchase
        cases hchase
        exact ⟨n, seen, h, .inr hseen⟩
      · rw [chase_of_link? hlink hseen] at hchase
        exact ih (h.turn hlink hseen) hchase

/-- A chain ends at a label that stands before no jump, or at one that it comes to a second time. -/
private theorem exists_trail_follow (f : Fragment) (l : Label) :
    ∃ n seen, f.Trail l n seen (follow f.links l) ∧
      (f.link? (follow f.links l) = none ∨ follow f.links l ∈ seen) :=
  (f.trail_start l).chase (chase_eq_follow l (Nat.lt_succ_self _))

/-! ### The ends of chains -/

/-- A stretch of a chain. -/
private theorem Trail.transGen (h : f.Trail start n seen l) {i j : Nat} (hij : i < j) (hj : j ≤ n) :
    Relation.TransGen f.Hops (f.hop^[i] start) (f.hop^[j] start) := by
  induction j, hij using Nat.le_induction with
  | base => exact .single (h.hops i hj)
  | succ j hij ih => exact (ih (Nat.le_of_succ_le hj)).tail (h.hops j hj)

/-- A chain leads from its start to its label. -/
private theorem Trail.reflTransGen (h : f.Trail start n seen l) :
    Relation.ReflTransGen f.Hops start l := by
  rcases Nat.eq_zero_or_pos n with rfl | hn
  · exact h.iterate ▸ .refl
  · exact h.iterate ▸ (h.transGen hn (Nat.le_refl n)).to_reflTransGen

/-- A label that a chain comes to a second time is on a cycle. -/
private theorem Trail.transGen_self (h : f.Trail start n seen l) (hseen : l ∈ seen) :
    Relation.TransGen f.Hops l l := by
  obtain ⟨i, hi, heq⟩ := (h.mem_iff l).mp hseen
  have hcycle := h.transGen hi (Nat.le_refl n)
  rwa [h.iterate, heq] at hcycle

/-- What a chain leads to in some turns is reached by as many hops. -/
private theorem exists_iterate_of_transGen (h : Relation.TransGen f.Hops l l') :
    ∃ n > 0, f.hop^[n] l = l' := by
  induction h with
  | single h => exact ⟨1, Nat.one_pos, h.hop_eq⟩
  | tail _ h ih =>
    obtain ⟨n, -, rfl⟩ := ih
    exact ⟨n + 1, n.succ_pos, by rw [iterate_succ_apply', h.hop_eq]⟩

/-- The end of a chain is on a cycle, maybe one of that label alone. -/
theorem follow_mem_periodicPts (f : Fragment) (l : Label) :
    follow f.links l ∈ periodicPts f.hop := by
  obtain ⟨n, seen, htrail, hnone | hseen⟩ := f.exists_trail_follow l
  · exact mk_mem_periodicPts Nat.one_pos (hop_eq_self hnone)
  · obtain ⟨m, hm, hcycle⟩ := exists_iterate_of_transGen (htrail.transGen_self hseen)
    exact mk_mem_periodicPts hm hcycle

/-- From such a label the chain is followed once around. -/
theorem follow_eq_self (h : l ∈ periodicPts f.hop) : follow f.links l = l := by
  have hperiod := minimalPeriod_pos_of_mem_periodicPts h
  obtain ⟨n, seen, htrail, hend⟩ := f.exists_trail_follow l
  have hle : n ≤ minimalPeriod f.hop l := by
    by_contra hlt
    refine htrail.ne _ (Nat.not_le.mp hlt) 0 hperiod ?_
    rw [iterate_minimalPeriod]
    rfl
  rcases Nat.lt_or_eq_of_le hle with hlt | heq
  · -- the chain is over before it is back, so it is over where it started
    rcases hend with hnone | hseen
    · have hfixed := iterate_fixed (hop_eq_self hnone) (minimalPeriod f.hop l - n)
      rw [← htrail.iterate, ← iterate_add_apply, Nat.sub_add_cancel hle, iterate_minimalPeriod,
        htrail.iterate] at hfixed
      exact hfixed.symm
    · obtain ⟨i, hi, heq⟩ := (htrail.mem_iff _).mp hseen
      rw [← htrail.iterate] at heq
      have := (iterate_eq_iterate_iff_of_lt_minimalPeriod (hi.trans hlt) hlt).mp heq
      omega
  · rw [← htrail.iterate, heq, iterate_minimalPeriod]

/-! ### Threaded fragments -/

/-- Threading replaces the target of a jump by the end of its chain. -/
private theorem lastTarget?_threadJumps (f : Fragment) (k : Nat) :
    f.threadJumps.lastTarget? k = (f.lastTarget? k).map (follow f.links) := by
  have htarget : Hole.targetAt? k ∘ Hole.retarget (follow f.links) =
      Option.map (follow f.links) ∘ Hole.targetAt? k := by
    funext h
    cases h with
    | jump index target => by_cases heq : index = k <;> simp [Hole.retarget, Hole.targetAt?, heq]
    | test => rfl
  rw [lastTarget?, lastTarget?, List.map_findSome?, ← htarget, threadJumps, ← List.map_reverse,
    List.findSome?_map]

/-- So it does with what a label is linked to. -/
private theorem link?_threadJumps (f : Fragment) (l : Label) :
    f.threadJumps.link? l = (f.link? l).map (follow f.links) := by
  rw [link?, link?, Option.map_bind]
  exact congrArg _ (funext f.lastTarget?_threadJumps)

/-- Labels at the ends of chains lead to where they led before. -/
private theorem hop_threadJumps (h : l ∈ periodicPts f.hop) : f.threadJumps.hop l = f.hop l := by
  rw [hop, link?_threadJumps]
  cases hlink : f.link? l with
  | none => exact (hop_eq_self hlink).symm
  | some next =>
    have hnext : f.hop l = next := Hops.hop_eq hlink
    rw [Option.map_some, Option.getD_some, hnext]
    exact follow_eq_self (hnext ▸ (Function.Commute.refl f.hop).semiconj.mapsTo_periodicPts h)

/-- So they do in any number of turns. -/
private theorem iterate_hop_threadJumps (h : l ∈ periodicPts f.hop) (n : Nat) :
    f.threadJumps.hop^[n] l = f.hop^[n] l := by
  induction n with
  | zero => rfl
  | succ n ih =>
    have hn := (Function.Commute.iterate_self f.hop n).semiconj.mapsTo_periodicPts h
    rw [iterate_succ_apply', iterate_succ_apply', ih, hop_threadJumps hn]

/-- The end of a chain is its own end after threading. -/
private theorem follow_links_threadJumps (f : Fragment) (l : Label) :
    follow f.threadJumps.links (follow f.links l) = follow f.links l := by
  have hend := f.follow_mem_periodicPts l
  obtain ⟨n, hn, hperiod⟩ := mem_periodicPts.mp hend
  exact follow_eq_self (mk_mem_periodicPts hn ((iterate_hop_threadJumps hend n).trans hperiod))

/-- To thread once more changes nothing. -/
private theorem threadJumps_threadJumps (f : Fragment) :
    f.threadJumps.threadJumps = f.threadJumps := by
  refine Fragment.ext rfl ?_ rfl
  change (f.holes.map _).map (Hole.retarget (follow f.threadJumps.links)) = _
  rw [List.map_map]
  refine List.map_congr_left fun h _ => ?_
  cases h <;> simp [Hole.retarget, follow_links_threadJumps]

/-- A label leads to another one along a chain of jumps, and there the chain ends: nobody defines
the label, or it stands before no jump, or it is on a cycle of jumps. -/
structure LeadsTo (f : Fragment) (l l' : Label) : Prop where
  chain : Relation.ReflTransGen f.Hops l l'
  final : l' ∉ f.defined ∨ (∃ o, f.lastOffset? l' = some o ∧ ¬f.JumpAt o) ∨
    Relation.TransGen f.Hops l' l'

/-- The end of a chain is where its label leads to. -/
private theorem leadsTo_follow (f : Fragment) (l : Label) : f.LeadsTo l (follow f.links l) := by
  obtain ⟨n, seen, htrail, hend⟩ := f.exists_trail_follow l
  refine ⟨htrail.reflTransGen, ?_⟩
  rcases hend with hnone | hseen
  · rcases hoffset : f.lastOffset? (follow f.links l) with _ | o
    · exact .inl (lastOffset?_eq_none_iff.mp hoffset)
    · rw [link?, hoffset, Option.bind_some, lastTarget?_eq_none_iff] at hnone
      refine .inr (.inl ⟨o, rfl, ?_⟩)
      rintro ⟨l', hjump⟩
      exact hnone l' hjump
  · exact .inr (.inr (htrail.transGen_self hseen))

/-- A hole with each of its labels replaced by the end of a chain that starts there. -/
inductive Threads (f : Fragment) : Hole → Hole → Prop
  | jump {k : Nat} {l l' : Label} (h : f.LeadsTo l l') : Threads f (.jump k l) (.jump k l')
  | test {k : Nat} {l l' m m' : Label} (h : f.LeadsTo l l') (h' : f.LeadsTo m m') :
    Threads f (.test k l m) (.test k l' m')

/-- **Threading settles in one pass.** In any fragment at all every chain of jumps is followed to an
end, in no more turns than there are labels. Threading replaces the labels of every hole by the ends
of their chains and changes nothing else, and to thread once more changes nothing. -/
theorem threadJumps_settles (f : Fragment) :
    (∀ l more, f.chase (f.labels.length + 1 + more) [] l = some (follow f.links l)) ∧
      List.Forall₂ f.Threads f.holes f.threadJumps.holes ∧
      f.threadJumps.code = f.code ∧ f.threadJumps.labels = f.labels ∧
      f.threadJumps.threadJumps = f.threadJumps := by
  refine ⟨fun l more => chase_eq_follow l (by omega), ?_, rfl, rfl, f.threadJumps_threadJumps⟩
  rw [threadJumps, List.forall₂_map_right_iff, List.forall₂_same]
  rintro (⟨k, l⟩ | ⟨k, l, m⟩) -
  · exact .jump (f.leadsTo_follow l)
  · exact .test (f.leadsTo_follow l) (f.leadsTo_follow m)

/-- Two jumps that lead to each other, with two labels before the second one. -/
def roundabout : Fragment where
  code := [.jmp 0, .jmp 0]
  holes := [.jump 0 ⟨.loopBody, 1⟩, .jump 1 ⟨.loopHeader, 0⟩]
  labels := [(⟨.loopHeader, 0⟩, 0), (⟨.loopBody, 1⟩, 1), (⟨.loopStep, 2⟩, 1)]

-- the third label leads into the cycle, but nothing leads back to it
example : roundabout.chase 4 [] ⟨.loopStep, 2⟩ = some ⟨.loopHeader, 0⟩ := by decide

end Fragment

end Abacus.Code
