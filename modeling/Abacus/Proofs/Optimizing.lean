import Abacus.Code.Optimize
import Abacus.Proofs.Dropping

/-!
# The optimizer keeps the meaning of a program

A fragment replaces another (`Fragment.Replaces`) when it defines the same labels and names no new
ones, has no other instructions, and makes a tighter program wherever it is put in the other's
place. Both passes give a fragment that replaces their argument. Replacing is transitive, which
covers the rounds of the optimizer, and a congruence for `++`, which covers fragments that are
optimized one by one.
-/

namespace Abacus.Code

open Machine

namespace Fragment

/-- A fragment may be put in the place of another, in any closed program. -/
structure Replaces (g f : Fragment) : Prop where
  wellFormed : g.WellFormed
  defined : g.defined = f.defined
  wanted : ∀ l ∈ g.wanted, l ∈ f.wanted
  code : g.code.Sublist f.code
  tightens : ∀ {before after : Fragment} {p q : Program}, before.WellFormed → after.WellFormed →
    (before ++ f ++ after).Closed → Linked p (before ++ f ++ after) →
    Linked q (before ++ g ++ after) → q.base = p.base → q.Tightens p

/-- A fragment that is well formed and closed can be linked. -/
theorem exists_linked {f : Fragment} (hf : f.WellFormed) (hclosed : f.Closed)
    (base : AddressBase) : ∃ p, Linked p f ∧ p.base = base := by
  have hjoin : join [f] = f := append_empty f
  rw [← hjoin] at hf hclosed
  obtain ⟨p, -, hp, -, -, hbase⟩ := link_ok hf hclosed base #[] []
  exact ⟨p, hjoin ▸ hp, hbase⟩

namespace Replaces

variable {f f' g g' h : Fragment}

/-- Where labels are different and defined with a fragment, they are so with one that replaces it.
-/
theorem closed (hg : g.Replaces f) {before after : Fragment}
    (hclosed : (before ++ f ++ after).Closed) : (before ++ g ++ after).Closed where
  nodup := by
    have hnodup := hclosed.nodup
    simp only [defined_append] at hnodup ⊢
    rwa [hg.defined]
  wanted_defined := by
    intro l hl
    have hdefined := hclosed.wanted_defined l
    simp only [wanted_append, defined_append, List.mem_append] at hl hdefined ⊢
    rw [hg.defined]
    refine hdefined ?_
    rcases hl with (hl | hl) | hl
    · exact .inl (.inl hl)
    · exact .inl (.inr (hg.wanted l hl))
    · exact .inr hl

/-- What replaces a fragment is no longer than it. -/
theorem size_le (hg : g.Replaces f) : g.size ≤ f.size := hg.code.length_le

/-- A fragment replaces itself. -/
theorem refl (hf : f.WellFormed) : f.Replaces f where
  wellFormed := hf
  defined := rfl
  wanted _ hl := hl
  code := .refl _
  tightens := by
    intro before after p q hbefore hafter _ hp hq _
    have hnone : f.FallsThrough fun _ => false := fun k hk => absurd hk (by simp)
    have hself : f.without (fun _ => false) = f := without_eq_self hf.inRange fun _ _ => rfl
    exact tightens_without hbefore hf hafter hnone hp (hself.symm ▸ hq)

/-- What replaces a replacement replaces the original. -/
theorem trans (hh : h.Replaces g) (hg : g.Replaces f) : h.Replaces f where
  wellFormed := hh.wellFormed
  defined := hh.defined.trans hg.defined
  wanted l hl := hg.wanted l (hh.wanted l hl)
  code := hh.code.trans hg.code
  tightens := by
    intro before after p r hbefore hafter hclosed hp hr hbase
    have hclosed' := hg.closed hclosed
    -- a program with `g` in the middle stands between the two
    obtain ⟨q, hq, hbase'⟩ :=
      exists_linked ((hbefore.append hg.wellFormed).append hafter) hclosed' p.base
    exact (hh.tightens hbefore hafter hclosed' hq hr (hbase.trans hbase'.symm)).trans
      (hg.tightens hbefore hafter hclosed hp hq hbase')

/-- Fragments side by side may be replaced together: first one, then the other. -/
theorem append (hf' : f'.WellFormed) (hg : g.Replaces f) (hg' : g'.Replaces f') :
    (g ++ g').Replaces (f ++ f') := by
  have hleft : (g ++ f').Replaces (f ++ f') := by
    refine ⟨hg.wellFormed.append hf', by simp [hg.defined], ?_, ?_, ?_⟩
    · intro l hl
      simp only [wanted_append, List.mem_append] at hl ⊢
      exact hl.imp_left (hg.wanted l)
    · rw [code_append, code_append]
      exact hg.code.append (.refl _)
    · intro before after p q hbefore hafter hclosed hp hq hbase
      have hassoc : ∀ x : Fragment, before ++ (x ++ f') ++ after = before ++ x ++ (f' ++ after) :=
        fun x => by simp only [append_assoc]
      rw [hassoc] at hclosed hp hq
      exact hg.tightens hbefore (hf'.append hafter) hclosed hp hq hbase
  have hright : (g ++ g').Replaces (g ++ f') := by
    refine ⟨hg.wellFormed.append hg'.wellFormed, by simp [hg'.defined], ?_, ?_, ?_⟩
    · intro l hl
      simp only [wanted_append, List.mem_append] at hl ⊢
      exact hl.imp_right (hg'.wanted l)
    · rw [code_append, code_append]
      exact .append (.refl _) hg'.code
    · intro before after p q hbefore hafter hclosed hp hq hbase
      have hassoc : ∀ x : Fragment, before ++ (g ++ x) ++ after = before ++ g ++ x ++ after :=
        fun x => by simp only [append_assoc]
      rw [hassoc] at hclosed hp hq
      exact hg'.tightens (hbefore.append hg.wellFormed) hafter hclosed hp hq hbase
  exact hright.trans hleft

/-! A fragment on its own is one between two empty ones. -/

private theorem empty_append_append_empty (f : Fragment) : ∅ ++ f ++ ∅ = f := by
  rw [append_empty, empty_append]

/-- What replaces a closed fragment is closed. -/
theorem closed_alone (hg : g.Replaces f) (hclosed : f.Closed) : g.Closed := by
  rw [← empty_append_append_empty f] at hclosed
  rw [← empty_append_append_empty g]
  exact hg.closed hclosed

/-- A program is tightened if all of its code is replaced. -/
theorem tightens_alone (hg : g.Replaces f) (hclosed : f.Closed) {p q : Program}
    (hp : Linked p f) (hq : Linked q g) (hbase : q.base = p.base) : q.Tightens p := by
  rw [← empty_append_append_empty f] at hclosed hp
  rw [← empty_append_append_empty g] at hq
  exact hg.tightens wellFormed_empty wellFormed_empty hclosed hp hq hbase

end Replaces

/-! ### The passes and their rounds -/

/-- Threading replaces a fragment. -/
private theorem replaces_threadJumps {f : Fragment} (hf : f.WellFormed) :
    f.threadJumps.Replaces f where
  wellFormed := hf.threadJumps
  defined := defined_threadJumps f
  wanted _ := wanted_threadJumps
  code := .refl _
  tightens hbefore hafter _ hp hq hbase :=
    tightens_threadJumps ((hbefore.append hf).append hafter) hp hq hbase

/-- Dropping jumps that fall through replaces a fragment. -/
theorem replaces_without {f : Fragment} (hf : f.WellFormed) {dropped : Nat → Bool}
    (hdropped : f.FallsThrough dropped) : (f.without dropped).Replaces f where
  wellFormed := hf.without dropped
  defined := defined_without dropped f
  wanted _ := wanted_without
  code := keep_sublist dropped f.code
  tightens hbefore hafter _ hp hq _ := tightens_without hbefore hf hafter hdropped hp hq

/-- However many rounds there are, they come to an end with a fragment that replaces the first. -/
private theorem settle_replaces (rounds : Nat) {f : Fragment} (hf : f.WellFormed) :
    ∃ g, f.settle rounds = some g ∧ g.Replaces f := by
  induction rounds generalizing f with
  | zero => exact ⟨f, rfl, .refl hf⟩
  | succ rounds ih =>
    have hthreaded := replaces_threadJumps hf
    have hdropped := (replaces_without hthreaded.wellFormed
      (fallsThrough_fallthroughs f.threadJumps)).trans hthreaded
    rw [settle, dropFallthroughs_eq hthreaded.wellFormed.inRange]
    obtain ⟨g, hg, hreplaces⟩ := ih hdropped.wellFormed
    by_cases hdone : f.threadJumps.fallthroughs.size = 0 ∧ f.threadJumps.holes = f.holes
    · exact ⟨_, by simp [hdone], hdropped⟩
    · refine ⟨g, ?_, hreplaces.trans hdropped⟩
      simpa [hdone] using hg

/-- The optimizer gives a replacement, at any level. -/
theorem optimize_replaces (level : Nat) {f : Fragment} (hf : f.WellFormed) :
    ∃ g, f.optimize level = some g ∧ g.Replaces f := by
  by_cases hlevel : level = 0
  · exact ⟨f, by rw [optimize, if_pos hlevel], .refl hf⟩
  · rw [optimize, if_neg hlevel]
    exact settle_replaces roundLimit hf

/-! ### Lists of fragments -/

private theorem wellFormed_join {fragments : List Fragment} (h : ∀ f ∈ fragments, f.WellFormed) :
    (join fragments).WellFormed := by
  induction fragments with
  | nil => exact wellFormed_empty
  | cons f rest ih =>
    exact (h f List.mem_cons_self).append (ih fun g hg => h g (List.mem_cons_of_mem _ hg))

/-- Fragments that are optimized one by one replace the whole. -/
private theorem mapM_optimize_replaces (level : Nat) {fragments : List Fragment}
    (h : ∀ f ∈ fragments, f.WellFormed) :
    ∃ optimized, fragments.mapM (optimize level) = some optimized ∧
      (join optimized).Replaces (join fragments) := by
  induction fragments with
  | nil => exact ⟨[], rfl, .refl wellFormed_empty⟩
  | cons f rest ih =>
    have hf := h f List.mem_cons_self
    have hrest : ∀ g ∈ rest, g.WellFormed := fun g hg => h g (List.mem_cons_of_mem _ hg)
    obtain ⟨g, hg, hreplaces⟩ := optimize_replaces level hf
    obtain ⟨optimized, hoptimized, hreplaces'⟩ := ih hrest
    refine ⟨g :: optimized, ?_, hreplaces.append (wellFormed_join hrest) hreplaces'⟩
    rw [List.mapM_cons, hg, hoptimized]
    rfl

end Fragment

/-- **The optimizer preserves meaning.** Fragments that are well formed, and closed together, are
all optimized; linked as they are and linked after it they make programs that come to the same ends
from every register file, the optimized one in no more steps. The interpreter shows the same ends
of both as soon as some step limit is enough for the program as it was. -/
theorem link_optimize_sameEnds {fragments : List Fragment}
    (hwf : ∀ f ∈ fragments, f.WellFormed) (hclosed : (Fragment.join fragments).Closed)
    (base : AddressBase) (registers : Array Nat) (symbols : List (String × Register)) :
    ∃ optimized p q, fragments.mapM (Fragment.optimize 1) = some optimized ∧
      link base registers symbols fragments = .ok p ∧
      link base registers symbols optimized = .ok q ∧
      q.Tightens p ∧ ∀ file, p.SameEnds q file := by
  obtain ⟨optimized, hoptimized, hreplaces⟩ := Fragment.mapM_optimize_replaces 1 hwf
  obtain ⟨p, hlink, hp, -, -, hbase⟩ :=
    link_ok (Fragment.wellFormed_join hwf) hclosed base registers symbols
  obtain ⟨q, hlink', hq, -, -, hbase'⟩ :=
    link_ok hreplaces.wellFormed (hreplaces.closed_alone hclosed) base registers symbols
  have htightens := hreplaces.tightens_alone hclosed hp hq (hbase'.trans hbase.symm)
  exact ⟨optimized, p, q, hoptimized, hlink, hlink', htightens, htightens.sameEnds⟩

/-- A register is counted down. The way back goes through a second jump, and the way out leads to
another fragment that ends in a jump to its own end. -/
def countdown : List Fragment :=
  [.define ⟨.transferLoop, 0⟩ ++ .test ⟨1⟩ ⟨.transferStep, 1⟩ ⟨.transferDone, 3⟩ ++
      .define ⟨.transferStep, 1⟩ ++ .dec ⟨1⟩ ++ .jump ⟨.loopHeader, 2⟩ ++
      .define ⟨.loopHeader, 2⟩ ++ .jump ⟨.transferLoop, 0⟩,
    .define ⟨.transferDone, 3⟩ ++ .inc ⟨2⟩ ++ .jump ⟨.endIf, 4⟩ ++ .define ⟨.endIf, 4⟩]

private theorem wellFormed_countdown : ∀ f ∈ countdown, f.WellFormed := by
  intro f hf
  rcases List.mem_cons.mp hf with rfl | hf
  · exact (((((((Fragment.wellFormed_define _).append (Fragment.wellFormed_test _ _ _)).append
      (Fragment.wellFormed_define _)).append (Fragment.wellFormed_dec _)).append
      (Fragment.wellFormed_jump _)).append (Fragment.wellFormed_define _)).append
      (Fragment.wellFormed_jump _))
  · obtain rfl := List.mem_singleton.mp hf
    exact ((((Fragment.wellFormed_define _).append (Fragment.wellFormed_inc _)).append
      (Fragment.wellFormed_jump _)).append (Fragment.wellFormed_define _))

theorem link_optimize_countdown :
    (∀ f ∈ countdown, f.WellFormed) ∧ (Fragment.join countdown).Closed ∧
      ∃ optimized p q, countdown.mapM (Fragment.optimize 1) = some optimized ∧
        link .one #[3, 0] [] countdown = .ok p ∧ link .one #[3, 0] [] optimized = .ok q ∧
        q.Tightens p ∧ ∀ file, p.SameEnds q file := by
  have hclosed : (Fragment.join countdown).Closed := ⟨by decide, by decide⟩
  exact ⟨wellFormed_countdown, hclosed,
    link_optimize_sameEnds wellFormed_countdown hclosed .one #[3, 0] []⟩

end Abacus.Code
