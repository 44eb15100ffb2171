import Abacus.Proofs.Emission
import Abacus.Proofs.Transfers

/-!
# Emitting transfers

The actions that emit transfers, with the effects of their code. Each effect sets one register, and
scratch registers that are used on the way end up empty.
-/

namespace Abacus.Emit

open Machine Code Fragment

variable {used : Nat} {s : State} {r source target : Register} {file : File}
  {fails : Diagnostic → Prop}

/-- The increments of several registers. -/
theorem straight_join_inc (targets : List Register) :
    (join (targets.map inc)).holes = [] ∧ (join (targets.map inc)).labels = [] ∧
      (join (targets.map inc)).code = targets.map Instr.inc := by
  induction targets with
  | nil => exact ⟨rfl, rfl, rfl⟩
  | cons t rest ih =>
    obtain ⟨hholes, hlabels, hcode⟩ := ih
    change (inc t ++ join (rest.map inc)).holes = [] ∧ (inc t ++ join (rest.map inc)).labels = [] ∧
      (inc t ++ join (rest.map inc)).code = _
    simp [hholes, hlabels, hcode, inc]

theorem sealed_join_inc (targets : List Register) (n : Nat) :
    (join (targets.map inc)).Sealed n n := by
  obtain ⟨hholes, hlabels, hcode⟩ := straight_join_inc targets
  refine sealed_of_straight hholes hlabels (fun i hi => ?_) n
  rw [hcode] at hi
  obtain ⟨t, -, rfl⟩ := List.mem_map.mp hi
  exact ⟨rfl, by simp⟩

/-- The labels of the loop that empties a register, numbered in the order they are handed out. -/
theorem sealed_drain (source : Register) (targets : List Register) (top step done : Label.Kind)
    (n : Nat) :
    (define ⟨top, n⟩ ++ test source ⟨step, n + 1⟩ ⟨done, n + 2⟩ ++ define ⟨step, n + 1⟩
      ++ dec source ++ join (targets.map inc) ++ jump ⟨top, n⟩
      ++ define ⟨done, n + 2⟩).Sealed n (n + 3) := by
  have hrow := sealed_join_inc targets n
  obtain ⟨hholes, hlabels, -⟩ := straight_join_inc targets
  have hdefined : (join (targets.map inc)).defined = [] := by simp [defined, hlabels]
  have hwanted : (join (targets.map inc)).wanted = [] := by simp [wanted, hholes]
  refine ⟨by omega, ?_, ?_, ?_, ?_, by simp [hrow.hlt_notMem]⟩
  · exact ((((((wellFormed_define _).append (wellFormed_test _ _ _)).append
      (wellFormed_define _)).append (wellFormed_dec _)).append hrow.wellFormed).append
      (wellFormed_jump _)).append (wellFormed_define _)
  · simp [hdefined]
  · intro k
    simp [hdefined]
    omega
  · simp [hdefined, hwanted]

/-- Draining a register names it and the targets. -/
theorem registers_drain (targets : List Register) {top step done : Label} :
    (define top ++ test source step done ++ define step ++ dec source ++ join (targets.map inc)
      ++ jump top ++ define done).registers = source :: source :: targets := by
  obtain ⟨-, -, hcode⟩ := straight_join_inc targets
  have hrow : (join (targets.map inc)).registers = targets := by
    simp [registers, hcode, List.filterMap_map, Function.comp_def, Instr.register?]
  simp [hrow]

/-- The labels of the loop that only empties a register. -/
theorem sealed_clear (r : Register) (top step done : Label.Kind) (n : Nat) :
    (define ⟨top, n⟩ ++ test r ⟨step, n + 1⟩ ⟨done, n + 2⟩ ++ define ⟨step, n + 1⟩ ++ dec r
      ++ jump ⟨top, n⟩ ++ define ⟨done, n + 2⟩).Sealed n (n + 3) := by
  have hsealed := sealed_drain r [] top step done n
  rwa [List.map_nil, join, List.foldr_nil, append_empty] at hsealed

/-! ### The actions -/

/-- Draining a register adds its count to all targets and leaves it empty. -/
private theorem yields_drain (targets : List Register) (hs : s.pool.Packed used)
    (hsource : source.Within used) (htargets : ∀ t ∈ targets, t.Within used)
    (hne : source ∉ targets) :
    Yields fails (drain source targets) s fun f s' =>
      Computes used (fun r => r = source ∨ r ∈ targets)
        (fun file => (file.put source 0).addAll? targets (file.val source)) s s' f := by
  unfold drain
  refine yields_fresh_bind ?_
  refine yields_fresh_bind ?_
  refine yields_fresh_bind ?_
  refine .pure ⟨⟨hs, .refl _, sealed_drain source targets _ _ _ s.nextLabel, ?_⟩, rfl, ?_⟩
  · intro r hr
    rw [registers_drain] at hr
    simpa using Or.inl hr
  · intro p address a file hplaced hsize hclean
    have hused : used ≤ file.size := Nat.le_trans hs.used_le hsize
    have hruns := runs_drain targets hplaced (hsource.has hused)
      (fun t ht => (htargets t ht).has hused) hne hclean.bounded
    convert hruns using 1
    simp
    omega

/-- Emptying a register. -/
theorem yields_clear (hs : s.pool.Packed used) (hr : r.Within used) :
    Yields fails (clear r) s fun f s' =>
      Computes used (· = r) (fun file => file.assign? r 0) s s' f := by
  unfold clear
  refine yields_fresh_bind ?_
  refine yields_fresh_bind ?_
  refine yields_fresh_bind ?_
  refine .pure ⟨⟨hs, .refl _, sealed_clear r _ _ _ s.nextLabel, ?_⟩, rfl, ?_⟩
  · intro t ht
    simpa using Or.inl ht
  · intro p address a file hplaced hsize hclean
    have hused : used ≤ file.size := Nat.le_trans hs.used_le hsize
    exact runs_clear hplaced (hr.has hused) hclean.bounded

/-- Moving a register adds its count to another one and leaves it empty. -/
theorem yields_move (hs : s.pool.Packed used) (hsource : source.Within used)
    (htarget : target.Within used) (hne : source ≠ target) :
    Yields fails (move source target) s fun f s' =>
      Computes used (fun r => r = source ∨ r = target)
        (fun file => (file.put source 0).add? target (file.val source)) s s' f := by
  unfold move
  refine .guard (fun h => absurd h hne) fun _ => ?_
  refine .mono (yields_drain [target] hs hsource (by simpa using htarget) (by simpa using hne))
    (fun _ h => h) fun f s' h => ?_
  refine (h.weaken fun r hr => by simpa using hr).congr fun file _ _ => ?_
  simp [File.addAll?_cons]

/-- Draining a register leaves those after it empty. -/
private theorem keeps_drain {targets : List Register} (hsource : source.Within used)
    (htargets : ∀ t ∈ targets, t.Within used) :
    Keeps used fun file => (file.put source 0).addAll? targets (file.val source) := by
  intro file file' hsize hclean h
  have hclean' := hclean.put (hsource.has hsize) hsource.2 (show 0 < wordBound by decide)
  refine ⟨hclean'.of_addAll? (fun t ht => ?_) h, (File.size_of_addAll? h).trans (File.size_put ..)⟩
  exact ⟨File.has_put.mpr ((htargets t ht).has hsize), (htargets t ht).2⟩

/-- Copying goes through a scratch register, which is empty before and after. -/
private theorem copy_effect {backup : Register} (hsource : file.Has source)
    (htarget : file.Has target) (hbackup : file.Has backup) (hne : source ≠ target)
    (hsource' : source ≠ backup) (htarget' : target ≠ backup) (hb : file.Bounded)
    (hempty : file.val backup = 0) :
    ((file.put source 0).addAll? [target, backup] (file.val source)).bind
        (fun file => (file.put backup 0).addAll? [source] (file.val backup)) =
      file.add? target (file.val source) := by
  simp only [File.addAll?_cons, File.addAll?_nil, File.add?, Option.bind_fun_some]
  rw [File.val_put_of_ne hsource htarget hne.symm]
  rcases Nat.lt_or_ge (file.val target + file.val source) wordBound with hlt | hge
  · have hbound := hb source hsource
    have hval : ((file.put source 0).put target (file.val target + file.val source)).val backup
        = 0 := by
      rw [File.val_put (by simpa) (by simpa), if_neg htarget'.symm, File.val_put hsource hbackup,
        if_neg hsource'.symm, hempty]
    rw [File.assign?_of_lt hlt, File.assign?_of_lt hlt, Option.bind_some, hval, Nat.zero_add,
      File.assign?_of_lt hbound, Option.bind_some, File.put_put, File.val_put_self (by simpa)]
    have hval' : (((file.put source 0).put target (file.val target + file.val source)).put
        backup 0).val source = 0 := by
      rw [File.val_put (by simpa) (by simpa), if_neg hsource', File.val_put (by simpa) (by simpa),
        if_neg hne, File.val_put_self hsource]
    rw [hval', Nat.zero_add, File.assign?_of_lt hbound]
    refine congrArg some (File.ext (by simp) fun r hr => ?_)
    simp only [File.has_put] at hr
    rw [File.val_put (by simpa) (by simpa), File.val_put (by simpa) (by simpa),
      File.val_put (by simpa) (by simpa), File.val_put hsource hr, File.val_put htarget hr]
    grind
  · -- a sum that is too large overflows on the way out
    rw [File.assign?_of_le hge, File.assign?_of_le hge]
    rfl

/-- Copying a register adds its count to another one: it is drained into that one and a backup, and
the backup is drained back. -/
theorem yields_copy {supported : Prop} (hs : s.pool.Packed used) (hsource : source.Within used)
    (htarget : target.Within used) (hne : source ≠ target) :
    Yields (Refuses supported) (copy source target) s fun f s' =>
      Computes used (fun r => r = source ∨ r = target)
        (fun file => file.add? target (file.val source)) s s' f := by
  unfold copy
  refine .guard (fun h => absurd h hne) fun _ => ?_
  refine .bind (yields_scratch hs) ?_
  rintro _ _ ⟨pool₁, rfl, rfl, hs₁, htaken⟩
  have hsource₁ := hsource.mono (Nat.le_succ used)
  have htarget₁ := htarget.mono (Nat.le_succ used)
  have htargets : ∀ t ∈ [target, ⟨used + 1⟩], t.Within (used + 1) := by
    simpa using ⟨htarget₁, Register.Within.next used⟩
  refine .bind (yields_drain [target, ⟨used + 1⟩] hs₁ hsource₁ htargets
    (by simp [hne, hsource.ne_next])) ?_
  intro out s₂ hout
  refine .bind (yields_drain [source] hout.packed (.next used) (by simpa using hsource₁)
    (by simpa using hsource.ne_next.symm)) ?_
  intro back s₃ hback
  refine .bind (yields_release hback.packed ?_) ?_
  · rw [hback.grows.named, hout.grows.named, htaken.named]
    exact hs.named_le
  rintro _ _ ⟨pool₄, rfl, hpacked, hreleased⟩
  refine .pure ?_
  refine (hout.append hback (keeps_drain hsource₁ htargets)).release htaken hpacked hreleased ?_
    fun file hsize hclean => ?_
  · simp only [List.mem_cons, List.not_mem_nil, or_false]
    tauto
  · exact copy_effect (hsource₁.has hsize) (htarget₁.has hsize)
      ((Register.Within.next used).has hsize) hne hsource.ne_next htarget.ne_next
      hclean.bounded (hclean.empty _ (Nat.lt_succ_self used))

/-! ### Taking away -/

theorem sealed_deduct (count target : Register) (top check step rest done : Label.Kind) (n : Nat) :
    (define ⟨top, n⟩ ++ test count ⟨check, n + 1⟩ ⟨done, n + 4⟩ ++ define ⟨check, n + 1⟩
      ++ test target ⟨step, n + 2⟩ ⟨rest, n + 3⟩ ++ define ⟨step, n + 2⟩ ++ dec target ++ dec count
      ++ jump ⟨top, n⟩ ++ define ⟨rest, n + 3⟩ ++ dec count ++ jump ⟨top, n⟩
      ++ define ⟨done, n + 4⟩).Sealed n (n + 5) := by
  refine ⟨by omega, ?_, by simp, ?_, by simp, by simp⟩
  · exact (((((((((((wellFormed_define _).append (wellFormed_test _ _ _)).append
      (wellFormed_define _)).append (wellFormed_test _ _ _)).append (wellFormed_define _)).append
      (wellFormed_dec _)).append (wellFormed_dec _)).append (wellFormed_jump _)).append
      (wellFormed_define _)).append (wellFormed_dec _)).append (wellFormed_jump _)).append
      (wellFormed_define _)
  · intro k
    simp
    omega

/-- A register is taken from another one, down to zero, and is empty then. -/
private theorem computes_deduct {count : Register} (hs : s.pool.Packed used)
    (hcount : count.Within used) (htarget : target.Within used) (hne : target ≠ count)
    (top check step rest done : Label.Kind) :
    Computes used (fun r => r = count ∨ r = target)
      (fun file => some ((file.put target (file.val target - file.val count)).put count 0))
      s { s with nextLabel := s.nextLabel + 5 }
      (define ⟨top, s.nextLabel⟩ ++ test count ⟨check, s.nextLabel + 1⟩ ⟨done, s.nextLabel + 4⟩
        ++ define ⟨check, s.nextLabel + 1⟩
        ++ test target ⟨step, s.nextLabel + 2⟩ ⟨rest, s.nextLabel + 3⟩
        ++ define ⟨step, s.nextLabel + 2⟩ ++ dec target ++ dec count ++ jump ⟨top, s.nextLabel⟩
        ++ define ⟨rest, s.nextLabel + 3⟩ ++ dec count ++ jump ⟨top, s.nextLabel⟩
        ++ define ⟨done, s.nextLabel + 4⟩) where
  packed := hs
  grows := .refl _
  code := sealed_deduct count target top check step rest done s.nextLabel
  registers := by simp
  emitted := rfl
  performs := by
    intro p address a file hplaced hsize _
    have hused : used ≤ file.size := Nat.le_trans hs.used_le hsize
    exact runs_deduct hplaced (hcount.has hused) (htarget.has hused) hne

/-- A copy of the count to take away is made in a scratch register, which the loop empties. -/
private theorem deduct_effect {count : Register} (hsource : file.Has source)
    (htarget : file.Has target) (hcount : file.Has count) (hne : target ≠ count)
    (hb : file.Bounded) (hempty : file.val count = 0) :
    (file.add? count (file.val source)).bind
        (fun file => some ((file.put target (file.val target - file.val count)).put count 0)) =
      some (file.put target (file.val target - file.val source)) := by
  rw [File.add?, hempty, Nat.zero_add, File.assign?_of_lt (hb source hsource), Option.bind_some,
    File.val_put_self hcount, File.val_put_of_ne hcount htarget hne,
    File.put_comm hcount htarget hne.symm, File.put_put,
    File.put_eq_self (File.has_put.mpr hcount)]
  rw [File.val_put_of_ne htarget hcount hne.symm, hempty]

/-- Deducting a register takes its count from another one, down to zero, by way of a copy. -/
theorem yields_deduct {supported : Prop} (hs : s.pool.Packed used) (hsource : source.Within used)
    (htarget : target.Within used) :
    Yields (Refuses supported) (deduct target source) s fun f s' =>
      Computes used (fun r => r = target ∨ r = source)
        (fun file => some (file.put target (file.val target - file.val source))) s s' f := by
  unfold deduct
  refine .bind (yields_scratch hs) ?_
  rintro _ _ ⟨pool₁, rfl, rfl, hs₁, htaken⟩
  have hsource₁ := hsource.mono (Nat.le_succ used)
  have htarget₁ := htarget.mono (Nat.le_succ used)
  have hcount : (Register.mk (used + 1)).Within (used + 1) := .next used
  refine .bind (yields_copy hs₁ hsource₁ hcount hsource.ne_next) ?_
  intro load s₂ hload
  refine yields_fresh_bind ?_
  refine yields_fresh_bind ?_
  refine yields_fresh_bind ?_
  refine yields_fresh_bind ?_
  refine yields_fresh_bind ?_
  refine .bind (yields_release hload.packed ?_) ?_
  · rw [hload.grows.named, htaken.named]
    exact hs.named_le
  rintro _ _ ⟨pool₃, rfl, hpacked, hreleased⟩
  refine .pure ?_
  have hloop := computes_deduct hload.packed hcount htarget₁ htarget.ne_next .transferLoop
    .subtractStep .transferStep .subtractDrain .transferDone
  have hboth := hload.append hloop (keeps_add? hcount _)
  -- the loop is emitted piece by piece, so its code is not grouped apart from the copy
  simp only [← append_assoc] at hboth
  refine hboth.release htaken hpacked hreleased ?_ fun file hsize hclean => ?_
  · tauto
  · exact deduct_effect (hsource₁.has hsize) (htarget₁.has hsize) (hcount.has hsize)
      htarget.ne_next hclean.bounded (hclean.empty _ (Nat.lt_succ_self used))

/-! ### Numbers -/

theorem sealed_addUnits (r : Register) (n first : Nat) : (addUnits r n).Sealed first first := by
  refine sealed_of_straight rfl rfl (fun i hi => ?_) first
  rw [List.eq_of_mem_replicate hi]
  exact ⟨rfl, by simp⟩

theorem registers_addUnits {n : Nat} {t : Register} (ht : t ∈ (addUnits r n).registers) :
    t = r := by
  obtain ⟨i, hi, hregister⟩ := List.mem_filterMap.mp ht
  rw [List.eq_of_mem_replicate hi] at hregister
  exact (Option.some.inj hregister).symm

/-- Adding units to a register. -/
theorem computes_addUnits (hs : s.pool.Packed used) (hr : r.Within used) (n : Nat) :
    Computes used (· = r) (fun file => file.add? r n) s s (addUnits r n) where
  packed := hs
  grows := .refl _
  code := sealed_addUnits r n s.nextLabel
  registers _ ht := .inl (registers_addUnits ht)
  emitted := rfl
  performs := by
    intro p address a file hplaced hsize hclean
    have hsize' : (addUnits r n).size = n := List.length_replicate
    rw [hsize']
    exact runs_addUnits hplaced (hr.has (Nat.le_trans hs.used_le hsize)) hclean.bounded

/-- Guarded decrements take two labels each. -/
theorem sealed_guardedDecrements (r : Register) (first n : Nat) :
    (guardedDecrements r first n).Sealed first (first + 2 * n) := by
  induction n with
  | zero => exact sealed_empty first
  | succ n ih =>
    rw [guardedDecrements_succ]
    have hlast : (test r ⟨.subtractStep, first + 2 * n⟩ ⟨.subtractSkip, first + 2 * n + 1⟩
        ++ define ⟨.subtractStep, first + 2 * n⟩ ++ dec r
        ++ define ⟨.subtractSkip, first + 2 * n + 1⟩).Sealed (first + 2 * n)
        (first + 2 * (n + 1)) := by
      refine ⟨by omega, ?_, by simp, ?_, by simp, by simp⟩
      · exact (((wellFormed_test _ _ _).append (wellFormed_define _)).append
          (wellFormed_dec _)).append (wellFormed_define _)
      · intro k
        simp
        omega
    exact ih.append hlast

theorem registers_guardedDecrements {first n : Nat} {t : Register}
    (ht : t ∈ (guardedDecrements r first n).registers) : t = r := by
  induction n with
  | zero => exact absurd ht List.not_mem_nil
  | succ n ih =>
    rw [guardedDecrements_succ, registers_append, List.mem_append] at ht
    rcases ht with ht | ht
    · exact ih ht
    · simpa using ht

/-- Taking units from a register, down to zero. -/
theorem yields_takeUnits (hs : s.pool.Packed used) (hr : r.Within used) (n : Nat) :
    Yields fails (takeUnits r n) s fun f s' =>
      Computes used (· = r) (fun file => some (file.put r (file.val r - n))) s s' f := by
  unfold takeUnits
  refine .bind (yields_reserveLabels _) ?_
  rintro _ _ ⟨rfl, rfl⟩
  refine .pure ⟨⟨hs, .refl _, sealed_guardedDecrements r s.nextLabel n, ?_⟩, rfl, ?_⟩
  · exact fun t ht => .inl (registers_guardedDecrements ht)
  · intro p address a file hplaced hsize _
    rw [size_guardedDecrements]
    exact runs_guardedDecrements hplaced (hr.has (Nat.le_trans hs.used_le hsize))

end Abacus.Emit
