import Abacus.Proofs.Numbering
import Abacus.Proofs.Reaching
import Abacus.Proofs.Resolution

/-!
# Moving code

`Program.runTo` is a run to an address with all that can be seen of it: the configurations that it
passes, and how it ends. A program that halts at the address is run to it by the interpreter
(`Program.runOn_eq_execution`).

A fragment that keeps to itself does the same wherever it is linked. Its labels move with its
instructions, so its steps in one place are its steps in another with all addresses shifted
(`Fragment.SelfContained.lockstep`). Its jumps stay within it, so this goes on until control is just
after it (`Program.Lockstep.runTo_shift`). Hence a fragment between others does what it does as a
program of its own (`relocates_of_link`).
-/

namespace Abacus

namespace Machine

/-! ### Runs to an address -/

/-- How a run to an address has ended. -/
inductive Stage where
  /-- It has come to the address. -/
  | arrived (registers : File)
  /-- It has used up its steps on the way. -/
  | cut
  /-- It has halted on the way. -/
  | halted (registers : File)
  /-- It has failed on the way. -/
  | fault (fault : Fault)
  deriving DecidableEq, Repr

/-- A run to an address: the configurations after each of its steps, and its end. -/
structure Journey where
  passed : List Config
  stage : Stage
  deriving DecidableEq, Repr

/-- The end of a run with all addresses larger by a number. -/
def Stage.shift (d : Nat) : Stage → Stage
  | .arrived file => .arrived file
  | .cut => .cut
  | .halted file => .halted file
  | .fault f => .fault (f.mapAddress (· + d))

namespace Journey

/-- The run with a step before it. -/
def after (c : Config) (j : Journey) : Journey := { j with passed := c :: j.passed }

/-- The run with all addresses larger by a number. -/
def shift (d : Nat) (j : Journey) : Journey := ⟨j.passed.map (Config.shift d), j.stage.shift d⟩

/-- What the interpreter answers if the program halts at the address. The halt is a step too. -/
def execution (limit : Nat) (j : Journey) : Except Fault Execution :=
  match j.stage with
  | .arrived file =>
    if j.passed.length < limit then .ok ⟨file, j.passed.length + 1⟩
    else .error (.stepLimitExceeded limit)
  | .cut => .error (.stepLimitExceeded limit)
  | .halted file => .ok ⟨file, j.passed.length + 1⟩
  | .fault f => .error f

end Journey

/-- Run until control first comes to an address, for at most `left` steps. -/
def Program.runTo (p : Program) (stop : Nat) : (left : Nat) → Config → Journey
  | 0, c => ⟨[], if c.address = stop then .arrived c.registers else .cut⟩
  | left + 1, c =>
    if c.address = stop then ⟨[], .arrived c.registers⟩
    else
      match p.step c with
      | .next c' => (p.runTo stop left c').after c'
      | .halted file => ⟨[], .halted file⟩
      | .fault f => ⟨[], .fault f⟩

/-- What the end of a run says about the steps of the program. -/
def Stage.Tells (p : Program) (stop left n : Nat) (c : Config) : Stage → Prop
  | .arrived file => n ≤ left ∧ p.Steps n c ⟨stop, file⟩
  | .cut => n = left ∧ ∃ c', p.Steps n c c'
  | .halted file => n < left ∧ p.Ends n c (.halted file)
  | .fault f => n < left ∧ p.Ends n c (.fault f)

theorem Stage.Tells.after {p : Program} {stop left n : Nat} {c c' : Config} {stage : Stage}
    (hstep : p.step c = .next c') (h : stage.Tells p stop left n c') :
    stage.Tells p stop (left + 1) (n + 1) c := by
  cases stage with
  | arrived file => exact ⟨Nat.succ_le_succ h.1, .head hstep h.2⟩
  | cut =>
    obtain ⟨rfl, c'', hsteps⟩ := h
    exact ⟨rfl, c'', .head hstep hsteps⟩
  | halted file =>
    obtain ⟨hlt, c'', hsteps, hlast⟩ := h
    exact ⟨Nat.succ_lt_succ hlt, c'', .head hstep hsteps, hlast⟩
  | fault f =>
    obtain ⟨hlt, c'', hsteps, hlast⟩ := h
    exact ⟨Nat.succ_lt_succ hlt, c'', .head hstep hsteps, hlast⟩

namespace Program

variable {p q : Program} {stop d : Nat}

private theorem runTo_of_address_eq {c : Config} (h : c.address = stop) (left : Nat) :
    p.runTo stop left c = ⟨[], .arrived c.registers⟩ := by
  cases left <;> simp [runTo, h]

/-- A run to an address is a run of the program. -/
private theorem runTo_tells (p : Program) (stop left : Nat) (c : Config) :
    (p.runTo stop left c).stage.Tells p stop left (p.runTo stop left c).passed.length c := by
  induction left generalizing c with
  | zero =>
    by_cases hc : c.address = stop
    · rw [runTo_of_address_eq hc]
      exact ⟨Nat.le_refl 0, hc ▸ .refl c⟩
    · rw [runTo, if_neg hc]
      exact ⟨rfl, c, .refl c⟩
  | succ left ih =>
    by_cases hc : c.address = stop
    · rw [runTo_of_address_eq hc]
      exact ⟨Nat.zero_le _, hc ▸ .refl c⟩
    · rw [runTo, if_neg hc]
      cases hstep : p.step c with
      | next c' => exact (ih c').after hstep
      | halted file => exact ⟨Nat.succ_pos left, c, .refl c, hstep, trivial⟩
      | fault f => exact ⟨Nat.succ_pos left, c, .refl c, hstep, trivial⟩

/-- A program with a halt at an address is run to it and halts there, unless it ends before. -/
theorem runOn_eq_execution (hhalt : p.fetch? stop = some .hlt) (limit : Nat) (file : File) :
    p.runOn limit file = (p.runTo stop limit (p.start file)).execution limit := by
  have htells := p.runTo_tells stop limit (p.start file)
  generalize p.runTo stop limit (p.start file) = j at htells ⊢
  obtain ⟨passed, stage⟩ := j
  cases stage with
  | arrived file' =>
    obtain ⟨hle, hsteps⟩ := htells
    have hends : p.Ends passed.length (p.start file) (.halted file') :=
      ⟨_, hsteps, step_of_fetch? hhalt file', trivial⟩
    simp only [Journey.execution]
    split
    next hlt => exact runOn_of_halts hends hlt
    next hlt => exact hends.runOn_of_le (Nat.le_of_not_lt hlt)
  | cut =>
    obtain ⟨hlength, c', hsteps⟩ := htells
    exact runOn_of_steps hsteps (Nat.le_of_eq hlength.symm)
  | halted file' => exact runOn_of_halts htells.2 htells.1
  | fault f => exact runOn_of_faults htells.2 htells.1

/-! ### Runs side by side -/

/-- From one address up to another, a program does what a second one does a number of addresses
later, and does not leave there. -/
structure Lockstep (q p : Program) (first stop d : Nat) : Prop where
  step_shift : ∀ c : Config, first ≤ c.address → c.address < stop →
    p.step (c.shift d) = (q.step c).shift d
  inside : ∀ c c' : Config, first ≤ c.address → c.address < stop → q.step c = .next c' →
    first ≤ c'.address ∧ c'.address ≤ stop

/-- Programs in lockstep come to the end of their common code alike. -/
theorem Lockstep.runTo_shift {first : Nat} (h : q.Lockstep p first stop d) (left : Nat) {c : Config}
    (hfirst : first ≤ c.address) (hstop : c.address ≤ stop) :
    p.runTo (stop + d) left (c.shift d) = (q.runTo stop left c).shift d := by
  have hat : ∀ c : Config, (c.shift d).address = stop + d ↔ c.address = stop :=
    fun _ => Nat.add_right_cancel_iff
  induction left generalizing c with
  | zero =>
    simp only [runTo, hat]
    split <;> rfl
  | succ left ih =>
    simp only [runTo, hat]
    split
    next => rfl
    next hc =>
      have hlt : c.address < stop := Nat.lt_of_le_of_ne hstop hc
      rw [h.step_shift c hfirst hlt]
      cases hstep : q.step c with
      | next c' =>
        obtain ⟨hfirst', hstop'⟩ := h.inside c c' hfirst hlt hstep
        exact congrArg (Journey.after (c'.shift d)) (ih hfirst' hstop')
      | halted file => rfl
      | fault f => rfl

end Program

end Machine

namespace Code

open Machine

namespace Fragment

variable {p q : Program} {address address' : Label → Nat} {a d : Nat} {f : Fragment}

/-- Code that keeps to itself: each of its jumps and tests has one hole, and there are no other
holes; the labels that they name are its own, within the code or at its end; and nothing halts. -/
structure SelfContained (f : Fragment) : Prop extends f.Holed where
  wanted_inside : ∀ l ∈ f.wanted, ∃ o ≤ f.size, (l, o) ∈ f.labels
  hlt_notMem : Instr.hlt ∉ f.code

namespace SelfContained

theorem address_eq (hf : f.SelfContained) (hq : f.Placed q address a)
    (hp : f.Placed p address' (a + d)) {l : Label} (hl : l ∈ f.wanted) :
    address' l = address l + d := by
  obtain ⟨o, -, hmem⟩ := hf.wanted_inside l hl
  rw [hq.label l o hmem, hp.label l o hmem, Nat.add_right_comm]

/-- Code that keeps to itself does the same elsewhere as in a program of its own. -/
theorem lockstep (hf : f.SelfContained) (hq : Linked q f)
    (hp : f.Placed p address (q.base.first + d)) :
    q.Lockstep p q.base.first (q.base.first + f.size) d where
  step_shift c hfirst hstop := by
    obtain ⟨x, file⟩ := c
    obtain ⟨k, rfl⟩ := Nat.exists_eq_add_of_le hfirst
    have hk : k < f.size := Nat.lt_of_add_lt_add_left hstop
    have hfetch := hq.placed.fetch?_shift hp hf.toHoled
      (fun l hl => hf.address_eq hq.placed hp hl) hk
    rw [Nat.add_right_comm] at hfetch
    simp only [Program.step, Config.shift, hfetch]
    cases q.fetch? (q.base.first + k) with
    | none => rfl
    | some i => exact i.perform_mapTargets d (q.base.first + k) file
  inside c c' hfirst hstop hstep := by
    obtain ⟨x, file⟩ := c
    obtain ⟨k, rfl⟩ := Nat.exists_eq_add_of_le hfirst
    have hk : k < f.size := Nat.lt_of_add_lt_add_left hstop
    obtain ⟨i, hi⟩ : ∃ i, q.code[k]? = some i :=
      ⟨_, Array.getElem?_eq_getElem (hq.size ▸ Nat.lt_succ_of_lt hk)⟩
    rw [Program.step_of_fetch? ((fetch?_first_add q k).trans hi)] at hstep
    rcases Instr.address_of_perform hstep with ⟨hnext, -⟩ | htarget
    · rw [hnext]
      exact ⟨Nat.le_succ_of_le hfirst, hstop⟩
    · -- a target is the address of a label of the code
      obtain ⟨j, -, hlinks⟩ := hq.exists_links hf.toHoled hi hk
      obtain ⟨l, hl, hc'⟩ := hlinks.targets _ htarget
      obtain ⟨o, ho, hmem⟩ := hf.wanted_inside l hl
      rw [hc', hq.placed.label l o hmem]
      exact ⟨Nat.le_add_right _ o, Nat.add_le_add_left ho _⟩

/-- Linked by itself, the code halts just after its end and nowhere else. -/
private theorem fetch?_eq_hlt_iff (hf : f.SelfContained) (hq : Linked q f) {x : Nat} :
    q.fetch? x = some .hlt ↔ x = q.base.first + f.size := by
  constructor
  · intro hx
    have hfirst : q.base.first ≤ x := by
      by_contra hlt
      rw [Program.fetch?, if_neg hlt] at hx
      cases hx
    obtain ⟨k, rfl⟩ := Nat.exists_eq_add_of_le hfirst
    rw [fetch?_first_add] at hx
    rcases hq.links_or_halt hf.toHoled hx with ⟨j, hj, hlinks⟩ | ⟨hlast, -⟩
    · exact absurd (hlinks.hlt_iff.mp rfl ▸ hj) hf.hlt_notMem
    · rw [Nat.succ.inj (hlast.trans hq.size)]
  · rintro rfl
    exact hq.halt

/-- Code that keeps to itself is closed if the code around it defines nothing twice. -/
theorem closed {before after : Fragment} (hf : f.SelfContained)
    (hclosed : (before ++ f ++ after).Closed) : f.Closed where
  nodup := by
    have hnodup := hclosed.nodup
    rw [defined_append, defined_append] at hnodup
    exact hnodup.of_append_left.of_append_right
  wanted_defined l hl := by
    obtain ⟨o, -, hmem⟩ := hf.wanted_inside l hl
    exact List.mem_map.mpr ⟨(l, o), hmem, rfl⟩

end SelfContained

end Fragment

/-! ### Linking code between other code -/

variable {base : AddressBase} {registers : Array Nat} {symbols : List (String × Register)}
  {before f after : Fragment} {p : Program}

/-- **Fragments are relocatable.** Where code that keeps to itself is linked between other code, it
can be linked by itself, and then the only halt is the one just after it, so that a run of it is a
run to that address. From its first instruction until control is first just after it, the code does
the same in both programs, whatever is in the registers and however many steps it may take: the same
configurations are passed with addresses shifted, and it ends alike, with a fault at the shifted
address if there is one. -/
theorem relocates_of_link (hf : f.SelfContained)
    (hlink : link base registers symbols [before, f, after] = .ok p) :
    ∃ q, link base registers symbols [f] = .ok q ∧
      (∀ a, q.fetch? a = some .hlt ↔ a = base.first + f.size) ∧
      ∀ limit file,
        q.runOn limit file =
            (q.runTo (base.first + f.size) limit (q.start file)).execution limit ∧
          p.runTo (base.first + before.size + f.size) limit ⟨base.first + before.size, file⟩ =
            (q.runTo (base.first + f.size) limit (q.start file)).shift before.size := by
  have hjoin : Fragment.join [before, f, after] = before ++ f ++ after := by
    simp only [Fragment.join, List.foldr, Fragment.append_empty, Fragment.append_assoc]
  have halone : Fragment.join [f] = f := Fragment.append_empty f
  obtain ⟨hresolved, rfl, -⟩ := resolved_of_link hlink
  rw [hjoin] at hresolved
  have hclosed : f.Closed := hf.closed hresolved.closed
  obtain ⟨q, hq, hget, -, -, hbase⟩ := exists_link_eq (halone.symm ▸ hclosed)
    (halone.symm ▸ hf.hole_fits) p.base registers symbols
  rw [halone, ← hbase] at hget
  have hlinked : Linked q f := linked_of_getElem? hf.toHoled hclosed hget
  have hplaced := hresolved.placed_of_holed hf.toHoled
  refine ⟨q, hq, ?_⟩
  rw [← hbase] at hplaced ⊢
  refine ⟨fun a => hf.fetch?_eq_hlt_iff hlinked, fun limit file => ⟨?_, ?_⟩⟩
  · exact Program.runOn_eq_execution hlinked.halt limit file
  · have hshift := (hf.lockstep hlinked hplaced).runTo_shift limit (c := q.start file)
      (Nat.le_refl _) (Nat.le_add_right _ _)
    rwa [Nat.add_right_comm] at hshift

/-- A register is counted down. -/
def countdownLoop : Fragment :=
  .define ⟨.transferLoop, 0⟩ ++ .test ⟨1⟩ ⟨.transferStep, 1⟩ ⟨.transferDone, 2⟩ ++
    .define ⟨.transferStep, 1⟩ ++ .dec ⟨1⟩ ++ .jump ⟨.transferLoop, 0⟩ ++ .define ⟨.transferDone, 2⟩

/-- The loop between code that comes back to it without end. -/
def treadmill : List Fragment :=
  [.inc ⟨1⟩ ++ .define ⟨.loopHeader, 3⟩, countdownLoop, .inc ⟨2⟩ ++ .jump ⟨.loopHeader, 3⟩]

private theorem wellFormed_countdownLoop : countdownLoop.WellFormed :=
  (((((Fragment.wellFormed_define _).append (Fragment.wellFormed_test _ _ _)).append
    (Fragment.wellFormed_define _)).append (Fragment.wellFormed_dec _)).append
    (Fragment.wellFormed_jump _)).append (Fragment.wellFormed_define _)

theorem relocates_countdownLoop :
    countdownLoop.SelfContained ∧ ∃ p q, link .one #[2, 0] [] treadmill = .ok p ∧
      link .one #[2, 0] [] [countdownLoop] = .ok q ∧ (∀ a, q.fetch? a = some .hlt ↔ a = 4) ∧
      ∀ limit file, q.runOn limit file = (q.runTo 4 limit (q.start file)).execution limit ∧
        p.runTo 5 limit ⟨2, file⟩ = (q.runTo 4 limit (q.start file)).shift 1 := by
  have hf : countdownLoop.SelfContained := ⟨wellFormed_countdownLoop.toHoled, by decide, by decide⟩
  have hwell : (Fragment.join treadmill).WellFormed :=
    ((Fragment.wellFormed_inc _).append (Fragment.wellFormed_define _)).append
      (wellFormed_countdownLoop.append
        (((Fragment.wellFormed_inc _).append (Fragment.wellFormed_jump _)).append
          Fragment.wellFormed_empty))
  have hclosed : (Fragment.join treadmill).Closed := ⟨by decide, by decide⟩
  obtain ⟨p, hp, -⟩ := link_ok hwell hclosed .one #[2, 0] []
  obtain ⟨q, hq⟩ := relocates_of_link hf hp
  exact ⟨hf, p, q, hp, hq⟩

end Code

end Abacus
