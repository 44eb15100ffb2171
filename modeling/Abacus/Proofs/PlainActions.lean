import Abacus.Emit.Assign

/-!
# Actions on registers and labels

Counts are moved between registers by actions that hand out and take back scratch registers and hand
out labels. These are the plain actions: they look up no variables and count no code. What holds of
each single one of those steps, and of an action after another if it holds of the two, holds of
every plain action, by induction on how it is put together (`Emit.Plain`).
-/

namespace Abacus.Emit

open Machine Code
open Source (BinOp)

/-- Actions that are put together from handing out and taking back registers and handing out labels.
They may refuse to use a register for two things at once. -/
inductive Plain : {α : Type} → EmitM α → Prop
  | pure {α : Type} (a : α) : Plain (Pure.pure a)
  | conflict {α : Type} (r : Register) {c : Conflict} (h : ∀ name, c ≠ .lateVariable name) :
    Plain (MonadExcept.throw (.conflict r c) : EmitM α)
  | scratch : Plain scratch
  | release (r : Register) : Plain (release r)
  | reserveLabels (count : Nat) : Plain (reserveLabels count)
  | bind {α β : Type} {act : EmitM α} {next : α → EmitM β} (h : Plain act)
    (h' : ∀ a, Plain (next a)) : Plain (act >>= next)

/-- A check for a conflict of registers is plain, unless it is about a variable that was declared
late. -/
theorem Plain.guard {α γ : Type} {p : Prop} [Decidable p] {r : Register} {c : Conflict}
    (hc : ∀ name, c ≠ .lateVariable name) {skipped : γ → EmitM α} {act : EmitM α}
    (h : Plain act) :
    Plain (if p then MonadExcept.throw (.conflict r c) >>= skipped else act) := by
  split
  · exact .conflict r hc
  · exact h

/-! ### Moving counts -/

/-- Handing out a label is plain. -/
theorem plain_fresh (kind : Label.Kind) : Plain (fresh kind) :=
  (Plain.reserveLabels 1).bind fun _ => .pure _

/-- Emptying a register is plain. -/
theorem plain_clear (r : Register) : Plain (clear r) :=
  (plain_fresh _).bind fun _ => (plain_fresh _).bind fun _ => (plain_fresh _).bind fun _ => .pure _

/-- Draining a register is plain. -/
private theorem plain_drain (source : Register) (targets : List Register) :
    Plain (drain source targets) :=
  (plain_fresh _).bind fun _ => (plain_fresh _).bind fun _ => (plain_fresh _).bind fun _ => .pure _

/-- Moving a register is plain. -/
private theorem plain_move (source target : Register) : Plain (move source target) :=
  .guard (by simp) (plain_drain _ _)

/-- Copying a register is plain: the backup is handed out and given back. -/
theorem plain_copy (source target : Register) : Plain (copy source target) := by
  refine .guard (by simp) (Plain.scratch.bind fun backup => ?_)
  refine (plain_drain _ _).bind fun _ => (plain_drain _ _).bind fun _ => ?_
  exact (Plain.release backup).bind fun _ => .pure _

/-- Deducting a register is plain: it works on a copy. -/
private theorem plain_deduct (target source : Register) : Plain (deduct target source) := by
  refine Plain.scratch.bind fun count => (plain_copy _ _).bind fun _ => ?_
  refine (plain_fresh _).bind fun _ => (plain_fresh _).bind fun _ => ?_
  refine (plain_fresh _).bind fun _ => (plain_fresh _).bind fun _ => ?_
  exact (plain_fresh _).bind fun _ => (Plain.release count).bind fun _ => .pure _

/-! ### Assigning -/

private theorem plain_increase (r : Register) (value : Value) : Plain (increase r value) := by
  cases value with
  | reg source => exact plain_copy source r
  | lit n => exact .pure _

private theorem plain_decrease (r : Register) (value : Value) : Plain (decrease r value) := by
  cases value with
  | reg source => exact plain_deduct r source
  | lit n => exact (Plain.reserveLabels _).bind fun _ => .pure _

private theorem plain_apply (op : BinOp) (r : Register) (value : Value) :
    Plain (apply op r value) := by
  cases op with
  | add => exact plain_increase r value
  | sub => exact plain_decrease r value

theorem plain_store (r : Register) (value : Value) : Plain (store r value) := by
  unfold store
  split
  · exact .pure _
  · exact (plain_clear r).bind fun _ => (plain_increase r value).bind fun _ => .pure _

private theorem plain_build (r : Register) (op : BinOp) (lhs rhs : Value) :
    Plain (build r op lhs rhs) :=
  (plain_clear r).bind fun _ => (plain_increase r lhs).bind fun _ =>
    (plain_apply op r rhs).bind fun _ => .pure _

private theorem plain_buildAside (r : Register) (op : BinOp) (lhs rhs : Value) :
    Plain (buildAside r op lhs rhs) := by
  refine Plain.scratch.bind fun result => (plain_increase _ _).bind fun _ => ?_
  refine (plain_apply _ _ _).bind fun _ => (plain_clear r).bind fun _ => ?_
  exact (plain_move _ _).bind fun _ => (Plain.release result).bind fun _ => .pure _

/-- Two literals are computed with beforehand, which takes room. Otherwise a register is given a sum
or a difference by a plain action. -/
theorem storeBinary_cases (r : Register) (op : BinOp) (lhs rhs : Value) :
    (∃ n, ∀ ctx line, storeBinary ctx r op lhs rhs line =
        (do ctx.ensureRoom n line; store r (.lit n))) ∨
      ∃ act, Plain act ∧ ∀ ctx line, storeBinary ctx r op lhs rhs line = act := by
  have hsum : Plain (if lhs = .reg r ∧ rhs ≠ .reg r then increase r rhs
      else if lhs ≠ .reg r ∧ rhs = .reg r then increase r lhs
      else if lhs = .reg r then buildAside r .add lhs rhs
      else build r .add lhs rhs) := by
    split
    · exact plain_increase ..
    · split
      · exact plain_increase ..
      · split
        · exact plain_buildAside ..
        · exact plain_build ..
  have hdifference : Plain (if lhs = .reg r then decrease r rhs
      else if rhs = .reg r then buildAside r .sub lhs rhs
      else build r .sub lhs rhs) := by
    split
    · exact plain_decrease ..
    · split
      · exact plain_buildAside ..
      · exact plain_build ..
  cases op with
  | add =>
    cases lhs with
    | reg a => exact .inr ⟨_, hsum, fun _ _ => rfl⟩
    | lit a =>
      cases rhs with
      | reg b => exact .inr ⟨_, hsum, fun _ _ => rfl⟩
      | lit b => exact .inl ⟨a + b, fun _ _ => rfl⟩
  | sub =>
    cases lhs with
    | reg a => exact .inr ⟨_, hdifference, fun _ _ => rfl⟩
    | lit a =>
      cases rhs with
      | reg b => exact .inr ⟨_, hdifference, fun _ _ => rfl⟩
      | lit b => exact .inl ⟨a - b, fun _ _ => rfl⟩

end Abacus.Emit
