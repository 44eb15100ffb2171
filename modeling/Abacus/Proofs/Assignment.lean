import Abacus.Emit.Assign
import Abacus.Source.Supported
import Abacus.Proofs.Copying

/-!
# Assignments set their target

Whichever way an assignment is emitted, its code sets the register of its target to the value that
the right side has before, and overflows when that is a sum too large for a register
(`Emit.yields_assign`). The ways differ in which operands may be the target itself; each is shown
to have the same effect under its own conditions.
-/

namespace Abacus

open Machine Code Source

/-- The exact result of an operation. -/
def Source.BinOp.result : BinOp → Nat → Nat → Nat
  | .add, a, b => a + b
  | .sub, a, b => a - b

namespace Emit

variable {used : Nat} {s : State} {r : Register} {file : File} {supported : Prop}

namespace Value

/-- The number that a value stands for in a register file. -/
def eval (file : File) : Value → Nat
  | .reg r => file.val r
  | .lit n => n

/-- A value's register, if it has one, is among the first `n`. -/
def Within (n : Nat) : Value → Prop
  | .reg r => r.Within n
  | .lit _ => True

/-- A literal is a count that a register can hold. -/
def Fits : Value → Prop
  | .reg _ => True
  | .lit n => n < wordBound

variable {value : Value}

/-- What is among the first registers is among more of them. -/
theorem Within.mono {n m : Nat} (h : value.Within n) (hle : n ≤ m) : value.Within m := by
  cases value with
  | reg r => exact Register.Within.mono h hle
  | lit n => trivial

/-- The next register is not that of a value in use. -/
theorem Within.ne_next {n : Nat} (h : value.Within n) : value ≠ .reg ⟨n + 1⟩ := by
  rintro rfl
  exact Register.Within.ne_next h rfl

/-- Setting a register does not change the values of others. -/
private theorem eval_put {n m : Nat} (hr : r.Within n) (hv : value.Within n) (hsize : n ≤ file.size)
    (hne : value ≠ .reg r) : value.eval (file.put r m) = value.eval file := by
  cases value with
  | reg t =>
    have hne' : t ≠ r := fun h => hne (congrArg Value.reg h)
    exact File.val_put_of_ne (hr.has hsize) (Register.Within.has hv hsize) hne' m
  | lit n => rfl

/-- Values are below the bound. -/
private theorem eval_lt {n : Nat} (hv : value.Within n) (hfits : value.Fits) (hsize : n ≤ file.size)
    (hb : file.Bounded) : value.eval file < wordBound := by
  cases value with
  | reg r => exact hb r (Register.Within.has hv hsize)
  | lit n => exact hfits

end Value

/-! ### Adding and taking away -/

/-- Adding a value to a register. -/
private theorem yields_increase {value : Value} (hs : s.pool.Packed used) (hr : r.Within used)
    (hv : value.Within used) (hne : value ≠ .reg r) :
    Yields (Refuses supported) (increase r value) s fun f s' =>
      Computes used (fun t => t = r ∨ value = .reg t) (fun file => file.add? r (value.eval file))
        s s' f := by
  cases value with
  | reg source =>
    refine .mono (yields_copy hs hv hr fun h => hne (congrArg Value.reg h)) (fun _ h => h) ?_
    exact fun f s' h => h.weaken fun t ht => ht.symm.imp_right fun h => congrArg Value.reg h.symm
  | lit n => exact .pure ((computes_addUnits hs hr n).weaken fun _ ht => .inl ht)

/-- Taking a value from a register, down to zero. -/
private theorem yields_decrease {value : Value} (hs : s.pool.Packed used) (hr : r.Within used)
    (hv : value.Within used) :
    Yields (Refuses supported) (decrease r value) s fun f s' =>
      Computes used (fun t => t = r ∨ value = .reg t)
        (fun file => file.assign? r (file.val r - value.eval file)) s s' f := by
  have hassign : ∀ file : File, used ≤ file.size → file.Clean used →
      some (file.put r (file.val r - value.eval file)) =
        file.assign? r (file.val r - value.eval file) := by
    intro file hsize hclean
    have hlt := hclean.bounded r (hr.has hsize)
    exact (File.assign?_of_lt (Nat.lt_of_le_of_lt (Nat.sub_le ..) hlt)).symm
  cases value with
  | reg source =>
    refine .mono (yields_deduct hs hv hr) (fun _ h => h) fun f s' h => ?_
    exact (h.weaken fun t ht => ht.imp_right fun h => congrArg Value.reg h.symm).congr hassign
  | lit n =>
    refine .mono (yields_takeUnits hs hr n) (fun _ h => h) fun f s' h => ?_
    exact (h.weaken fun _ ht => .inl ht).congr hassign

/-- Applying an operation to a register. -/
private theorem yields_apply {value : Value} (op : BinOp) (hs : s.pool.Packed used)
    (hr : r.Within used) (hv : value.Within used) (hne : value ≠ .reg r) :
    Yields (Refuses supported) (apply op r value) s fun f s' =>
      Computes used (fun t => t = r ∨ value = .reg t)
        (fun file => file.assign? r (op.result (file.val r) (value.eval file))) s s' f := by
  cases op with
  | add => exact yields_increase hs hr hv hne
  | sub => exact yields_decrease hs hr hv

/-! ### Setting a register -/

/-- Of two assignments to a register the second one stays. -/
private theorem assign?_bind {n : Nat} {next : File → Nat} (hn : n < wordBound) :
    (file.assign? r n).bind (fun file => file.assign? r (next file)) =
      file.assign? r (next (file.put r n)) := by
  rw [File.assign?_of_lt hn, Option.bind_some]
  unfold File.assign?
  rw [File.put_put]

/-- Empty a register, then give it a value that is not its own. -/
private theorem computes_clear_increase {value : Value} {s₁ s₂ : State} {f g : Fragment}
    (hr : r.Within used) (hv : value.Within used) (hne : value ≠ .reg r)
    (hf : Computes used (· = r) (fun file => file.assign? r 0) s s₁ f)
    (hg : Computes used (fun t => t = r ∨ value = .reg t)
      (fun file => file.add? r (value.eval file)) s₁ s₂ g) :
    Computes used (fun t => t = r ∨ value = .reg t)
      (fun file => file.assign? r (value.eval file)) s s₂ (f ++ g) := by
  refine ((hf.append hg (keeps_assign? hr _)).weaken ?_).congr fun file hsize _ => ?_
  · tauto
  · unfold File.add?
    rw [assign?_bind (by decide), File.val_put_self (hr.has hsize), Nat.zero_add,
      Value.eval_put hr hv hsize hne]

/-- Setting a register to a value. -/
private theorem yields_store {value : Value} (hs : s.pool.Packed used) (hr : r.Within used)
    (hv : value.Within used) :
    Yields (Refuses supported) (store r value) s fun f s' =>
      Computes used (fun t => t = r ∨ value = .reg t)
        (fun file => file.assign? r (value.eval file)) s s' f := by
  unfold store
  split
  next hself =>
    subst hself
    refine .pure ⟨⟨hs, .refl _, Fragment.sealed_empty _, by simp⟩, rfl, ?_⟩
    intro p address a file _ hsize hclean
    have hr' := hr.has (Nat.le_trans hs.used_le hsize)
    have hsame : file.assign? r (file.val r) = some file := by
      rw [File.assign?_of_lt (hclean.bounded r hr'), File.put_eq_self hr' rfl]
    change p.Runs _ _ (file.assign? r (file.val r))
    rw [hsame]
    exact Program.Reaches.refl _
  next hne =>
    refine .bind (yields_clear hs hr) fun f s₁ hf => ?_
    refine .bind (yields_increase hf.packed hr hv hne) fun g s₂ hg => ?_
    exact .pure (computes_clear_increase hr hv hne hf hg)

/-- Building a sum or difference in a register that neither operand is in. -/
private theorem yields_build {op : BinOp} {lhs rhs : Value} (hs : s.pool.Packed used)
    (hr : r.Within used)
    (hlhs : lhs.Within used) (hrhs : rhs.Within used) (hfits : lhs.Fits) (hne : lhs ≠ .reg r)
    (hne' : rhs ≠ .reg r) :
    Yields (Refuses supported) (build r op lhs rhs) s fun f s' =>
      Computes used (fun t => t = r ∨ lhs = .reg t ∨ rhs = .reg t)
        (fun file => file.assign? r (op.result (lhs.eval file) (rhs.eval file))) s s' f := by
  unfold build
  refine .bind (yields_clear hs hr) fun f s₁ hf => ?_
  refine .bind (yields_increase hf.packed hr hlhs hne) fun g s₂ hg => ?_
  have hleft := computes_clear_increase hr hlhs hne hf hg
  refine .bind (yields_apply op hleft.packed hr hrhs hne') fun h s₃ hh => ?_
  have hboth := hleft.append hh (keeps_assign? hr _)
  refine .pure ((hboth.weaken ?_).congr fun file hsize hclean => ?_)
  · tauto
  · rw [assign?_bind (Value.eval_lt hlhs hfits hsize hclean.bounded),
      File.val_put_self (hr.has hsize), Value.eval_put hr hrhs hsize hne']

/-- The result is computed in a scratch register, which is emptied into the target. -/
private theorem aside_effect (op : BinOp) {lhs rhs : Value} (hr : r.Within used)
    (hlhs : lhs.Within used) (hrhs : rhs.Within used) (hfits : lhs.Fits)
    (hsize : used + 1 ≤ file.size) (hclean : file.Clean used) :
    ((((file.add? ⟨used + 1⟩ (lhs.eval file)).bind fun file =>
        file.assign? ⟨used + 1⟩ (op.result (file.val ⟨used + 1⟩) (rhs.eval file))).bind fun file =>
        file.assign? r 0).bind fun file =>
        (file.put ⟨used + 1⟩ 0).add? r (file.val ⟨used + 1⟩)) =
      file.assign? r (op.result (lhs.eval file) (rhs.eval file)) := by
  have hused : used ≤ file.size := Nat.le_of_succ_le hsize
  have hr' : file.Has r := hr.has hused
  have hnext : file.Has ⟨used + 1⟩ := (Register.Within.next used).has hsize
  have hempty : file.val ⟨used + 1⟩ = 0 := hclean.empty _ (Nat.lt_succ_self used)
  rw [File.add?, hempty, Nat.zero_add,
    assign?_bind (Value.eval_lt hlhs hfits hused hclean.bounded), File.val_put_self hnext,
    Value.eval_put (.next used) (hrhs.mono (Nat.le_succ used)) hsize hrhs.ne_next]
  generalize op.result (lhs.eval file) (rhs.eval file) = n
  -- a result that is too large overflows in the scratch register, before the target is touched
  rcases Nat.lt_or_ge n wordBound with hlt | hge
  · rw [File.assign?_of_lt hlt, Option.bind_some, File.assign?_of_lt (by decide), Option.bind_some,
      File.val_put_of_ne (File.has_put.mpr hr') (File.has_put.mpr hnext) hr.ne_next.symm,
      File.val_put_self hnext, File.put_comm hnext hr' hr.ne_next.symm, File.put_put,
      File.put_eq_self (File.has_put.mpr hnext), File.add?, File.val_put_self hr', Nat.zero_add,
      File.assign?_of_lt hlt, File.assign?_of_lt hlt, File.put_put]
    rw [File.val_put_of_ne hr' hnext hr.ne_next.symm, hempty]
  · rw [File.assign?_of_le hge, File.assign?_of_le hge]
    rfl

/-- Building it in a scratch register, which neither operand is in, and moving it from there. -/
private theorem yields_buildAside {op : BinOp} {lhs rhs : Value} (hs : s.pool.Packed used)
    (hr : r.Within used) (hlhs : lhs.Within used) (hrhs : rhs.Within used) (hfits : lhs.Fits) :
    Yields (Refuses supported) (buildAside r op lhs rhs) s fun f s' =>
      Computes used (fun t => t = r ∨ lhs = .reg t ∨ rhs = .reg t)
        (fun file => file.assign? r (op.result (lhs.eval file) (rhs.eval file))) s s' f := by
  unfold buildAside
  refine .bind (yields_scratch hs) ?_
  rintro _ _ ⟨pool₁, rfl, rfl, hs₁, htaken⟩
  have hr₁ := hr.mono (Nat.le_succ used)
  have hnext : (Register.mk (used + 1)).Within (used + 1) := .next used
  refine .bind (yields_increase hs₁ hnext (hlhs.mono (Nat.le_succ used)) hlhs.ne_next)
    fun left s₂ hleft => ?_
  refine .bind (yields_apply op hleft.packed hnext (hrhs.mono (Nat.le_succ used)) hrhs.ne_next)
    fun right s₃ hright => ?_
  refine .bind (yields_clear hright.packed hr₁) fun empty s₄ hempty => ?_
  refine .bind (yields_move hempty.packed hnext hr₁ hr.ne_next.symm) fun commit s₅ hcommit => ?_
  refine .bind (yields_release hcommit.packed ?_) ?_
  · rw [hcommit.grows.named, hempty.grows.named, hright.grows.named, hleft.grows.named,
      htaken.named]
    exact hs.named_le
  rintro _ _ ⟨pool₆, rfl, hpacked, hreleased⟩
  have hkeeps := (keeps_add? hnext lhs.eval).bind (keeps_assign? hnext fun file =>
    op.result (file.val ⟨used + 1⟩) (rhs.eval file))
  have hall := ((hleft.append hright (keeps_add? hnext _)).append hempty hkeeps).append hcommit
    (hkeeps.bind (keeps_assign? hr₁ _))
  refine .pure (hall.release htaken hpacked hreleased ?_ fun file hsize hclean => ?_)
  · tauto
  · exact aside_effect op hr hlhs hrhs hfits hsize hclean

/-- Storing a sum or difference, whichever way its code is built. -/
private theorem yields_storeBinary (ctx : Context) {op : BinOp} {lhs rhs : Value} (line : UInt64)
    (hs : s.pool.Packed used) (hr : r.Within used) (hlhs : lhs.Within used)
    (hrhs : rhs.Within used) (hfits : lhs.Fits) :
    Yields (Refuses supported) (storeBinary ctx r op lhs rhs line) s fun f s' =>
      Computes used (fun t => t = r ∨ lhs = .reg t ∨ rhs = .reg t)
        (fun file => file.assign? r (op.result (lhs.eval file) (rhs.eval file))) s s' f := by
  unfold storeBinary
  split
  -- two numbers: the result is known, and only its room is checked
  next a b =>
    refine .bind (yields_ensureRoom ctx _ line) ?_
    rintro _ _ ⟨rfl, -⟩
    refine .mono (yields_store hs hr trivial) (fun _ h => h) fun f s' h => ?_
    exact h.weaken fun t ht => ht.imp_right (absurd · (by simp))
  next a b =>
    refine .bind (yields_ensureRoom ctx _ line) ?_
    rintro _ _ ⟨rfl, -⟩
    refine .mono (yields_store hs hr trivial) (fun _ h => h) fun f s' h => ?_
    exact h.weaken fun t ht => ht.imp_right (absurd · (by simp))
  -- a sum: the target may be one of its operands, and is then increased in place
  next =>
    split
    next hcase =>
      obtain ⟨rfl, hne⟩ := hcase
      refine .mono (yields_increase hs hr hrhs hne) (fun _ h => h) fun f s' h => ?_
      exact h.weaken fun t ht => ht.imp_right .inr
    next hnotLeft =>
      split
      next hcase =>
        obtain ⟨hne, rfl⟩ := hcase
        refine .mono (yields_increase hs hr hlhs hne) (fun _ h => h) fun f s' h => ?_
        refine (h.weaken fun t ht => ht.imp_right .inl).congr fun file _ _ => ?_
        exact congrArg (file.assign? r) (Nat.add_comm _ _)
      next hnotRight =>
        split
        next => exact yields_buildAside hs hr hlhs hrhs hfits
        next hne =>
          exact yields_build hs hr hlhs hrhs hfits hne fun heq => hnotRight ⟨hne, heq⟩
  -- a difference: only the left operand may be the target without a detour
  next =>
    split
    next hself =>
      subst hself
      refine .mono (yields_decrease hs hr hrhs) (fun _ h => h) fun f s' h => ?_
      exact h.weaken fun t ht => ht.imp_right .inr
    next hne =>
      split
      next => exact yields_buildAside hs hr hlhs hrhs hfits
      next hne' => exact yields_build hs hr hlhs hrhs hfits hne hne'

/-! ### Operands and assignments -/

/-- The value that stands for an operand. -/
def Denotes (table : SymbolTable) : Operand → Value → Prop
  | .var name, .reg r => ∃ x ∈ table.symbols, x.name = name ∧ r = x.register
  | .lit n, .lit m => m = n.toNat
  | _, _ => False

namespace Denotes

variable {table : SymbolTable} {operand : Operand} {value : Value}

/-- An operand has in the registers the value that it has in the environment. -/
theorem eval_eq (h : Denotes table operand value) {env : Env} (henv : table.Represents env file) :
    value.eval file = operand.eval env := by
  cases operand <;> cases value <;> try exact h.elim
  · obtain ⟨x, hx, rfl, rfl⟩ := h
    exact henv x hx
  · exact h

/-- The register of an operand is a variable's. -/
theorem within (h : Denotes table operand value) (ht : table.Orderly) :
    value.Within table.symbols.length := by
  cases operand <;> cases value <;> try exact h.elim
  · obtain ⟨x, hx, -, rfl⟩ := h
    exact ht.within hx
  · trivial

/-- Literals are words. -/
theorem fits (h : Denotes table operand value) : value.Fits := by
  cases operand <;> cases value <;> try exact h.elim
  · trivial
  · obtain rfl := h
    exact UInt64.toNat_lt_size _

/-- A variable that has a value is a declared one. -/
theorem declared (h : Denotes table operand value) {name : String} (hname : operand = .var name) :
    name ∈ table.names := by
  subst hname
  cases value with
  | reg r =>
    obtain ⟨x, hx, rfl, -⟩ := h
    exact List.mem_map.mpr ⟨x, hx, rfl⟩
  | lit n => exact h.elim

end Denotes

/-- The value of an operand, unless its variable is refused. -/
theorem yields_value (ctx : Context) (operand : Operand) (line : UInt64) :
    Yields (Refuses (∀ name, operand = .var name → name ∈ ctx.symbols.names))
      (ctx.value operand line) s fun value s' => s' = s ∧ Denotes ctx.symbols operand value := by
  cases operand with
  | var name =>
    refine .bind_of_imp (yields_resolve ctx name line) (fun hall => hall name rfl) ?_
    rintro r _ ⟨rfl, hr⟩
    exact .pure ⟨rfl, hr⟩
  | lit n =>
    refine .bind (yields_ensureRoom ctx _ line) ?_
    rintro _ _ ⟨rfl, -⟩
    exact .pure ⟨rfl, rfl⟩

/-- The value of an expression is the exact result of its operation, if a register can hold it. -/
private theorem eval_binary (op : BinOp) {lhs rhs : Operand} {env : Env}
    (hlhs : lhs.eval env < wordBound) :
    (Expr.binary op lhs rhs).eval env =
      if op.result (lhs.eval env) (rhs.eval env) < wordBound then
        some (op.result (lhs.eval env) (rhs.eval env)) else none := by
  cases op with
  | add => rfl
  | sub => exact (if_pos (Nat.lt_of_le_of_lt (Nat.sub_le ..) hlhs)).symm

/-- **Assignments.** The code of an assignment sets the target's register to the value that the
right side has before, under any alias of target and operands. -/
theorem yields_assign (ctx : Context) (ht : ctx.symbols.Orderly) (hs : s.pool.Packed used)
    (hnamed : ctx.symbols.symbols.length ≤ used) (target : String) (value : Expr) (line : UInt64) :
    Yields (Refuses ((Stmt.assign target value line).Supported ctx.symbols.names ctx.loops))
      (assign ctx target value line) s fun f s' =>
      (Stmt.assign target value line).Supported ctx.symbols.names ctx.loops ∧
      ∃ x ∈ ctx.symbols.symbols, x.name = target ∧ ∃ effect,
        Computes used (·.Within ctx.symbols.symbols.length) effect s s' f ∧
        ∀ env file, used ≤ file.size → file.Clean used → ctx.symbols.Represents env file →
          effect file = (value.eval env).map (file.put x.register) := by
  unfold assign
  rw [Stmt.Supported]
  refine .guard (fun h hsupported => hsupported.2.1 h) fun hloops => ?_
  refine .bind_of_imp (yields_resolve ctx target line) (fun hsupported => hsupported.1) ?_
  rintro _ _ ⟨rfl, x, hx, rfl, rfl⟩
  have hmem : x.name ∈ ctx.symbols.names := List.mem_map.mpr ⟨x, hx, rfl⟩
  have hx' : x.register.Within ctx.symbols.symbols.length := ht.within hx
  cases value with
  | operand o =>
    refine .bind_of_imp (yields_value ctx o line) (fun hsupported name hname =>
      hsupported.2.2 name (by simp [Expr.operands, hname])) ?_
    rintro v _ ⟨rfl, hv⟩
    have hwithin := hv.within ht
    refine .mono (yields_store hs (hx'.mono hnamed) (hwithin.mono hnamed)) (fun _ h => h)
      fun f s' h => ?_
    refine ⟨⟨hmem, hloops, ?_⟩, x, hx, rfl, _, h.weaken ?_, ?_⟩
    · intro name hname
      exact hv.declared (List.mem_singleton.mp hname).symm
    · rintro t (rfl | rfl)
      · exact hx'
      · exact hwithin
    · intro env file hsize hclean henv
      have hlt := Value.eval_lt (hwithin.mono hnamed) hv.fits hsize hclean.bounded
      rw [File.assign?_of_lt hlt, hv.eval_eq henv]
      rfl
  | binary op lhs rhs =>
    refine .bind_of_imp (yields_value ctx lhs line) (fun hsupported name hname =>
      hsupported.2.2 name (by simp [Expr.operands, hname])) ?_
    rintro v _ ⟨rfl, hv⟩
    refine .bind_of_imp (yields_value ctx rhs line) (fun hsupported name hname =>
      hsupported.2.2 name (by simp [Expr.operands, hname])) ?_
    rintro w _ ⟨rfl, hw⟩
    have hwithin := hv.within ht
    have hwithin' := hw.within ht
    refine .mono (yields_storeBinary ctx line hs (hx'.mono hnamed) (hwithin.mono hnamed)
      (hwithin'.mono hnamed) hv.fits) (fun _ h => h) fun f s' h => ?_
    refine ⟨⟨hmem, hloops, ?_⟩, x, hx, rfl, _, h.weaken ?_, ?_⟩
    · intro name hname
      simp only [Expr.operands, List.mem_cons, List.not_mem_nil, or_false] at hname
      rcases hname with hname | hname
      · exact hv.declared hname.symm
      · exact hw.declared hname.symm
    · rintro t (rfl | rfl | rfl)
      · exact hx'
      · exact hwithin
      · exact hwithin'
    · intro env file hsize hclean henv
      have hlt := Value.eval_lt (hwithin.mono hnamed) hv.fits hsize hclean.bounded
      rw [hv.eval_eq henv] at hlt
      rw [eval_binary op hlt, hv.eval_eq henv, hw.eval_eq henv]
      unfold File.assign?
      split <;> rfl

end Emit

end Abacus
