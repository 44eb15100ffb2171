import Abacus.Proofs.Capacity
import Abacus.Proofs.Correctness

/-!
# The limit on the size of a program

The code of a program is refused under a limit exactly if it has, with the final halt, more
instructions than that, and then on a line of the first statement that does not fit any more
(`compile_limit_exact`). Emission keeps count of the instructions: statements within a statement
count themselves, and the statement that they are in then starts over with its whole code. So a
statement may already be refused when a part of it does not fit. Literals are refused before their
code is emitted, which is no larger than the code itself, except for a difference of two literals.

The proof compares two emissions of the same code, one under some limit that lets it pass and one
under the limit in question.
-/

namespace Abacus

open Machine Code
open Source hiding Program

/-! ### Parts of statements -/

mutual

/-- A statement and all statements within it. -/
def Source.Stmt.parts : Stmt → List Stmt
  | .assign target value line => [.assign target value line]
  | .branch condition yes no line =>
    .branch condition yes no line :: (blockParts yes ++ blockParts no)
  | .loop counter bound body line => .loop counter bound body line :: blockParts body

/-- All statements of a block and within it. -/
def Source.blockParts : List Stmt → List Stmt
  | [] => []
  | st :: rest => st.parts ++ blockParts rest

end

/-- No statement assigns the difference of two literals. -/
def Source.NoLiteralDifference (parts : List Stmt) : Prop :=
  ∀ target a b line, Stmt.assign target (.binary .sub (.lit a) (.lit b)) line ∉ parts

/-- A part of a program without differences of literals is without them. -/
theorem Source.NoLiteralDifference.mono {parts parts' : List Stmt} (h : NoLiteralDifference parts)
    (hsub : ∀ st ∈ parts', st ∈ parts) : NoLiteralDifference parts' :=
  fun target a b line hmem => h target a b line (hsub _ hmem)

namespace Emit

/-- The same context under another limit. -/
def Context.withLimit (ctx : Context) (limit : Nat) : Context := { ctx with limit := some limit }

variable {ctx : Context} {limit : Nat} {s s' s₁ s₂ : State} {f g : Fragment}

/-! ### Counting -/

/-- A statement that was emitted is counted with its whole code. -/
private theorem emitted_of_statement {line : UInt64} {act : EmitM Fragment}
    (h : ctx.statement line act s = .ok f s') : s'.emitted = s.emitted + f.size := by
  obtain ⟨s₁, -, rfl⟩ := exists_of_statement h
  rfl

/-- A statement that succeeds is counted. -/
private theorem emitted_of_stmt {st : Stmt} (h : stmt ctx st s = .ok f s') :
    s'.emitted = s.emitted + f.size := by
  cases st <;> rw [stmt] at h <;> exact emitted_of_statement h

/-- An empty block has no code. -/
private theorem block_nil (ctx : Context) (s : State) : block ctx [] s = .ok ∅ s := by
  rw [block]
  rfl

/-- The code of a block is that of its first statement and then that of the others. -/
private theorem block_cons_of_ok {st : Stmt} {rest : List Stmt} (hst : stmt ctx st s = .ok f s₁)
    (hrest : block ctx rest s₁ = .ok g s₂) : block ctx (st :: rest) s = .ok (f ++ g) s₂ := by
  rw [block, run_bind_of_ok hst, run_bind_of_ok hrest]
  rfl

/-- A block that succeeds does so statement by statement. -/
private theorem exists_of_block_cons {st : Stmt} {rest : List Stmt}
    (h : block ctx (st :: rest) s = .ok f s₂) :
    ∃ first s₁ others, stmt ctx st s = .ok first s₁ ∧ block ctx rest s₁ = .ok others s₂ ∧
      f = first ++ others := by
  rw [block] at h
  obtain ⟨first, s₁, hfirst, h⟩ := exists_of_run_bind h
  obtain ⟨others, s₂, hothers, h⟩ := exists_of_run_bind h
  cases h
  exact ⟨first, s₁, others, hfirst, hothers, rfl⟩

/-- A block that succeeds is counted, statement by statement. -/
private theorem emitted_of_block {b : List Stmt} (h : block ctx b s = .ok f s') :
    s'.emitted = s.emitted + f.size := by
  induction b generalizing s f with
  | nil =>
    rw [block_nil] at h
    cases h
    rfl
  | cons st rest ih =>
    obtain ⟨first, s₁, others, hfirst, hothers, rfl⟩ := exists_of_block_cons h
    rw [ih hothers, emitted_of_stmt hfirst, Fragment.size_append, Nat.add_assoc]

/-! ### The same code under two limits -/

/-- Where the first action succeeds, the second one does so with the same result if the code fits
into what the limit leaves, and otherwise is refused for one of some statements. -/
def Limited (limit : Nat) (parts : List Stmt) (act act' : EmitM Fragment) : Prop :=
  ∀ ⦃s f s'⦄, act s = .ok f s' →
    if f.size ≤ limit - 1 - s.emitted then act' s = .ok f s'
    else ∃ part ∈ parts, ∃ t, act' s = .error (.tooLarge limit part.line) t

/-- Where the first action succeeds, the second one does so with the same result, unless the code
does not fit. This is the contract of code that is not counted yet. -/
def NearlyLimited (limit : Nat) (parts : List Stmt) (act act' : EmitM Fragment) : Prop :=
  ∀ ⦃s f s'⦄, act s = .ok f s' → act' s = .ok f s' ∨
    limit - 1 - s.emitted < f.size ∧
      ∃ part ∈ parts, ∃ t, act' s = .error (.tooLarge limit part.line) t

namespace NearlyLimited

variable {α : Type} {parts parts' : List Stmt} {act act' : EmitM Fragment}

/-- An action compares with itself. -/
theorem refl (act : EmitM Fragment) : NearlyLimited limit parts act act := fun _ _ _ h => .inl h

/-- More parts may be blamed. -/
theorem mono (h : NearlyLimited limit parts act act') (hsub : ∀ st ∈ parts, st ∈ parts') :
    NearlyLimited limit parts' act act' := by
  intro s f s' hact
  refine (h hact).imp_right fun ⟨hlt, part, hpart, hrefused⟩ => ?_
  exact ⟨hlt, part, hsub part hpart, hrefused⟩

/-- An action before that is the same for both and counts nothing. -/
theorem bind {pre : EmitM α} {next next' : α → EmitM Fragment}
    (hpre : ∀ s, Ensures pre s fun _ s' => s'.emitted = s.emitted)
    (h : ∀ a, NearlyLimited limit parts (next a) (next' a)) :
    NearlyLimited limit parts (pre >>= next) (pre >>= next') := by
  intro s f s' hrun
  obtain ⟨a, s₁, hact, hnext⟩ := exists_of_run_bind hrun
  rw [run_bind_of_ok hact, ← (hpre s).of_ok hact]
  exact h a hnext

/-- An action after that is the same for both and leaves no code out. -/
private theorem andThen {next : Fragment → EmitM Fragment} (h : NearlyLimited limit parts act act')
    (hnext : ∀ f s, Ensures (next f) s fun g _ => f.size ≤ g.size) :
    NearlyLimited limit parts (act >>= next) (act' >>= next) := by
  intro s g s' hrun
  obtain ⟨f, s₁, hact, hrun⟩ := exists_of_run_bind hrun
  have hsize : f.size ≤ g.size := (hnext f s₁).of_ok hrun
  rcases h hact with hsame | ⟨hlt, part, hpart, t, hrefused⟩
  · exact .inl ((run_bind_of_ok hsame).trans hrun)
  · exact .inr ⟨Nat.lt_of_lt_of_le hlt hsize, part, hpart, t, run_bind_of_error hrefused⟩

/-- A check that does not look at the limit comes out the same. -/
theorem guard {γ : Type} {c : Prop} [Decidable c] {d : Diagnostic}
    {skipped skipped' : γ → EmitM Fragment} (h : NearlyLimited limit parts act act') :
    NearlyLimited limit parts (if c then MonadExcept.throw d >>= skipped else act)
      (if c then MonadExcept.throw d >>= skipped' else act') := by
  split
  · exact fun _ _ _ h => nomatch h
  · exact h

/-- Looking something up before, which is the same for both. -/
theorem consult {pre : EmitM α} {next next' : α → EmitM Fragment} {post : α → Prop}
    (hpre : ∀ s, Ensures pre s fun a s' => s' = s ∧ post a)
    (h : ∀ a, post a → NearlyLimited limit parts (next a) (next' a)) :
    NearlyLimited limit parts (pre >>= next) (pre >>= next') := by
  intro s f s' hrun
  obtain ⟨a, s₁, hact, hnext⟩ := exists_of_run_bind hrun
  obtain ⟨rfl, hpost⟩ := (hpre s).of_ok hact
  rw [run_bind_of_ok hact]
  exact h a hpost hnext

/-- Room for code that comes later is checked first. -/
theorem ensureRoom (part : Stmt) (hpart : part ∈ parts) {count : Nat}
    (hcount : ∀ s, Ensures act s fun f _ => count ≤ f.size)
    (h : NearlyLimited limit parts act act') :
    NearlyLimited limit parts (ctx.ensureRoom count part.line >>= fun _ => act)
      ((ctx.withLimit limit).ensureRoom count part.line >>= fun _ => act') := by
  intro s f s' hrun
  obtain ⟨_, s₁, hroom, hact⟩ := exists_of_run_bind hrun
  obtain rfl := (eq_of_ensureRoom hroom).1
  have hroom' := ensureRoom_apply (ctx.withLimit limit) count part.line s₁
  by_cases hlt : limit - 1 - s₁.emitted < count
  · refine .inr ⟨Nat.lt_of_lt_of_le hlt ((hcount s₁).of_ok hact), part, hpart, s₁, ?_⟩
    exact run_bind_of_error (hroom'.trans (if_pos hlt))
  · rw [run_bind_of_ok (hroom'.trans (if_neg hlt))]
    exact h hact

/-- Counting makes the comparison exact. -/
theorem statement (part : Stmt) (hpart : part ∈ parts) (h : NearlyLimited limit parts act act') :
    Limited limit parts (ctx.statement part.line act)
      ((ctx.withLimit limit).statement part.line act') := by
  intro s f s' hrun
  obtain ⟨s₁, hact, rfl⟩ := exists_of_statement hrun
  have hcount' := count_apply (ctx.withLimit limit) part.line s.emitted f s₁
  rw [statement_apply]
  rcases h hact with hsame | ⟨hlt, part', hpart', t, hrefused⟩
  · rw [run_bind_of_ok (run_adaptExcept_of_ok hsame)]
    by_cases hfits : f.size ≤ limit - 1 - s.emitted
    · rw [if_pos hfits]
      exact hcount'.trans (if_neg (Nat.not_lt.mpr hfits))
    · rw [if_neg hfits]
      exact ⟨part, hpart, _, hcount'.trans (if_pos (Nat.not_le.mp hfits))⟩
  · rw [if_neg (Nat.not_le.mpr hlt)]
    exact ⟨part', hpart', t, run_bind_of_error (run_adaptExcept_of_error hrefused)⟩

end NearlyLimited

/-! ### Assignments -/

/-- How many instructions a value takes at least. -/
def Value.units : Value → Nat
  | .reg _ => 0
  | .lit n => n

/-- An addition takes at least one instruction for each unit. -/
private theorem ensures_increase (r : Register) (value : Value) (s : State) :
    Ensures (increase r value) s fun f _ => value.units ≤ f.size := by
  cases value with
  | reg source => exact .intro fun _ _ _ => Nat.zero_le _
  | lit n => exact .pure (by simp [Value.units, addUnits, Fragment.size])

/-- A subtraction takes at least one instruction for each unit. -/
private theorem ensures_decrease (r : Register) (value : Value) (s : State) :
    Ensures (decrease r value) s fun f _ => value.units ≤ f.size := by
  cases value with
  | reg source => exact .intro fun _ _ _ => Nat.zero_le _
  | lit n =>
    refine .bind (yields_reserveLabels (2 * n)) fun first _ _ => .pure ?_
    rw [size_guardedDecrements, Value.units]
    omega

/-- Either operation takes at least one instruction for each unit. -/
private theorem ensures_apply (op : BinOp) (r : Register) (value : Value) (s : State) :
    Ensures (apply op r value) s fun f _ => value.units ≤ f.size := by
  cases op with
  | add => exact ensures_increase r value s
  | sub => exact ensures_decrease r value s

/-- Setting a register takes at least one instruction for each unit. -/
private theorem ensures_store (r : Register) (value : Value) (s : State) :
    Ensures (store r value) s fun f _ => value.units ≤ f.size := by
  unfold store
  split
  next hself =>
    subst hself
    exact .pure (Nat.zero_le _)
  next =>
    refine Ensures.trivial.bind fun empty s _ => (ensures_increase r value s).bind ?_
    intro f s hf
    refine .pure ?_
    rw [Fragment.size_append]
    omega

/-- A sum or difference takes at least one instruction for each unit of both operands. -/
private theorem ensures_build (r : Register) (op : BinOp) (lhs rhs : Value) (s : State) :
    Ensures (build r op lhs rhs) s fun f _ => lhs.units + rhs.units ≤ f.size := by
  refine Ensures.trivial.bind fun empty s _ => ?_
  refine (ensures_increase r lhs s).bind fun left s hleft => ?_
  refine (ensures_apply op r rhs s).bind fun right s hright => .pure ?_
  rw [Fragment.size_append, Fragment.size_append]
  omega

/-- So it does if it is built in a scratch register. -/
private theorem ensures_buildAside (r : Register) (op : BinOp) (lhs rhs : Value) (s : State) :
    Ensures (buildAside r op lhs rhs) s fun f _ => lhs.units + rhs.units ≤ f.size := by
  refine Ensures.trivial.bind fun result s _ => ?_
  refine (ensures_increase result lhs s).bind fun left s hleft => ?_
  refine (ensures_apply op result rhs s).bind fun right s hright => ?_
  refine Ensures.trivial.bind fun empty s _ => Ensures.trivial.bind fun commit s _ => ?_
  refine Ensures.trivial.bind fun _ s _ => .pure ?_
  rw [Fragment.size_append, Fragment.size_append, Fragment.size_append]
  omega

/-- The code of a sum or difference has an instruction for each unit of its literals, unless it is a
difference of literals. -/
private theorem ensures_storeBinary (ctx : Context) (r : Register) {op : BinOp} {lhs rhs : Value}
    (hplain : ∀ a b, op = .sub → lhs = .lit a → rhs ≠ .lit b) (line : UInt64) (s : State) :
    Ensures (storeBinary ctx r op lhs rhs line) s fun f _ => lhs.units + rhs.units ≤ f.size := by
  unfold storeBinary
  split
  next a b => exact Ensures.trivial.bind fun _ s _ => ensures_store r (.lit (a + b)) s
  next a b => exact absurd rfl (hplain a b rfl rfl)
  next =>
    split
    next hself =>
      rw [hself.1, Value.units, Nat.zero_add]
      exact ensures_increase r rhs s
    next =>
      split
      next hself =>
        rw [hself.2]
        exact ensures_increase r lhs s
      next =>
        split
        · exact ensures_buildAside r .add lhs rhs s
        · exact ensures_build r .add lhs rhs s
  next =>
    split
    next hself =>
      rw [hself, Value.units, Nat.zero_add]
      exact ensures_decrease r rhs s
    next =>
      split
      · exact ensures_buildAside r .sub lhs rhs s
      · exact ensures_build r .sub lhs rhs s

section Assign

variable {parts : List Stmt} {part : Stmt}

/-- The code of a sum or difference is the same under the limit if it fits, unless both operands are
literals of a difference. -/
private theorem nearlyLimited_storeBinary (hpart : part ∈ parts) (r : Register) {op : BinOp}
    {lhs rhs : Value} (hplain : ∀ a b, op = .sub → lhs = .lit a → rhs ≠ .lit b) :
    NearlyLimited limit parts (storeBinary ctx r op lhs rhs part.line)
      (storeBinary (ctx.withLimit limit) r op lhs rhs part.line) := by
  cases lhs with
  | reg a => cases op <;> exact .refl _
  | lit a =>
    cases rhs with
    | reg b => cases op <;> exact .refl _
    | lit b =>
      cases op with
      | add => exact .ensureRoom part hpart (ensures_store r (.lit (a + b))) (.refl _)
      | sub => exact absurd rfl (hplain a b rfl rfl)

/-- An operand is looked up or checked before code that uses it. -/
private theorem nearlyLimited_value (hpart : part ∈ parts) {operand : Operand}
    {next next' : Value → EmitM Fragment}
    (hsize : ∀ value, Denotes ctx.symbols operand value →
      ∀ s, Ensures (next value) s fun f _ => value.units ≤ f.size)
    (h : ∀ value, Denotes ctx.symbols operand value →
      NearlyLimited limit parts (next value) (next' value)) :
    NearlyLimited limit parts (ctx.value operand part.line >>= next)
      ((ctx.withLimit limit).value operand part.line >>= next') := by
  cases operand with
  | var name => exact .consult (fun s => (yields_value ctx (.var name) part.line).ensures) h
  | lit n =>
    have hvalue : ∀ ctx : Context, ∀ next : Value → EmitM Fragment,
        ctx.value (.lit n) part.line >>= next =
          ctx.ensureRoom n.toNat part.line >>= fun _ => next (.lit n.toNat) := by
      intro ctx next
      rw [Context.value, bind_assoc]
      simp only [pure_bind]
    rw [hvalue, hvalue]
    exact .ensureRoom part hpart (hsize (.lit n.toNat) rfl) (h (.lit n.toNat) rfl)

/-- The code of an assignment is the same under the limit if it fits. -/
private theorem nearlyLimited_assign (part : Stmt) (target : String) {value : Expr}
    (hpart : part ∈ parts) (hplain : ∀ a b, value ≠ .binary .sub (.lit a) (.lit b)) :
    NearlyLimited limit parts (assign ctx target value part.line)
      (assign (ctx.withLimit limit) target value part.line) := by
  refine .guard (.consult (fun s => (yields_resolve ctx target part.line).ensures) fun r _ => ?_)
  cases value with
  | operand operand =>
    exact nearlyLimited_value hpart (fun value _ s => ensures_store r value s) fun _ _ => .refl _
  | binary op lhs rhs =>
    have hplain' : ∀ x y, Denotes ctx.symbols lhs x → Denotes ctx.symbols rhs y →
        ∀ a b, op = .sub → x = .lit a → y ≠ .lit b := by
      rintro _ _ hx hy a b rfl rfl rfl
      cases lhs <;> try exact hx.elim
      cases rhs <;> try exact hy.elim
      exact hplain _ _ rfl
    refine nearlyLimited_value hpart (fun x hx s => ?_) fun x hx => ?_
    · refine (yields_value ctx rhs part.line).ensures.bind fun y s ⟨_, hy⟩ => ?_
      refine (ensures_storeBinary ctx r (hplain' x y hx hy) part.line s).mono (fun _ h => h) ?_
      exact fun f _ hf => Nat.le_of_add_right_le hf
    · refine nearlyLimited_value hpart (fun y hy s => ?_) fun y hy => ?_
      · refine (ensures_storeBinary ctx r (hplain' x y hx hy) part.line s).mono (fun _ h => h) ?_
        exact fun f _ hf => Nat.le_trans (Nat.le_add_left _ _) hf
      · exact nearlyLimited_storeBinary hpart r (hplain' x y hx hy)

end Assign

/-! ### Conditionals and loops -/

/-- What is done to the pool is not counted. -/
private theorem ensures_onPool {α : Type} (act : EStateM Diagnostic RegisterPool α) (s : State) :
    Ensures (onPool act) s fun _ s' => s'.emitted = s.emitted := by
  refine .intro fun a s' h => ?_
  obtain ⟨pool, -, rfl⟩ := exists_of_onPool h
  rfl

/-- Plain actions count no code. -/
theorem Plain.ensures {α : Type} {act : EmitM α} (h : Plain act) (s : State) :
    Ensures act s fun _ s' => s'.emitted = s.emitted := by
  induction h generalizing s with
  | pure a => exact .pure rfl
  | conflict r hc => trivial
  | scratch => exact ensures_onPool _ s
  | release r => exact ensures_onPool _ s
  | reserveLabels count => rfl
  | bind _ _ ih ih' =>
    exact (ih s).bind fun a s₁ h₁ => (ih' a s₁).mono (fun _ h => h) fun _ _ h₂ => h₂.trans h₁

/-- Looking a variable up is not counted. -/
private theorem ensures_resolve (ctx : Context) (name : String) (line : UInt64) (s : State) :
    Ensures (ctx.resolve name line) s fun _ s' => s'.emitted = s.emitted := by
  refine (yields_resolve ctx name line).ensures.mono (fun _ h => h) ?_
  rintro _ _ ⟨rfl, -⟩
  rfl

/-- What is the same under the limit is nearly the same. -/
private theorem NearlyLimited.of_limited {parts : List Stmt} {act act' : EmitM Fragment}
    (h : Limited limit parts act act') : NearlyLimited limit parts act act' := by
  intro s f s' hact
  have hact := h hact
  split at hact
  next => exact .inl hact
  next hover => exact .inr ⟨Nat.not_le.mp hover, hact⟩

/-- Two pieces of code, of which the first one is counted before the second one is emitted. -/
private theorem run_pair {parts parts' : List Stmt} {act act' next next' : EmitM Fragment}
    (h : Limited limit parts act act') (h' : Limited limit parts' next next')
    (hact : act s = .ok f s₁) (hcount : s₁.emitted = s.emitted + f.size)
    (hnext : next s₁ = .ok g s₂) (join : Fragment → Fragment → Fragment) :
    if f.size + g.size ≤ limit - 1 - s.emitted then
      (do return join (← act') (← next')) s = .ok (join f g) s₂
    else ∃ part ∈ parts ++ parts', ∃ t,
      (do return join (← act') (← next')) s = .error (.tooLarge limit part.line) t := by
  have hact := h hact
  have hnext := h' hnext
  by_cases hfits : f.size ≤ limit - 1 - s.emitted
  · rw [if_pos hfits] at hact
    rw [run_bind_of_ok hact]
    by_cases hfits' : g.size ≤ limit - 1 - s₁.emitted
    · rw [if_pos hfits'] at hnext
      rw [if_pos (by omega), run_bind_of_ok hnext]
      rfl
    · rw [if_neg hfits'] at hnext
      rw [if_neg (by omega)]
      obtain ⟨part, hpart, t, hrefused⟩ := hnext
      exact ⟨part, List.mem_append_right _ hpart, t, run_bind_of_error hrefused⟩
  · rw [if_neg hfits] at hact
    rw [if_neg (by omega)]
    obtain ⟨part, hpart, t, hrefused⟩ := hact
    exact ⟨part, List.mem_append_left _ hpart, t, run_bind_of_error hrefused⟩

/-- The code of a conditional is the same under the limit if it fits, where that of its blocks is.
-/
private theorem nearlyLimited_branch (c : Condition) {yes yes' no no' : EmitM Fragment}
    {parts parts' : List Stmt} (hyes : Limited limit parts yes yes')
    (hcount : ∀ ⦃s f s'⦄, yes s = .ok f s' → s'.emitted = s.emitted + f.size)
    (hno : Limited limit parts' no no') (line : UInt64) :
    NearlyLimited limit (parts ++ parts') (branch ctx c yes no line)
      (branch (ctx.withLimit limit) c yes' no' line) := by
  unfold branch
  cases ZeroTest.ofCondition c with
  | error construct => exact fun _ _ _ h => nomatch h
  | ok zeroTest =>
    refine .bind (fun _ => rfl) fun zeroTest => .bind (ensures_resolve ctx _ line) fun r => ?_
    refine .bind (fun _ => rfl) fun thenLabel => .bind (fun _ => rfl) fun elseLabel => ?_
    refine .bind (fun _ => rfl) fun endLabel => ?_
    intro s f s' hrun
    obtain ⟨y, s₁, hy, hrun⟩ := exists_of_run_bind hrun
    obtain ⟨n, s₂, hn, hrun⟩ := exists_of_run_bind hrun
    cases hrun
    have hpair := run_pair hyes hno hy (hcount hy) hn
    by_cases hfits : y.size + n.size ≤ limit - 1 - s.emitted
    · simp only [if_pos hfits] at hpair
      exact .inl (hpair _)
    · simp only [if_neg hfits] at hpair
      refine .inr ⟨?_, hpair _⟩
      simp only [Fragment.size_append]
      omega

/-- The rounds of a loop are the same under the limit if they fit, where the body is. -/
private theorem nearlyLimited_rounds (counter : Register) (v : Option Symbol)
    {body body' : EmitM Fragment}
    {parts : List Stmt} (hbody : NearlyLimited limit parts body body') :
    NearlyLimited limit parts (rounds counter (v.map (·.register)) body)
      (rounds counter (v.map (·.register)) body') := by
  rw [rounds_eq, rounds_eq]
  refine .bind (fun _ => rfl) fun entry => .bind (fun _ => rfl) fun header => ?_
  refine .bind (fun _ => rfl) fun step => .bind (fun _ => rfl) fun bodyLabel => ?_
  refine .bind (fun _ => rfl) fun exit => .bind (plain_restart v).ensures fun start => ?_
  refine hbody.andThen fun f s => .pure ?_
  simp only [Fragment.size_append]
  omega

/-- The code of a loop is the same under the limit if it fits, where that of its body is. -/
private theorem nearlyLimited_loop (name : String) (bound : Operand) {body body' : EmitM Fragment}
    {parts : List Stmt} (hbody : NearlyLimited limit parts body body') (line : UInt64) :
    NearlyLimited limit parts (loop ctx name bound body line)
      (loop (ctx.withLimit limit) name bound body' line) := by
  unfold loop
  cases bound with
  | lit n => exact fun _ _ _ h => nomatch h
  | var source =>
    refine .bind (ensures_resolve ctx source line) fun bound => .guard ?_
    refine .bind (ensures_onPool _) fun counter => .bind (plain_copy _ _).ensures fun load => ?_
    refine (nearlyLimited_rounds _ _ hbody).andThen fun rounds s => ?_
    refine (ensures_onPool _ s).bind fun _ s _ => .pure ?_
    rw [Fragment.size_append]
    omega

/-! ### Blocks -/

section Blocks

variable {st : Stmt} {rest b : List Stmt}

/-- The parts of a block are those of its statements. -/
private theorem mem_blockParts {part : Stmt} : part ∈ blockParts b ↔ ∃ st ∈ b, part ∈ st.parts := by
  induction b with
  | nil => simp [blockParts]
  | cons st rest ih => simp [blockParts, ih]

/-- Where a block has code, so has every part of it from its start, and no more of it. -/
private theorem exists_block_take (h : block ctx b s = .ok f s') (i : Nat) :
    ∃ g t, block ctx (b.take i) s = .ok g t ∧ g.size ≤ f.size := by
  induction b generalizing s f i with
  | nil =>
    rw [List.take_nil]
    exact ⟨f, s', h, Nat.le_refl _⟩
  | cons st rest ih =>
    obtain ⟨first, s₁, others, hfirst, hothers, rfl⟩ := exists_of_block_cons h
    cases i with
    | zero => exact ⟨∅, s, block_nil ctx s, Nat.zero_le _⟩
    | succ i =>
      obtain ⟨g, t, hg, hle⟩ := ih hothers i
      refine ⟨first ++ g, t, block_cons_of_ok hfirst hg, ?_⟩
      rw [Fragment.size_append, Fragment.size_append]
      omega

/-- The first statements of a block have no more code than all of them. -/
private theorem size_le_of_take {i j : Nat} (h : block ctx (b.take i) s = .ok f s₁)
    (h' : block ctx (b.take j) s = .ok g s₂) (hle : i ≤ j) : f.size ≤ g.size := by
  obtain ⟨x, t, hx, hsize⟩ := exists_block_take h' i
  rw [List.take_take, Nat.min_eq_left hle] at hx
  cases h.symm.trans hx
  exact hsize

/-- Under the limit, the code of a block is the same if it fits. Otherwise the block is refused for
a part of the first statement with which it does not fit any more. -/
def Stops (ctx : Context) (limit : Nat) (b : List Stmt) : Prop :=
  ∀ ⦃s f s'⦄, block ctx b s = .ok f s' →
    if f.size ≤ limit - 1 - s.emitted then block (ctx.withLimit limit) b s = .ok f s'
    else ∃ j st, b[j]? = some st ∧
      (∃ g t, block ctx (b.take j) s = .ok g t ∧ g.size ≤ limit - 1 - s.emitted) ∧
      (∃ g t, block ctx (b.take (j + 1)) s = .ok g t ∧ limit - 1 - s.emitted < g.size) ∧
      ∃ part ∈ st.parts, ∃ t,
        block (ctx.withLimit limit) b s = .error (.tooLarge limit part.line) t

/-- A block that stops at a statement is refused for a part of it. -/
private theorem Stops.limited (h : Stops ctx limit b) :
    Limited limit (blockParts b) (block ctx b) (block (ctx.withLimit limit) b) := by
  intro s f s' hblock
  have hblock := h hblock
  split at hblock
  next hfits => rwa [if_pos hfits]
  next hover =>
    rw [if_neg hover]
    obtain ⟨j, st, hj, -, -, part, hpart, hrefused⟩ := hblock
    exact ⟨part, mem_blockParts.mpr ⟨st, List.mem_of_getElem? hj, hpart⟩, hrefused⟩

/-- An empty block stops nowhere. -/
private theorem stops_nil : Stops ctx limit [] := by
  intro s f s' h
  rw [block_nil] at h
  cases h
  have hfits : (∅ : Fragment).size ≤ limit - 1 - s.emitted := Nat.zero_le _
  rw [if_pos hfits, block_nil]

/-- A block stops at its first statement or at a later one. -/
theorem Stops.cons (hst : Limited limit st.parts (stmt ctx st) (stmt (ctx.withLimit limit) st))
    (hrest : Stops ctx limit rest) : Stops ctx limit (st :: rest) := by
  intro s f s' h
  obtain ⟨first, s₁, others, hfirst, hothers, rfl⟩ := exists_of_block_cons h
  have hcount := emitted_of_stmt hfirst
  have hfirst' := hst hfirst
  have hothers' := hrest hothers
  rw [Fragment.size_append]
  by_cases hfits : first.size ≤ limit - 1 - s.emitted
  · rw [if_pos hfits] at hfirst'
    by_cases hfits' : others.size ≤ limit - 1 - s₁.emitted
    · rw [if_pos hfits'] at hothers'
      rw [if_pos (by omega)]
      exact block_cons_of_ok hfirst' hothers'
    · -- a later statement is the first one too many
      rw [if_neg hfits'] at hothers'
      rw [if_neg (by omega)]
      obtain ⟨j, st', hj, ⟨g, t, hg, hle⟩, ⟨g', t', hg', hlt⟩, part, hpart, t'', hrefused⟩ :=
        hothers'
      refine ⟨j + 1, st', hj, ⟨first ++ g, t, block_cons_of_ok hfirst hg, ?_⟩,
        ⟨first ++ g', t', block_cons_of_ok hfirst hg', ?_⟩, part, hpart, t'', ?_⟩
      · rw [Fragment.size_append]
        omega
      · rw [Fragment.size_append]
        omega
      · rw [block, run_bind_of_ok hfirst']
        exact run_bind_of_error hrefused
  · -- this statement is
    rw [if_neg hfits] at hfirst'
    rw [if_neg (by omega)]
    obtain ⟨part, hpart, t, hrefused⟩ := hfirst'
    refine ⟨0, st, rfl, ⟨∅, s, block_nil ctx s, Nat.zero_le _⟩,
      ⟨first ++ ∅, s₁, block_cons_of_ok hfirst (block_nil ctx s₁), ?_⟩, part, hpart, t, ?_⟩
    · rw [Fragment.append_empty]
      omega
    · rw [block]
      exact run_bind_of_error hrefused

end Blocks

mutual

/-- The code of a statement is the same under the limit if it fits. -/
private theorem limited_stmt (limit : Nat) :
    ∀ (ctx : Context) (st : Stmt), NoLiteralDifference st.parts →
    Limited limit st.parts (stmt ctx st) (stmt (ctx.withLimit limit) st)
  | ctx, .assign target value line, hplain => by
    rw [stmt, stmt]
    refine NearlyLimited.statement (.assign target value line) (by simp [Stmt.parts]) ?_
    refine nearlyLimited_assign (.assign target value line) target (by simp [Stmt.parts]) ?_
    rintro a b rfl
    exact hplain target a b line (by simp [Stmt.parts])
  | ctx, .branch condition yes no line, hplain => by
    rw [stmt, stmt]
    refine NearlyLimited.statement (.branch condition yes no line) (by simp [Stmt.parts]) ?_
    have hyes := stops_block limit ctx yes (hplain.mono (by simp +contextual [Stmt.parts]))
    have hno := stops_block limit ctx no (hplain.mono (by simp +contextual [Stmt.parts]))
    refine (nearlyLimited_branch condition hyes.limited (fun _ _ _ h => emitted_of_block h)
      hno.limited line).mono ?_
    simp +contextual [Stmt.parts]
  | ctx, .loop counter bound body line, hplain => by
    rw [stmt, stmt]
    refine NearlyLimited.statement (.loop counter bound body line) (by simp [Stmt.parts]) ?_
    have hbody := stops_block limit { ctx with loops := counter :: ctx.loops } body
      (hplain.mono (by simp +contextual [Stmt.parts]))
    refine (nearlyLimited_loop counter bound (.of_limited hbody.limited) line).mono ?_
    simp +contextual [Stmt.parts]

/-- A block under the limit stops at the first statement that is one too many. -/
private theorem stops_block (limit : Nat) : ∀ (ctx : Context) (b : List Stmt),
    NoLiteralDifference (blockParts b) → Stops ctx limit b
  | ctx, [], _ => stops_nil
  | ctx, st :: rest, hplain =>
    .cons (limited_stmt limit ctx st (hplain.mono (by simp +contextual [blockParts])))
      (stops_block limit ctx rest (hplain.mono (by simp +contextual [blockParts])))

end

end Emit

/-! ### The whole program -/

namespace Machine.Program

variable {q : Program} {limit limit' : Option Nat} {report report' : Report}

/-- What is reported of a program without defects does not depend on the limit. -/
private theorem report_eq_of_check (h : q.check limit false = .ok report)
    (h' : q.check limit' false = .ok report') : report' = report := by
  obtain ⟨rfl, hdefects⟩ := defects_of_check h
  obtain ⟨rfl, hdefects'⟩ := defects_of_check h'
  rw [inspect, inspect, hdefects, hdefects']

end Machine.Program

section Program

variable {o : Options} {p : Source.Program} {table : SymbolTable} {f : Fragment}
  {state : Emit.State}

/-- The second half of a compilation depends on the limit only in whether it succeeds. -/
private theorem finishProgram_eq_of_limit {limit : Option Nat} {c c' : Compilation}
    (h : finishProgram o table f state = .ok c)
    (h' : finishProgram { o with limit } table f state = .ok c') : c' = c := by
  obtain ⟨n, g, program, report, hfinish, hoptimized, hlink, hcheck, rfl⟩ :=
    exists_of_finishProgram h
  obtain ⟨n', g', program', report', hfinish', hoptimized', hlink', hcheck', rfl⟩ :=
    exists_of_finishProgram h'
  cases hfinish.symm.trans hfinish'
  cases hoptimized.symm.trans hoptimized'
  cases hlink.symm.trans hlink'
  rw [Program.report_eq_of_check hcheck hcheck']

/-- The first half of a compilation under another limit. -/
private theorem emitProgram_withLimit (h : emitProgram o p = .ok (table, f, state))
    (hplain : NoLiteralDifference (blockParts p.body)) {limit : Nat} (hlimit : 1 ≤ limit) :
    if f.size + 1 ≤ limit then
      emitProgram { o with limit := some limit } p = .ok (table, f, state)
    else ∃ j st, p.body[j]? = some st ∧
      (∀ i, ∃ g t, emitProgram o { p with body := p.body.take i } = .ok (table, g, t) ∧
        (g.size + 1 ≤ limit ↔ i ≤ j)) ∧
      ∃ part ∈ st.parts, emitProgram { o with limit := some limit } p =
        .error (.tooLarge limit part.line) := by
  obtain ⟨hvalid, pool, hdeclared, hblock⟩ := exists_of_emitProgram h
  have hvalid' : ({ o with limit := some limit } : Options).validate = .ok () := by
    obtain ⟨hpool, hlevel, -⟩ := Options.validate_eq_ok_iff.mp hvalid
    refine Options.validate_eq_ok_iff.mpr ⟨hpool, hlevel, fun hzero => ?_⟩
    cases hzero
    cases hlimit
  have hemit := emitProgram_of_declarations hvalid' hdeclared
  have hstops := Emit.stops_block limit _ p.body hplain hblock
  have hroom : limit - 1 - ({ pool } : Emit.State).emitted = limit - 1 := rfl
  rw [hroom] at hstops
  by_cases hfits : f.size + 1 ≤ limit
  · rw [if_pos (Nat.le_sub_of_add_le hfits)] at hstops
    rw [if_pos hfits, hemit]
    exact congrArg (Except.map (table, ·)) (outcome_of_ok hstops)
  · have hover : ¬f.size ≤ limit - 1 := by omega
    rw [if_neg hover] at hstops
    rw [if_neg hfits, hemit]
    obtain ⟨j, st, hj, ⟨g, t, hg, hle⟩, ⟨g', t', hg', hlt⟩, part, hpart, t'', hrefused⟩ := hstops
    refine ⟨j, st, hj, fun i => ?_, part, hpart, ?_⟩
    · obtain ⟨x, u, hx, -⟩ := Emit.exists_block_take hblock i
      refine ⟨x, u, ?_, ?_⟩
      · exact (emitProgram_of_declarations (p := { p with body := p.body.take i }) hvalid
          hdeclared).trans (congrArg (Except.map (table, ·)) (outcome_of_ok hx))
      · constructor
        · intro hle'
          by_contra hij
          have hsize := Emit.size_le_of_take hg' hx (Nat.not_le.mp hij)
          omega
        · intro hij
          have hsize := Emit.size_le_of_take hx hg hij
          omega
    · exact congrArg (Except.map (table, ·)) (outcome_of_error hrefused)

/-- **The limit on the size of a program is exact.** Emission counts every instruction of the code
that it emits. And a program that compiles at all, and in which no difference of two literals is
assigned, compiles under a limit if and only if its code and the final halt are within it, with the
same result. Otherwise it is refused for a part of the first of its statements with which the code,
and the final halt, exceeds the limit. -/
theorem compile_limit_exact :
    (∀ (ctx : Emit.Context) (b : List Stmt) (s s' : Emit.State) (f : Fragment),
      Emit.block ctx b s = .ok f s' → s'.emitted = s.emitted + f.size) ∧
    ∀ (o : Options) (p : Source.Program) (c : Compilation), compile o p = .ok c →
      NoLiteralDifference (blockParts p.body) → ∀ limit, 1 ≤ limit →
      (c.emitted + 1 ≤ limit → compile { o with limit := some limit } p = .ok c) ∧
      (limit < c.emitted + 1 → ∃ j st, p.body[j]? = some st ∧
        (∀ i, ∃ c', compile o { p with body := p.body.take i } = .ok c' ∧
          (c'.emitted + 1 ≤ limit ↔ i ≤ j)) ∧
        ∃ part ∈ st.parts,
          compile { o with limit := some limit } p = .error (.tooLarge limit part.line)) := by
  refine ⟨fun _ _ _ _ _ h => Emit.emitted_of_block h, ?_⟩
  intro o p c hcompile hplain limit hlimit
  obtain ⟨table, f, state, hemit, hemits, hfinish⟩ := exists_emitProgram_of_compile hcompile
  have hsize : c.emitted = f.size := emitted_of_compile hcompile hemit
  have hlimited := emitProgram_withLimit hemit hplain hlimit
  rw [hsize]
  refine ⟨fun hle => ?_, fun hlt => ?_⟩
  · rw [if_pos hle] at hlimited
    have hspec := emitProgram_spec { o with limit := some limit } p
    rw [hlimited] at hspec
    obtain ⟨c', -, hfinish', -⟩ := hspec.finishProgram_ok
    obtain rfl := finishProgram_eq_of_limit hfinish hfinish'
    rw [compile_eq, hlimited]
    exact hfinish'
  · rw [if_neg (Nat.not_le.mpr hlt)] at hlimited
    obtain ⟨j, st, hj, htake, part, hpart, herror⟩ := hlimited
    refine ⟨j, st, hj, fun i => ?_, part, hpart, by rw [compile_eq, herror]; rfl⟩
    obtain ⟨g, t, hemit', hiff⟩ := htake i
    obtain ⟨c', hcompile', hsize'⟩ := exists_compile_of_emitProgram hemit'
    exact ⟨c', hcompile', hsize' ▸ hiff⟩

theorem compile_limit_triangle :
    ∃ c, compile {} triangle = .ok c ∧ NoLiteralDifference (blockParts triangle.body) ∧
      c.emitted = 43 ∧ compile { limit := some 44 } triangle = .ok c ∧
      ∃ j st, triangle.body[j]? = some st ∧
        (∀ i, ∃ c', compile {} { triangle with body := triangle.body.take i } = .ok c' ∧
          (c'.emitted + 1 ≤ 40 ↔ i ≤ j)) ∧
        ∃ part ∈ st.parts,
          compile { limit := some 40 } triangle = .error (.tooLarge 40 part.line) := by
  obtain ⟨c, hcompile⟩ := exists_compile_triangle
  have hplain : NoLiteralDifference (blockParts triangle.body) := by
    simp [NoLiteralDifference, triangle, blockParts, Stmt.parts]
  have hemitted : c.emitted = 43 := by
    obtain ⟨table, f, state, hemit, -⟩ := exists_emitProgram_of_compile hcompile
    have hsize : (emitProgram {} triangle).toOption.map (·.2.1.size) = some 43 := by decide +kernel
    rw [hemit] at hsize
    exact (emitted_of_compile hcompile hemit).trans (Option.some.inj hsize)
  have hexact := compile_limit_exact.2 {} triangle c hcompile hplain
  exact ⟨c, hcompile, hplain, hemitted, (hexact 44 (by decide)).1 (by omega),
    (hexact 40 (by decide)).2 (by omega)⟩

end Program

end Abacus
