import Abacus.Proofs.Assignment
import Abacus.Proofs.Control

/-!
# The code of statements

Statements and blocks are translated into code that does what they mean (`Emit.translates_block`),
by induction over the syntax. Emission refuses what is not supported, and supported code only for
want of registers or instructions. It counts the instructions it emits and stays within the room
there is.
-/

namespace Abacus

open Machine Code Fragment
open Source hiding Program

/-! ### Variables of enclosing loops -/

section LoopVariables

variable {declared : String → Bool} {names : List String} {name : String}

/-- Rounds of a loop leave a variable alone if the body does and it is not the loop's own. -/
theorem Source.foldlM_rounds_eq {counter : String} {body : Env → Option Env} (hne : name ≠ counter)
    (hbody : ∀ env env', body env = some env' → env' name = env name) {rounds : List Nat}
    {env env' : Env}
    (h : rounds.foldlM (fun env round =>
      body (if declared counter then env.set counter round else env)) env = some env') :
    env' name = env name := by
  induction rounds generalizing env with
  | nil =>
    cases h
    rfl
  | cons round rounds ih =>
    rw [List.foldlM_cons] at h
    obtain ⟨env₁, hround, hrest⟩ := Option.bind_eq_some_iff.mp h
    rw [ih hrest, hbody _ _ hround]
    split
    · exact Env.set_of_ne env round hne
    · rfl

mutual

/-- A supported statement leaves the variables of the loops around it alone. -/
private theorem Source.Stmt.eval_loopVariable :
    ∀ (st : Stmt) {loops : List String} {env env' : Env},
    st.Supported names loops → name ∈ loops → st.eval declared env = some env' →
      env' name = env name
  | .assign target value line, loops, env, env', hst, hname, heval => by
    rw [Stmt.Supported] at hst
    rw [Stmt.eval] at heval
    obtain ⟨n, -, rfl⟩ := Option.map_eq_some_iff.mp heval
    refine Env.set_of_ne env n ?_
    rintro rfl
    exact hst.2.1 hname
  | .branch condition yes no line, loops, env, env', hst, hname, heval => by
    rw [Stmt.Supported] at hst
    rw [Stmt.eval] at heval
    split at heval
    · exact evalBlock_loopVariable yes hst.2.1 hname heval
    · exact evalBlock_loopVariable no hst.2.2 hname heval
  | .loop counter bound body line, loops, env, env', hst, hname, heval => by
    rw [Stmt.Supported] at hst
    rw [Stmt.eval] at heval
    refine foldlM_rounds_eq ?_ (fun env env' => ?_) heval
    · rintro rfl
      exact hst.2.1 hname
    · exact evalBlock_loopVariable body hst.2.2 (List.mem_cons_of_mem counter hname)

/-- A supported block leaves the variables of the loops around it alone. -/
theorem Source.evalBlock_loopVariable : ∀ (b : List Stmt) {loops : List String} {env env' : Env},
    BlockSupported names loops b → name ∈ loops → evalBlock declared b env = some env' →
      env' name = env name
  | [], loops, env, env', hb, hname, heval => by
    rw [evalBlock] at heval
    cases heval
    rfl
  | st :: rest, loops, env, env', hb, hname, heval => by
    rw [BlockSupported] at hb
    rw [evalBlock] at heval
    obtain ⟨env₁, hfirst, hrest⟩ := Option.bind_eq_some_iff.mp heval
    rw [evalBlock_loopVariable rest hb.2 hname hrest, st.eval_loopVariable hb.1 hname hfirst]

end

end LoopVariables

/-! ### Labels around sealed code -/

/-- Code put around sealed code, with labels of its own numbered just before. -/
theorem Code.Fragment.Sealed.surround {f g : Fragment} {first count last : Nat}
    (h : g.Sealed (first + count) last) (hf : f.WellFormed)
    (hdefined : (f.defined.map Label.id).Perm (List.range' first count ++ g.defined.map Label.id))
    (hwanted : ∀ l ∈ f.wanted, l ∈ f.defined) (hhlt : Instr.hlt ∉ f.code) :
    f.Sealed first last where
  le := Nat.le_trans (Nat.le_add_right first count) h.le
  wellFormed := hf
  nodup := by
    rw [hdefined.nodup_iff, List.nodup_append]
    refine ⟨List.nodup_range', h.nodup, ?_⟩
    -- the code's own labels are numbered before those of the code within
    rintro n hn _ hm rfl
    have hlt := (List.mem_range'_1.mp hn).2
    have hle := ((h.mem_iff n).mp hm).1
    omega
  mem_iff n := by
    rw [hdefined.mem_iff, List.mem_append, List.mem_range'_1, h.mem_iff]
    have hle := h.le
    omega
  wanted_defined := hwanted
  hlt_notMem := hhlt

namespace Emit

variable {ctx : Context} {used : Nat} {s s' s₁ s₂ : State} {f g : Fragment} {supported : Prop}
  {meaning : Env → Option Env}

/-! ### Statements -/

/-- The code of statements: its own registers are those of variables, and it does what `meaning`
says. -/
structure Lowers (ctx : Context) (used : Nat) (meaning : Env → Option Env) (s s' : State)
    (f : Fragment) : Prop
    extends Emitted used (·.Within ctx.symbols.symbols.length) s s' f where
  realizes : f.Realizes ctx.symbols used s'.pool.highWater meaning

/-- The instructions of the code are counted, and there is room for them. -/
structure Counted (ctx : Context) (s s' : State) (f : Fragment) : Prop where
  emitted : s'.emitted = s.emitted + f.size
  size_le : f.size ≤ ctx.room s.emitted

/-- An action that emits and counts the code of statements, wherever scratch registers start. -/
def Translates (ctx : Context) (supported : Prop) (meaning : Env → Option Env)
    (act : EmitM Fragment) : Prop :=
  ∀ ⦃used : Nat⦄ ⦃s : State⦄, s.pool.Packed used → ctx.symbols.symbols.length ≤ used →
    Yields (Refuses supported) act s fun f s' =>
      supported ∧ Lowers ctx used meaning s s' f ∧ Counted ctx s s' f

theorem Lowers.congr {meaning' : Env → Option Env} (h : Lowers ctx used meaning s s' f)
    (heq : ∀ env, meaning env = meaning' env) : Lowers ctx used meaning' s s' f :=
  funext heq ▸ h

/-- Code that stands one after the other. -/
theorem Lowers.append {meaning' : Env → Option Env} (h : Lowers ctx used meaning s s₁ f)
    (h' : Lowers ctx used meaning' s₁ s₂ g) (hnamed : ctx.symbols.symbols.length ≤ used) :
    Lowers ctx used (fun env => (meaning env).bind meaning') s s₂ (f ++ g) where
  toEmitted := (h.toEmitted.append h'.toEmitted).weaken fun _ hr => hr.elim id id
  realizes := by
    intro p address a file env hplaced hsize hclean henv
    obtain ⟨hf, hg⟩ := hplaced.append
    rw [size_append, ← Nat.add_assoc]
    refine (h.realizes.mono h'.grows.highWater hf hsize hclean henv).bind
      fun env' file' _ henv' hsame => ?_
    exact (h'.realizes hg (hsame.size_eq ▸ hsize) (hsame.clean hclean hnamed) henv').rebase hsame

private theorem Context.room_add (ctx : Context) (n m : Nat) :
    ctx.room (n + m) = ctx.room n - m := by
  unfold Context.room
  cases ctx.limit <;> exact Nat.sub_add_eq ..

theorem Counted.append (h : Counted ctx s s₁ f) (h' : Counted ctx s₁ s₂ g) :
    Counted ctx s s₂ (f ++ g) where
  emitted := by rw [h'.emitted, h.emitted, size_append, Nat.add_assoc]
  size_le := by
    have hle := h.size_le
    have hle' := h'.size_le
    rw [h.emitted, Context.room_add] at hle'
    rw [size_append]
    omega

/-- Counting starts over after the parts of a statement. -/
private theorem translates_statement {act : EmitM Fragment} (line : UInt64)
    (h : ∀ ⦃used : Nat⦄ ⦃s : State⦄, s.pool.Packed used → ctx.symbols.symbols.length ≤ used →
      Yields (Refuses supported) act s fun f s' => supported ∧ Lowers ctx used meaning s s' f) :
    Translates ctx supported meaning (ctx.statement line act) := by
  intro used s hs hnamed
  unfold Context.statement
  refine .bind .get ?_
  rintro _ _ ⟨rfl, rfl⟩
  refine .bind (.adaptExcept ((h hs hnamed).mono (fun d hd => hd.locate line) fun _ _ h => h)) ?_
  rintro f s' ⟨hsupported, hlowers⟩
  -- the state differs from `s'` in the count only
  refine .bind (.modify _) ?_
  rintro _ _ rfl
  refine .bind (yields_ensureRoom ctx f.size line) ?_
  rintro _ _ ⟨rfl, hroom⟩
  refine .bind (.modify _) ?_
  rintro _ _ rfl
  exact .pure ⟨hsupported, ⟨⟨hlowers.packed, hlowers.grows, hlowers.code, hlowers.registers⟩,
    hlowers.realizes⟩, rfl, hroom⟩

/-- Operands have values below the bound. -/
private theorem eval_operand_lt {table : SymbolTable} {file : File} {env : Env} {o : Operand}
    (ht : table.Orderly) (hlen : table.symbols.length ≤ file.size) (hb : file.Bounded)
    (henv : table.Represents env file) (hdeclared : ∀ name, .var name = o → name ∈ table.names) :
    o.eval env < wordBound := by
  cases o with
  | var name =>
    obtain ⟨x, hx, rfl⟩ := List.mem_map.mp (hdeclared name rfl)
    have hlt := hb _ (ht.has hx hlen)
    rwa [henv x hx] at hlt
  | lit value => exact value.toNat_lt

/-- Variables hold counts below the bound, and so does every expression that has a value. -/
private theorem eval_expr_lt {table : SymbolTable} {file : File} {env : Env} {value : Expr}
    {n : Nat} (ht : table.Orderly) (hlen : table.symbols.length ≤ file.size) (hb : file.Bounded)
    (henv : table.Represents env file)
    (hdeclared : ∀ name, .var name ∈ value.operands → name ∈ table.names)
    (h : value.eval env = some n) : n < wordBound := by
  cases value with
  | operand o =>
    cases h
    exact eval_operand_lt ht hlen hb henv fun name hname =>
      hdeclared name (List.mem_singleton.mpr hname)
  | binary op lhs rhs =>
    cases op with
    | add =>
      simp only [Expr.eval] at h
      split at h
      next hlt =>
        cases h
        exact hlt
      next => cases h
    | sub =>
      cases h
      have hlt := eval_operand_lt ht hlen hb henv fun name hname =>
        hdeclared name (hname ▸ List.mem_cons_self)
      exact Nat.lt_of_le_of_lt (Nat.sub_le _ _) hlt

/-- The code of an assignment, by what it does to a register file. -/
private theorem yields_assign_lowers (ht : ctx.symbols.Orderly) (target : String) (value : Expr)
    (line : UInt64) (hs : s.pool.Packed used) (hnamed : ctx.symbols.symbols.length ≤ used) :
    Yields (Refuses ((Stmt.assign target value line).Supported ctx.symbols.names ctx.loops))
      (assign ctx target value line) s fun f s' =>
      (Stmt.assign target value line).Supported ctx.symbols.names ctx.loops ∧
        Lowers ctx used (fun env => (value.eval env).map (env.set target)) s s' f := by
  refine (yields_assign ctx ht hs hnamed target value line).mono (fun _ h => h) ?_
  rintro f s' ⟨hsupported, x, hx, rfl, effect, hcomputes, heffect⟩
  refine ⟨hsupported, hcomputes.toEmitted, ?_⟩
  intro p address a file env hplaced hsize hclean henv
  have hused : used ≤ file.size := Nat.le_trans hcomputes.packed.used_le hsize
  have hlen : ctx.symbols.symbols.length ≤ file.size := Nat.le_trans hnamed hused
  have hruns := hcomputes.performs hplaced hsize hclean
  rw [heffect env file hused hclean henv] at hruns
  dsimp only
  cases hvalue : value.eval env with
  | none =>
    rw [hvalue] at hruns
    exact hruns
  | some n =>
    rw [hvalue] at hruns
    rw [Stmt.Supported] at hsupported
    have hn : n < wordBound := eval_expr_lt ht hlen hclean.bounded henv hsupported.2.2 hvalue
    exact ⟨_, hruns, henv.put ht hx hlen n,
      .put hclean.bounded (ht.has hx hlen) (ht.register_le hx) hn⟩

/-! ### Conditionals -/

theorem ZeroTest.exists_code_eq (zeroTest : ZeroTest) (r : Register) (thenLabel elseLabel : Label) :
    ∃ l l', zeroTest.code r thenLabel elseLabel = test r l l' ∧
      l ∈ [thenLabel, elseLabel] ∧ l' ∈ [thenLabel, elseLabel] := by
  cases zeroTest with
  | isZero name => exact ⟨elseLabel, thenLabel, rfl, by simp, by simp⟩
  | isNonzero name => exact ⟨thenLabel, elseLabel, rfl, by simp, by simp⟩

/-- The labels of a conditional come before those of its blocks. -/
theorem sealed_branch (zeroTest : ZeroTest) (r : Register) {n m k : Nat} {yes no : Fragment}
    (hyes : yes.Sealed (n + 3) m) (hno : no.Sealed m k) :
    (zeroTest.code r ⟨.thenBlock, n⟩ ⟨.elseBlock, n + 1⟩ ++ define ⟨.thenBlock, n⟩ ++ yes
      ++ jump ⟨.endIf, n + 2⟩ ++ define ⟨.elseBlock, n + 1⟩ ++ no
      ++ define ⟨.endIf, n + 2⟩).Sealed n k := by
  obtain ⟨l, l', hcode, hl, hl'⟩ := zeroTest.exists_code_eq r ⟨.thenBlock, n⟩ ⟨.elseBlock, n + 1⟩
  rw [hcode]
  refine (hyes.append hno).surround ?_ ?_ ?_ ?_
  · exact ((((((wellFormed_test _ _ _).append (wellFormed_define _)).append hyes.wellFormed).append
      (wellFormed_jump _)).append (wellFormed_define _)).append hno.wellFormed).append
      (wellFormed_define _)
  · rw [List.perm_iff_count]
    intro i
    simp [List.range', List.count_cons, Nat.add_assoc]
  · have hyes' := hyes.wanted_defined
    have hno' := hno.wanted_defined
    simp only [wanted_append, wanted_test, wanted_define, wanted_jump, defined_append, defined_test,
      defined_define, defined_jump, List.mem_append, List.mem_cons, List.not_mem_nil, or_false,
      false_or] at hl hl' ⊢
    grind
  · simp [hyes.hlt_notMem, hno.hlt_notMem]

/-- A conditional around the code of its blocks, with the three labels handed out before them. -/
private theorem lowers_branch {zeroTest : ZeroTest} {x : Symbol} {yes no : Fragment}
    {yesMeaning noMeaning : Env → Option Env} (ht : ctx.symbols.Orderly)
    (hx : x ∈ ctx.symbols.symbols) (hname : x.name = zeroTest.name)
    (hnamed : ctx.symbols.symbols.length ≤ used)
    (hyes : Lowers ctx used yesMeaning { s with nextLabel := s.nextLabel + 3 } s₁ yes)
    (hno : Lowers ctx used noMeaning s₁ s₂ no) :
    Lowers ctx used
      (fun env => if zeroTest.holds (env zeroTest.name) then yesMeaning env else noMeaning env)
      s s₂ (zeroTest.code x.register ⟨.thenBlock, s.nextLabel⟩ ⟨.elseBlock, s.nextLabel + 1⟩
        ++ define ⟨.thenBlock, s.nextLabel⟩ ++ yes ++ jump ⟨.endIf, s.nextLabel + 2⟩
        ++ define ⟨.elseBlock, s.nextLabel + 1⟩ ++ no ++ define ⟨.endIf, s.nextLabel + 2⟩) where
  packed := hno.packed
  grows := hyes.grows.trans hno.grows
  code := sealed_branch zeroTest x.register hyes.code hno.code
  registers r hr := by
    obtain ⟨l, l', hcode, -⟩ := zeroTest.exists_code_eq x.register ⟨.thenBlock, s.nextLabel⟩
      ⟨.elseBlock, s.nextLabel + 1⟩
    simp only [registers_append, hcode, registers_test, registers_define, registers_jump,
      List.append_nil, List.mem_append, List.mem_singleton] at hr
    rcases hr with (rfl | hr) | hr
    · exact .inl (ht.within hx)
    · exact (hyes.registers r hr).imp_right (And.imp_right (Nat.le_trans · hno.grows.highWater))
    · exact hno.registers r hr
  realizes := realizes_branch ht hx hname (Nat.le_trans hnamed hno.packed.used_le)
    (hyes.realizes.mono hno.grows.highWater) hno.realizes

/-- A conditional means what its blocks mean, by the value of its condition. -/
private theorem yields_branch {yes no : EmitM Fragment} {yesSupported noSupported : Prop}
    {yesMeaning noMeaning : Env → Option Env} (ht : ctx.symbols.Orderly) (c : Condition)
    (hyes : Translates ctx yesSupported yesMeaning yes)
    (hno : Translates ctx noSupported noMeaning no) (line : UInt64) (hs : s.pool.Packed used)
    (hnamed : ctx.symbols.symbols.length ≤ used) :
    Yields (Refuses (c.Supported ctx.symbols.names ∧ yesSupported ∧ noSupported))
      (branch ctx c yes no line) s fun f s' =>
      (c.Supported ctx.symbols.names ∧ yesSupported ∧ noSupported) ∧
        Lowers ctx used (fun env => if c.eval env then yesMeaning env else noMeaning env) s s'
          f := by
  unfold branch
  cases htest : ZeroTest.ofCondition c with
  | error construct =>
    rintro ⟨hc, -⟩
    obtain ⟨zeroTest, hok, -⟩ := ZeroTest.ofCondition_of_supported hc
    rw [htest] at hok
    cases hok
  | ok zeroTest =>
    dsimp only
    rw [pure_bind]
    refine .bind_of_imp (yields_resolve ctx zeroTest.name line) ?_ ?_
    · rintro ⟨hc, -⟩
      obtain ⟨_, hok, hname⟩ := ZeroTest.ofCondition_of_supported hc
      rw [htest] at hok
      cases hok
      exact hname
    rintro _ s ⟨rfl, x, hx, hname, rfl⟩
    have hc : c.Supported ctx.symbols.names :=
      ZeroTest.supported htest (hname ▸ List.mem_map.mpr ⟨x, hx, rfl⟩)
    refine yields_fresh_bind ?_
    refine yields_fresh_bind ?_
    refine yields_fresh_bind ?_
    refine .bind_of_imp (hyes hs hnamed) (fun hsupported => hsupported.2.1) ?_
    rintro yes s₁ ⟨hyesSupported, hyes, -⟩
    refine .bind_of_imp (hno hyes.packed hnamed) (fun hsupported => hsupported.2.2) ?_
    rintro no s₂ ⟨hnoSupported, hno, -⟩
    simp only [ZeroTest.eval_eq htest]
    exact .pure ⟨⟨hc, hyesSupported, hnoSupported⟩, lowers_branch ht hx hname hnamed hyes hno⟩

/-! ### Counted loops -/

@[simp]
theorem defined_advance (v : Option Symbol) : (advance v).defined = [] := by
  cases v <;> rfl

@[simp]
theorem wanted_advance (v : Option Symbol) : (advance v).wanted = [] := by
  cases v <;> rfl

private theorem sealed_advance (v : Option Symbol) (n : Nat) : (advance v).Sealed n n := by
  cases v with
  | none => exact sealed_empty n
  | some x => exact sealed_of_straight rfl rfl (by simp [advance, Instr.targets]) n

/-- The labels of a loop come before those of its body. -/
theorem sealed_rounds (counter : Register) (v : Option Symbol) {n m k : Nat}
    {start body : Fragment} (hstart : start.Sealed (n + 5) m) (hbody : body.Sealed m k) :
    (test counter ⟨.loopEntry, n⟩ ⟨.loopExit, n + 4⟩ ++ define ⟨.loopEntry, n⟩ ++ start
      ++ jump ⟨.loopBody, n + 3⟩ ++ define ⟨.loopHeader, n + 1⟩
      ++ test counter ⟨.loopStep, n + 2⟩ ⟨.loopExit, n + 4⟩ ++ define ⟨.loopStep, n + 2⟩
      ++ advance v ++ define ⟨.loopBody, n + 3⟩ ++ body ++ dec counter
      ++ jump ⟨.loopHeader, n + 1⟩ ++ define ⟨.loopExit, n + 4⟩).Sealed n k := by
  refine (hstart.append hbody).surround ?_ ?_ ?_ ?_
  · exact ((((((((((((wellFormed_test _ _ _).append (wellFormed_define _)).append
      hstart.wellFormed).append (wellFormed_jump _)).append (wellFormed_define _)).append
      (wellFormed_test _ _ _)).append (wellFormed_define _)).append
      (sealed_advance v n).wellFormed).append (wellFormed_define _)).append
      hbody.wellFormed).append (wellFormed_dec _)).append (wellFormed_jump _)).append
      (wellFormed_define _)
  · rw [List.perm_iff_count]
    intro i
    simp [List.range', List.count_cons, Nat.add_assoc]
  · have hstart' := hstart.wanted_defined
    have hbody' := hbody.wanted_defined
    simp only [wanted_append, wanted_test, wanted_define, wanted_jump, wanted_dec, wanted_advance,
      defined_append, defined_test, defined_define, defined_jump, defined_dec, defined_advance,
      List.mem_append, List.mem_cons, List.not_mem_nil, or_false, false_or]
    grind
  · simp [hstart.hlt_notMem, hbody.hlt_notMem, (sealed_advance v n).hlt_notMem]

/-- The code that sets the loop's variable, if there is one, to the first round's number. -/
def restart (v : Option Symbol) : EmitM Fragment :=
  match v with
  | some x => clear x.register
  | none => pure ∅

/-- Starting a loop variable sets it to zero. -/
theorem yields_restart {table : SymbolTable} {v : Option Symbol} {fails : Diagnostic → Prop}
    (ht : table.Orderly) (hv : ∀ x ∈ v, x ∈ table.symbols) (hs : s.pool.Packed used)
    (hnamed : table.symbols.length ≤ used) :
    Yields fails (restart v) s fun f s' =>
      Computes used (·.Within table.symbols.length)
        (fun file => v.elim (some file) fun x => file.assign? x.register 0) s s' f := by
  cases v with
  | none =>
    refine .pure ⟨⟨hs, .refl _, sealed_empty _, by simp⟩, rfl, ?_⟩
    intro p address a file hplaced hsize hclean
    exact .refl _
  | some x =>
    have hx : x.register.Within table.symbols.length := ht.within (hv x rfl)
    refine (yields_clear hs (hx.mono hnamed)).mono (fun _ h => h) fun f s' h => h.weaken ?_
    rintro _ rfl
    exact hx

/-- The rounds of a loop, part by part. -/
theorem rounds_eq (counter : Register) (v : Option Symbol) (body : EmitM Fragment) :
    rounds counter (v.map (·.register)) body = (do
      let entry ← fresh .loopEntry
      let header ← fresh .loopHeader
      let step ← fresh .loopStep
      let bodyLabel ← fresh .loopBody
      let exit ← fresh .loopExit
      let start ← restart v
      let body ← body
      return test counter entry exit ++ define entry ++ start ++ jump bodyLabel ++ define header
        ++ test counter step exit ++ define step ++ advance v ++ define bodyLabel ++ body
        ++ dec counter ++ jump header ++ define exit) := by
  cases v <;> rfl

/-- Stepping a loop variable uses its register. -/
private theorem within_of_mem_advance {table : SymbolTable} {v : Option Symbol} (ht : table.Orderly)
    (hv : ∀ x ∈ v, x ∈ table.symbols) {r : Register} (hr : r ∈ (advance v).registers) :
    r.Within table.symbols.length := by
  cases v with
  | none => cases hr
  | some x =>
    obtain rfl := List.mem_singleton.mp hr
    exact ht.within (hv x rfl)

/-- The rounds of a loop, by what its body does. -/
private theorem yields_rounds {body : EmitM Fragment} {counter : Register} {v : Option Symbol}
    (hbody : Translates ctx supported meaning body) (ht : ctx.symbols.Orderly)
    (hv : ∀ x ∈ v, x ∈ ctx.symbols.symbols)
    (hkeeps : supported → ∀ env env', meaning env = some env' → ∀ x ∈ v, env' x.name = env x.name)
    (hs : s.pool.Packed used) (hnamed : ctx.symbols.symbols.length < counter.id)
    (hcounter : counter.id ≤ used) :
    Yields (Refuses supported) (rounds counter (v.map (·.register)) body) s fun f s' =>
      supported ∧ Emitted used (fun r => r.Within ctx.symbols.symbols.length ∨ r = counter) s s' f ∧
        f.Repeats ctx.symbols used s'.pool.highWater counter v meaning := by
  have hnamed' : ctx.symbols.symbols.length ≤ used := by omega
  rw [rounds_eq]
  refine yields_fresh_bind ?_
  refine yields_fresh_bind ?_
  refine yields_fresh_bind ?_
  refine yields_fresh_bind ?_
  refine yields_fresh_bind ?_
  refine .bind (yields_restart ht hv hs hnamed') ?_
  intro start s₁ hstart
  refine .bind (hbody hstart.packed hnamed') ?_
  rintro body s₂ ⟨hsupported, hbody, -⟩
  have hgrows := hbody.grows.highWater
  refine .pure ⟨hsupported, ⟨hbody.packed, ?_, ?_, ?_⟩, ?_⟩
  · exact .trans (.trans ⟨rfl, rfl, Nat.le_refl _⟩ hstart.grows) hbody.grows
  · exact sealed_rounds counter v hstart.code hbody.code
  · intro r hr
    simp only [registers_append, registers_test, registers_define, registers_jump, registers_dec,
      List.append_nil, List.mem_append, List.mem_singleton] at hr
    rcases hr with ((((rfl | hr) | rfl) | hr) | hr) | rfl
    · exact .inl (.inr rfl)
    · exact (hstart.registers r hr).imp .inl (And.imp_right (Nat.le_trans · hgrows))
    · exact .inl (.inr rfl)
    · exact .inl (.inl (within_of_mem_advance ht hv hr))
    · exact (hbody.registers r hr).imp_left .inl
    · exact .inl (.inr rfl)
  · exact repeats_rounds ht hv hnamed hcounter hbody.packed.used_le
      (hstart.performs.mono hgrows) hbody.realizes (hkeeps hsupported)

/-- The number of a round, where the loop's variable is declared. -/
theorem setRound_find? (table : SymbolTable) (name : String) (env : Env) (round : Nat) :
    setRound (table.find? name) env round =
      if (table.find? name).isSome then env.set name round else env := by
  cases hfind : table.find? name with
  | none => rfl
  | some x =>
    rw [← SymbolTable.name_eq_of_find? hfind]
    rfl

/-- A loop, by what its body does. Its counter is the next scratch register. -/
private theorem yields_loop {body : EmitM Fragment} {bodySupported : Prop}
    (ht : ctx.symbols.Orderly) (name : String) (bound : Operand)
    (hbody : Translates { ctx with loops := name :: ctx.loops } bodySupported meaning body)
    (hkeeps : bodySupported → ∀ env env', meaning env = some env' → env' name = env name)
    (line : UInt64) (hs : s.pool.Packed used) (hnamed : ctx.symbols.symbols.length ≤ used) :
    Yields (Refuses ((∃ x ∈ ctx.symbols.names, bound = .var x) ∧ name ∉ ctx.loops ∧ bodySupported))
      (loop ctx name bound body line) s fun f s' =>
      ((∃ x ∈ ctx.symbols.names, bound = .var x) ∧ name ∉ ctx.loops ∧ bodySupported) ∧
        Lowers ctx used (fun env => (List.range (bound.eval env)).foldlM (fun env round =>
          meaning (if (ctx.symbols.find? name).isSome then env.set name round else env)) env)
          s s' f := by
  unfold loop
  cases bound with
  | lit n =>
    rintro ⟨⟨_, -, hbound⟩, -⟩
    cases hbound
  | var source =>
    refine .bind_of_imp (yields_resolve ctx source line) ?_ ?_
    · rintro ⟨⟨_, hmem, hbound⟩, -⟩
      cases hbound
      exact hmem
    rintro _ s ⟨rfl, x, hx, rfl, rfl⟩
    have hsource : x.register.Within ctx.symbols.symbols.length := ht.within hx
    refine .guard (fun hmem h => h.2.1 hmem) fun hloops => ?_
    -- the rounds count down a copy of the bound, with one more register in use
    refine .bind (yields_scratch hs) ?_
    rintro _ _ ⟨pool₁, rfl, rfl, hs₁, htaken⟩
    refine .bind (yields_copy hs₁ (hsource.mono (Nat.le_succ_of_le hnamed)) (.next used)
      (hsource.mono hnamed).ne_next) ?_
    intro load s₂ hload
    have hkeeps' : bodySupported → ∀ env env', meaning env = some env' →
        ∀ y ∈ ctx.symbols.find? name, env' y.name = env y.name := by
      intro hb env env' heval y hy
      rw [SymbolTable.name_eq_of_find? hy]
      exact hkeeps hb env env' heval
    refine .bind_of_imp (yields_rounds hbody ht (fun y hy => SymbolTable.mem_of_find? hy) hkeeps'
      hload.packed (Nat.lt_succ_of_le hnamed) (Nat.le_refl _)) (fun hsupported => hsupported.2.2) ?_
    rintro rounds s₃ ⟨hsupported, hrounds, hrepeats⟩
    refine .bind (yields_release hrounds.packed ?_) ?_
    · rw [hrounds.grows.named, hload.grows.named, htaken.named]
      exact hs.named_le
    rintro _ _ ⟨pool₄, rfl, hpacked, hreleased⟩
    refine .pure ⟨⟨⟨_, List.mem_map.mpr ⟨x, hx, rfl⟩, rfl⟩, hloops, hsupported⟩, ?_, ?_⟩
    · refine (hload.toEmitted.append hrounds).release htaken hpacked hreleased ?_
      rintro r ((rfl | rfl) | hr | rfl)
      · exact .inl hsource
      · exact .inr rfl
      · exact .inl hr
      · exact .inr rfl
    · simp only [← setRound_find?]
      have hsize := hreleased.highWater
      exact realizes_loop ht hx hnamed (Nat.le_trans hrounds.packed.used_le hsize)
        (hload.performs.mono (Nat.le_trans hrounds.grows.highWater hsize)) (hrepeats.mono hsize)

mutual

/-- Every statement is translated into code that does what it means. -/
theorem translates_stmt : ∀ (ctx : Context) (st : Stmt), ctx.symbols.Orderly →
    Translates ctx (st.Supported ctx.symbols.names ctx.loops)
      (st.eval fun name => (ctx.symbols.find? name).isSome) (stmt ctx st)
  | ctx, .assign target value line, ht => by
    rw [stmt]
    refine translates_statement line fun used s hs hnamed => ?_
    refine (yields_assign_lowers ht target value line hs hnamed).mono (fun _ h => h)
      fun f s' h => ⟨h.1, h.2.congr fun env => ?_⟩
    rw [Stmt.eval]
  | ctx, .branch condition yes no line, ht => by
    rw [stmt, Stmt.Supported]
    refine translates_statement line fun used s hs hnamed => ?_
    refine (yields_branch ht condition (translates_block ctx yes ht) (translates_block ctx no ht)
      line hs hnamed).mono (fun _ h => h) fun f s' h => ⟨h.1, h.2.congr fun env => ?_⟩
    rw [Stmt.eval]
  | ctx, .loop counter bound body line, ht => by
    rw [stmt, Stmt.Supported]
    refine translates_statement line fun used s hs hnamed => ?_
    refine (yields_loop ht counter bound
      (translates_block { ctx with loops := counter :: ctx.loops } body ht) ?_ line hs hnamed).mono
      (fun _ h => h) fun f s' h => ⟨h.1, h.2.congr fun env => ?_⟩
    · -- the body is supported only if it leaves the loop's variable alone
      intro hsupported env env' heval
      exact evalBlock_loopVariable body hsupported List.mem_cons_self heval
    · rw [Stmt.eval]

/-- Every block is translated into code that does what it means. -/
theorem translates_block : ∀ (ctx : Context) (b : List Stmt), ctx.symbols.Orderly →
    Translates ctx (BlockSupported ctx.symbols.names ctx.loops b)
      (evalBlock (fun name => (ctx.symbols.find? name).isSome) b) (block ctx b)
  | ctx, [], ht => by
    intro used s hs hnamed
    rw [block, BlockSupported]
    refine .pure ⟨trivial, ⟨⟨hs, .refl _, sealed_empty _, by simp⟩, ?_⟩, rfl, Nat.zero_le _⟩
    intro p address a file env hplaced hsize hclean henv
    rw [evalBlock]
    exact ⟨file, .refl _, henv, .refl hclean.bounded⟩
  | ctx, st :: rest, ht => by
    intro used s hs hnamed
    rw [block, BlockSupported]
    refine .bind_of_imp (translates_stmt ctx st ht hs hnamed) And.left ?_
    rintro first s₁ ⟨hfirst, hlowers, hcounted⟩
    refine .bind_of_imp (translates_block ctx rest ht hlowers.packed hnamed) And.right ?_
    rintro rest' s₂ ⟨hrest, hlowers', hcounted'⟩
    refine .pure ⟨⟨hfirst, hrest⟩, (hlowers.append hlowers' hnamed).congr fun env => ?_,
      hcounted.append hcounted'⟩
    rw [evalBlock]

end

end Emit

end Abacus
