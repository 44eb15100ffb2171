import Abacus.Compile
import Abacus.Proofs.Blocks
import Abacus.Proofs.Checking
import Abacus.Proofs.Optimizing

/-!
# Compiled programs

A compilation has two halves. The first one emits the code of the source program, and is the only
one that can refuse it (`emitProgram_spec`); the second one optimizes, links and checks the code,
and always succeeds on code that was emitted (`Emits.finishProgram_ok`). What is known of a compiled
program in the end is its `Translation`. From it follows how every run ends, given the meaning of
the source program: `Translation.halts` and `Translation.overflows`.
-/

namespace Abacus

open Machine Code Fragment
open Source hiding Program

/-! ### Declared variables -/

/-- The table of a program's declarations. -/
structure SymbolTable.Lists (table : SymbolTable) (p : Source.Program) : Prop where
  orderly : table.Orderly
  entries : table.symbols.map (fun s => (s.name, s.initial)) =
    p.declarations.map fun d => (d.name, d.value)

namespace SymbolTable.Lists

variable {table : SymbolTable} {p : Source.Program}

/-- The symbols have the declared names. -/
theorem names_eq (h : table.Lists p) : table.names = p.names := by
  simpa [Function.comp_def, Source.Program.names] using congrArg (List.map Prod.fst) h.entries

/-- The variables that are found are the declared ones. -/
private theorem declares_eq (h : table.Lists p) :
    (fun name => (table.find? name).isSome) = p.declares := by
  funext name
  have hname : name ∈ table.names ↔ p.declares name := by
    rw [h.names_eq]
    simp [Source.Program.names, Source.Program.declares]
  rw [Bool.eq_iff_iff, ← hname, ← not_iff_not, ← SymbolTable.find?_eq_none_iff]
  simp

/-- Every variable starts from its declared value. -/
theorem initial_eq (h : table.Lists p) {s : Symbol} (hs : s ∈ table.symbols) :
    p.initial s.name = s.initial.toNat := by
  have hmem : (s.name, s.initial) ∈ p.declarations.map fun d => (d.name, d.value) :=
    h.entries ▸ List.mem_map.mpr ⟨s, hs, rfl⟩
  obtain ⟨d, hd, heq⟩ := List.mem_map.mp hmem
  obtain ⟨hname, hvalue⟩ := Prod.mk.inj heq
  have hnodup : p.names.Nodup := h.names_eq ▸ h.orderly.names
  unfold Source.Program.initial
  cases hfind : p.declarations.find? (·.name = s.name) with
  | none => exact absurd hname (by simpa using List.find?_eq_none.mp hfind d hd)
  | some d' =>
    -- names are different, so the declaration found is the variable's own
    have hname' : d'.name = s.name := by simpa using List.find?_some hfind
    obtain rfl : d' = d :=
      List.inj_on_of_nodup_map hnodup (List.mem_of_find?_eq_some hfind) hd (hname'.trans hname.symm)
    exact congrArg UInt64.toNat hvalue

/-- The register file that a program starts from holds the declared values and nothing else. -/
private theorem represents_initial (h : table.Lists p) {size : Nat}
    (hsize : table.symbols.length ≤ size) :
    table.Represents p.initial (table.initialRegisters size) := by
  intro s hs
  rw [h.orderly.val_initialRegisters hs hsize, h.initial_eq hs]

end SymbolTable.Lists

/-- A program starts with nothing but its variables. -/
private theorem SymbolTable.Orderly.clean_initialRegisters {table : SymbolTable}
    (ht : table.Orderly) {size : Nat} (hsize : table.symbols.length ≤ size) :
    File.Clean (table.initialRegisters size) table.symbols.length where
  bounded := by
    intro r hr
    rcases Nat.lt_or_ge table.symbols.length r.id with hlt | hge
    · rw [ht.val_initialRegisters_of_lt hsize hlt]
      decide
    · have hmem : r ∈ table.symbols.map Symbol.register := by
        rw [ht.registers, mem_registersBetween]
        exact ⟨hr.1, hge⟩
      obtain ⟨s, hs, rfl⟩ := List.mem_map.mp hmem
      rw [ht.val_initialRegisters hs hsize]
      exact s.initial.toNat_lt
  empty r hr := ht.val_initialRegisters_of_lt hsize hr

/-- What is listed of a variable is its register. -/
theorem SymbolTable.lookup_bindings (table : SymbolTable) (name : String) :
    table.bindings.lookup name = (table.find? name).map Symbol.register := by
  unfold SymbolTable.bindings SymbolTable.find?
  induction table.symbols with
  | nil => rfl
  | cons s rest ih =>
    rw [List.map_cons, List.lookup_cons, List.find?_cons]
    by_cases hname : s.name = name
    · simp [hname]
    · rw [beq_false_of_ne (Ne.symm hname)]
      simpa [hname] using ih

/-- The values that a program starts from, with some of them set anew. -/
def Source.Program.initialWith (p : Source.Program) (settings : List (String × Nat)) : Env :=
  settings.foldl (fun env x => env.set x.1 x.2) p.initial

/-- Setting variables by name sets their registers. -/
private theorem Machine.Program.withValues_ok {q : Program} {table : SymbolTable} {env : Env}
    (ht : table.Orderly) (hsymbols : q.symbols = table.bindings)
    (hsize : table.symbols.length ≤ q.registers.size)
    (hclean : File.Clean q.registers table.symbols.length)
    (henv : table.Represents env q.registers) {settings : List (String × Nat)}
    (hsettings : ∀ x ∈ settings, x.1 ∈ table.names ∧ x.2 < wordBound) :
    ∃ file : File, q.withValues settings = .ok file ∧ file.size = q.registers.size ∧
      file.Clean table.symbols.length ∧
      table.Represents (settings.foldl (fun env x => env.set x.1 x.2) env) file := by
  unfold withValues
  generalize q.registers = file at hsize hclean henv ⊢
  induction settings generalizing file env with
  | nil => exact ⟨file, rfl, rfl, hclean, henv⟩
  | cons x rest ih =>
    obtain ⟨hname, hlt⟩ := hsettings x List.mem_cons_self
    obtain ⟨s, hs⟩ := SymbolTable.exists_find?_of_mem hname
    have hmem := SymbolTable.mem_of_find? hs
    have hhas : File.Has file s.register := ht.has hmem hsize
    have hregister : q.registerOf? x.1 = some s.register := by
      rw [registerOf?, hsymbols, SymbolTable.lookup_bindings, hs, Option.map_some]
    obtain ⟨file', hok, hsize', hclean', henv'⟩ :=
      ih (fun y hy => hsettings y (List.mem_cons_of_mem x hy)) (File.put file s.register x.2)
        (by rwa [File.size_put]) (hclean.put hhas (ht.register_le hmem) hlt)
        (henv.put ht hmem hsize x.2)
    refine ⟨file', ?_, hsize'.trans (File.size_put ..), hclean', ?_⟩
    · rw [List.foldlM_cons, hregister]
      exact hok
    · rw [List.foldl_cons, ← SymbolTable.name_eq_of_find? hs]
      exact henv'

/-! ### The two halves of a compilation -/

/-- The first half of a compilation: the variables get their registers and the statements their
code. -/
def emitProgram (o : Options) (p : Source.Program) :
    Except Diagnostic (SymbolTable × Fragment × Emit.State) := do
  o.validate.mapError .invalidOptions
  let (symbols, pool) ←
    outcome (SymbolTable.ofDeclarations p.declarations) { capacity := o.registerPool }
  let (emitted, state) ← outcome (Emit.block { symbols, limit := o.limit } p.body) { pool }
  return (symbols, emitted, state)

/-- The second half: the code is optimized, linked and checked. -/
def finishProgram (o : Options) (symbols : SymbolTable) (emitted : Fragment) (state : Emit.State) :
    Except Diagnostic Compilation := do
  let registerCount ← state.pool.finish
  let optimized ← (emitted.optimize o.level).elim (.error .misplaced) .ok
  let program ← (Code.link o.base (symbols.initialRegisters registerCount) symbols.bindings
    [optimized]).mapError .unresolved
  let report ← (program.check o.limit false).mapError .rejected
  return {
    program
    emitted := emitted.size
    removed := emitted.size - optimized.size
    stats := report.stats
    warnings := report.warnings }

/-- A compilation emits code and then finishes it. -/
theorem compile_eq (o : Options) (p : Source.Program) :
    compile o p = emitProgram o p >>= fun (symbols, emitted, state) =>
      finishProgram o symbols emitted state := by
  simp only [compile, emitProgram, finishProgram, bind_assoc, pure_bind]

/-- What is known of a program's code before it is optimized and linked. -/
structure Emits (o : Options) (p : Source.Program) (table : SymbolTable) (f : Fragment)
    (state : Emit.State) : Prop where
  lists : table.Lists p
  supported : p.Supported
  named : state.pool.named = table.symbols.length
  lowers : Emit.Lowers { symbols := table, limit := o.limit } table.symbols.length p.evalFrom
    { pool := .withNamed o.registerPool table.symbols.length } state f
  size_lt : ∀ n ∈ o.limit, f.size < n

/-- Options are valid if there is a register, the level exists, and the limit is not zero. -/
theorem Options.validate_eq_ok_iff {o : Options} :
    o.validate = .ok () ↔ o.registerPool ≠ 0 ∧ o.level ≤ highestLevel ∧ o.limit ≠ some 0 := by
  rw [← Nat.not_lt]
  by_cases hpool : o.registerPool = 0 <;> by_cases hlevel : highestLevel < o.level <;>
    by_cases hlimit : o.limit = some 0 <;>
    simp [validate, hpool, hlevel, hlimit, bind, Except.bind, throw, throwThe,
      MonadExceptOf.throw, pure, Except.pure]

private theorem Yields.outcome_cases {σ α : Type} {fails : Diagnostic → Prop}
    {act : EStateM Diagnostic σ α} {s : σ} {post : α → σ → Prop} (h : Yields fails act s post) :
    (∃ d, outcome act s = .error d ∧ fails d) ∨
      ∃ a s', outcome act s = .ok (a, s') ∧ post a s' := by
  unfold Yields at h
  unfold outcome
  cases hact : act s with
  | ok a s' =>
    rw [hact] at h
    exact .inr ⟨a, s', rfl, h⟩
  | error d s' =>
    rw [hact] at h
    exact .inl ⟨d, rfl, h⟩

theorem outcome_of_ok {σ α : Type} {act : EStateM Diagnostic σ α} {s s' : σ} {a : α}
    (h : act s = .ok a s') : outcome act s = .ok (a, s') := by
  rw [outcome, h]

theorem outcome_of_error {σ α : Type} {act : EStateM Diagnostic σ α} {s s' : σ} {d : Diagnostic}
    (h : act s = .error d s') : outcome act s = .error d := by
  rw [outcome, h]

section EmitProgram

variable {o : Options} {p : Source.Program} {table : SymbolTable} {pool : RegisterPool}
  {f : Fragment} {state : Emit.State} {d : Diagnostic}

/-- Where a declaration is refused, so is the program. -/
theorem emitProgram_of_declarations_error {t : RegisterPool} (hvalid : o.validate = .ok ())
    (h : SymbolTable.ofDeclarations p.declarations (.withNamed o.registerPool 0) = .error d t) :
    emitProgram o p = .error d := by
  have hdeclared := outcome_of_error h
  rw [RegisterPool.withNamed] at hdeclared
  simp only [emitProgram, hvalid, hdeclared, bind, Except.bind, Except.mapError]

/-- Where the declarations are accepted, the program is its body. -/
theorem emitProgram_of_declarations (hvalid : o.validate = .ok ())
    (h : SymbolTable.ofDeclarations p.declarations (.withNamed o.registerPool 0) = .ok table pool) :
    emitProgram o p = (outcome (Emit.block { symbols := table, limit := o.limit } p.body)
      { pool }).map (table, ·) := by
  have hdeclared := outcome_of_ok h
  rw [RegisterPool.withNamed] at hdeclared
  simp only [emitProgram, hvalid, hdeclared, bind, Except.bind, Except.mapError]
  cases outcome (Emit.block { symbols := table, limit := o.limit } p.body) { pool } <;> rfl

/-- Code that was emitted is that of the program's statements, after its declarations. -/
theorem exists_of_emitProgram (h : emitProgram o p = .ok (table, f, state)) :
    o.validate = .ok () ∧ ∃ pool,
      SymbolTable.ofDeclarations p.declarations (.withNamed o.registerPool 0) = .ok table pool ∧
      Emit.block { symbols := table, limit := o.limit } p.body { pool } = .ok f state := by
  cases hvalid : o.validate with
  | error problem =>
    simp only [emitProgram, hvalid, bind, Except.bind, Except.mapError] at h
    cases h
  | ok _ =>
    refine ⟨rfl, ?_⟩
    cases hdeclared : SymbolTable.ofDeclarations p.declarations (.withNamed o.registerPool 0) with
    | error d t => cases (emitProgram_of_declarations_error hvalid hdeclared).symm.trans h
    | ok table' pool =>
      rw [emitProgram_of_declarations hvalid hdeclared] at h
      cases hblock : Emit.block { symbols := table', limit := o.limit } p.body { pool } with
      | error d t =>
        rw [outcome_of_error hblock] at h
        cases h
      | ok f' state' =>
        rw [outcome_of_ok hblock] at h
        cases h
        exact ⟨pool, rfl, hblock⟩

end EmitProgram

/-- Code is emitted unless the settings are refused or the program is. -/
theorem emitProgram_spec (o : Options) (p : Source.Program) :
    match emitProgram o p with
    | .ok (table, f, state) => Emits o p table f state
    | .error d => (∃ problem, o.validate = .error problem ∧ d = .invalidOptions problem) ∨
        Refuses p.Supported d := by
  have hpool : ({ capacity := o.registerPool } : RegisterPool) = .withNamed o.registerPool 0 := rfl
  unfold emitProgram
  rw [hpool]
  cases hvalid : o.validate with
  | error problem => exact .inl ⟨problem, rfl, rfl⟩
  | ok _ =>
    rcases (SymbolTable.yields_ofDeclarations o.registerPool p.declarations).outcome_cases with
      ⟨d, hd, hrefuses⟩ | ⟨table, _, htable, ht, hentries, rfl, hcapacity⟩
    · rw [hd]
      exact .inr (hrefuses.mono And.left)
    have hlists : table.Lists p := ⟨ht, hentries⟩
    have hblock : Yields _ (Emit.block { symbols := table, limit := o.limit } p.body)
        { pool := .withNamed o.registerPool table.symbols.length } _ :=
      Emit.translates_block _ p.body ht (RegisterPool.packed_withNamed hcapacity) (Nat.le_refl _)
    rw [hlists.declares_eq, hlists.names_eq] at hblock
    rw [htable]
    rcases hblock.outcome_cases with ⟨d, hd, hrefuses⟩ | ⟨f, state, hf, hbody, hlowers, hcounted⟩
    · simp only [bind, Except.bind, Except.mapError, hd]
      exact .inr (hrefuses.mono And.right)
    · simp only [bind, Except.bind, Except.mapError, hf]
      refine ⟨hlists, ⟨hlists.names_eq ▸ ht.names, hbody⟩, hlowers.grows.named, hlowers, ?_⟩
      -- one place is kept for the final halt
      intro n hn
      have hn : o.limit = some n := hn
      have hne : n ≠ 0 := by
        rintro rfl
        exact (Options.validate_eq_ok_iff.mp hvalid).2.2 hn
      have hroom := hcounted.size_le
      simp only [Emit.Context.room, hn] at hroom
      omega

/-- What is known of a compiled program: `f` is the code that was emitted for it, and `g` what
optimizing made of that. -/
structure Translation (p : Source.Program) (c : Compilation) (table : SymbolTable)
    (f g : Fragment) : Prop where
  lists : table.Lists p
  wellFormed : f.WellFormed
  closed : f.Closed
  realizes : f.Realizes table table.symbols.length c.program.registers.size p.evalFrom
  replaces : g.Replaces f
  linked : Linked c.program g
  length_le : table.symbols.length ≤ c.program.registers.size
  registers : c.program.registers = table.initialRegisters c.program.registers.size
  symbols : c.program.symbols = table.bindings
  emitted : c.emitted = f.size
  removed : c.removed = f.size - g.size

/-- Code that was emitted can be optimized and linked, with any number of registers. -/
theorem Emits.exists_link {o : Options} {p : Source.Program} {table : SymbolTable} {f : Fragment}
    {state : Emit.State} (h : Emits o p table f state) (n : Nat) :
    ∃ g program, f.optimize o.level = some g ∧ g.Replaces f ∧ g.Closed ∧
      link o.base (table.initialRegisters n) table.bindings [g] = .ok program ∧
      Linked program g ∧ program.registers = table.initialRegisters n ∧
      program.symbols = table.bindings ∧ program.base = o.base := by
  obtain ⟨g, hg, hreplaces⟩ := optimize_replaces o.level h.lowers.code.wellFormed
  have hclosed := hreplaces.closed_alone h.lowers.code.closed
  have hjoin : join [g] = g := append_empty g
  obtain ⟨program, hlink, hlinked, hprogram⟩ := link_ok (hjoin.symm ▸ hreplaces.wellFormed)
    (hjoin.symm ▸ hclosed) o.base (table.initialRegisters n) table.bindings
  exact ⟨g, program, hg, hreplaces, hclosed, hlink, hjoin ▸ hlinked, hprogram⟩

/-- **The second half of a compilation succeeds** on all code that the first half emits. The
register file is as large as the highest register handed out. -/
theorem Emits.finishProgram_ok {o : Options} {p : Source.Program} {table : SymbolTable}
    {f : Fragment} {state : Emit.State} (h : Emits o p table f state) :
    ∃ c g, finishProgram o table f state = .ok c ∧
      c.program.registers.size = state.pool.highWater ∧ Translation p c table f g := by
  have hsealed := h.lowers.code
  have hlength : table.symbols.length ≤ state.pool.highWater := h.lowers.packed.used_le
  have hfinish : state.pool.finish = .ok state.pool.highWater :=
    RegisterPool.Packed.finish (h.named ▸ h.lowers.packed)
  obtain ⟨g, program, hg, hreplaces, hclosed, hlink, hlinked, hregisters, hsymbols, -⟩ :=
    h.exists_link state.pool.highWater
  have hsize : program.registers.size = state.pool.highWater := by
    rw [hregisters, SymbolTable.size_initialRegisters]
  have hcheck : program.check o.limit false = .ok (program.inspect o.limit) := by
    -- optimizing only leaves instructions out, so the registers and the size stay in bounds
    refine hlinked.check_eq hreplaces.wellFormed hclosed
      (fun hmem => hsealed.hlt_notMem (hreplaces.code.subset hmem)) ?_
      fun n hn => Nat.lt_of_le_of_lt hreplaces.size_le (h.size_lt n hn)
    intro r hr
    have hr' : r ∈ f.registers := (hreplaces.code.filterMap Instr.register?).subset hr
    rw [File.Has, hsize]
    rcases h.lowers.registers r hr' with hr | ⟨hlt, hle⟩
    · exact hr.mono hlength
    · exact ⟨Nat.zero_lt_of_lt hlt, hle⟩
  have hok : finishProgram o table f state = .ok
      { program
        emitted := f.size
        removed := f.size - g.size
        stats := (program.inspect o.limit).stats
        warnings := (program.inspect o.limit).warnings } := by
    simp only [finishProgram, hfinish, hg, hlink, hcheck, bind, Except.bind, Except.mapError,
      Option.elim]
    rfl
  refine ⟨_, g, hok, hsize, h.lists, hsealed.wellFormed, hsealed.closed, ?_, hreplaces, hlinked,
    ?_, ?_, hsymbols, rfl, rfl⟩
  · exact hsize ▸ h.lowers.realizes
  · exact hsize ▸ hlength
  · rw [hsize, hregisters]

/-- A compilation fails where no code is emitted, and then only because the settings are refused or
the program is; otherwise it gives a translation of the program. -/
theorem compile_cases (o : Options) (p : Source.Program) :
    (∃ d, emitProgram o p = .error d ∧ compile o p = .error d ∧
        ((∃ problem, d = .invalidOptions problem) ∨ Refuses p.Supported d)) ∨
      ∃ c table f g, compile o p = .ok c ∧ Translation p c table f g := by
  have hspec := emitProgram_spec o p
  rw [compile_eq]
  cases hemit : emitProgram o p with
  | error d =>
    rw [hemit] at hspec
    exact .inl ⟨d, rfl, rfl, hspec.imp_left fun ⟨problem, _, hd⟩ => ⟨problem, hd⟩⟩
  | ok x =>
    rw [hemit] at hspec
    obtain ⟨c, g, hok, -, htranslation⟩ := hspec.finishProgram_ok
    exact .inr ⟨c, _, _, g, hok, htranslation⟩

/-- Where code is emitted, the compilation succeeds. -/
theorem exists_compile_eq_ok {o : Options} {p : Source.Program} (h : (emitProgram o p).isOk) :
    ∃ c, compile o p = .ok c := by
  rcases compile_cases o p with ⟨d, hemit, -⟩ | ⟨c, -, -, -, hok, -⟩
  · rw [hemit] at h
    cases h
  · exact ⟨c, hok⟩

/-- A compilation that succeeds has gone through both halves. -/
theorem exists_emitProgram_of_compile {o : Options} {p : Source.Program} {c : Compilation}
    (h : compile o p = .ok c) : ∃ table f state, emitProgram o p = .ok (table, f, state) ∧
      Emits o p table f state ∧ finishProgram o table f state = .ok c := by
  have hspec := emitProgram_spec o p
  rw [compile_eq] at h
  cases hemit : emitProgram o p with
  | error d =>
    rw [hemit] at h
    cases h
  | ok x =>
    rw [hemit] at h hspec
    exact ⟨x.1, x.2.1, x.2.2, rfl, hspec, h⟩

/-- What a second half of a compilation that succeeds has gone through. -/
theorem exists_of_finishProgram {o : Options} {table : SymbolTable} {f : Fragment}
    {state : Emit.State} {c : Compilation} (h : finishProgram o table f state = .ok c) :
    ∃ n g program report, state.pool.finish = .ok n ∧ f.optimize o.level = some g ∧
      link o.base (table.initialRegisters n) table.bindings [g] = .ok program ∧
      program.check o.limit false = .ok report ∧
      c = ⟨program, f.size, f.size - g.size, report.stats, report.warnings⟩ := by
  unfold finishProgram at h
  cases hfinish : state.pool.finish with
  | error d =>
    rw [hfinish] at h
    cases h
  | ok n =>
    cases hoptimized : f.optimize o.level with
    | none =>
      rw [hfinish, hoptimized] at h
      cases h
    | some g =>
      cases hlink : link o.base (table.initialRegisters n) table.bindings [g] with
      | error problem =>
        simp only [hfinish, hoptimized, hlink, bind, Except.bind, Option.elim, Except.mapError] at h
        cases h
      | ok program =>
        cases hcheck : program.check o.limit false with
        | error findings =>
          simp only [hfinish, hoptimized, hlink, hcheck, bind, Except.bind, Option.elim,
            Except.mapError] at h
          cases h
        | ok report =>
          simp only [hfinish, hoptimized, hlink, hcheck, bind, Except.bind, Option.elim,
            Except.mapError] at h
          cases h
          exact ⟨n, g, program, report, rfl, rfl, hlink, hcheck, rfl⟩

/-- A compilation counts the instructions that were emitted. -/
theorem emitted_of_compile {o : Options} {p : Source.Program} {c : Compilation}
    {table : SymbolTable} {f : Fragment} {state : Emit.State} (h : compile o p = .ok c)
    (hemit : emitProgram o p = .ok (table, f, state)) : c.emitted = f.size := by
  rw [compile_eq, hemit] at h
  obtain ⟨n, g, program, report, -, -, -, -, rfl⟩ := exists_of_finishProgram h
  rfl

theorem exists_compile_of_emitProgram {o : Options} {p : Source.Program} {table : SymbolTable}
    {f : Fragment} {state : Emit.State} (h : emitProgram o p = .ok (table, f, state)) :
    ∃ c, compile o p = .ok c ∧ c.emitted = f.size := by
  obtain ⟨c, hcompile⟩ := exists_compile_eq_ok (h ▸ rfl : (emitProgram o p).isOk)
  exact ⟨c, hcompile, emitted_of_compile hcompile h⟩

/-- Every compilation is the translation of its program. -/
theorem exists_translation {o : Options} {p : Source.Program} {c : Compilation}
    (h : compile o p = .ok c) : ∃ table f g, Translation p c table f g := by
  rcases compile_cases o p with ⟨d, -, herror, -⟩ | ⟨c', table, f, g, hok, htranslation⟩
  · cases herror.symm.trans h
  · obtain rfl : c' = c := Except.ok.inj (hok.symm.trans h)
    exact ⟨table, f, g, htranslation⟩

/-! ### Runs of compiled programs -/

namespace Translation

variable {p : Source.Program} {c : Compilation} {table : SymbolTable} {f g : Fragment}
  {settings : List (String × Nat)} {env : Env}

/-- The register file that a run starts from, with some variables set anew. -/
theorem exists_start (h : Translation p c table f g)
    (hsettings : ∀ x ∈ settings, x.1 ∈ p.names ∧ x.2 < wordBound) :
    ∃ file : File, c.program.withValues settings = .ok file ∧
      file.size = c.program.registers.size ∧ file.Clean table.symbols.length ∧
      table.Represents (p.initialWith settings) file := by
  have ht := h.lists.orderly
  refine Program.withValues_ok ht h.symbols h.length_le ?_ ?_ (h.lists.names_eq ▸ hsettings)
  · rw [h.registers]
    exact ht.clean_initialRegisters h.length_le
  · rw [h.registers]
    exact h.lists.represents_initial h.length_le

/-- What the code that was emitted does, before it is optimized. -/
private theorem exists_follows (h : Translation p c table f g) {file : File}
    (hsize : file.size = c.program.registers.size) (hclean : file.Clean table.symbols.length)
    (henv : table.Represents env file) :
    ∃ q : Program, c.program.Tightens q ∧ q.fetch? (q.base.first + f.size) = some .hlt ∧
      q.Follows table file (q.start file) (q.base.first + f.size) (p.evalFrom env) := by
  obtain ⟨q, hq, hbase⟩ := exists_linked h.wellFormed h.closed c.program.base
  exact ⟨q, h.replaces.tightens_alone h.closed hq h.linked hbase.symm, hq.halt,
    h.realizes hq.placed (Nat.le_of_eq hsize.symm) hclean henv⟩

/-- Where the source program has a meaning, runs halt with its values. -/
theorem halts (h : Translation p c table f g) {env' : Env} {file : File}
    (hsize : file.size = c.program.registers.size) (hclean : file.Clean table.symbols.length)
    (henv : table.Represents env file) (heval : p.evalFrom env = some env') :
    ∃ n, ∃ file' : File, c.program.Ends n (c.program.start file) (.halted file') ∧
      table.Represents env' file' ∧ table.SameScratch file file' := by
  obtain ⟨q, htightens, hhalt, hfollows⟩ := h.exists_follows hsize hclean henv
  rw [heval] at hfollows
  obtain ⟨file', ⟨n, hsteps⟩, henv', hsame⟩ := hfollows
  have hends : q.Ends n (q.start file) (.halted file') :=
    ⟨_, hsteps, Program.step_of_fetch? hhalt file', trivial⟩
  obtain ⟨m, -, o, hends', halike⟩ := htightens.ends file n _ hends
  cases halike
  exact ⟨m, file', hends', henv', hsame⟩

/-- Where it has none, runs overflow. -/
theorem overflows (h : Translation p c table f g) {file : File}
    (hsize : file.size = c.program.registers.size) (hclean : file.Clean table.symbols.length)
    (henv : table.Represents env file) (heval : p.evalFrom env = none) :
    c.program.Overflows (c.program.start file) := by
  obtain ⟨q, htightens, -, hfollows⟩ := h.exists_follows hsize hclean henv
  rw [heval] at hfollows
  exact htightens.overflows hfollows

end Translation

end Abacus
