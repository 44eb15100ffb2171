import Mathlib.Data.List.Forall2
import Mathlib.Logic.Equiv.Basic
import Abacus.Proofs.Correctness
import Abacus.Proofs.Relabelling

/-!
# Programs of the same structure

Programs that differ in their labels and in the declared values only are compiled alike. Variables
get the same registers under their new names, statements get the same code, and the second half of a
compilation looks at the variables only to start them and to list them. So the compilation of a
program gives that of all the others (`Relabelling.Relates.compile_eq`). Declared values are then as
good as values that a run is started with (`runWith_eq_run_override`).
-/

namespace Abacus

open Machine Code Fragment
open Source hiding Program

/-! ### Declarations -/

/-- A register for a variable is handed out whatever the variable is called. -/
theorem RegisterPool.carries_takeNamed (φ : Relabelling) (name : String) :
    φ.Carries (takeNamed name) (takeNamed (φ.name name)) := by
  refine .bind rfl fun pool => .guard .rfl rfl (.guard .rfl rfl ?_)
  rfl

/-- The same registers under other names. -/
def Relabelling.bindings (φ : Relabelling) (symbols : List (String × Register)) :
    List (String × Register) :=
  symbols.map (Prod.map φ.name id)

/-- Other lines do not change the names. -/
theorem Relabelling.lines_bindings (g : UInt64 → UInt64) (symbols : List (String × Register)) :
    (lines g).bindings symbols = symbols :=
  List.map_id symbols

/-- A variable has under its new name the register that it had. -/
theorem Relabelling.lookup_bindings (φ : Relabelling) (symbols : List (String × Register))
    (name : String) : (φ.bindings symbols).lookup (φ.name name) = symbols.lookup name := by
  unfold bindings
  induction symbols with
  | nil => rfl
  | cons x rest ih =>
    have hsame : (φ.name name == φ.name x.1) = (name == x.1) := by
      rw [Bool.eq_iff_iff, beq_iff_eq, beq_iff_eq, φ.injective.eq_iff]
    rw [List.map_cons, List.lookup_cons, List.lookup_cons, ih, Prod.map_fst, Prod.map_snd, hsame,
      id]

namespace SymbolTable

variable {φ : Relabelling} {table table' : SymbolTable}

/-- A variable is found under its new name, with its register. -/
private theorem register_find?_of_bindings (h : table'.bindings = φ.bindings table.bindings)
    (name : String) : (table'.find? (φ.name name)).map Symbol.register =
      (table.find? name).map Symbol.register := by
  rw [← lookup_bindings, ← lookup_bindings, h, φ.lookup_bindings]

/-- Variables are declared alike: they get the same registers under their new names, or the same one
is refused. -/
def Alike (φ : Relabelling) (r r' : EStateM.Result Diagnostic RegisterPool SymbolTable) : Prop :=
  (∃ d pool, r = .error d pool ∧ r' = .error (φ.diagnostic d) pool) ∨
    ∃ table table' pool, r = .ok table pool ∧ r' = .ok table' pool ∧
      table'.bindings = φ.bindings table.bindings

/-- One declaration is made alike under another name. -/
private theorem declare_alike (h : table'.bindings = φ.bindings table.bindings) {d d' : Declaration}
    (hname : d'.name = φ.name d.name) (hline : d'.line = φ.line d.line) (pool : RegisterPool) :
    Alike φ (table.declare d pool) (table'.declare d' pool) := by
  have hknown : (table'.find? d'.name).isSome = (table.find? d.name).isSome := by
    rw [hname, ← Option.isSome_map, register_find?_of_bindings h, Option.isSome_map]
  unfold declare
  rw [hknown, hname, hline]
  by_cases hdeclared : (table.find? d.name).isSome = true
  · rw [if_pos hdeclared, if_pos hdeclared]
    exact .inl ⟨_, pool, rfl, rfl⟩
  rw [if_neg hdeclared, if_neg hdeclared]
  have hcarries := (RegisterPool.carries_takeNamed φ d.name).locate d.line
  cases htake : EStateM.adaptExcept (Diagnostic.locate d.line) (RegisterPool.takeNamed d.name)
    pool with
  | error e pool' =>
    exact .inl ⟨e, pool', run_bind_of_error htake, run_bind_of_error (hcarries.of_error htake)⟩
  | ok r pool' =>
    refine .inr ⟨_, _, pool', run_bind_of_ok htake, run_bind_of_ok (hcarries.of_ok htake), ?_⟩
    -- both tables get the variable at the end, with the same register
    rw [bindings, bindings, Relabelling.bindings] at h
    rw [bindings, bindings, Relabelling.bindings, List.map_append, List.map_append, h,
      List.map_append]
    rfl

/-- All declarations are made alike under other names, one after another. -/
private theorem foldlM_declare_alike {ds ds' : List Declaration}
    (hds : List.Forall₂ (fun d d' => d'.name = φ.name d.name ∧ d'.line = φ.line d.line) ds ds')
    (h : table'.bindings = φ.bindings table.bindings) (pool : RegisterPool) :
    Alike φ (ds.foldlM declare table pool) (ds'.foldlM declare table' pool) := by
  induction hds generalizing table table' pool with
  | nil => exact .inr ⟨table, table', pool, rfl, rfl, h⟩
  | cons hd _ ih =>
    rw [List.foldlM_cons, List.foldlM_cons]
    rcases declare_alike h hd.1 hd.2 pool with
      ⟨e, pool', hdeclare, hdeclare'⟩ | ⟨next, next', pool', hdeclare, hdeclare', hnext⟩
    · exact .inl ⟨e, pool', run_bind_of_error hdeclare, run_bind_of_error hdeclare'⟩
    · rw [run_bind_of_ok hdeclare, run_bind_of_ok hdeclare']
      exact ih hnext pool'

/-- The variables of a program are declared alike under other names. -/
private theorem ofDeclarations_alike {ds ds' : List Declaration}
    (hds : List.Forall₂ (fun d d' => d'.name = φ.name d.name ∧ d'.line = φ.line d.line) ds ds')
    (pool : RegisterPool) : Alike φ (ofDeclarations ds pool) (ofDeclarations ds' pool) :=
  foldlM_declare_alike hds rfl pool

end SymbolTable

/-! ### Linking and checking -/

/-- Linking does not look at the registers and names that it puts into the program. -/
private theorem Code.link_congr (base : AddressBase) (registers registers' : Array Nat)
    (symbols symbols' : List (String × Register)) (fragments : List Fragment) :
    link base registers' symbols' fragments =
      (link base registers symbols fragments).map
        fun q => { q with registers := registers', symbols := symbols' } := by
  simp only [link, bind, Except.bind]
  cases labelAddresses base.first (join fragments).labels with
  | error problem => rfl
  | ok addresses =>
    dsimp only
    cases fillHoles addresses (join fragments).holes ((join fragments).code.toArray.push .hlt) with
    | error problem => rfl
    | ok code => rfl

/-- A linked program has the registers that it was given. -/
private theorem Code.registers_of_link {base : AddressBase} {registers : Array Nat}
    {symbols : List (String × Register)} {fragments : List Fragment} {q : Program}
    (h : link base registers symbols fragments = .ok q) : q.registers = registers := by
  have hsame := link_congr base registers registers symbols symbols fragments
  rw [h] at hsame
  exact congrArg Program.registers (Except.ok.inj hsame)

/-- The compilation with its program started from other counts. -/
def Compilation.withRegisters (c : Compilation) (registers : Array Nat) : Compilation :=
  { c with program := { c.program with registers } }

/-- The compilation with other names for its program's variables. -/
def Compilation.withSymbols (c : Compilation) (symbols : List (String × Register)) : Compilation :=
  { c with program := { c.program with symbols } }

/-- The second half of a compilation looks at the variables only to start them and to list them. -/
private theorem finishProgram_congr {o : Options} {table : SymbolTable} {f : Fragment}
    {state : Emit.State}
    {c : Compilation} (h : finishProgram o table f state = .ok c) (table' : SymbolTable) :
    finishProgram o table' f state = .ok ((c.withSymbols table'.bindings).withRegisters
      (table'.initialRegisters c.program.registers.size)) := by
  obtain ⟨n, g, program, report, hn, hg, hlink, hcheck, rfl⟩ := exists_of_finishProgram h
  have hsize : program.registers.size = n := by
    rw [registers_of_link hlink, SymbolTable.size_initialRegisters]
  have hlink' := link_congr o.base (table.initialRegisters n) (table'.initialRegisters n)
    table.bindings table'.bindings [g]
  rw [hlink] at hlink'
  have hsize' : (table'.initialRegisters n).size = program.registers.size := by
    rw [SymbolTable.size_initialRegisters, hsize]
  -- the check looks at the number of registers and not at what is in them
  have hcheck' := (Program.check_congr hsize' table'.bindings o.limit false).trans hcheck
  simp only [finishProgram, hn, hg, hlink', hcheck', bind, Except.bind, Except.map, Except.mapError,
    Option.elim, hsize]
  rfl

/-! ### Compiling -/

/-- The register file of a given size that a program starts from: the declared values in order, and
zeros after them. -/
def Source.Program.startingFile (p : Source.Program) (size : Nat) : File :=
  Array.ofFn fun k : Fin size => (p.declarations[k.val]?.map (·.value.toNat)).getD 0

/-- A program starts with the declared values and with zeros. -/
private theorem Source.Program.val_startingFile (p : Source.Program) {size k : Nat}
    (hk : k < size) :
    (p.startingFile size).val ⟨k + 1⟩ = (p.declarations[k]?.map (·.value.toNat)).getD 0 := by
  simp [File.val, startingFile, Register.index, Array.getD_eq_getD_getElem?, hk]

/-- A register file that holds the declared values of a program in the registers of its variables,
and nothing else, is the one that the program starts from. -/
private theorem SymbolTable.Orderly.eq_startingFile {table : SymbolTable} (ht : table.Orderly)
    {p : Source.Program} {file : File} (hlength : p.declarations.length = table.symbols.length)
    (hempty : ∀ r : Register, table.symbols.length < r.id → file.val r = 0)
    (hval : ∀ (k : Nat) (s : Symbol), table.symbols[k]? = some s →
      ∃ d ∈ p.declarations[k]?, file.val s.register = d.value.toNat) :
    file = p.startingFile file.size := by
  refine File.ext Array.size_ofFn.symm fun r hr => ?_
  obtain ⟨k, rfl⟩ : ∃ k, r = ⟨k + 1⟩ :=
    ⟨r.index, congrArg Register.mk (Nat.succ_pred_eq_of_pos hr.1).symm⟩
  rw [p.val_startingFile hr.2]
  cases hs : table.symbols[k]? with
  | none =>
    -- a register after those of the variables
    have hk : table.symbols.length ≤ k := List.getElem?_eq_none_iff.mp hs
    rw [hempty _ (Nat.lt_succ_of_le hk), List.getElem?_eq_none (hlength ▸ hk)]
    rfl
  | some s =>
    have hk : k < table.symbols.length := (List.getElem?_eq_some_iff.mp hs).1
    have hown : s.register = ⟨k + 1⟩ := by
      have hregister := congrArg (·[k]?) ht.registers
      simp only [List.getElem?_map, hs, Option.map_some] at hregister
      simpa [registersBetween, List.getElem?_range', hk, Nat.add_comm] using hregister
    obtain ⟨d, hd, heq⟩ := hval k s hs
    rw [← hown, heq, Option.mem_def.mp hd]
    rfl

section Lists

variable {table : SymbolTable} {p : Source.Program} {size : Nat}

/-- There is a symbol for each declaration. -/
theorem SymbolTable.Lists.length_eq (h : table.Lists p) :
    p.declarations.length = table.symbols.length := by
  simpa using (congrArg List.length h.entries).symm

/-- The variable at an index of the table is the one that is declared there. -/
private theorem SymbolTable.Lists.exists_declaration (h : table.Lists p) {k : Nat} {s : Symbol}
    (hs : table.symbols[k]? = some s) :
    ∃ d ∈ p.declarations[k]?, d.name = s.name ∧ d.value = s.initial := by
  have hentry := congrArg (·[k]?) h.entries
  simp only [List.getElem?_map, hs, Option.map_some] at hentry
  obtain ⟨d, hd, heq⟩ := Option.map_eq_some_iff.mp hentry.symm
  exact ⟨d, hd, Prod.mk.inj heq⟩

/-- The register file that the symbols give is the one that the program starts from. -/
private theorem SymbolTable.Lists.initialRegisters_eq (h : table.Lists p)
    (hsize : table.symbols.length ≤ size) : table.initialRegisters size = p.startingFile size := by
  have hstart := h.orderly.eq_startingFile h.length_eq
    (fun r hr => h.orderly.val_initialRegisters_of_lt hsize hr) fun k s hs => by
      obtain ⟨d, hd, -, hvalue⟩ := h.exists_declaration hs
      refine ⟨d, hd, ?_⟩
      rw [h.orderly.val_initialRegisters (List.mem_of_getElem? hs) hsize, hvalue]
  rwa [SymbolTable.size_initialRegisters] at hstart

end Lists

namespace Relabelling

variable {φ : Relabelling} {p p' : Source.Program}

/-- Programs that differ in their labels and in the declared values only. -/
structure Relates (φ : Relabelling) (p p' : Source.Program) : Prop where
  declarations : List.Forall₂ (fun d d' => d'.name = φ.name d.name ∧ d'.line = φ.line d.line)
    p.declarations p'.declarations
  body : p'.body = φ.block p.body

namespace Relates

/-- The first half of a compilation fails alike, or gives the same code. -/
private theorem emitProgram_alike (h : φ.Relates p p') (o : Options) :
    (∃ d, emitProgram o p = .error d ∧ emitProgram o p' = .error (φ.diagnostic d)) ∨
      ∃ table table' f state, emitProgram o p = .ok (table, f, state) ∧
        emitProgram o p' = .ok (table', f, state) ∧
        table'.bindings = φ.bindings table.bindings := by
  cases hvalid : o.validate with
  | error problem =>
    refine .inl ⟨.invalidOptions problem, ?_, ?_⟩ <;>
      simp only [emitProgram, hvalid, bind, Except.bind, Except.mapError]
    rfl
  | ok _ =>
    rcases SymbolTable.ofDeclarations_alike h.declarations (.withNamed o.registerPool 0) with
      ⟨d, pool, hdeclare, hdeclare'⟩ | ⟨table, table', pool, hdeclare, hdeclare', hbindings⟩
    · exact .inl ⟨d, emitProgram_of_declarations_error hvalid hdeclare,
        emitProgram_of_declarations_error hvalid hdeclare'⟩
    have hviews : φ.Views { symbols := table, limit := o.limit }
        { symbols := table', limit := o.limit } :=
      ⟨SymbolTable.register_find?_of_bindings hbindings, rfl, rfl⟩
    have hblock := Emit.carries_block hviews p.body
    rw [emitProgram_of_declarations hvalid hdeclare, emitProgram_of_declarations hvalid hdeclare',
      h.body]
    cases hrun : Emit.block { symbols := table, limit := o.limit } p.body { pool } with
    | error d state =>
      rw [outcome_of_error hrun, outcome_of_error (hblock.of_error hrun)]
      exact .inl ⟨d, rfl, rfl⟩
    | ok f state =>
      rw [outcome_of_ok hrun, outcome_of_ok (hblock.of_ok hrun)]
      exact .inr ⟨table, table', f, state, rfl, rfl, hbindings⟩

/-- A compilation gives that of every program that differs in labels and in declared values only. -/
theorem compile_eq (h : φ.Relates p p') (o : Options) :
    compile o p' = ((compile o p).map fun c =>
      (c.withSymbols (φ.bindings c.program.symbols)).withRegisters
        (p'.startingFile c.program.registers.size)).mapError φ.diagnostic := by
  have hspec := emitProgram_spec o p
  have hspec' := emitProgram_spec o p'
  rcases h.emitProgram_alike o with
    ⟨d, hemit, hemit'⟩ | ⟨table, table', f, state, hemit, hemit', hbindings⟩
  · rw [Abacus.compile_eq, Abacus.compile_eq, hemit, hemit']
    rfl
  rw [hemit] at hspec
  rw [hemit'] at hspec'
  obtain ⟨c, g, hfinish, hsize, htranslation⟩ := hspec.finishProgram_ok
  have hlength : table'.symbols.length ≤ c.program.registers.size :=
    hsize ▸ hspec'.lowers.packed.used_le
  have hfile := hspec'.lists.initialRegisters_eq hlength
  have hfinish' := finishProgram_congr hfinish table'
  rw [hbindings, ← htranslation.symbols, hfile] at hfinish'
  have hcompile : compile o p = .ok c := by
    rw [Abacus.compile_eq, hemit]
    exact hfinish
  rw [hcompile, Abacus.compile_eq, hemit']
  exact hfinish'

end Relates

/-- A program with other labels differs in labels only. -/
private theorem relates_program (φ : Relabelling) (p : Source.Program) :
    φ.Relates p (φ.program p) where
  declarations := by
    rw [program, List.forall₂_map_right_iff, List.forall₂_same]
    exact fun d _ => ⟨rfl, rfl⟩
  body := rfl

/-- A program with other labels starts with the same counts. -/
private theorem startingFile_program (φ : Relabelling) (p : Source.Program) (size : Nat) :
    (φ.program p).startingFile size = p.startingFile size := by
  simp [Source.Program.startingFile, program, declaration, Function.comp_def]

end Relabelling

/-- A compiled program starts with the declared values. -/
theorem startingFile_of_compile {o : Options} {p : Source.Program} {c : Compilation}
    (h : compile o p = .ok c) :
    p.startingFile c.program.registers.size = c.program.registers := by
  obtain ⟨table, f, g, htranslation⟩ := exists_translation h
  rw [← htranslation.lists.initialRegisters_eq htranslation.length_le, ← htranslation.registers]

/-- **Labels.** A program with other labels compiles to the same program with other names for its
variables, or fails with the relabelled diagnostic. -/
theorem Relabelling.compile_program (φ : Relabelling) (o : Options) (p : Source.Program) :
    compile o (φ.program p) = ((compile o p).map fun c =>
      c.withSymbols (φ.bindings c.program.symbols)).mapError φ.diagnostic := by
  rw [(φ.relates_program p).compile_eq o]
  cases hcompile : compile o p with
  | error d => rfl
  | ok c =>
    simp only [Except.map, Except.mapError, startingFile_program, startingFile_of_compile hcompile]
    rfl

/-! ### Declared values -/

/-- The declaration with another value, if its variable is set. The later of two settings wins. -/
def Source.Declaration.override (settings : List (String × UInt64)) (d : Declaration) :
    Declaration :=
  { d with value := (settings.reverse.lookup d.name).getD d.value }

namespace Source.Program

/-- The program without its declared values. -/
def blank (p : Source.Program) : Source.Program :=
  { p with declarations := p.declarations.map fun d => { d with value := 0 } }

/-- The program with some variables declared with other values. -/
def override (p : Source.Program) (settings : List (String × UInt64)) : Source.Program :=
  { p with declarations := p.declarations.map (Declaration.override settings) }

/-- To declare other values does not change what else there is. -/
private theorem blank_override (p : Source.Program) (settings : List (String × UInt64)) :
    (p.override settings).blank = p.blank := by
  simp [blank, override, Declaration.override, Function.comp_def]

/-- Programs that are the same without their values differ in these only. -/
private theorem relates_of_blank_eq {p p' : Source.Program} (h : p'.blank = p.blank) :
    (Relabelling.lines id).Relates p p' where
  declarations := by
    have hsame := congrArg Source.Program.declarations h
    rw [blank, blank, ← List.forall₂_eq_eq_eq, List.forall₂_map_left_iff,
      List.forall₂_map_right_iff] at hsame
    refine hsame.flip.imp fun d d' heq => ?_
    obtain ⟨hname, -, hline⟩ := Declaration.mk.inj heq
    exact ⟨hname, hline⟩
  body := by
    rw [Relabelling.lines_id_block]
    exact (congrArg Source.Program.body h :)

end Source.Program

/-- Programs that differ in declared values only compile to programs that differ in the counts they
start from. -/
private theorem compile_eq_of_blank_eq {p p' : Source.Program} (h : p'.blank = p.blank)
    (o : Options) :
    compile o p' = (compile o p).map fun c =>
      c.withRegisters (p'.startingFile c.program.registers.size) := by
  rw [(Source.Program.relates_of_blank_eq h).compile_eq o]
  cases compile o p with
  | error d => exact congrArg Except.error (Relabelling.lines_id_diagnostic d)
  | ok c =>
    simp only [Except.map, Except.mapError, Relabelling.lines_bindings]
    rfl

/-! ### Runs from other values -/

/-- Of several settings of a variable the last one counts. -/
private theorem foldl_set_apply (env : Env) (settings : List (String × UInt64)) (name : String) :
    (settings.map (Prod.map id UInt64.toNat)).foldl (fun env x => env.set x.1 x.2) env name =
      ((settings.reverse.lookup name).map UInt64.toNat).getD (env name) := by
  -- the last setting wins, so it is the one to take off
  induction settings using List.reverseRecOn with
  | nil => rfl
  | append_singleton rest x ih =>
    rw [List.map_append, List.foldl_append, List.reverse_append, List.reverse_singleton,
      List.singleton_append, List.lookup_cons]
    by_cases hname : name = x.1
    · rw [beq_iff_eq.mpr hname, hname]
      exact Env.set_self _ _ _
    · rw [beq_false_of_ne hname]
      exact (Env.set_of_ne _ _ hname).trans ih

/-- Starting a compiled program with other values is starting it from the register file of the
program that declares them. -/
private theorem withValues_eq_override {o : Options} {p : Source.Program} {c : Compilation}
    (hcompile : compile o p = .ok c) {settings : List (String × UInt64)}
    (hsettings : ∀ x ∈ settings, x.1 ∈ p.names) :
    c.program.withValues (settings.map (Prod.map id UInt64.toNat)) =
      .ok ((p.override settings).startingFile c.program.registers.size) := by
  obtain ⟨table, f, g, h⟩ := exists_translation hcompile
  have hstart : ∀ x ∈ settings.map (Prod.map id UInt64.toNat), x.1 ∈ p.names ∧ x.2 < wordBound := by
    intro x hx
    obtain ⟨y, hy, rfl⟩ := List.mem_map.mp hx
    exact ⟨hsettings y hy, y.2.toNat_lt⟩
  obtain ⟨file, hfile, hsize, hclean, henv⟩ := h.exists_start hstart
  rw [hfile, ← hsize]
  refine congrArg Except.ok (h.lists.orderly.eq_startingFile ?_ hclean.empty fun k s hs => ?_)
  · rw [Source.Program.override, List.length_map, h.lists.length_eq]
  · obtain ⟨d, hd, hname, hvalue⟩ := h.lists.exists_declaration hs
    have hmem := List.mem_of_getElem? hs
    refine ⟨d.override settings, ?_, ?_⟩
    · rw [Source.Program.override, List.getElem?_map, Option.mem_def.mp hd]
      rfl
    · rw [henv s hmem, Source.Program.initialWith, foldl_set_apply, h.lists.initial_eq hmem,
        Declaration.override, hname, hvalue]
      cases settings.reverse.lookup s.name <;> rfl

/-- The variables of a compiled program are those that are declared. -/
private theorem registerOf?_isNone_of_compile {o : Options} {p : Source.Program} {c : Compilation}
    (hcompile : compile o p = .ok c) (name : String) :
    (c.program.registerOf? name).isNone ↔ name ∉ p.names := by
  obtain ⟨table, f, g, h⟩ := exists_translation hcompile
  rw [Machine.Program.registerOf?, h.symbols, SymbolTable.lookup_bindings, Option.isNone_map,
    Option.isNone_iff_eq_none, SymbolTable.find?_eq_none_iff, h.lists.names_eq]

/-- A run does not look at the register file that the program itself starts from. -/
private theorem Machine.Program.runFrom_withRegisters (q : Program) (registers : Array Nat)
    (limit left : Nat) (config : Config) :
    ({ q with registers } : Program).runFrom limit left config = q.runFrom limit left config := by
  induction left generalizing config with
  | zero => rfl
  | succ left ih =>
    have hstep : ({ q with registers } : Program).step config = q.step config := rfl
    simp only [runFrom, hstep, ih]

/-- A run that is started with other values is a run of the program that declares them. The first
value for a variable that is not declared stops it. -/
theorem runWith_eq_run_override {o : Options} {p : Source.Program} {c : Compilation}
    (hcompile : compile o p = .ok c) (settings : List (String × UInt64)) (limit : Nat) :
    c.program.runWith limit (settings.map (Prod.map id UInt64.toNat)) =
      (settings.find? (·.1 ∉ p.names)).elim
        ((c.withRegisters ((p.override settings).startingFile c.program.registers.size)).program.run
          limit)
        fun x => .error (.unknownVariable x.1) := by
  rw [Program.runWith]
  cases hfind : settings.find? (·.1 ∉ p.names) with
  | none =>
    have hsettings : ∀ x ∈ settings, x.1 ∈ p.names := by simpa using hfind
    rw [withValues_eq_override hcompile hsettings]
    exact (c.program.runFrom_withRegisters _ limit limit _).symm
  | some x =>
    have herror : c.program.withValues (settings.map (Prod.map id UInt64.toNat)) =
        .error (.unknownVariable x.1) := by
      refine Program.withValues_eq_error_iff.mpr ⟨Prod.map id UInt64.toNat x, ?_, rfl⟩
      have hundeclared : (fun x : String × Nat => (c.program.registerOf? x.1).isNone) ∘
          Prod.map id UInt64.toNat = fun x : String × UInt64 => decide (x.1 ∉ p.names) := by
        funext y
        rw [Bool.eq_iff_iff, decide_eq_true_iff]
        exact registerOf?_isNone_of_compile hcompile y.1
      rw [List.find?_map, hundeclared, hfind]
      rfl
    rw [herror]
    rfl

/-- **Only the structure of a program matters.** Programs that differ in declared values only fail
to compile with the same diagnostic or compile to programs that differ in the counts they start
from; and starting a compiled program with other values is running the program that declares them.
Under other names for its variables, a program compiles to the same program with the other names, or
fails with the diagnostic that has them. -/
theorem compile_structure_only (o : Options) (p : Source.Program) :
    (∀ p' : Source.Program, p'.blank = p.blank →
      compile o p' = (compile o p).map fun c =>
        c.withRegisters (p'.startingFile c.program.registers.size)) ∧
    (∀ c, compile o p = .ok c → ∀ settings : List (String × UInt64),
      ∃ c', compile o (p.override settings) = .ok c' ∧ ∀ limit,
        c.program.runWith limit (settings.map (Prod.map id UInt64.toNat)) =
          (settings.find? (·.1 ∉ p.names)).elim (c'.program.run limit)
            fun x => .error (.unknownVariable x.1)) ∧
    ∀ ρ (hρ : Function.Injective ρ),
      compile o ((Relabelling.names ρ hρ).program p) =
        ((compile o p).map fun c => c.withSymbols (c.program.symbols.map (Prod.map ρ id))).mapError
          (Relabelling.names ρ hρ).diagnostic := by
  refine ⟨fun p' hp' => compile_eq_of_blank_eq hp' o, fun c hcompile settings => ?_, fun ρ hρ => ?_⟩
  · refine ⟨_, ?_, runWith_eq_run_override hcompile settings⟩
    rw [compile_eq_of_blank_eq (p.blank_override settings) o, hcompile]
    rfl
  · exact (Relabelling.names ρ hρ).compile_program o p

theorem compile_structure_triangle :
    ∃ c, compile {} triangle = .ok c ∧
      (triangle.override [("n", 9)]).blank = triangle.blank ∧
      compile {} (triangle.override [("n", 9)]) =
        .ok (c.withRegisters
          ((triangle.override [("n", 9)]).startingFile c.program.registers.size)) ∧
      (∃ c', compile {} (triangle.override [("sum", 7), ("i", 1), ("sum", 8)]) = .ok c' ∧ ∀ limit,
        c.program.runWith limit [("sum", 7), ("i", 1), ("sum", 8)] = c'.program.run limit) ∧
      Function.Injective (Equiv.swap "n" "sum") ∧
      compile {} ((Relabelling.names _ (Equiv.swap "n" "sum").injective).program triangle) =
        .ok (c.withSymbols (c.program.symbols.map (Prod.map (Equiv.swap "n" "sum") id))) := by
  obtain ⟨c, hcompile⟩ := exists_compile_triangle
  have hblank : (triangle.override [("n", 9)]).blank = triangle.blank :=
    triangle.blank_override [("n", 9)]
  obtain ⟨hvalues, hruns, hnames⟩ := compile_structure_only {} triangle
  have hvalues := hvalues _ hblank
  obtain ⟨c', hcompile', hrun⟩ := hruns c hcompile [("sum", 7), ("i", 1), ("sum", 8)]
  have hnames := hnames _ (Equiv.swap "n" "sum").injective
  rw [hcompile] at hvalues hnames
  refine ⟨c, hcompile, hblank, hvalues, ⟨c', hcompile', fun limit => (hrun limit).trans ?_⟩,
    (Equiv.swap "n" "sum").injective, hnames⟩
  have hdeclared : [("sum", (7 : UInt64)), ("i", 1), ("sum", 8)].find?
      (·.1 ∉ triangle.names) = none := by
    decide +kernel
  rw [hdeclared]
  rfl

end Abacus
