import Abacus.Proofs.Compilation

/-!
# How instructions are numbered

Instructions are numbered from zero or from one. A program that is numbered from zero has a copy
that is numbered from one: every jump target is one larger and all else is the same
(`Program.fromOne`). The copy does the same, step by step and address by address
(`Program.step_fromOne`), so runs of the two end alike, and what an inspection counts in them is the
same. Linking gives the copy when it is asked to number from one, and so does compiling
(`compile_from_one`).
-/

namespace Abacus

namespace Machine

/-! ### Larger addresses -/

/-- The instruction with other targets. -/
def Instr.mapTargets (f : Nat → Nat) : Instr → Instr
  | .jmp target => .jmp (f target)
  | .tst r ifNonzero ifZero => .tst r (f ifNonzero) (f ifZero)
  | .inc r => .inc r
  | .dec r => .dec r
  | .hlt => .hlt

/-- The fault at another address. -/
def Fault.mapAddress (f : Nat → Nat) : Fault → Fault
  | .decrementOfZero r a => .decrementOfZero r (f a)
  | .badAddress a => .badAddress (f a)
  | .badRegister r a => .badRegister r (f a)
  | .overflow r a => .overflow r (f a)
  | .stepLimitExceeded limit => .stepLimitExceeded limit
  | .unknownVariable name => .unknownVariable name

/-- The configuration a number of addresses later. -/
def Config.shift (d : Nat) (c : Config) : Config := ⟨c.address + d, c.registers⟩

/-- The outcome of a step with all addresses larger by a number. -/
def Outcome.shift (d : Nat) : Outcome → Outcome
  | .next c => .next (c.shift d)
  | .halted file => .halted file
  | .fault f => .fault (f.mapAddress (· + d))

/-- The same program with its instructions numbered from one, if they were numbered from zero. -/
def Program.fromOne (p : Program) : Program :=
  { p with code := p.code.map (Instr.mapTargets (· + 1)), base := .one }

private theorem Program.eq_fromOne {p q : Program} (hcode : q.code = p.fromOne.code)
    (hregisters : q.registers = p.registers) (hsymbols : q.symbols = p.symbols)
    (hbase : q.base = .one) : q = p.fromOne := by
  cases q
  simp_all [fromOne]

private theorem Instr.mapTargets_of_targets_eq_nil {i : Instr} (h : i.targets = [])
    (f : Nat → Nat) :
    i.mapTargets f = i := by
  cases i with
  | jmp target => cases h
  | tst r ifNonzero ifZero => cases h
  | _ => rfl

/-- An instruction does the same wherever it stands, if its targets are moved with it. -/
theorem Instr.perform_mapTargets (i : Instr) (d a : Nat) (file : File) :
    (i.mapTargets (· + d)).perform ⟨a + d, file⟩ = (i.perform ⟨a, file⟩).shift d := by
  have hread : ∀ r, (Config.mk (a + d) file).read? r = (Config.mk a file).read? r := fun _ => rfl
  have hnext : a + d + 1 = a + 1 + d := Nat.add_right_comm a d 1
  cases i with
  | inc r =>
    simp only [mapTargets, perform, hread, hnext]
    cases (Config.mk a file).read? r with
    | none => rfl
    | some n => by_cases hn : n + 1 < wordBound <;> simp only [hn, if_true, if_false, Outcome.shift,
        Config.shift, Fault.mapAddress]
  | dec r =>
    simp only [mapTargets, perform, hread, hnext]
    rcases (Config.mk a file).read? r with _ | _ | n <;> rfl
  | tst r ifNonzero ifZero =>
    simp only [mapTargets, perform, hread]
    rcases (Config.mk a file).read? r with _ | _ | n <;> rfl
  | jmp target => rfl
  | hlt => rfl

namespace Program

variable {p : Program}

/-! ### Runs -/

/-- Numbered from one, every instruction is at the next address, and so are its targets. -/
private theorem fetch?_fromOne (hp : p.base = .zero) (a : Nat) :
    p.fromOne.fetch? (a + 1) = (p.fetch? a).map (Instr.mapTargets (· + 1)) := by
  simp [fetch?, fromOne, hp, AddressBase.first]

/-- One step. -/
theorem step_fromOne (hp : p.base = .zero) (a : Nat) (file : File) :
    p.fromOne.step ⟨a + 1, file⟩ = (p.step ⟨a, file⟩).shift 1 := by
  simp only [step, fetch?_fromOne hp]
  cases p.fetch? a with
  | none => rfl
  | some i => exact i.perform_mapTargets 1 a file

/-- Any number of steps. -/
private theorem runFrom_fromOne (hp : p.base = .zero) (limit left a : Nat) (file : File) :
    p.fromOne.runFrom limit left ⟨a + 1, file⟩ =
      (p.runFrom limit left ⟨a, file⟩).mapError (Fault.mapAddress (· + 1)) := by
  induction left generalizing a file with
  | zero => rfl
  | succ left ih =>
    simp only [runFrom, step_fromOne hp]
    cases p.step ⟨a, file⟩ with
    | next c => exact ih c.address c.registers
    | halted file' => rfl
    | fault f => rfl

/-- Numbered from one, a run is the same, and a fault is at the next address. -/
private theorem runOn_fromOne (hp : p.base = .zero) (limit : Nat) (file : File) :
    p.fromOne.runOn limit file = (p.runOn limit file).mapError (Fault.mapAddress (· + 1)) := by
  have hrun := runFrom_fromOne hp limit limit 0 file
  rw [runOn, runOn, hp]
  exact hrun

/-- Runs end alike, up to the address of a fault. -/
private theorem runWith_fromOne (hp : p.base = .zero) (limit : Nat)
    (settings : List (String × Nat)) :
    p.fromOne.runWith limit settings =
      (p.runWith limit settings).mapError (Fault.mapAddress (· + 1)) := by
  have hvalues : p.fromOne.withValues settings = p.withValues settings := rfl
  rw [runWith, runWith, hvalues]
  cases hstart : p.withValues settings with
  | error f =>
    obtain ⟨x, -, rfl⟩ := withValues_eq_error_iff.mp hstart
    rfl
  | ok file => exact runOn_fromOne hp limit file

/-! ### Inspection -/

private theorem indexOf?_fromOne (hp : p.base = .zero) (a : Nat) :
    p.fromOne.indexOf? (a + 1) = p.indexOf? a := by
  simp [indexOf?, fromOne, hp, AddressBase.first]

/-- Numbered from one, the control flow is the same. -/
private theorem successors_fromOne (hp : p.base = .zero) : p.fromOne.successors = p.successors := by
  funext k
  have hget : p.fromOne.code[k]? = p.code[k]?.map (Instr.mapTargets (· + 1)) := by simp [fromOne]
  rw [successors, successors, hget]
  rcases p.code[k]? with _ | i
  · rfl
  · cases i <;> simp only [Option.map_some, Instr.mapTargets, indexOf?_fromOne hp]

/-- Instructions are counted whatever their targets are. -/
private theorem countP_fromOne {test : Instr → Bool}
    (h : ∀ i, test (i.mapTargets (· + 1)) = test i) :
    p.fromOne.code.countP test = p.code.countP test := by
  rw [fromOne, Array.countP_map]
  exact congrArg (p.code.countP ·) (funext h)

/-- Programs without defects are reported on in the same way. -/
private theorem report_fromOne (hp : p.base = .zero) {limit : Option Nat} {report report' : Report}
    (h : p.check limit false = .ok report) (h' : p.fromOne.check limit false = .ok report') :
    report' = report := by
  obtain ⟨rfl, hdefects⟩ := defects_of_check h
  obtain ⟨rfl, hdefects'⟩ := defects_of_check h'
  have hsize : p.fromOne.code.size = p.code.size := Array.size_map
  have hdead := unreachableCount_congr hsize (successors_fromOne hp)
  rw [inspect, inspect, hdefects, hdefects', hdead, hsize, countP_fromOne, countP_fromOne]
  · rfl
  · rintro (_ | _ | _ | _ | _) <;> rfl
  · rintro (_ | _ | _ | _ | _) <;> rfl

end Program

end Machine

/-! ### Linking -/

namespace Code

open Machine

/-- Every label is at the next address. -/
private theorem Fragment.address_succ (f : Fragment) (first : Nat) (l : Label) :
    f.address (first + 1) l = f.address first l + 1 :=
  Nat.add_right_comm ..

private theorem Hole.mapTargets_patch {address address' : Label → Nat} {g : Nat → Nat} {h : Hole}
    {i : Instr} (hfit : h.Fits i) (haddress : ∀ l ∈ h.labels, address' l = g (address l)) :
    (h.patch address i).mapTargets g = h.patch address' i := by
  cases h with
  | jump k l =>
    obtain ⟨t, rfl⟩ := hfit.exists_eq_jmp
    simp only [patch, Instr.mapTargets, haddress l (by simp [labels])]
  | test k l l' =>
    obtain ⟨r, t, t', rfl⟩ := hfit.exists_eq_tst
    simp only [patch, Instr.mapTargets, haddress l (by simp [labels]),
      haddress l' (by simp [labels])]

/-- Two programs that hold one fragment hold the same code, up to where its labels are. -/
theorem Fragment.Placed.fetch?_shift {p q : Program} {f : Fragment} {address address' : Label → Nat}
    {a b d k : Nat} (h : f.Placed p address a) (h' : f.Placed q address' b) (hf : f.Holed)
    (haddress : ∀ l ∈ f.wanted, address' l = address l + d) (hk : k < f.size) :
    q.fetch? (b + k) = (p.fetch? (a + k)).map (Instr.mapTargets (· + d)) := by
  obtain ⟨i, hi⟩ : ∃ i, f.code[k]? = some i := ⟨_, List.getElem?_eq_getElem hk⟩
  rcases hf.cases hi with htargets | ⟨hole, hhole, rfl, hfit⟩
  · rw [h.straight k i hi htargets, h'.straight k i hi htargets, Option.map_some,
      Instr.mapTargets_of_targets_eq_nil htargets]
  · rw [h.fetch?_hole hhole hi hfit, h'.fetch?_hole hhole hi hfit, Option.map_some,
      Hole.mapTargets_patch hfit fun l hl => haddress l (List.mem_flatMap.mpr ⟨hole, hhole, hl⟩)]

/-- Programs that are linked from one fragment have the same code, up to how it is numbered. -/
private theorem Linked.code_fromOne {p q : Program} {f : Fragment} (h : Linked p f)
    (h' : Linked q f) (hf : f.WellFormed) (hp : p.base = .zero) (hq : q.base = .one) :
    q.code = p.fromOne.code := by
  have hfirst : q.base.first = p.base.first + 1 := by rw [hp, hq]; rfl
  refine Array.ext_getElem? fun k => ?_
  have hget : p.fromOne.code[k]? = p.code[k]?.map (Instr.mapTargets (· + 1)) := by
    simp [Program.fromOne]
  rw [hget, ← fetch?_first_add, ← fetch?_first_add]
  rcases Nat.lt_trichotomy k f.size with hlt | rfl | hgt
  · refine h.placed.fetch?_shift h'.placed hf.toHoled (fun l _ => ?_) hlt
    rw [hfirst, Fragment.address_succ]
  · rw [h.halt, h'.halt]
    rfl
  · rw [fetch?_first_add, fetch?_first_add,
      Array.getElem?_eq_none (Nat.le_trans (Nat.le_of_eq h.size) hgt),
      Array.getElem?_eq_none (Nat.le_trans (Nat.le_of_eq h'.size) hgt)]
    rfl

end Code

/-! ### Compiling -/

open Machine Code

/-- The compilation with its program numbered from one, if it was numbered from zero. -/
def Compilation.fromOne (c : Compilation) : Compilation := { c with program := c.program.fromOne }

section Compile

variable {o : Options} {p : Source.Program} {table : SymbolTable} {f : Fragment}
  {state : Emit.State} {c : Compilation}

/-- What the second half of a compilation links, and what it finds out about that. -/
theorem Emits.exists_linked (h : Emits o p table f state)
    (hfinish : finishProgram o table f state = .ok c) :
    ∃ n g report, state.pool.finish = .ok n ∧ f.optimize o.level = some g ∧ g.WellFormed ∧
      Linked c.program g ∧ c.program.registers = table.initialRegisters n ∧
      c.program.symbols = table.bindings ∧ c.program.base = o.base ∧
      c.program.check o.limit false = .ok report ∧
      c = ⟨c.program, f.size, f.size - g.size, report.stats, report.warnings⟩ := by
  obtain ⟨n, g, program, report, hn, hg, hlink, hcheck, rfl⟩ := exists_of_finishProgram hfinish
  obtain ⟨g', program', hg', hreplaces, -, hlink', hlinked, hprogram⟩ := h.exists_link n
  obtain rfl : g = g' := Option.some.inj (hg.symm.trans hg')
  obtain rfl : program = program' := Except.ok.inj (hlink.symm.trans hlink')
  obtain ⟨hregisters, hsymbols, hbase⟩ := hprogram
  exact ⟨n, g, report, hn, hg, hreplaces.wellFormed, hlinked, hregisters, hsymbols, hbase, hcheck,
    rfl⟩

/-- Emission does not look at how instructions are numbered. -/
private theorem Emits.withBase (h : Emits o p table f state) (base : AddressBase) :
    Emits { o with base } p table f state :=
  ⟨h.lists, h.supported, h.named, h.lowers, h.size_lt⟩

/-- The second half of a compilation gives the same program from one on. -/
private theorem Emits.finishProgram_from_one (h : Emits o p table f state) :
    finishProgram { o with base := .one } table f state =
      (finishProgram { o with base := .zero } table f state).map Compilation.fromOne := by
  obtain ⟨c, -, hfinish, -⟩ := (h.withBase .zero).finishProgram_ok
  obtain ⟨c', -, hfinish', -⟩ := (h.withBase .one).finishProgram_ok
  obtain ⟨n, g, report, hn, hg, hwell, hlinked, hregisters, hsymbols, hbase, hcheck, hc⟩ :=
    (h.withBase .zero).exists_linked hfinish
  obtain ⟨n', g', report', hn', hg', -, hlinked', hregisters', hsymbols', hbase', hcheck', hc'⟩ :=
    (h.withBase .one).exists_linked hfinish'
  -- both are linked from the same optimized code, with the same number of registers
  obtain rfl : n = n' := Except.ok.inj (hn.symm.trans hn')
  obtain rfl : g = g' := Option.some.inj (hg.symm.trans hg')
  have hprogram : c'.program = c.program.fromOne :=
    Program.eq_fromOne (hlinked.code_fromOne hlinked' hwell hbase hbase')
      (hregisters'.trans hregisters.symm) (hsymbols'.trans hsymbols.symm) hbase'
  rw [hprogram] at hcheck' hc'
  obtain rfl : report' = report := Program.report_fromOne hbase hcheck hcheck'
  rw [hfinish, hfinish', hc', Except.map, Compilation.fromOne, hc]

/-- A compiled program has its addresses from where the options say. -/
private theorem base_of_compile (h : compile o p = .ok c) : c.program.base = o.base := by
  obtain ⟨table, f, state, -, hemits, hfinish⟩ := exists_emitProgram_of_compile h
  obtain ⟨-, -, -, -, -, -, -, -, -, hbase, -⟩ := hemits.exists_linked hfinish
  exact hbase

end Compile

/-- **The base of addresses is only a numbering.** Whether instructions are numbered from zero or
from one, a compilation fails with the same diagnostic or gives the same, but for jump targets that
are one larger in the second case. Whatever the programs are started with, and however long they may
run, they end with the same registers after the same number of steps, or with the same fault at an
address that is one larger. -/
theorem compile_from_one (o : Options) (p : Source.Program) :
    compile { o with base := .one } p =
        (compile { o with base := .zero } p).map Compilation.fromOne ∧
      ∀ limit settings,
        (compile { o with base := .one } p).map (·.program.runWith limit settings) =
          (compile { o with base := .zero } p).map fun c =>
            (c.program.runWith limit settings).mapError (Fault.mapAddress (· + 1)) := by
  have hcompile : compile { o with base := .one } p =
      (compile { o with base := .zero } p).map Compilation.fromOne := by
    have hspec := emitProgram_spec o p
    have hsame : ∀ base, emitProgram { o with base } p = emitProgram o p := fun _ => rfl
    rw [compile_eq, compile_eq, hsame .one, hsame .zero]
    cases hemit : emitProgram o p with
    | error d => rfl
    | ok x =>
      rw [hemit] at hspec
      exact hspec.finishProgram_from_one
  refine ⟨hcompile, fun limit settings => ?_⟩
  rw [hcompile]
  cases hzero : compile { o with base := .zero } p with
  | error d => rfl
  | ok c =>
    exact congrArg Except.ok (Program.runWith_fromOne (base_of_compile hzero) limit settings)

end Abacus
