import Abacus.Proofs.Compilation

/-!
# Correctness of the compiler

Compiled programs do what their source programs mean. Their runs halt, are cut off or overflow, and
they overflow exactly where the source program comes to a sum that no variable can hold. The
compiler itself is never at fault when a compilation fails. All of it is read off the translation
that a compiled program is (`Translation`).
-/

namespace Abacus

open Machine Code
open Source hiding Program

/-! ### What a run shows -/

namespace Translation

variable {p : Source.Program} {c : Compilation} {table : SymbolTable} {f g : Fragment}
  {file file' : File} {env : Env}

/-- The values of variables can be read off the registers that a run leaves. -/
private theorem value?_eq (h : Translation p c table f g)
    (hsize : file.size = c.program.registers.size)
    (henv : table.Represents env file) {name : String} (hname : name ∈ p.names) (steps : Nat) :
    Execution.value? ⟨file, steps⟩ c.program name = some (env name) := by
  obtain ⟨s, hs⟩ := SymbolTable.exists_find?_of_mem (h.lists.names_eq ▸ hname)
  have hmem := SymbolTable.mem_of_find? hs
  have hhas : file.Has s.register := h.lists.orderly.has hmem (hsize ▸ h.length_le)
  rw [Execution.value?, Program.registerOf?, h.symbols, SymbolTable.lookup_bindings, hs,
    ← SymbolTable.name_eq_of_find? hs, ← henv s hmem]
  simp [Execution.register?, File.val, Array.getD_eq_getD_getElem?, hhas.index_lt]

/-- The registers after those of the variables are left empty. -/
private theorem scratch_eq_zero (h : Translation p c table f g)
    (hclean : file.Clean table.symbols.length)
    (steps : Nat) : ∀ n ∈ Execution.scratch ⟨file, steps⟩ c.program, n = 0 := by
  intro n hn
  have hlength : c.program.symbols.length = table.symbols.length := by
    rw [h.symbols, SymbolTable.bindings, List.length_map]
  rw [Execution.scratch, hlength] at hn
  obtain ⟨k, hk⟩ := List.mem_iff_getElem?.mp hn
  rw [List.getElem?_drop, Array.getElem?_toList] at hk
  have hzero := hclean.empty ⟨table.symbols.length + k + 1⟩
    (Nat.lt_succ_of_le (Nat.le_add_right _ k))
  simpa [File.val, Register.index, Array.getD_eq_getD_getElem?, hk] using hzero

end Translation

theorem Machine.Program.runWith_eq {q : Program} {settings : List (String × Nat)} {file : File}
    (h : q.withValues settings = .ok file) (limit : Nat) :
    q.runWith limit settings = q.runOn limit file := by
  rw [runWith, h]
  rfl

/-- **Compiler correctness.** Whatever the settings of a compilation, and whatever counts some of
the declared variables are started at: if the source program has a meaning from there, there is a
number of steps with which, and with any more, the compiled program halts. It takes that many steps,
leaves in every variable the value that the source program gives it, and leaves all scratch
registers empty. -/
theorem compile_correct {o : Options} {p : Source.Program} {c : Compilation}
    (hcompile : compile o p = .ok c) {settings : List (String × Nat)}
    (hsettings : ∀ x ∈ settings, x.1 ∈ p.names ∧ x.2 < wordBound) {env : Env}
    (heval : p.evalFrom (p.initialWith settings) = some env) :
    ∃ steps, ∀ limit ≥ steps, ∃ e, c.program.runWith limit settings = .ok e ∧ e.steps = steps ∧
      (∀ name ∈ p.names, e.value? c.program name = some (env name)) ∧
      ∀ n ∈ e.scratch c.program, n = 0 := by
  obtain ⟨table, f, g, h⟩ := exists_translation hcompile
  obtain ⟨file, hfile, hsize, hclean, henv⟩ := h.exists_start hsettings
  obtain ⟨n, file', hends, henv', hsame⟩ := h.halts hsize hclean henv heval
  refine ⟨n + 1, fun limit hlimit => ⟨⟨file', n + 1⟩, ?_, rfl, ?_, ?_⟩⟩
  · rw [Program.runWith_eq hfile]
    exact Program.runOn_of_halts hends hlimit
  · exact fun name hname => h.value?_eq (hsame.size_eq.trans hsize) henv' hname (n + 1)
  · exact h.scratch_eq_zero (hsame.clean hclean (Nat.le_refl _)) (n + 1)

/-- The sum of the numbers below `n`, and `n` less one where that is not zero. -/
def triangle : Source.Program where
  declarations := [⟨"n", 3, 1⟩, ⟨"sum", 0, 2⟩, ⟨"i", 0, 3⟩]
  body :=
    [.loop "i" (.var "n") [.assign "sum" (.binary .add (.var "sum") (.var "i")) 5] 4,
      .branch ⟨.var "sum", .gt, .lit 0⟩
        [.assign "n" (.binary .sub (.var "n") (.lit 1)) 7]
        [.assign "i" (.operand (.var "n")) 9] 6]

theorem exists_compile_triangle : ∃ c, compile {} triangle = .ok c :=
  exists_compile_eq_ok (by decide +kernel)

theorem compile_correct_triangle :
    ∃ c env, compile {} triangle = .ok c ∧
      (∀ x ∈ [("n", 5), ("sum", 7)], x.1 ∈ triangle.names ∧ x.2 < wordBound) ∧
      triangle.evalFrom (triangle.initialWith [("n", 5), ("sum", 7)]) = some env ∧
      ["n", "sum", "i"].map env = [4, 17, 4] ∧
      ∃ steps, ∀ limit ≥ steps, ∃ e, c.program.runWith limit [("n", 5), ("sum", 7)] = .ok e ∧
        e.steps = steps ∧ (∀ name ∈ triangle.names, e.value? c.program name = some (env name)) ∧
        ∀ n ∈ e.scratch c.program, n = 0 := by
  obtain ⟨c, hcompile⟩ := exists_compile_triangle
  have hsettings : ∀ x ∈ [("n", 5), ("sum", 7)], x.1 ∈ triangle.names ∧ x.2 < wordBound := by
    decide +kernel
  have hvalues : (triangle.evalFrom (triangle.initialWith [("n", 5), ("sum", 7)])).map
      ["n", "sum", "i"].map = some [4, 17, 4] := by
    decide +kernel
  obtain ⟨env, heval, hvalues⟩ := Option.map_eq_some_iff.mp hvalues
  exact ⟨c, env, hcompile, hsettings, heval, hvalues, compile_correct hcompile hsettings heval⟩

/-! ### Faults -/

/-- **Faults of compiled programs.** A run of a compiled program halts, is cut off by its step limit
or overflows, and nothing else. The source program has no meaning, since it comes to a sum that no
variable can hold, exactly where there is a number of steps that a run makes before it overflows:
all larger limits show the overflow, and all others cut the run off. So some step limit shows it,
which is a machine word, exactly where the source program has no meaning and not all of these limits
cut the run off. -/
theorem compiled_overflow_exact {o : Options} {p : Source.Program} {c : Compilation}
    (hcompile : compile o p = .ok c) {settings : List (String × Nat)}
    (hsettings : ∀ x ∈ settings, x.1 ∈ p.names ∧ x.2 < wordBound) :
    (∀ limit, (∃ e, c.program.runWith limit settings = .ok e) ∨
      c.program.runWith limit settings = .error (.stepLimitExceeded limit) ∨
      ∃ r a, c.program.runWith limit settings = .error (.overflow r a)) ∧
    (p.evalFrom (p.initialWith settings) = none ↔
      ∃ n r a, ∀ limit, c.program.runWith limit settings =
        if n < limit then .error (.overflow r a) else .error (.stepLimitExceeded limit)) ∧
    ((∃ limit < wordBound, ∃ r a, c.program.runWith limit settings = .error (.overflow r a)) ↔
      p.evalFrom (p.initialWith settings) = none ∧
        ∃ limit < wordBound,
          c.program.runWith limit settings ≠ .error (.stepLimitExceeded limit)) := by
  obtain ⟨table, f, g, h⟩ := exists_translation hcompile
  obtain ⟨file, hfile, hsize, hclean, henv⟩ := h.exists_start hsettings
  simp only [Program.runWith_eq hfile]
  cases heval : p.evalFrom (p.initialWith settings) with
  | some env =>
    obtain ⟨n, file', hends, -⟩ := h.halts hsize hclean henv heval
    -- a run ends in one way only, and this one halts
    have hnever : ∀ {limit r a}, c.program.runOn limit file ≠ .error (.overflow r a) := by
      intro limit r a hrun
      obtain ⟨m, -, hends'⟩ := Program.ends_of_runOn_error hrun (by simp)
      cases (hends.unique hends').2
    refine ⟨fun limit => ?_, ⟨nofun, ?_⟩, ?_, ?_⟩
    · rcases Nat.lt_or_ge n limit with hlt | hle
      · exact .inl ⟨_, Program.runOn_of_halts hends hlt⟩
      · exact .inr (.inl (hends.runOn_of_le hle))
    · rintro ⟨m, r, a, hrun⟩
      exact absurd ((hrun (m + 1)).trans (if_pos (Nat.lt_succ_self m))) hnever
    · rintro ⟨limit, -, r, a, hrun⟩
      exact absurd hrun hnever
    · rintro ⟨hnone, -⟩
      cases hnone
  | none =>
    obtain ⟨n, r, a, hends⟩ := h.overflows hsize hclean henv heval
    have hrun : ∀ limit, c.program.runOn limit file =
        if n < limit then .error (.overflow r a) else .error (.stepLimitExceeded limit) := by
      intro limit
      split
      next hlt => exact Program.runOn_of_faults hends hlt
      next hle => exact hends.runOn_of_le (Nat.not_lt.mp hle)
    refine ⟨fun limit => ?_, ⟨fun _ => ⟨n, r, a, hrun⟩, fun _ => rfl⟩, ?_, ?_⟩
    · rw [hrun]
      split
      · exact .inr (.inr ⟨r, a, rfl⟩)
      · exact .inr (.inl rfl)
    · rintro ⟨limit, hlimit, r', a', hoverflow⟩
      exact ⟨rfl, limit, hlimit, by simp [hoverflow]⟩
    · rintro ⟨-, limit, hlimit, hne⟩
      by_cases hlt : n < limit
      · exact ⟨limit, hlimit, r, a, (hrun limit).trans (if_pos hlt)⟩
      · exact absurd ((hrun limit).trans (if_neg hlt)) hne

/-- A variable is raised by one. -/
def brim : Source.Program where
  declarations := [⟨"x", 0, 1⟩]
  body := [.assign "x" (.binary .add (.var "x") (.lit 1)) 2]

theorem compiled_overflow_triangle :
    (∃ c, compile {} triangle = .ok c ∧
      (∀ x ∈ [("sum", wordBound - 1)], x.1 ∈ triangle.names ∧ x.2 < wordBound) ∧
      triangle.evalFrom (triangle.initialWith [("sum", wordBound - 1)]) = none ∧
      ∃ n r a, ∀ limit, c.program.runWith limit [("sum", wordBound - 1)] =
        if n < limit then .error (.overflow r a) else .error (.stepLimitExceeded limit)) ∧
    ∃ c, compile {} brim = .ok c ∧
      (∀ x ∈ [("x", wordBound - 1)], x.1 ∈ brim.names ∧ x.2 < wordBound) ∧
      c.program.runWith 1 [("x", wordBound - 1)] ≠ .error (.stepLimitExceeded 1) ∧
      ∃ limit < wordBound, ∃ r a,
        c.program.runWith limit [("x", wordBound - 1)] = .error (.overflow r a) := by
  constructor
  · obtain ⟨c, hcompile⟩ := exists_compile_triangle
    have hsettings :
        ∀ x ∈ [("sum", wordBound - 1)], x.1 ∈ triangle.names ∧ x.2 < wordBound := by
      decide +kernel
    have heval : triangle.evalFrom (triangle.initialWith [("sum", wordBound - 1)]) = none :=
      Option.isNone_iff_eq_none.mp (by decide +kernel)
    obtain ⟨-, hexact, -⟩ := compiled_overflow_exact hcompile hsettings
    exact ⟨c, hcompile, hsettings, heval, hexact.mp heval⟩
  · obtain ⟨c, hcompile⟩ : ∃ c, compile {} brim = .ok c := ⟨_, rfl⟩
    have hsettings : ∀ x ∈ [("x", wordBound - 1)], x.1 ∈ brim.names ∧ x.2 < wordBound := by
      decide +kernel
    have heval : brim.evalFrom (brim.initialWith [("x", wordBound - 1)]) = none :=
      Option.isNone_iff_eq_none.mp (by decide +kernel)
    -- one step is enough: the only instruction before the halt overflows
    have hfinishes :
        c.program.runWith 1 [("x", wordBound - 1)] ≠ .error (.stepLimitExceeded 1) := by
      cases hcompile
      exact nofun
    obtain ⟨-, -, hwords⟩ := compiled_overflow_exact hcompile hsettings
    exact ⟨c, hcompile, hsettings, hfinishes, hwords.mpr ⟨heval, 1, by decide, hfinishes⟩⟩

/-! ### Failures -/

/-- **The compiler is never at fault.** A compilation that fails does so because of the source
program or of the settings. One that succeeds never has more instructions after optimizing than
before: what was removed and what is left, without the final halt, make up what was emitted. -/
theorem compile_never_at_fault (o : Options) (p : Source.Program) :
    match compile o p with
    | .ok c => c.program.code.size + c.removed = c.emitted + 1
    | .error d => d.origin = .source ∨ d.origin = .configuration := by
  rcases compile_cases o p with ⟨d, -, herror, hd⟩ | ⟨c, table, f, g, hok, h⟩
  · rw [herror]
    rcases hd with ⟨problem, rfl⟩ | hrefuses
    · exact .inr rfl
    · exact .inl hrefuses.origin_eq
  · rw [hok]
    have hle := h.replaces.size_le
    simp only [h.linked.size, h.removed, h.emitted]
    omega

end Abacus
