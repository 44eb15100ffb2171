import Abacus.Proofs.Correctness

/-!
# What the compiler accepts

A program that compiles is supported. One that is supported is refused only for want of registers
or instructions (`compile_accepts_supported`). Support is a property of the source program alone,
and can be decided without compiling it.
-/

namespace Abacus

open Source hiding Program

/-- A supported program can only be refused for its size. -/
private theorem Refuses.shortage {supported : Prop} {d : Diagnostic} (h : Refuses supported d)
    (hsupported : supported) :
    (∃ requested pool line, d = .poolExhausted requested pool line) ∨
      ∃ limit line, d = .tooLarge limit line := by
  cases d with
  | poolExhausted requested pool line => exact .inl ⟨requested, pool, line, rfl⟩
  | tooLarge limit line => exact .inr ⟨limit, line, rfl⟩
  | unsupported | unknownVariable | duplicateVariable => exact absurd hsupported h
  | _ => exact h.elim

private theorem refuses_of_compile_error {o : Options} (ho : o.validate = .ok ())
    {p : Source.Program} {d : Diagnostic} (h : compile o p = .error d) : Refuses p.Supported d := by
  have hspec := emitProgram_spec o p
  rcases compile_cases o p with ⟨d', hemit, herror, -⟩ | ⟨c, -, -, -, hok, -⟩
  · obtain rfl : d' = d := Except.error.inj (herror.symm.trans h)
    rw [hemit] at hspec
    rcases hspec with ⟨problem, hproblem, -⟩ | hrefuses
    · cases ho.symm.trans hproblem
    · exact hrefuses
  · cases hok.symm.trans h

/-- **The compiler accepts the supported part of the language.** Under valid settings, a program
that compiles is supported, and one that is supported is refused only because it needs more
registers or instructions than there are: never as an unsupported construct, an unknown variable or
a variable declared twice. -/
theorem compile_accepts_supported {o : Options} (ho : o.validate = .ok ()) (p : Source.Program) :
    (∀ c, compile o p = .ok c → p.Supported) ∧
    (p.Supported → ∀ d, compile o p = .error d →
      (∃ requested pool line, d = .poolExhausted requested pool line) ∨
        ∃ limit line, d = .tooLarge limit line) := by
  refine ⟨fun c hcompile => ?_, fun hsupported d herror => ?_⟩
  · obtain ⟨table, f, state, -, hemits, -⟩ := exists_emitProgram_of_compile hcompile
    exact hemits.supported
  · exact (refuses_of_compile_error ho herror).shortage hsupported

/-- A loop that counts in a variable which the loop inside it counts in again. -/
def recount : Source.Program where
  declarations := [⟨"n", 3, 1⟩]
  body := [.loop "i" (.var "n") [.branch (.isZero "n") [] [.loop "i" (.var "n") [] 4] 3] 2]

theorem compile_accepts_supported_triangle :
    (({} : Options).validate = .ok () ∧ ∃ c, compile {} triangle = .ok c ∧ triangle.Supported) ∧
      (({ limit := some 12 } : Options).validate = .ok () ∧
        ∃ d, compile { limit := some 12 } triangle = .error d ∧
          ((∃ requested pool line, d = .poolExhausted requested pool line) ∨
            ∃ limit line, d = .tooLarge limit line)) ∧
      ¬recount.Supported ∧ ∀ c, compile {} recount ≠ .ok c := by
  have hvalid : ({} : Options).validate = .ok () := rfl
  have hvalid' : ({ limit := some 12 } : Options).validate = .ok () := rfl
  obtain ⟨c, hcompile⟩ := exists_compile_triangle
  have hsupported := (compile_accepts_supported hvalid triangle).1 c hcompile
  obtain ⟨d, herror⟩ : ∃ d, compile { limit := some 12 } triangle = .error d := by
    have hfails : (emitProgram { limit := some 12 } triangle).isOk = false := by decide +kernel
    cases hcompile : compile { limit := some 12 } triangle with
    | error d => exact ⟨d, rfl⟩
    | ok c =>
      obtain ⟨table, f, state, hemit, -⟩ := exists_emitProgram_of_compile hcompile
      rw [hemit] at hfails
      cases hfails
  have hunsupported : ¬recount.Supported := by decide +kernel
  refine ⟨⟨hvalid, c, hcompile, hsupported⟩,
    ⟨hvalid', d, herror, (compile_accepts_supported hvalid' triangle).2 hsupported d herror⟩,
    hunsupported, fun c hcompile => ?_⟩
  exact hunsupported ((compile_accepts_supported hvalid recount).1 c hcompile)

end Abacus
