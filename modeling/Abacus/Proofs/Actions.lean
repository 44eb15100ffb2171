import Abacus.Diagnostic

/-!
# What actions yield

`Yields` is the contract of an action that may fail: started in a given state it either fails with a
diagnostic of a given kind or gives a value and a state with a given property. The rules follow the
way actions are put together, so that the contract of a composite action comes from those of its
parts and no proof looks into how states are passed on.

The kind of failure that matters is a refusal (`Refuses`): the program is too large for the machine,
or it lies outside the supported part of the source language.
-/

namespace Abacus

/-- Diagnostics of a program that needs more registers or instructions than there are, or that is
not supported. The compiler itself is at fault in none of them. -/
def Refuses (supported : Prop) : Diagnostic → Prop
  | .poolExhausted _ _ _ => True
  | .tooLarge _ _ => True
  | .unsupported _ _ => ¬supported
  | .unknownVariable _ _ => ¬supported
  | .duplicateVariable _ _ => ¬supported
  | _ => False

namespace Refuses

variable {supported supported' : Prop} {d : Diagnostic}

/-- The less is supported, the more is refused. -/
theorem mono (h : Refuses supported d) (himp : supported' → supported) :
    Refuses supported' d := by
  cases d with
  | unsupported construct line => exact fun hs => h (himp hs)
  | unknownVariable name line => exact fun hs => h (himp hs)
  | duplicateVariable name line => exact fun hs => h (himp hs)
  | _ => exact h

/-- A refusal that is given a line is a refusal. -/
theorem locate (h : Refuses supported d) (line : UInt64) :
    Refuses supported (d.locate line) := by
  cases d with
  | poolExhausted requested pool known => cases known <;> exact h
  | _ => exact h

/-- A refusal has its origin in the source. -/
theorem origin_eq (h : Refuses supported d) : d.origin = .source := by
  cases d with
  | conflict | unresolved | rejected | misplaced => exact h.elim
  | invalidOptions | invalidSource => exact h.elim
  | _ => rfl

end Refuses

/-- An action fails in a permitted way or gives a value and a state with a property. -/
def Yields {σ α : Type} (fails : Diagnostic → Prop) (act : EStateM Diagnostic σ α) (s : σ)
    (post : α → σ → Prop) : Prop :=
  match act s with
  | .ok a s' => post a s'
  | .error d _ => fails d

namespace Yields

variable {σ α β : Type} {fails fails' : Diagnostic → Prop} {s : σ} {post : α → σ → Prop}
  {post' : β → σ → Prop} {act : EStateM Diagnostic σ α}

/-- To return a result changes nothing. -/
theorem pure {a : α} (h : post a s) : Yields fails (Pure.pure a) s post := h

/-- To look at the state changes nothing. -/
theorem get : Yields fails (MonadState.get : EStateM Diagnostic σ σ) s fun a s' => a = s ∧ s' = s :=
  ⟨rfl, rfl⟩

theorem modify (f : σ → σ) :
    Yields fails (modify f : EStateM Diagnostic σ PUnit) s fun _ s' => s' = f s :=
  rfl

/-- Actions in a row, where the second may use what the first one yields. -/
theorem bind {next : α → EStateM Diagnostic σ β} (h : Yields fails act s post)
    (h' : ∀ a s', post a s' → Yields fails (next a) s' post') :
    Yields fails (act >>= next) s post' := by
  unfold Yields at h ⊢
  simp only [Bind.bind, EStateM.bind]
  cases hact : act s with
  | ok a s' =>
    rw [hact] at h
    exact h' a s' h
  | error d s' =>
    rw [hact] at h
    exact h

/-- An action that yields something yields what follows from it. -/
theorem mono {post' : α → σ → Prop} (h : Yields fails act s post)
    (hfails : ∀ d, fails d → fails' d) (hpost : ∀ a s', post a s' → post' a s') :
    Yields fails' act s post' := by
  unfold Yields at h ⊢
  cases hact : act s with
  | ok a s' =>
    rw [hact] at h
    exact hpost a s' h
  | error d s' =>
    rw [hact] at h
    exact hfails d h

/-- A part of an action that may refuse less than the whole. -/
theorem bind_of_imp {supported supported' : Prop} {next : α → EStateM Diagnostic σ β}
    (h : Yields (Refuses supported') act s post) (himp : supported → supported')
    (h' : ∀ a s', post a s' → Yields (Refuses supported) (next a) s' post') :
    Yields (Refuses supported) (act >>= next) s post' :=
  .bind (h.mono (fun _ hd => hd.mono himp) fun _ _ h => h) h'

/-- An action whose diagnostics are changed fails with the changed ones. -/
theorem adaptExcept {f : Diagnostic → Diagnostic}
    (h : Yields (fun d => fails (f d)) act s post) :
    Yields fails (EStateM.adaptExcept f act) s post := by
  unfold Yields at h ⊢
  simp only [EStateM.adaptExcept]
  cases hact : act s <;> simpa only [hact] using h

/-- An action behind a check that may refuse it. -/
theorem guard {γ : Type} {c : Prop} [Decidable c] {d : Diagnostic}
    {skipped : γ → EStateM Diagnostic σ α} (hfails : c → fails d)
    (h : ¬c → Yields fails act s post) :
    Yields fails (if c then MonadExcept.throw d >>= skipped else act) s post := by
  split
  next hc => exact hfails hc
  next hc => exact h hc

instance [DecidablePred fails] [∀ a s', Decidable (post a s')] :
    Decidable (Yields fails act s post) :=
  match hact : act s with
  | .ok a s' => decidable_of_iff (post a s') (by rw [Yields, hact])
  | .error d _ => decidable_of_iff (fails d) (by rw [Yields, hact])

/-- An action that may not fail succeeds. -/
theorem exists_ok (h : Yields (fun _ => False) act s post) :
    ∃ a s', act s = .ok a s' ∧ post a s' := by
  rw [Yields] at h
  cases hact : act s with
  | ok a s' =>
    rw [hact] at h
    exact ⟨a, s', rfl, h⟩
  | error d s' =>
    rw [hact] at h
    exact h.elim

end Yields

/-- What holds where an action succeeds. -/
abbrev Ensures {σ α : Type} (act : EStateM Diagnostic σ α) (s : σ) (post : α → σ → Prop) : Prop :=
  Yields (fun _ => True) act s post

section Ensures

variable {σ α : Type} {fails : Diagnostic → Prop} {act : EStateM Diagnostic σ α} {s s' : σ} {a : α}
  {post : α → σ → Prop}

/-- What an action yields it ensures. -/
theorem Yields.ensures (h : Yields fails act s post) : Ensures act s post :=
  h.mono (fun _ _ => trivial) fun _ _ h => h

/-- To ensure something is to have it after every success. -/
theorem Ensures.intro (h : ∀ a s', act s = .ok a s' → post a s') : Ensures act s post := by
  unfold Ensures Yields
  cases hact : act s with
  | ok a s' => exact h a s' hact
  | error d s' => trivial

/-- Every action ensures nothing in particular. -/
theorem Ensures.trivial : Ensures act s fun _ _ => True := .intro fun _ _ _ => True.intro

/-- An action ensures its own result. -/
theorem Ensures.self : Ensures act s fun a s' => act s = .ok a s' := .intro fun _ _ h => h

/-- What an action ensures holds after a success. -/
theorem Ensures.of_ok (h : Ensures act s post) (hact : act s = .ok a s') : post a s' := by
  rwa [Ensures, Yields, hact] at h

end Ensures

/-! ### Running one action after another -/

section Run

variable {σ α β : Type} {s s' s'' : σ} {a : α} {b : β} {d : Diagnostic}
  {act : EStateM Diagnostic σ α} {next : α → EStateM Diagnostic σ β}

/-- After a success the next action goes on with the result. -/
theorem run_bind_of_ok (h : act s = .ok a s') : (act >>= next) s = next a s' := by
  simp only [Bind.bind, EStateM.bind, h]

/-- After a failure there is no next action. -/
theorem run_bind_of_error (h : act s = .error d s') : (act >>= next) s = .error d s' := by
  simp only [Bind.bind, EStateM.bind, h]

/-- Where two actions in a row succeed, both do. -/
theorem exists_of_run_bind (h : (act >>= next) s = .ok b s'') :
    ∃ a s', act s = .ok a s' ∧ next a s' = .ok b s'' := by
  cases hact : act s with
  | ok a s' => exact ⟨a, s', rfl, (run_bind_of_ok hact).symm.trans h⟩
  | error d s' => cases (run_bind_of_error hact).symm.trans h

/-- One action after another fails where the first one does, or else where the second one does. -/
theorem error_cases_of_run_bind (h : (act >>= next) s = .error d s'') :
    act s = .error d s'' ∨ ∃ a s', act s = .ok a s' ∧ next a s' = .error d s'' := by
  cases hact : act s with
  | ok a s' => exact .inr ⟨a, s', rfl, (run_bind_of_ok hact).symm.trans h⟩
  | error e s' =>
    rw [run_bind_of_error hact] at h
    cases h
    exact .inl rfl

/-- A success is not changed with the diagnostics. -/
theorem run_adaptExcept_of_ok {f : Diagnostic → Diagnostic} (h : act s = .ok a s') :
    EStateM.adaptExcept f act s = .ok a s' := by
  simp only [EStateM.adaptExcept, h]

/-- A failure is changed as the diagnostics are. -/
theorem run_adaptExcept_of_error {f : Diagnostic → Diagnostic} (h : act s = .error d s') :
    EStateM.adaptExcept f act s = .error (f d) s' := by
  simp only [EStateM.adaptExcept, h]

/-- A success was one before the diagnostics were changed. -/
theorem run_of_adaptExcept {f : Diagnostic → Diagnostic}
    (h : EStateM.adaptExcept f act s = .ok a s') : act s = .ok a s' := by
  cases hact : act s with
  | ok a s' => exact (run_adaptExcept_of_ok hact).symm.trans h
  | error d s' => cases (run_adaptExcept_of_error hact).symm.trans h

/-- A failure was one before the diagnostics were changed, with another diagnostic. -/
theorem error_of_adaptExcept {f : Diagnostic → Diagnostic}
    (h : EStateM.adaptExcept f act s = .error d s') :
    ∃ e, act s = .error e s' ∧ d = f e := by
  cases hact : act s with
  | ok a s' => cases (run_adaptExcept_of_ok hact).symm.trans h
  | error e s' =>
    cases (run_adaptExcept_of_error hact).symm.trans h
    exact ⟨e, rfl, rfl⟩

end Run

end Abacus
