import Abacus.Emit.Basic
import Abacus.Proofs.Execution
import Abacus.Proofs.Placement
import Abacus.Proofs.Symbols

/-!
# Emitted code

Code that an action emits is sealed: it defines each of the labels handed out meanwhile once, and
names no others, so its jumps stay within it. The registers it names are those that it was given and
scratch registers after the ones in use, and it gives back every scratch register it takes. This is
`Emit.Emitted`. `Emit.Computes` adds what the code does, for code whose effect on a register file is
known: the effect is stated for files in which no register after those in use holds anything.
-/

namespace Abacus

open Machine

/-- A register with a number up to `n`. -/
def Machine.Register.Within (r : Register) (n : Nat) : Prop := 0 < r.id ∧ r.id ≤ n

namespace Machine.Register.Within

variable {r : Register} {n m : Nat}

/-- What is among the first registers is among more of them. -/
theorem mono (h : r.Within n) (hle : n ≤ m) : r.Within m := ⟨h.1, Nat.le_trans h.2 hle⟩

/-- A file has the registers that it is large enough for. -/
theorem has {file : File} (h : r.Within n) (hle : n ≤ file.size) : file.Has r := h.mono hle

/-- The next register is none of those in use. -/
theorem ne_next (h : r.Within n) : r ≠ ⟨n + 1⟩ := by
  rintro rfl
  exact Nat.not_succ_le_self n h.2

/-- The next register is in use once it is taken. -/
theorem next (n : Nat) : (Register.mk (n + 1)).Within (n + 1) := ⟨Nat.succ_pos n, Nat.le_refl _⟩

end Machine.Register.Within

/-- The registers of variables come first. -/
theorem SymbolTable.Orderly.within {table : SymbolTable} (ht : table.Orderly) {x : Symbol}
    (hx : x ∈ table.symbols) : x.register.Within table.symbols.length :=
  ⟨ht.register_pos hx, ht.register_le hx⟩

/-! ### Sealed fragments -/

namespace Code.Fragment

/-- The registers that a fragment names, in order. -/
def registers (f : Fragment) : List Register := f.code.filterMap Instr.register?

/-- Two fragments in a row name the registers of both. -/
@[simp]
theorem registers_append (f g : Fragment) : (f ++ g).registers = f.registers ++ g.registers := by
  simp [registers]

/-- Without code no registers are named. -/
@[simp]
theorem registers_empty : (∅ : Fragment).registers = [] := rfl

/-- A label names no register. -/
@[simp]
theorem registers_define (l : Label) : (define l).registers = [] := rfl

/-- An increment names its register. -/
@[simp]
theorem registers_inc (r : Register) : (inc r).registers = [r] := rfl

/-- A decrement names its register. -/
@[simp]
theorem registers_dec (r : Register) : (dec r).registers = [r] := rfl

/-- A jump names no register. -/
@[simp]
theorem registers_jump (l : Label) : (jump l).registers = [] := rfl

/-- A test names the register it looks at. -/
@[simp]
theorem registers_test (r : Register) (l l' : Label) : (test r l l').registers = [r] := rfl

/-- The labels defined are those numbered from `first` up to but not including `last`, each once;
only these are named, and nothing halts. -/
structure Sealed (f : Fragment) (first last : Nat) : Prop where
  le : first ≤ last
  wellFormed : f.WellFormed
  nodup : (f.defined.map Label.id).Nodup
  mem_iff : ∀ n, n ∈ f.defined.map Label.id ↔ first ≤ n ∧ n < last
  wanted_defined : ∀ l ∈ f.wanted, l ∈ f.defined
  hlt_notMem : Instr.hlt ∉ f.code

/-- Sealed code names its own labels only, and each has one place. -/
theorem Sealed.closed {f : Fragment} {first last : Nat} (h : f.Sealed first last) : f.Closed :=
  ⟨h.nodup.of_map, h.wanted_defined⟩

/-- Code whose labels are numbered on from those of other code may follow it. -/
theorem Sealed.append {f g : Fragment} {first middle last : Nat} (hf : f.Sealed first middle)
    (hg : g.Sealed middle last) : (f ++ g).Sealed first last where
  le := Nat.le_trans hf.le hg.le
  wellFormed := hf.wellFormed.append hg.wellFormed
  nodup := by
    rw [defined_append, List.map_append, List.nodup_append]
    refine ⟨hf.nodup, hg.nodup, ?_⟩
    -- the labels of the two parts lie on different sides of `middle`
    rintro n hn _ hm rfl
    have hlt := ((hf.mem_iff n).mp hn).2
    have hle := ((hg.mem_iff n).mp hm).1
    omega
  mem_iff n := by
    rw [defined_append, List.map_append, List.mem_append, hf.mem_iff, hg.mem_iff]
    have hle := hf.le
    have hle' := hg.le
    omega
  wanted_defined := by
    intro l hl
    rw [wanted_append, List.mem_append] at hl
    rw [defined_append, List.mem_append]
    exact hl.imp (hf.wanted_defined l) (hg.wanted_defined l)
  hlt_notMem := by
    rw [code_append, List.mem_append, not_or]
    exact ⟨hf.hlt_notMem, hg.hlt_notMem⟩

/-- Code without labels and jumps is sealed anywhere. -/
theorem sealed_of_straight {f : Fragment} (hholes : f.holes = []) (hlabels : f.labels = [])
    (hcode : ∀ i ∈ f.code, i.targets = [] ∧ i ≠ .hlt) (n : Nat) : f.Sealed n n where
  le := Nat.le_refl n
  wellFormed := wellFormed_of_straight hholes hlabels fun i hi => (hcode i hi).1
  nodup := by simp [defined, hlabels]
  mem_iff := by
    intro k
    simp only [defined, hlabels, List.map_nil, List.not_mem_nil, false_iff]
    omega
  wanted_defined := by simp [wanted, hholes]
  hlt_notMem := fun hmem => (hcode _ hmem).2 rfl

/-- Without code there are no labels to number. -/
theorem sealed_empty (n : Nat) : (∅ : Fragment).Sealed n n :=
  sealed_of_straight rfl rfl (fun _ hi => absurd hi List.not_mem_nil) n

/-- Wherever the code stands, it runs to its end with an effect on the register file, or overflows
where the effect has no result. The file has `size` registers or more, and those after `used` are
empty. -/
def Performs (f : Fragment) (used size : Nat) (effect : File → Option File) : Prop :=
  ∀ ⦃p : Program⦄ ⦃address : Label → Nat⦄ ⦃a : Nat⦄ ⦃file : File⦄, f.Placed p address a →
    size ≤ file.size → file.Clean used → p.Runs ⟨a, file⟩ (a + f.size) (effect file)

/-- Code runs in larger register files as well. -/
theorem Performs.mono {f : Fragment} {used size size' : Nat} {effect : File → Option File}
    (h : f.Performs used size effect) (hle : size ≤ size') : f.Performs used size' effect :=
  fun _ _ _ _ hplaced hsize => h hplaced (Nat.le_trans hle hsize)

end Code.Fragment

namespace Emit

open Code

variable {used : Nat} {given given' : Register → Prop} {s s₁ s₂ s₃ : State} {f g : Fragment}
  {effect effect' : File → Option File} {fails : Diagnostic → Prop}

/-- What holds of every piece of code that is emitted between two states. -/
structure Emitted (used : Nat) (given : Register → Prop) (s s' : State) (f : Fragment) : Prop where
  packed : s'.pool.Packed used
  grows : s.pool.Grows s'.pool
  code : f.Sealed s.nextLabel s'.nextLabel
  registers : ∀ r ∈ f.registers, given r ∨ used < r.id ∧ r.id ≤ s'.pool.highWater

/-- Code with a known effect. It belongs to a statement that is not counted yet. -/
structure Computes (used : Nat) (given : Register → Prop) (effect : File → Option File)
    (s s' : State) (f : Fragment) : Prop extends Emitted used given s s' f where
  emitted : s'.emitted = s.emitted
  performs : f.Performs used s'.pool.highWater effect

/-- An effect that keeps counts below the bound and the registers after `used` empty. -/
def Keeps (used : Nat) (effect : File → Option File) : Prop :=
  ∀ file file' : File, used ≤ file.size → file.Clean used → effect file = some file' →
    file'.Clean used ∧ file'.size = file.size

/-- Setting a register in use keeps all others. -/
theorem keeps_assign? {r : Register} (hr : r.Within used) (value : File → Nat) :
    Keeps used fun file => file.assign? r (value file) :=
  fun _ _ hsize hclean h => hclean.of_assign? (hr.has hsize) hr.2 h

/-- Adding to a register in use keeps all others. -/
theorem keeps_add? {r : Register} (hr : r.Within used) (value : File → Nat) :
    Keeps used fun file => file.add? r (value file) :=
  keeps_assign? hr _

/-- What keeps the other registers step by step keeps them. -/
theorem Keeps.bind (h : Keeps used effect) (h' : Keeps used effect') :
    Keeps used fun file => (effect file).bind effect' := by
  intro file file' hsize hclean heq
  obtain ⟨file₁, heq₁, heq'⟩ := Option.bind_eq_some_iff.mp heq
  obtain ⟨hclean₁, hsize₁⟩ := h _ _ hsize hclean heq₁
  obtain ⟨hclean', hsize'⟩ := h' _ _ (hsize₁ ▸ hsize) hclean₁ heq'
  exact ⟨hclean', hsize'.trans hsize₁⟩

/-- Code that was emitted after other code follows it. -/
theorem Emitted.append (h : Emitted used given s s₁ f) (h' : Emitted used given' s₁ s₂ g) :
    Emitted used (fun r => given r ∨ given' r) s s₂ (f ++ g) where
  packed := h'.packed
  grows := h.grows.trans h'.grows
  code := h.code.append h'.code
  registers r hr := by
    rw [Fragment.registers_append, List.mem_append] at hr
    rcases hr with hr | hr
    · exact (h.registers r hr).imp .inl (And.imp_right (Nat.le_trans · h'.grows.highWater))
    · exact (h'.registers r hr).imp_left .inr

/-- Code that names registers of a kind names registers of a wider kind. -/
theorem Emitted.weaken (h : Emitted used given s s₁ f) (hgiven : ∀ r, given r → given' r) :
    Emitted used given' s s₁ f :=
  { h with registers := fun r hr => (h.registers r hr).imp_left (hgiven r) }

/-- Code that works with the next scratch register, which is given back. -/
theorem Emitted.release {pool₁ pool₃ : RegisterPool}
    (h : Emitted (used + 1) given' { s with pool := pool₁ } s₂ f) (htaken : s.pool.Grows pool₁)
    (hpacked : pool₃.Packed used) (hreleased : s₂.pool.Grows pool₃)
    (hgiven : ∀ r, given' r → given r ∨ r = ⟨used + 1⟩) :
    Emitted used given s { s₂ with pool := pool₃ } f where
  packed := hpacked
  grows := htaken.trans (h.grows.trans hreleased)
  code := h.code
  registers r hr := by
    have hused := Nat.le_trans h.packed.used_le hreleased.highWater
    rcases h.registers r hr with hr | ⟨hlt, hle⟩
    · rcases hgiven r hr with hr | rfl
      · exact .inl hr
      · exact .inr ⟨Nat.lt_succ_self used, hused⟩
    · exact .inr ⟨Nat.lt_of_succ_lt hlt, Nat.le_trans hle hreleased.highWater⟩

namespace Computes

/-- A computation may be said to name more registers than it does. -/
theorem weaken (h : Computes used given effect s s₁ f) (hgiven : ∀ r, given r → given' r) :
    Computes used given' effect s s₁ f :=
  { h with toEmitted := h.toEmitted.weaken hgiven }

/-- Effects that agree on clean files are the same effect of code. -/
theorem congr (h : Computes used given effect s s₁ f)
    (heq : ∀ file : File, used ≤ file.size → file.Clean used → effect file = effect' file) :
    Computes used given effect' s s₁ f where
  toEmitted := h.toEmitted
  emitted := h.emitted
  performs := by
    intro p address a file hplaced hsize hclean
    rw [← heq file (Nat.le_trans h.packed.used_le hsize) hclean]
    exact h.performs hplaced hsize hclean

/-- One effect after another. -/
theorem append (h : Computes used given effect s s₁ f) (h' : Computes used given' effect' s₁ s₂ g)
    (hkeeps : Keeps used effect) :
    Computes used (fun r => given r ∨ given' r) (fun file => (effect file).bind effect') s s₂
      (f ++ g) where
  toEmitted := h.toEmitted.append h'.toEmitted
  emitted := h'.emitted.trans h.emitted
  performs := by
    intro p address a file hplaced hsize hclean
    obtain ⟨hf, hg⟩ := hplaced.append
    rw [Fragment.size_append, ← Nat.add_assoc]
    refine (h.performs hf (Nat.le_trans h'.grows.highWater hsize) hclean).bind fun file' heq => ?_
    obtain ⟨hclean', hsize'⟩ := hkeeps _ _ (Nat.le_trans h'.packed.used_le hsize) hclean heq
    exact h'.performs hg (hsize' ▸ hsize) hclean'

/-- A computation that takes the next register, and gives it back in the end, is one with the
registers that were in use before. -/
theorem release {pool₁ pool₃ : RegisterPool}
    (h : Computes (used + 1) given' effect' { s with pool := pool₁ } s₂ f)
    (htaken : s.pool.Grows pool₁) (hpacked : pool₃.Packed used) (hreleased : s₂.pool.Grows pool₃)
    (hgiven : ∀ r, given' r → given r ∨ r = ⟨used + 1⟩)
    (heq : ∀ file : File, used + 1 ≤ file.size → file.Clean used → effect' file = effect file) :
    Computes used given effect s { s₂ with pool := pool₃ } f where
  toEmitted := h.toEmitted.release htaken hpacked hreleased hgiven
  emitted := h.emitted
  performs := by
    intro p address a file hplaced hsize hclean
    have hsize' := Nat.le_trans hreleased.highWater hsize
    rw [← heq file (Nat.le_trans h.packed.used_le hsize') hclean]
    exact h.performs hplaced hsize' (hclean.mono (Nat.le_succ used))

end Computes

/-! ### Handing out labels and registers -/

/-- Labels are reserved by number, from the next free one on. -/
theorem yields_reserveLabels (count : Nat) :
    Yields fails (reserveLabels count) s fun first s' =>
      first = s.nextLabel ∧ s' = { s with nextLabel := s.nextLabel + count } :=
  ⟨rfl, rfl⟩

/-- A label is handed out before the rest of an action. -/
theorem yields_fresh_bind {α : Type} {kind : Label.Kind} {next : Label → EmitM α}
    {post : α → State → Prop}
    (h : Yields fails (next ⟨kind, s.nextLabel⟩) { s with nextLabel := s.nextLabel + 1 } post) :
    Yields fails (fresh kind >>= next) s post :=
  h

/-- Handing out a label leaves the pool alone. -/
theorem exists_of_fresh_bind {α : Type} {kind : Label.Kind} {next : Label → EmitM α}
    {s s' : State} {a : α} (h : (fresh kind >>= next) s = .ok a s') :
    ∃ l s₁, l.kind = kind ∧ s₁.pool = s.pool ∧ next l s₁ = .ok a s' :=
  ⟨⟨kind, s.nextLabel⟩, { s with nextLabel := s.nextLabel + 1 }, rfl, rfl, h⟩

/-- What succeeds on the pool leaves the rest of the state. -/
theorem exists_of_onPool {α : Type} {act : EStateM Diagnostic RegisterPool α} {s s' : State} {a : α}
    (h : onPool act s = .ok a s') : ∃ pool, act s.pool = .ok a pool ∧ s' = { s with pool } := by
  unfold onPool at h
  cases hact : act s.pool with
  | ok a pool =>
    rw [hact] at h
    cases h
    exact ⟨pool, rfl, rfl⟩
  | error d pool =>
    rw [hact] at h
    cases h

/-- A success on the pool is one on the state. -/
theorem onPool_of_ok {α : Type} {act : EStateM Diagnostic RegisterPool α} {s : State} {a : α}
    {pool : RegisterPool} (h : act s.pool = .ok a pool) : onPool act s = .ok a { s with pool } := by
  rw [onPool, h]

/-- A failure on the pool is one on the state. -/
theorem onPool_of_error {α : Type} {act : EStateM Diagnostic RegisterPool α} {s : State}
    {d : Diagnostic} {pool : RegisterPool} (h : act s.pool = .error d pool) :
    onPool act s = .error d { s with pool } := by
  rw [onPool, h]

/-- What an action ensures of the pool it ensures of the state, and it leaves the rest. -/
private theorem yields_onPool {α : Type} {act : EStateM Diagnostic RegisterPool α}
    {post : α → RegisterPool → Prop} (h : Yields fails act s.pool post) :
    Yields fails (onPool act) s fun a s' => ∃ pool, s' = { s with pool } ∧ post a pool := by
  unfold Yields onPool at *
  cases hact : act s.pool with
  | ok a pool =>
    rw [hact] at h
    exact ⟨pool, rfl, h⟩
  | error d pool =>
    rw [hact] at h
    exact h

/-- Scratch registers are handed out in order: the next one is free, or there are none left. -/
theorem yields_scratch (hs : s.pool.Packed used) {supported : Prop} :
    Yields (Refuses supported) scratch s fun r s' => ∃ pool, s' = { s with pool } ∧
      r = ⟨used + 1⟩ ∧ pool.Packed (used + 1) ∧ s.pool.Grows pool := by
  refine yields_onPool (hs.yields_takeScratch.mono ?_ fun _ _ h => h)
  rintro _ rfl
  trivial

/-- The last scratch register can be given back. -/
theorem yields_release (hs : s.pool.Packed (used + 1)) (hnamed : s.pool.named ≤ used) :
    Yields fails (release ⟨used + 1⟩) s fun _ s' => ∃ pool, s' = { s with pool } ∧
      pool.Packed used ∧ s.pool.Grows pool :=
  yields_onPool (hs.yields_release hnamed fails)

/-! ### Variables and room -/

/-- Room is there or is not, and the state stays as it is. -/
theorem ensureRoom_apply (ctx : Context) (count : Nat) (line : UInt64) (s : State) :
    ctx.ensureRoom count line s =
      if ctx.room s.emitted < count then .error (ctx.tooLarge line) s else .ok () s := by
  by_cases h : ctx.room s.emitted < count
  · rw [if_pos h]
    exact congrFun (if_pos h) s
  · rw [if_neg h]
    exact congrFun (if_neg h) s

/-- Where the check for room succeeds, there is room. -/
theorem eq_of_ensureRoom {ctx : Context} {count : Nat} {line : UInt64} {s s' : State} {a : Unit}
    (h : ctx.ensureRoom count line s = .ok a s') : s' = s ∧ ¬ctx.room s.emitted < count := by
  rw [ensureRoom_apply] at h
  split at h
  next => cases h
  next hroom =>
    cases h
    exact ⟨rfl, hroom⟩

/-- Counting the code of a statement after `before` instructions. -/
def Context.count (ctx : Context) (line : UInt64) (before : Nat) (f : Fragment) :
    EmitM Fragment := do
  modify fun s => { s with emitted := before }
  ctx.ensureRoom f.size line
  modify fun s => { s with emitted := before + f.size }
  return f

/-- A statement is what it does, with its line on diagnostics, and counted. -/
theorem statement_apply (ctx : Context) (line : UInt64) (act : EmitM Fragment) (s : State) :
    ctx.statement line act s =
      (EStateM.adaptExcept (Diagnostic.locate line) act >>= ctx.count line s.emitted) s :=
  rfl

/-- Code is counted if there is room for it, and otherwise nothing of it is. -/
theorem count_apply (ctx : Context) (line : UInt64) (before : Nat) (f : Fragment) (s : State) :
    ctx.count line before f s =
      if ctx.room before < f.size then .error (ctx.tooLarge line) { s with emitted := before }
      else .ok f { s with emitted := before + f.size } := by
  have hroom := ensureRoom_apply ctx f.size line { s with emitted := before }
  by_cases h : ctx.room before < f.size
  · rw [if_pos h]
    rw [if_pos h] at hroom
    exact (run_bind_of_ok rfl).trans (run_bind_of_error hroom)
  · rw [if_neg h]
    rw [if_neg h] at hroom
    exact (run_bind_of_ok rfl).trans ((run_bind_of_ok hroom).trans rfl)

/-- Where code is counted there was room for it. -/
theorem eq_of_count {ctx : Context} {line : UInt64} {before : Nat} {f g : Fragment} {s s' : State}
    (h : ctx.count line before f s = .ok g s') :
    g = f ∧ s' = { s with emitted := before + f.size } ∧ ¬ctx.room before < f.size := by
  rw [count_apply] at h
  split at h
  next => cases h
  next hroom =>
    cases h
    exact ⟨rfl, rfl, hroom⟩

/-- What a statement that has code has gone through. -/
theorem exists_of_statement {ctx : Context} {line : UInt64} {act : EmitM Fragment} {s s' : State}
    {f : Fragment} (h : ctx.statement line act s = .ok f s') :
    ∃ s₁, act s = .ok f s₁ ∧ s' = { s₁ with emitted := s.emitted + f.size } := by
  rw [statement_apply] at h
  obtain ⟨g, s₁, hact, hcount⟩ := exists_of_run_bind h
  obtain ⟨rfl, rfl, -⟩ := eq_of_count hcount
  exact ⟨s₁, run_of_adaptExcept hact, rfl⟩

/-- There is room, or the program is refused for its size. -/
theorem yields_ensureRoom (ctx : Context) (count : Nat) (line : UInt64) {supported : Prop} :
    Yields (Refuses supported) (ctx.ensureRoom count line) s fun _ s' =>
      s' = s ∧ count ≤ ctx.room s.emitted := by
  rw [Yields, ensureRoom_apply]
  by_cases h : ctx.room s.emitted < count
  · rw [if_pos h]
    trivial
  · rw [if_neg h]
    exact ⟨rfl, Nat.not_lt.mp h⟩

/-- A variable that is looked up is a declared one, unless it is refused. -/
theorem yields_resolve (ctx : Context) (name : String) (line : UInt64) :
    Yields (Refuses (name ∈ ctx.symbols.names)) (ctx.resolve name line) s
      fun r s' => s' = s ∧ ∃ x ∈ ctx.symbols.symbols, x.name = name ∧ r = x.register := by
  unfold Context.resolve SymbolTable.resolve
  cases hfind : ctx.symbols.find? name with
  | none => exact SymbolTable.find?_eq_none_iff.mp hfind
  | some x =>
    exact ⟨rfl, x, SymbolTable.mem_of_find? hfind, SymbolTable.name_eq_of_find? hfind, rfl⟩

end Emit

end Abacus
