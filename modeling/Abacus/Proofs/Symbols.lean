import Mathlib.Data.List.Nodup
import Abacus.SymbolTable
import Abacus.Source.Eval
import Abacus.Proofs.File
import Abacus.Proofs.Pool

/-!
# The variables of a program

The table of a list of declarations has the variables in order, under different names and with the
registers from the first on (`SymbolTable.Orderly`). A register file represents the values of
variables when every variable's register holds its value; setting a variable's register is then
setting the variable (`SymbolTable.Represents.put`), since no two variables share a register.
-/

namespace Abacus

open Machine (Register File)
open Source (Declaration Env)

namespace SymbolTable

variable {table : SymbolTable} {s t : Symbol} {file : File} {env : Env}

/-- The names of the variables, in order. -/
abbrev names (table : SymbolTable) : List String := table.symbols.map Symbol.name

/-- Variables have different names, and the registers from the first on. -/
structure Orderly (table : SymbolTable) : Prop where
  names : table.names.Nodup
  registers : table.symbols.map Symbol.register = registersBetween 0 table.symbols.length

/-! ### Looking variables up -/

/-- What is found under a name has that name. -/
theorem name_eq_of_find? {name : String} (h : table.find? name = some s) : s.name = name := by
  simpa using List.find?_some h

theorem mem_of_find? {name : String} (h : table.find? name = some s) : s ∈ table.symbols :=
  List.mem_of_find?_eq_some h

/-- Nothing is found under a name that is not declared. -/
theorem find?_eq_none_iff {name : String} :
    table.find? name = none ↔ name ∉ table.names := by
  simp [find?, List.find?_eq_none]

/-- Every name has a symbol. -/
theorem exists_find?_of_mem {name : String} (h : name ∈ table.names) :
    ∃ s, table.find? name = some s := by
  rw [← Option.isSome_iff_exists, Option.isSome_iff_ne_none, Ne, find?_eq_none_iff]
  exact not_not_intro h

namespace Orderly

/-- Registers are numbered from one on. -/
theorem register_pos (ht : table.Orderly) (hs : s ∈ table.symbols) : 0 < s.register.id := by
  have hmem : s.register ∈ table.symbols.map Symbol.register := List.mem_map.mpr ⟨s, hs, rfl⟩
  rw [ht.registers, mem_registersBetween] at hmem
  exact hmem.1

/-- Variables have the first registers. -/
theorem register_le (ht : table.Orderly) (hs : s ∈ table.symbols) :
    s.register.id ≤ table.symbols.length := by
  have hmem : s.register ∈ table.symbols.map Symbol.register := List.mem_map.mpr ⟨s, hs, rfl⟩
  rw [ht.registers, mem_registersBetween] at hmem
  exact hmem.2

/-- Different variables have different registers. -/
theorem register_ne (ht : table.Orderly) (hs : s ∈ table.symbols) (ht' : t ∈ table.symbols)
    (hne : s.name ≠ t.name) : s.register ≠ t.register := by
  intro heq
  have hnodup : (table.symbols.map Symbol.register).Nodup := by
    rw [ht.registers]
    exact nodup_registersBetween _ _
  exact hne (congrArg Symbol.name (List.inj_on_of_nodup_map hnodup hs ht' heq))

/-- A file that is large enough has the registers of all variables. -/
theorem has (ht : table.Orderly) (hs : s ∈ table.symbols)
    (hsize : table.symbols.length ≤ file.size) : file.Has s.register :=
  ⟨ht.register_pos hs, Nat.le_trans (ht.register_le hs) hsize⟩

end Orderly

/-! ### Declaring variables -/

/-- A variable is added to the end, with the next register. -/
private theorem yields_declare (ht : table.Orderly) (capacity : Nat) (d : Declaration) :
    Yields (Refuses (d.name ∉ table.names)) (table.declare d)
      (.withNamed capacity table.symbols.length) fun table' pool =>
      table'.Orderly ∧ table'.symbols.map (fun s => (s.name, s.initial)) =
          table.symbols.map (fun s => (s.name, s.initial)) ++ [(d.name, d.value)] ∧
        pool = .withNamed capacity table'.symbols.length ∧ table'.symbols.length ≤ capacity := by
  unfold declare
  refine .guard (fun hknown hnew => ?_) fun hnew => ?_
  · rw [find?_eq_none_iff.mpr hnew] at hknown
    exact absurd hknown (by simp)
  refine .bind (.adaptExcept (.mono (RegisterPool.yields_takeNamed capacity _ d.name) ?_
    fun _ _ h => h)) ?_
  · rintro _ rfl
    trivial
  rintro r pool ⟨rfl, rfl, hroom⟩
  have hnone : table.find? d.name = none := by simpa using hnew
  refine .pure ⟨⟨?_, ?_⟩, by simp, by simp, by simpa using hroom⟩
  · rw [names, List.map_append, List.nodup_append]
    refine ⟨ht.names, by simp, ?_⟩
    intro a ha b hb
    rw [List.map_singleton, List.mem_singleton] at hb
    rintro rfl
    obtain rfl : a = d.name := hb
    exact find?_eq_none_iff.mp hnone ha
  · rw [List.map_append, ht.registers, List.length_append, List.length_singleton,
      registersBetween_succ (Nat.zero_le _)]
    rfl

/-- The table of declarations has their names and values, and only variables that are declared twice
or too many of them can be refused. -/
theorem yields_ofDeclarations (capacity : Nat) (ds : List Declaration) :
    Yields (Refuses (ds.map Declaration.name).Nodup) (ofDeclarations ds)
      (.withNamed capacity 0) fun table pool =>
      table.Orderly ∧ table.symbols.map (fun s => (s.name, s.initial)) =
          ds.map (fun d => (d.name, d.value)) ∧
        pool = .withNamed capacity table.symbols.length ∧ table.symbols.length ≤ capacity := by
  -- declarations are taken one by one, so the statement is about the rest of them and any table
  suffices hrest : ∀ (ds : List Declaration) (table : SymbolTable), table.Orderly →
      table.symbols.length ≤ capacity →
      Yields (Refuses (table.names ++ ds.map Declaration.name).Nodup)
        (ds.foldlM declare table) (.withNamed capacity table.symbols.length) fun table' pool =>
        table'.Orderly ∧ table'.symbols.map (fun s => (s.name, s.initial)) =
            table.symbols.map (fun s => (s.name, s.initial)) ++
              ds.map (fun d => (d.name, d.value)) ∧
          pool = .withNamed capacity table'.symbols.length ∧ table'.symbols.length ≤ capacity by
    exact hrest ds {} ⟨List.nodup_nil, rfl⟩ (Nat.zero_le _)
  intro ds
  induction ds with
  | nil => exact fun table ht hcap => .pure ⟨ht, by simp, rfl, hcap⟩
  | cons d ds ih =>
    intro table ht _
    rw [List.foldlM_cons]
    refine .bind_of_imp (yields_declare ht capacity d) ?_ ?_
    · intro hnodup
      have hdisjoint := (List.nodup_append.mp hnodup).2.2
      exact fun hmem => hdisjoint _ hmem d.name (by simp) rfl
    · rintro table' pool ⟨ht', hsymbols, rfl, hcap⟩
      have hnames : table'.names = table.names ++ [d.name] := by
        simpa [Function.comp_def] using congrArg (List.map Prod.fst) hsymbols
      refine .mono (ih table' ht' hcap) ?_ ?_
      · intro e he
        refine he.mono fun hnodup => ?_
        rw [hnames]
        simpa using hnodup
      · rintro table'' pool ⟨ht'', hsymbols', hrest⟩
        exact ⟨ht'', by simp [hsymbols', hsymbols], hrest⟩

/-! ### Values in registers -/

/-- Every variable's register holds the variable's value. -/
def Represents (table : SymbolTable) (env : Env) (file : File) : Prop :=
  ∀ s ∈ table.symbols, file.val s.register = env s.name

/-- Setting the register of a variable is setting the variable. -/
theorem Represents.put (h : table.Represents env file) (ht : table.Orderly)
    (hs : s ∈ table.symbols) (hsize : table.symbols.length ≤ file.size) (n : Nat) :
    table.Represents (env.set s.name n) (file.put s.register n) := by
  intro t ht'
  by_cases hname : t.name = s.name
  · rw [List.inj_on_of_nodup_map ht.names ht' hs hname, File.val_put_self (ht.has hs hsize),
      Env.set_self]
  · rw [File.val_put_of_ne (ht.has hs hsize) (ht.has ht' hsize) (ht.register_ne ht' hs hname),
      Env.set_of_ne env n hname]
    exact h t ht'

/-- Setting a register that no variable owns changes no variable. -/
theorem Represents.put_of_lt (h : table.Represents env file) (ht : table.Orderly) {r : Register}
    (hr : table.symbols.length < r.id) (hle : r.id ≤ file.size) (n : Nat) :
    table.Represents env (file.put r n) := by
  intro s hs
  have hs' := ht.register_le hs
  have hne : s.register ≠ r := by
    rintro rfl
    omega
  rw [File.val_put_of_ne ⟨Nat.zero_lt_of_lt hr, hle⟩ (ht.has hs (by omega)) hne]
  exact h s hs

/-- Filling registers leaves all others as they are. -/
private theorem val_foldl_put {symbols : List Symbol} {r : Register} (hr : file.Has r)
    (hsymbols : ∀ s ∈ symbols, file.Has s.register ∧ s.register ≠ r) :
    (symbols.foldl (fun file s => file.put s.register s.initial.toNat) file).val r =
      file.val r := by
  induction symbols generalizing file with
  | nil => rfl
  | cons s rest ih =>
    obtain ⟨hs, hne⟩ := hsymbols s List.mem_cons_self
    rw [List.foldl_cons, ih (File.has_put.mpr hr), File.val_put_of_ne hs hr hne.symm]
    intro t ht
    exact (hsymbols t (List.mem_cons_of_mem _ ht)).imp_left File.has_put.mpr

/-- Of registers that are set one after another, each has the value it was set to. -/
private theorem val_foldl_put_of_mem {symbols : List Symbol}
    (hnodup : (symbols.map Symbol.register).Nodup)
    (hsymbols : ∀ s ∈ symbols, file.Has s.register) (hs : s ∈ symbols) :
    (symbols.foldl (fun file s => file.put s.register s.initial.toNat) file).val s.register =
      s.initial.toNat := by
  induction symbols generalizing file with
  | nil => cases hs
  | cons t rest ih =>
    rw [List.map_cons, List.nodup_cons] at hnodup
    have hfirst := hsymbols t List.mem_cons_self
    have hrest : ∀ s ∈ rest, file.Has s.register := fun s hs =>
      hsymbols s (List.mem_cons_of_mem _ hs)
    rw [List.foldl_cons]
    rcases List.mem_cons.mp hs with rfl | hs
    · rw [val_foldl_put (File.has_put.mpr hfirst), File.val_put_self hfirst]
      intro t ht
      exact ⟨File.has_put.mpr (hrest t ht), fun heq =>
        hnodup.1 (List.mem_map.mpr ⟨t, ht, heq⟩)⟩
    · exact ih hnodup.2 (fun s hs => File.has_put.mpr (hrest s hs)) hs

theorem size_initialRegisters (table : SymbolTable) (size : Nat) :
    (table.initialRegisters size).size = size := by
  suffices hfold : ∀ (symbols : List Symbol) (file : File),
      (symbols.foldl (fun file s => file.put s.register s.initial.toNat) file).size =
        file.size from (hfold table.symbols _).trans Array.size_replicate
  intro symbols
  induction symbols with
  | nil => exact fun _ => rfl
  | cons s rest ih => exact fun file => (ih _).trans (File.size_put ..)

/-- Variables start with their initial values. -/
theorem Orderly.val_initialRegisters (ht : table.Orderly) (hs : s ∈ table.symbols) {size : Nat}
    (hsize : table.symbols.length ≤ size) :
    File.val (table.initialRegisters size) s.register = s.initial.toNat := by
  refine val_foldl_put_of_mem ?_ ?_ hs
  · rw [ht.registers]
    exact nodup_registersBetween _ _
  · exact fun t ht' => ht.has ht' (by simpa using hsize)

/-- Registers after those of the variables start at zero. -/
theorem Orderly.val_initialRegisters_of_lt (ht : table.Orderly) {size : Nat}
    (hsize : table.symbols.length ≤ size) {r : Register} (hr : table.symbols.length < r.id) :
    File.val (table.initialRegisters size) r = 0 := by
  rcases Nat.lt_or_ge size r.id with hlt | hge
  · exact File.val_eq_zero_of_size_lt (by rwa [size_initialRegisters])
  · have hempty : File.val (Array.replicate size 0) r = 0 := by
      simp only [File.val, Array.getD_eq_getD_getElem?, Array.getElem?_replicate]
      split <;> rfl
    refine (val_foldl_put ⟨Nat.zero_lt_of_lt hr, by simpa using hge⟩ ?_).trans hempty
    intro s hs
    refine ⟨ht.has hs (by simpa using hsize), ?_⟩
    rintro rfl
    exact Nat.not_lt.mpr (ht.register_le hs) hr

end SymbolTable

end Abacus
