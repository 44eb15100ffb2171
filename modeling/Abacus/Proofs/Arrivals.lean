import Abacus.Proofs.Embedding

/-!
# The rounds of a counted loop

How often control comes to the body of a loop, and with what counts, is a property of the whole run
through the loop. `Program.Arrives` records the register files with which a run comes to a stretch
of code from outside, until it gets to a given address. For the code of a counted loop these are as
many as the bound says on entry, and the loop's counter and its variable tell the round
(`Emit.loop_arrives`).

The argument is an induction on the rounds still to go, as for what the loop computes. Between two
arrivals the run goes through the body, which it cannot leave before its end (`Realizes.traverses`).
-/

namespace Abacus

open Machine Code Fragment
open Source hiding Program

/-! ### Variables that a block sets -/

namespace Source

mutual

/-- Whether a statement assigns a variable or counts the rounds of a loop in it. -/
def Stmt.sets (name : String) : Stmt → Bool
  | .assign target _ _ => target = name
  | .branch _ yes no _ => blockSets name yes || blockSets name no
  | .loop counter _ body _ => counter = name || blockSets name body

/-- Whether one of the statements in a row sets a variable. -/
def blockSets (name : String) : List Stmt → Bool
  | [] => false
  | s :: rest => s.sets name || blockSets name rest

end

variable {declared : String → Bool} {name : String}

mutual

private theorem Stmt.eval_of_not_sets : ∀ (st : Stmt) {env env' : Env}, st.sets name = false →
    st.eval declared env = some env' → env' name = env name
  | .assign target value line, env, env', hsets, heval => by
    rw [Stmt.eval] at heval
    obtain ⟨n, -, rfl⟩ := Option.map_eq_some_iff.mp heval
    rw [Stmt.sets, decide_eq_false_iff_not] at hsets
    exact Env.set_of_ne env n (Ne.symm hsets)
  | .branch condition yes no line, env, env', hsets, heval => by
    rw [Stmt.sets, Bool.or_eq_false_iff] at hsets
    rw [Stmt.eval] at heval
    split at heval
    · exact evalBlock_of_not_sets yes hsets.1 heval
    · exact evalBlock_of_not_sets no hsets.2 heval
  | .loop counter bound body line, env, env', hsets, heval => by
    rw [Stmt.sets, Bool.or_eq_false_iff, decide_eq_false_iff_not] at hsets
    rw [Stmt.eval] at heval
    exact foldlM_rounds_eq (Ne.symm hsets.1) (fun _ _ => evalBlock_of_not_sets body hsets.2) heval

/-- A block leaves alone what it does not set. -/
private theorem evalBlock_of_not_sets :
    ∀ (b : List Stmt) {env env' : Env}, blockSets name b = false →
    evalBlock declared b env = some env' → env' name = env name
  | [], env, env', _, heval => by
    rw [evalBlock] at heval
    rw [Option.some.inj heval]
  | st :: rest, env, env', hsets, heval => by
    rw [blockSets, Bool.or_eq_false_iff] at hsets
    rw [evalBlock] at heval
    obtain ⟨env₁, hfirst, hrest⟩ := Option.bind_eq_some_iff.mp heval
    rw [evalBlock_of_not_sets rest hsets.2 hrest, st.eval_of_not_sets hsets.1 hfirst]

end

end Source

/-! ### Arrivals -/

namespace Machine.Program

/-- A run up to the address `stop`, with the register files with which it comes to the address
`entry` from outside the code that starts there and ends before `last`. -/
inductive Arrives (p : Program) (entry last stop : Nat) : Config → List File → File → Prop
  | stop (file : File) : Arrives p entry last stop ⟨stop, file⟩ [] file
  | enter {a : Nat} {file file₁ file' : File} {files : List File} : a ≠ stop →
      ¬(entry ≤ a ∧ a < last) → p.step ⟨a, file⟩ = .next ⟨entry, file₁⟩ →
      Arrives p entry last stop ⟨entry, file₁⟩ files file' →
      Arrives p entry last stop ⟨a, file⟩ (file₁ :: files) file'
  | pass {a b : Nat} {file file₁ file' : File} {files : List File} : a ≠ stop →
      (b = entry → entry ≤ a ∧ a < last) → p.step ⟨a, file⟩ = .next ⟨b, file₁⟩ →
      Arrives p entry last stop ⟨b, file₁⟩ files file' →
      Arrives p entry last stop ⟨a, file⟩ files file'

/-- Between two configurations of a run nothing arrives. -/
def Quiet (p : Program) (entry last stop : Nat) (c c' : Config) : Prop :=
  ∀ ⦃files : List File⦄ ⦃file' : File⦄, p.Arrives entry last stop c' files file' →
    p.Arrives entry last stop c files file'

namespace Quiet

variable {p : Program} {first last entry stop finish : Nat} {c c' c'' : Config}

theorem trans (h : p.Quiet entry last stop c c') (h' : p.Quiet entry last stop c' c'') :
    p.Quiet entry last stop c c'' :=
  fun _ _ harrives => h (h' harrives)

/-- A step to some other address. -/
theorem single {a b : Nat} {file file₁ : File} (hstep : p.step ⟨a, file⟩ = .next ⟨b, file₁⟩)
    (hstop : a ≠ stop) (hne : b ≠ entry) : p.Quiet entry last stop ⟨a, file⟩ ⟨b, file₁⟩ :=
  fun _ _ harrives => .pass hstop (fun heq => absurd heq hne) hstep harrives

/-- Nothing arrives while a run stays within the code itself. -/
theorem inside (h : p.Traverses entry last c c') (hstop : last ≤ stop) :
    p.Quiet entry last stop c c' := by
  intro files file' harrives
  induction h with
  | refl c => exact harrives
  | head hle hlt hstep _ ih =>
    exact .pass (Nat.ne_of_lt (Nat.lt_of_lt_of_le hlt hstop)) (fun _ => ⟨hle, hlt⟩) hstep
      (ih harrives)

/-- Nothing arrives while a run stays within code before the entry. -/
theorem outside {b : Nat} {file : File} (h : p.Traverses first finish c ⟨b, file⟩)
    (hstop : finish ≤ stop) (hentry : finish ≤ entry) (hne : b ≠ entry) :
    p.Quiet entry last stop c ⟨b, file⟩ := by
  intro files file' harrives
  generalize hc' : Config.mk b file = c' at h
  induction h with
  | refl c => exact hc' ▸ harrives
  | head hle hlt hstep hrest ih =>
    refine .pass (by omega) (fun heq => ?_) hstep (ih hc')
    -- the next step of the run is made before the entry, unless there is none
    rcases hrest with _ | ⟨-, hlt', -⟩
    · subst hc'
      exact absurd heq hne
    · omega

end Quiet

end Machine.Program

/-! ### Counts at the start of rounds -/

namespace Emit

/-- Register files in which a counter goes down from `n` to one, while the loop's variable, if there
is one, goes up from `k`. -/
structure Counts (counter : Register) (v : Option Symbol) (n k : Nat) (files : List File) :
    Prop where
  counter_eq : files.map (·.val counter) = (List.range n).map (n - ·)
  variable_eq : ∀ x ∈ v, files.map (·.val x.register) = List.range' k n

variable {counter : Register} {v : Option Symbol} {n m k : Nat} {file : File} {files : List File}

private theorem counts_nil (counter : Register) (v : Option Symbol) (k : Nat) :
    Counts counter v 0 k [] :=
  ⟨rfl, fun _ _ => rfl⟩

theorem Counts.cons (h : Counts counter v n (k + 1) files) (hcounter : file.val counter = n + 1)
    (hv : ∀ x ∈ v, file.val x.register = k) : Counts counter v (n + 1) k (file :: files) where
  counter_eq := by
    rw [List.map_cons, hcounter, h.counter_eq, List.range_succ_eq_map, List.map_cons, List.map_map]
    simp [Function.comp_def]
  variable_eq x hx := by
    rw [List.map_cons, hv x hx, h.variable_eq x hx, List.range'_succ]

/-! ### Rounds -/

variable {p : Program} {address : Label → Nat} {body : Fragment}
  {header step bodyLabel exit : Label}
  {table : SymbolTable} {used size : Nat} {meaning : Env → Option Env} {env env' : Env}

/-- Where the parts of a loop stand after each other. -/
structure LoopOrder (address : Label → Nat) (body : Fragment) (header bodyLabel exit : Label) :
    Prop where
  header_lt : address header < address bodyLabel
  exit_eq : address exit = address bodyLabel + body.size + 2

theorem LoopOrder.of_placed {start : Fragment} {entry : Label} {a : Nat}
    (h : (test counter entry exit ++ define entry ++ start ++ jump bodyLabel ++ define header
      ++ test counter step exit ++ define step ++ advance v ++ define bodyLabel ++ body
      ++ dec counter ++ jump header ++ define exit).Placed p address a) :
    LoopOrder address body header bodyLabel exit ∧ address header = a + start.size + 2 ∧
      address bodyLabel = a + (test counter entry exit ++ define entry ++ start ++ jump bodyLabel
        ++ define header ++ test counter step exit ++ define step ++ advance v).size := by
  obtain ⟨h, hexit⟩ := h.append
  obtain ⟨h, -⟩ := h.append
  obtain ⟨h, -⟩ := h.append
  obtain ⟨h, -⟩ := h.append
  obtain ⟨h, hbodyLabel⟩ := h.append
  obtain ⟨h, -⟩ := h.append
  obtain ⟨h, -⟩ := h.append
  obtain ⟨h, -⟩ := h.append
  obtain ⟨-, hheader⟩ := h.append
  have hexit := hexit.address_define
  have hbodyLabel := hbodyLabel.address_define
  have hheader := hheader.address_define
  simp only [size_append, size_define, size_test, size_jump, size_dec] at *
  exact ⟨⟨by omega, by omega⟩, by omega, by omega⟩

/-- One round, from the body to the header. -/
private theorem LoopCode.quiet_round
    (h : LoopCode p address counter v body header step bodyLabel exit)
    (horder : LoopOrder address body header bodyLabel exit) (hwf : body.WellFormed)
    (ht : table.Orderly) (hnamed : table.symbols.length < counter.id)
    (hcounter : file.Has counter) (hbody : body.Realizes table used size meaning)
    (hsize : size ≤ file.size) (hclean : file.Clean used) (henv : table.Represents env file)
    (hm : file.val counter = m + 1) (hmeaning : meaning env = some env') :
    ∃ file' : File, p.Quiet (address bodyLabel) (address bodyLabel + body.size) (address exit)
        ⟨address bodyLabel, file⟩ ⟨address header, file'⟩ ∧
      table.Represents env' file' ∧ table.SameScratch (file.put counter m) file' := by
  obtain ⟨file₁, htraverses, henv', hsame⟩ :=
    hbody.traverses h.body_placed hwf hsize hclean henv hmeaning
  have hhas : file₁.Has counter := by rwa [File.Has, hsame.size_eq]
  have hval : file₁.val counter = m + 1 := (hsame.val_eq counter hnamed).trans hm
  have hlt := hclean.bounded counter hcounter
  have hexit := horder.exit_eq
  have hheader := horder.header_lt
  refine ⟨file₁.put counter m, ?_, henv'.put_of_lt ht hnamed hhas.2 m,
    hsame.put_both hcounter (by omega)⟩
  refine (Program.Quiet.inside htraverses (by omega)).trans ?_
  refine (Program.Quiet.single (Program.step_dec h.fetch_dec hhas hval) ?_ ?_).trans
    (Program.Quiet.single (Program.step_jmp h.fetch_back) ?_ ?_) <;> omega

private theorem setRound_self {x : Symbol} (hx : x ∈ v) (env : Env) (round : Nat) :
    setRound v env round x.name = round := by
  obtain rfl := hx
  exact Env.set_self env x.name round

/-- From the header into one more round. The run comes to the body from the code that advances the
loop's variable, or from the header itself if there is no such code. -/
private theorem LoopCode.arrives_next
    (h : LoopCode p address counter v body header step bodyLabel exit)
    (horder : LoopOrder address body header bodyLabel exit) (ht : table.Orderly)
    (hv : ∀ x ∈ v, x ∈ table.symbols) (hnamed : table.symbols.length ≤ file.size)
    (hcounter : file.Has counter) (hval : file.val counter ≠ 0) (hb : file.Bounded)
    (henv : table.Represents env file) (hk : ∀ x ∈ v, env x.name = k) (hlt : k + 1 < wordBound) :
    ∃ file' : File, table.Represents (setRound v env (k + 1)) file' ∧
      table.SameScratch file file' ∧ ∀ ⦃files : List File⦄ ⦃last : File⦄,
        p.Arrives (address bodyLabel) (address bodyLabel + body.size) (address exit)
          ⟨address bodyLabel, file'⟩ files last →
        p.Arrives (address bodyLabel) (address bodyLabel + body.size) (address exit)
          ⟨address header, file⟩ (file' :: files) last := by
  have hexit := horder.exit_eq
  have hheader := horder.header_lt
  have hstep : p.step ⟨address header, file⟩ = .next ⟨address step, file⟩ := by
    rw [Program.step_tst h.fetch_test hcounter, if_neg hval]
  have heq := h.bodyLabel_eq
  rcases v with _ | x
  · -- nothing is advanced, so the step is the body
    have heq : address bodyLabel = address step := heq
    rw [← heq] at hstep
    refine ⟨file, henv, .refl hb, fun files last harrives => .enter ?_ ?_ hstep harrives⟩ <;>
      omega
  · have heq : address bodyLabel = address step + 1 := heq
    have hx := hv x rfl
    have hhas := ht.has hx hnamed
    have hk' : file.val x.register = k := (henv x hx).trans (hk x rfl)
    have hinc := Program.step_inc h.advance_placed.fetch_inc hhas (by rwa [hk'])
    rw [← heq, hk'] at hinc
    refine ⟨file.put x.register (k + 1), henv.put ht hx hnamed (k + 1),
      .put hb hhas (ht.register_le hx) hlt, fun files last harrives => ?_⟩
    refine .pass ?_ (fun habs => absurd habs ?_) hstep (.enter ?_ ?_ hinc harrives) <;>
      omega

/-- The rounds still to go, seen from the start of the first of them. There are `m + 1` rounds, the
first of which has number `k`. -/
private theorem LoopCode.arrives
    (h : LoopCode p address counter v body header step bodyLabel exit)
    (horder : LoopOrder address body header bodyLabel exit) (hwf : body.WellFormed)
    (ht : table.Orderly) (hv : ∀ x ∈ v, x ∈ table.symbols)
    (hnamed : table.symbols.length < counter.id) (hcounter : counter.id ≤ used)
    (hused : used ≤ size) (hbody : body.Realizes table used size meaning)
    (hkeeps : ∀ env env', meaning env = some env' → ∀ x ∈ v, env' x.name = env x.name)
    (hsize : size ≤ file.size) (hclean : file.Clean used)
    (henv : table.Represents (setRound v env k) file) (hm : file.val counter = m + 1)
    (hk : k + m < wordBound)
    (heval : (List.range' k (m + 1)).foldlM (fun env round => meaning (setRound v env round)) env =
      some env') :
    ∃ (files : List File) (file' : File),
      p.Arrives (address bodyLabel) (address bodyLabel + body.size) (address exit)
        ⟨address bodyLabel, file⟩ files file' ∧
      Counts counter v (m + 1) k (file :: files) ∧ table.Represents env' file' ∧
      table.SameScratch (file.put counter 0) file' ∧ ∀ x ∈ v, env' x.name = k + m := by
  -- the counter holds the rounds to go, this one included, so the last round is the base case
  induction m generalizing k env file with
  | zero =>
    have hhas : file.Has counter := ⟨Nat.zero_lt_of_lt hnamed, by omega⟩
    rw [List.range'_succ, List.foldlM_cons] at heval
    obtain ⟨env₁, hround, hrest⟩ := Option.bind_eq_some_iff.mp heval
    obtain rfl : env₁ = env' := Option.some.inj hrest
    obtain ⟨file', hquiet, henv', hsame⟩ :=
      h.quiet_round horder hwf ht hnamed hhas hbody hsize hclean henv hm hround
    have hhas' : file'.Has counter := by rwa [File.Has, hsame.size_eq, File.size_put]
    have hval : file'.val counter = 0 :=
      (hsame.val_eq counter hnamed).trans (File.val_put_self hhas 0)
    have hstep : p.step ⟨address header, file'⟩ = .next ⟨address exit, file'⟩ := by
      rw [Program.step_tst h.fetch_test hhas', if_pos hval]
    have hexit := horder.exit_eq
    have hheader := horder.header_lt
    refine ⟨[], file', hquiet (Program.Quiet.single hstep ?_ ?_ (.stop file')), ?_, henv', hsame,
      ?_⟩
    · omega
    · omega
    · exact (counts_nil counter v (k + 1)).cons hm fun x hx =>
        (henv x (hv x hx)).trans (setRound_self hx env k)
    · exact fun x hx => (hkeeps _ _ hround x hx).trans (setRound_self hx env k)
  | succ m ih =>
    have hhas : file.Has counter := ⟨Nat.zero_lt_of_lt hnamed, by omega⟩
    rw [List.range'_succ, List.foldlM_cons] at heval
    obtain ⟨env₁, hround, hrest⟩ := Option.bind_eq_some_iff.mp heval
    obtain ⟨file₁, hquiet, henv₁, hsame⟩ :=
      h.quiet_round horder hwf ht hnamed hhas hbody hsize hclean henv hm hround
    have hsize₁ : file₁.size = file.size := by rw [hsame.size_eq, File.size_put]
    have hhas₁ : file₁.Has counter := by rwa [File.Has, hsize₁]
    have hval₁ : file₁.val counter = m + 1 :=
      (hsame.val_eq counter hnamed).trans (File.val_put_self hhas _)
    obtain ⟨file₂, henv₂, hsame', hnext⟩ := h.arrives_next horder ht hv (by omega) hhas₁
      (by omega) hsame.bounded henv₁
      (fun x hx => (hkeeps _ _ hround x hx).trans (setRound_self hx env k)) (by omega)
    have hsame'' := hsame.trans hsame'
    have hclean₂ : file₂.Clean used :=
      hsame''.clean (hclean.put hhas hcounter (by omega)) (by omega)
    have hbase : table.SameScratch (file.put counter 0) (file₂.put counter 0) := by
      have hboth := hsame''.put_both (File.has_put.mpr hhas) (show 0 < wordBound by decide)
      rwa [File.put_put] at hboth
    obtain ⟨files, file', harrives, hcounts, henv', hsame₃, hlast⟩ := ih
      (by rw [hsame'.size_eq]; omega) hclean₂ henv₂
      ((hsame'.val_eq counter hnamed).trans hval₁) (by omega) hrest
    refine ⟨file₂ :: files, file', hquiet (hnext harrives), ?_, henv', hbase.trans hsame₃, ?_⟩
    · exact hcounts.cons hm fun x hx => (henv x (hv x hx)).trans (setRound_self hx env k)
    · intro x hx
      rw [hlast x hx]
      omega

/-! ### Whole loops -/

/-- The rounds of a loop whose counter is loaded. -/
private theorem arrives_rounds {start : Fragment} {entry : Label} {a : Nat} (ht : table.Orderly)
    (hv : ∀ x ∈ v, x ∈ table.symbols) (hnamed : table.symbols.length < counter.id)
    (hcounter : counter.id ≤ used) (hused : used ≤ size) (hstartWf : start.WellFormed)
    (hstart : start.Performs used size fun file =>
      v.elim (some file) fun x => file.assign? x.register 0)
    (hwf : body.WellFormed) (hbody : body.Realizes table used size meaning)
    (hkeeps : ∀ env env', meaning env = some env' → ∀ x ∈ v, env' x.name = env x.name)
    (h : (test counter entry exit ++ define entry ++ start ++ jump bodyLabel ++ define header
      ++ test counter step exit ++ define step ++ advance v ++ define bodyLabel ++ body
      ++ dec counter ++ jump header ++ define exit).Placed p address a)
    (hsize : size ≤ file.size) (hclean : file.Clean used) (henv : table.Represents env file)
    (hval : file.val counter = n)
    (heval : (List.range n).foldlM (fun env round => meaning (setRound v env round)) env =
      some env') :
    ∃ (files : List File) (file' : File),
      p.Arrives (address bodyLabel) (address bodyLabel + body.size) (address exit) ⟨a, file⟩ files
        file' ∧
      Counts counter v n 0 files ∧ table.Represents env' file' ∧
      table.SameScratch (file.put counter 0) file' ∧ (n = 0 → file' = file) ∧
      ∀ x ∈ v, 0 < n → env' x.name = n - 1 := by
  obtain ⟨htest, hentry, hstart', hjump, hloop, -⟩ := LoopCode.of_placed h
  obtain ⟨horder, hheader, -⟩ := LoopOrder.of_placed h
  have hheader' := horder.header_lt
  have hexit := horder.exit_eq
  have hhas : file.Has counter := ⟨Nat.zero_lt_of_lt hnamed, by omega⟩
  rcases n with _ | m
  · obtain rfl : env = env' := Option.some.inj heval
    have hstep : p.step ⟨a, file⟩ = .next ⟨address exit, file⟩ := by
      rw [Program.step_tst htest hhas, if_pos hval]
    refine ⟨[], file, Program.Quiet.single hstep ?_ ?_ (.stop file), counts_nil .., henv, ?_,
      fun _ => rfl, fun _ _ hpos => absurd hpos (Nat.lt_irrefl 0)⟩
    · omega
    · omega
    · rw [File.put_eq_self hhas hval]
      exact .refl hclean.bounded
  · have hstep : p.step ⟨a, file⟩ = .next ⟨a + 1, file⟩ := by
      rw [Program.step_tst htest hhas, if_neg (by omega), hentry]
    -- the loop's variable is set by code that a run cannot leave before its end
    obtain ⟨file₁, hreach, henv₁, hsame⟩ := reaches_restart ht hv (by omega) hclean.bounded henv
      (hstart (hstart'.only hstartWf) hsize hclean)
    have hval₁ : file₁.val counter = m + 1 := (hsame.val_eq counter hnamed).trans hval
    have hbound := hclean.bounded counter hhas
    rw [List.range_eq_range'] at heval
    obtain ⟨files, file', harrives, hcounts, henv', hsame', hlast⟩ :=
      hloop.arrives horder hwf ht hv hnamed hcounter hused hbody hkeeps (hsame.size_eq ▸ hsize)
        (hsame.clean hclean (by omega)) henv₁ hval₁ (by omega) heval
    refine ⟨file₁ :: files, file', ?_, hcounts, henv', ?_, fun hzero => absurd hzero (by omega), ?_⟩
    · refine Program.Quiet.single hstep ?_ ?_ (Program.Quiet.outside hreach.traverses ?_ ?_ ?_
        (.enter ?_ ?_ (Program.step_jmp hjump) harrives)) <;> omega
    · exact (hsame.put_both hhas (by decide)).trans hsame'
    · intro x hx _
      rw [hlast x hx]
      omega

/-- What the parts of a loop do, if its counter is the register after the `used` first ones and the
register of `x` tells how many rounds there are. -/
structure LoopParts (table : SymbolTable) (used size : Nat) (meaning : Env → Option Env)
    (x : Symbol) (v : Option Symbol) (load start body : Fragment) : Prop where
  bound_mem : x ∈ table.symbols
  variable_mem : ∀ y ∈ v, y ∈ table.symbols
  length_le : table.symbols.length ≤ used
  used_lt : used + 1 ≤ size
  load_wellFormed : load.WellFormed
  load_performs : load.Performs (used + 1) size fun file =>
    file.add? ⟨used + 1⟩ (file.val x.register)
  start_wellFormed : start.WellFormed
  start_performs : start.Performs (used + 1) size fun file =>
    v.elim (some file) fun y => file.assign? y.register 0
  body_wellFormed : body.WellFormed
  body_realizes : body.Realizes table (used + 1) size meaning
  body_keeps : ∀ env env', meaning env = some env' → ∀ y ∈ v, env' y.name = env y.name

/-- A loop with the code that loads its counter. In the end the counter is empty again, so no
scratch register has changed. -/
private theorem LoopParts.arrives {load start : Fragment} {entry : Label} {a : Nat} {x : Symbol}
    (hparts : LoopParts table used size meaning x v load start body) (ht : table.Orderly)
    (h : (load ++ (test ⟨used + 1⟩ entry exit ++ define entry ++ start ++ jump bodyLabel
      ++ define header ++ test ⟨used + 1⟩ step exit ++ define step ++ advance v ++ define bodyLabel
      ++ body ++ dec ⟨used + 1⟩ ++ jump header ++ define exit)).Placed p address a)
    (hsize : size ≤ file.size) (hclean : file.Clean used) (henv : table.Represents env file)
    (heval : (List.range (env x.name)).foldlM (fun env round => meaning (setRound v env round))
      env = some env') :
    ∃ (files : List File) (file' : File),
      p.Arrives (address bodyLabel) (address bodyLabel + body.size) (address exit) ⟨a, file⟩ files
        file' ∧
      Counts ⟨used + 1⟩ v (env x.name) 0 files ∧ table.Represents env' file' ∧
      table.SameScratch file file' ∧ (env x.name = 0 → file' = file) ∧
      ∀ y ∈ v, 0 < env x.name → env' y.name = env x.name - 1 := by
  obtain ⟨hload, hrounds⟩ := h.append
  obtain ⟨horder, hheader, -⟩ := LoopOrder.of_placed hrounds
  have hheader' := horder.header_lt
  have hexit := horder.exit_eq
  have hused := hparts.used_lt
  have hnamed := Nat.lt_succ_of_le hparts.length_le
  have hhas : file.Has ⟨used + 1⟩ := ⟨Nat.succ_pos used, Nat.le_trans hused hsize⟩
  have hempty : file.val ⟨used + 1⟩ = 0 := hclean.empty _ (Nat.lt_succ_self used)
  have hn : file.val x.register = env x.name := henv x hparts.bound_mem
  have hlt : env x.name < wordBound :=
    hn ▸ hclean.bounded _ (ht.has hparts.bound_mem (by omega))
  have hadd : file.add? ⟨used + 1⟩ (file.val x.register) =
      some (file.put ⟨used + 1⟩ (env x.name)) := by
    rw [File.add?, hempty, Nat.zero_add, hn, File.assign?_of_lt hlt]
  have hclean₁ := hclean.mono (Nat.le_succ used)
  have htraverses :=
    hparts.load_performs.traverses hload hparts.load_wellFormed hsize hclean₁ hadd
  obtain ⟨files, file', harrives, hcounts, henv', hsame, hzero, hlast⟩ :=
    arrives_rounds ht hparts.variable_mem hnamed (Nat.le_refl _) hused hparts.start_wellFormed
      hparts.start_performs hparts.body_wellFormed hparts.body_realizes hparts.body_keeps hrounds
      (by rwa [File.size_put]) (hclean₁.put hhas (Nat.le_refl _) hlt)
      (henv.put_of_lt ht hnamed hhas.2 _) (File.val_put_self hhas _) heval
  rw [File.put_put, File.put_eq_self hhas hempty] at hsame
  refine ⟨files, file', Program.Quiet.outside htraverses ?_ ?_ ?_ harrives, hcounts, henv', hsame,
    fun hnone => ?_, hlast⟩
  · omega
  · omega
  · omega
  · rw [hzero hnone, hnone, File.put_eq_self hhas hempty]

/-- What the rounds of a loop have gone through: setting the loop's variable to zero, and the
body. -/
private theorem exists_of_rounds {ctx : Context} {s s' : State} {f : Fragment}
    {act : EmitM Fragment}
    (ht : ctx.symbols.Orderly) (hv : ∀ x ∈ v, x ∈ ctx.symbols.symbols) (hs : s.pool.Packed used)
    (hnamed : ctx.symbols.symbols.length ≤ used)
    (h : rounds counter (v.map (·.register)) act s = .ok f s') :
    ∃ (start g : Fragment) (entry header step bodyLabel exit : Label) (s₁ s₂ : State),
      bodyLabel.kind = .loopBody ∧ exit.kind = .loopExit ∧
      Computes used (·.Within ctx.symbols.symbols.length)
        (fun file => v.elim (some file) fun x => file.assign? x.register 0) s₁ s₂ start ∧
      s₁.pool = s.pool ∧ act s₂ = .ok g s' ∧
      f = test counter entry exit ++ define entry ++ start ++ jump bodyLabel ++ define header
        ++ test counter step exit ++ define step ++ advance v ++ define bodyLabel ++ g
        ++ dec counter ++ jump header ++ define exit := by
  rw [rounds_eq] at h
  obtain ⟨entry, s₁, -, hpool₁, h⟩ := exists_of_fresh_bind h
  obtain ⟨header, s₂, -, hpool₂, h⟩ := exists_of_fresh_bind h
  obtain ⟨step, s₃, -, hpool₃, h⟩ := exists_of_fresh_bind h
  obtain ⟨bodyLabel, s₄, hbodyLabel, hpool₄, h⟩ := exists_of_fresh_bind h
  obtain ⟨exit, s₅, hexit, hpool₅, h⟩ := exists_of_fresh_bind h
  obtain ⟨start, s₆, hrestart, h⟩ := exists_of_run_bind h
  obtain ⟨g, s₇, hbody, h⟩ := exists_of_run_bind h
  cases h
  have hpool : s₅.pool = s.pool := by rw [hpool₅, hpool₄, hpool₃, hpool₂, hpool₁]
  have hyields : Yields (Refuses True) (restart v) s₅ _ :=
    yields_restart ht hv (hpool ▸ hs) hnamed
  exact ⟨start, g, entry, header, step, bodyLabel, exit, s₅, s₆, hbodyLabel, hexit,
    hyields.ensures.of_ok hrestart, hpool, hbody, rfl⟩

/-- What a loop that has code has gone through: loading the counter, which is the next scratch
register, and the rounds. -/
private theorem exists_of_loop {ctx : Context} {s s' : State} {f : Fragment} {name bound : String}
    {act : EmitM Fragment} {line : UInt64} (ht : ctx.symbols.Orderly) (hs : s.pool.Packed used)
    (hnamed : ctx.symbols.symbols.length ≤ used)
    (h : loop ctx name (.var bound) act line s = .ok f s') :
    ∃ (x : Symbol) (load code : Fragment) (s₁ s₂ s₃ : State),
      x ∈ ctx.symbols.symbols ∧ x.name = bound ∧ s.pool.Grows s₁.pool ∧
      Computes (used + 1) (fun r => r = x.register ∨ r = ⟨used + 1⟩)
        (fun file => file.add? ⟨used + 1⟩ (file.val x.register)) s₁ s₂ load ∧
      rounds ⟨used + 1⟩ ((ctx.symbols.find? name).map (·.register)) act s₂ = .ok code s₃ ∧
      RegisterPool.release ⟨used + 1⟩ s₃.pool = .ok () s'.pool ∧ f = load ++ code := by
  unfold loop at h
  obtain ⟨r, s₀, hresolve, h⟩ := exists_of_run_bind h
  obtain ⟨rfl, x, hx, hname, rfl⟩ := (yields_resolve ctx bound line).ensures.of_ok hresolve
  split at h
  · cases h
  obtain ⟨counter, s₁, hscratch, h⟩ := exists_of_run_bind h
  obtain ⟨pool₁, htake, rfl⟩ := exists_of_onPool hscratch
  obtain ⟨rfl, hs₁, htaken⟩ := hs.of_takeScratch htake
  obtain ⟨load, s₂, hcopy, h⟩ := exists_of_run_bind h
  have hsource : x.register.Within used := (ht.within hx).mono hnamed
  have hyields : Yields (Refuses True) (copy x.register ⟨used + 1⟩) { s₀ with pool := pool₁ } _ :=
    yields_copy hs₁ (hsource.mono (Nat.le_succ used)) (.next used) hsource.ne_next
  obtain ⟨code, s₃, hrounds, h⟩ := exists_of_run_bind h
  obtain ⟨_, s₄, hrelease, h⟩ := exists_of_run_bind h
  obtain ⟨pool₄, hpool₄, rfl⟩ := exists_of_onPool hrelease
  cases h
  exact ⟨x, load, code, _, s₂, s₃, hx, hname, htaken, hyields.ensures.of_ok hcopy, hrounds,
    hpool₄, rfl⟩

/-- The code of a loop statement is made of parts that do what they should. -/
private theorem exists_of_stmt_loop {ctx : Context} {s s' : State} {f : Fragment}
    {name bound : String}
    {stmts : List Stmt} {line : UInt64} (ht : ctx.symbols.Orderly) (hs : s.pool.Packed used)
    (hnamed : ctx.symbols.symbols.length ≤ used)
    (h : stmt ctx (.loop name (.var bound) stmts line) s = .ok f s') :
    ∃ (x : Symbol) (load start g : Fragment) (entry header step bodyLabel exit : Label)
      (s₁ s₂ : State), x.name = bound ∧ bodyLabel.kind = .loopBody ∧ exit.kind = .loopExit ∧
      block { ctx with loops := name :: ctx.loops } stmts s₁ = .ok g s₂ ∧
      LoopParts ctx.symbols used s'.pool.highWater
        (evalBlock (fun name => (ctx.symbols.find? name).isSome) stmts) x (ctx.symbols.find? name)
        load start g ∧
      f = load ++ (test ⟨used + 1⟩ entry exit ++ define entry ++ start ++ jump bodyLabel
        ++ define header ++ test ⟨used + 1⟩ step exit ++ define step
        ++ advance (ctx.symbols.find? name) ++ define bodyLabel ++ g ++ dec ⟨used + 1⟩
        ++ jump header ++ define exit) := by
  have hnamed' := Nat.le_succ_of_le hnamed
  have hv : ∀ y ∈ ctx.symbols.find? name, y ∈ ctx.symbols.symbols :=
    fun y hy => SymbolTable.mem_of_find? hy
  rw [stmt] at h
  obtain ⟨s₀, hloop, rfl⟩ := exists_of_statement h
  obtain ⟨x, load, code, s₁, s₂, s₃, hx, hname, htaken, hload, hrounds, hrelease, rfl⟩ :=
    exists_of_loop ht hs hnamed hloop
  obtain ⟨start, g, entry, header, step, bodyLabel, exit, s₄, s₅, hbodyLabel, hexit, hstart, hpool,
    hblock, rfl⟩ := exists_of_rounds ht hv hload.packed hnamed' hrounds
  obtain ⟨hsupported, hbody, -⟩ := (translates_block { ctx with loops := name :: ctx.loops } stmts
    ht hstart.packed hnamed').ensures.of_ok hblock
  -- the pool has grown with each part, up to the release of the counter
  have hstartGrows : s₂.pool.Grows s₅.pool := hpool ▸ hstart.grows
  have hnamed₃ := ((htaken.trans hload.grows).trans (hstartGrows.trans hbody.grows)).named
  obtain ⟨-, hreleased⟩ := hbody.packed.of_release (hnamed₃ ▸ hs.named_le) hrelease
  have hbodyWater := hreleased.highWater
  have hstartWater := Nat.le_trans hbody.grows.highWater hbodyWater
  have hloadWater := Nat.le_trans hstartGrows.highWater hstartWater
  refine ⟨x, load, start, g, entry, header, step, bodyLabel, exit, s₅, s₃, hname, hbodyLabel, hexit,
    hblock, ⟨hx, hv, hnamed, Nat.le_trans hload.packed.used_le hloadWater, hload.code.wellFormed,
      hload.performs.mono hloadWater, hstart.code.wellFormed, hstart.performs.mono hstartWater,
      hbody.code.wellFormed, hbody.realizes.mono hbodyWater, ?_⟩, rfl⟩
  intro env env' heval y hy
  rw [SymbolTable.name_eq_of_find? hy]
  exact evalBlock_loopVariable stmts hsupported List.mem_cons_self heval

/-- **Counted loops.** A loop over the variable `bound`, whose own variable is `name`, has its code
emitted while any scratch registers are in use, and stands anywhere in the fragments that a program
is linked from. Its counter is the next scratch register, and its code ends with the code `g` of the
body, which has the loop's body label before it, a decrement of the counter and a jump back.

Let a run come to this code with all idle registers empty. If the rounds come to a sum that no
register can hold, the run overflows. Otherwise it gets to the end of the loop, and on the way it
comes to the body from outside exactly as often as `bound` said on entry. The counter then holds
that number less the number of the round, and `name`, if it is declared, holds the number of the
round. At the end the counter is empty and `name` has the number of the last round. Without any
rounds no register has changed. And `bound` is unchanged as long as it is not `name` and the body
does not set it. -/
theorem loop_arrives {ctx : Context} {s s' : State} {f : Fragment} {name bound : String}
    {body : List Stmt} {line : UInt64} (hs : ctx.Reachable s)
    (hloop : stmt ctx (.loop name (.var bound) body line) s = .ok f s') :
    let counter : Register := ⟨s.pool.named + s.pool.live.length + 1⟩
    ∃ (first g : Fragment) (bodyLabel header exit : Label) (s₁ s₂ : State),
      bodyLabel.kind = .loopBody ∧ exit.kind = .loopExit ∧
      block { ctx with loops := name :: ctx.loops } body s₁ = .ok g s₂ ∧
      f = first ++ define bodyLabel ++ g ++ dec counter ++ jump header ++ define exit ∧
      ∀ {base : AddressBase} {registers : Array Nat} {symbols : List (String × Register)}
        {fragments : List Fragment} {before after : Fragment} {p : Program} {file : File}
        {env : Env}, Fragment.join fragments = before ++ f ++ after →
        link base registers symbols fragments = .ok p → s'.pool.highWater ≤ file.size →
        file.Bounded → (∀ r, s.pool.Idle r → file.val r = 0) → ctx.symbols.Represents env file →
        let a := base.first + before.size
        let meaning :=
          (Stmt.loop name (.var bound) body line).eval fun name => (ctx.symbols.find? name).isSome
        (meaning env = none → p.Overflows ⟨a, file⟩) ∧
        (meaning env ≠ none → ∃ (files : List File) (file' : File),
          p.Arrives (a + first.size) (a + first.size + g.size) (a + f.size) ⟨a, file⟩ files file' ∧
          files.length = env bound ∧
          Counts counter (ctx.symbols.find? name) (env bound) 0 files ∧ file'.val counter = 0 ∧
          (∀ x ∈ ctx.symbols.find? name, 0 < env bound → file'.val x.register = env bound - 1) ∧
          (env bound = 0 → file' = file) ∧
          (name ≠ bound → blockSets bound body = false →
            ∀ x ∈ ctx.symbols.find? bound, file'.val x.register = file.val x.register)) := by
  have hlowers := hs.lowers_stmt hloop
  obtain ⟨ht, hlength, hpacked⟩ := hs.spec
  generalize s.pool.named + s.pool.live.length = used at hlowers hpacked
  have hnamed : ctx.symbols.symbols.length ≤ used := Nat.le_trans hlength hpacked.named_le
  obtain ⟨x, load, start, g, entry, header, step, bodyLabel, exit, s₁, s₂, rfl, hbodyLabel, hexit,
    hblock, hparts, rfl⟩ := exists_of_stmt_loop ht hpacked hnamed hloop
  refine ⟨load ++ (test ⟨used + 1⟩ entry exit ++ define entry ++ start ++ jump bodyLabel
    ++ define header ++ test ⟨used + 1⟩ step exit ++ define step
    ++ advance (ctx.symbols.find? name)), g, bodyLabel, header, exit, s₁, s₂, hbodyLabel, hexit,
    hblock, by simp only [append_assoc], ?_⟩
  intro base registers symbols fragments before after p file env hcontains hlink hsize hbounded
    hidle henv a meaning
  have hclean : file.Clean used := ⟨hbounded, fun r hr => hidle r (hpacked.idle_iff.mpr hr)⟩
  obtain ⟨hresolved, rfl, -⟩ := resolved_of_link hlink
  rw [hcontains] at hresolved
  have hplaced := hresolved.placed hlowers.code.wellFormed
  constructor
  · intro hnone
    have hfollows := hlowers.realizes hplaced hsize hclean henv
    rwa [show Stmt.eval _ _ env = none from hnone] at hfollows
  · intro hsome
    obtain ⟨env', heval⟩ := Option.ne_none_iff_exists'.mp hsome
    have hrounds := heval
    simp only [meaning, Stmt.eval, Operand.eval, ← setRound_find?] at hrounds
    obtain ⟨files, file', harrives, hcounts, henv', hsame, hzero, hlast⟩ :=
      hparts.arrives ht hplaced hsize hclean henv hrounds
    obtain ⟨-, -, hbodyAt⟩ := LoopOrder.of_placed hplaced.append.2
    obtain ⟨-, -, -, -, -, hexitAt⟩ := LoopCode.of_placed hplaced.append.2
    rw [Nat.add_assoc, ← size_append] at hbodyAt hexitAt
    rw [hbodyAt, hexitAt] at harrives
    refine ⟨files, file', harrives, ?_, hcounts, ?_, ?_, hzero, ?_⟩
    · simpa using congrArg List.length hcounts.counter_eq
    · rw [hsame.val_eq _ (Nat.lt_succ_of_le hnamed)]
      exact hclean.empty _ (Nat.lt_succ_self used)
    · intro y hy hpos
      rw [henv' y (hparts.variable_mem y hy), hlast y hy hpos]
    · intro hne hsets y hy
      have hy' := SymbolTable.mem_of_find? hy
      rw [henv' y hy', henv y hy', SymbolTable.name_eq_of_find? hy]
      refine Stmt.eval_of_not_sets _ ?_ heval
      simp [Stmt.sets, hne, hsets]

/-- A loop that adds to its own bound in each round. -/
def growingLoop : Stmt :=
  .loop "t" (.var "b") [.assign "b" (.binary .add (.var "b") (.lit 1)) 2] 1

private theorem yields_growingLoop :
    Yields (fun _ => False) (stmt pairContext growingLoop) pairState fun _ s' =>
      s'.pool.highWater ≤ pairFile.size := by
  decide +kernel

theorem loop_arrives_growingLoop :
    ∃ (f first g : Fragment) (s' : State) (p : Program) (files : List File) (file' : File),
      pairContext.Reachable pairState ∧ stmt pairContext growingLoop pairState = .ok f s' ∧
      link .zero #[] [] [.inc ⟨3⟩, f] = .ok p ∧
      p.Arrives (1 + first.size) (1 + first.size + g.size) (1 + f.size) ⟨1, pairFile⟩ files file' ∧
      files.map (·.val ⟨4⟩) = [5, 4, 3, 2, 1] ∧ files.map (·.val ⟨1⟩) = [0, 1, 2, 3, 4] ∧
      file'.val ⟨4⟩ = 0 ∧ file'.val ⟨1⟩ = 4 := by
  obtain ⟨f, s', hloop, hwater⟩ := yields_growingLoop.exists_ok
  have hs := reachable_pairState
  obtain ⟨p, hlink⟩ := exists_link_after_inc (hs.lowers_stmt hloop).code
  obtain ⟨first, g, -, -, -, -, -, -, -, -, -, hruns⟩ := loop_arrives hs hloop
  obtain ⟨-, hrun⟩ := hruns (Fragment.append_assoc _ _ _).symm hlink hwater bounded_pairFile
    val_pairFile_of_idle represents_pairFile
  obtain ⟨files, file', harrives, -, hcounts, hcounter, hvariable, -⟩ := hrun (by decide)
  exact ⟨f, first, g, s', p, files, file', hs, hloop, hlink, harrives, hcounts.counter_eq,
    hcounts.variable_eq ⟨"t", ⟨1⟩, 3⟩ rfl, hcounter, hvariable ⟨"t", ⟨1⟩, 3⟩ rfl (by decide)⟩

end Emit

end Abacus
