import Abacus.Emit.Block
import Abacus.Source.Supported
import Abacus.Proofs.Emission

/-!
# Conditionals and counted loops at work

The code of statements takes a register file that represents the values of the variables to one that
represents the values after them, and leaves all other registers as they were (`Program.Follows`).
Here this is shown of the code of conditionals and of counted loops, given that it holds of the
blocks in them. For loops the argument is an induction on the rounds still to go: at the start of
each round the counter holds their number and the loop's variable the number of the rounds done.
-/

namespace Abacus

open Machine Code Fragment
open Source hiding Program

/-- Two register files that differ in the registers of variables only. -/
structure SymbolTable.SameScratch (table : SymbolTable) (file file' : File) : Prop where
  bounded : file'.Bounded
  size_eq : file'.size = file.size
  val_eq : ∀ r : Register, table.symbols.length < r.id → file'.val r = file.val r

namespace SymbolTable.SameScratch

variable {table : SymbolTable} {file file' file'' : File} {r : Register}

theorem refl (h : file.Bounded) : table.SameScratch file file := ⟨h, rfl, fun _ _ => rfl⟩

theorem trans (h : table.SameScratch file file') (h' : table.SameScratch file' file'') :
    table.SameScratch file file'' :=
  ⟨h'.bounded, h'.size_eq.trans h.size_eq, fun r hr => (h'.val_eq r hr).trans (h.val_eq r hr)⟩

/-- Scratch registers that were empty still are. -/
theorem clean (h : table.SameScratch file file') {used : Nat} (hclean : file.Clean used)
    (hle : table.symbols.length ≤ used) : file'.Clean used :=
  ⟨h.bounded, fun r hr =>
    (h.val_eq r (Nat.lt_of_le_of_lt hle hr)).trans (hclean.empty r hr)⟩

/-- Setting the register of a variable changes no other register. -/
theorem put (h : file.Bounded) (hr : file.Has r) (hle : r.id ≤ table.symbols.length) {n : Nat}
    (hn : n < wordBound) : table.SameScratch file (file.put r n) where
  bounded := h.put hr hn
  size_eq := File.size_put ..
  val_eq t ht := by
    have hne : t ≠ r := by
      rintro rfl
      omega
    rcases Nat.lt_or_ge file.size t.id with hlt | hge
    · rw [File.val_eq_zero_of_size_lt hlt, File.val_eq_zero_of_size_lt (by rwa [File.size_put])]
    · exact File.val_put_of_ne hr ⟨Nat.zero_lt_of_lt ht, hge⟩ hne n

/-- The same register is set in both files. -/
theorem put_both (h : table.SameScratch file file') (hr : file.Has r) {n : Nat}
    (hn : n < wordBound) : table.SameScratch (file.put r n) (file'.put r n) where
  bounded := h.bounded.put (by rwa [File.Has, h.size_eq]) hn
  size_eq := by rw [File.size_put, File.size_put, h.size_eq]
  val_eq t ht := by
    have hr' : file'.Has r := by rwa [File.Has, h.size_eq]
    rcases Nat.lt_or_ge file.size t.id with hlt | hge
    · rw [File.val_eq_zero_of_size_lt (by rwa [File.size_put, h.size_eq]),
        File.val_eq_zero_of_size_lt (by rwa [File.size_put])]
    · have ht' : file.Has t := ⟨Nat.zero_lt_of_lt ht, hge⟩
      rw [File.val_put hr ht', File.val_put hr' (by rwa [File.Has, h.size_eq]), h.val_eq t ht]

end SymbolTable.SameScratch

/-- A run gets to an address with given values of the variables, and with the other registers as in
`base`; without such values it overflows. -/
def Machine.Program.Follows (p : Program) (table : SymbolTable) (base : File) (c : Config)
    (b : Nat) : Option Env → Prop
  | some env => ∃ file : File, p.Reaches c ⟨b, file⟩ ∧ table.Represents env file ∧
      table.SameScratch base file
  | none => p.Overflows c

namespace Machine.Program

variable {p : Program} {table : SymbolTable} {base base' : File} {c c' : Config} {b d : Nat}

/-- A run that comes to the start of some code goes on as its meaning does. -/
private theorem Reaches.follows {x : Option Env} (h : p.Reaches c c')
    (h' : p.Follows table base c' b x) :
    p.Follows table base c b x := by
  cases x with
  | some env =>
    obtain ⟨file, hreach, hrest⟩ := h'
    exact ⟨file, h.trans hreach, hrest⟩
  | none => exact h.overflows h'

/-- Code whose meaning is one after another. -/
theorem Follows.bind {x : Option Env} {y : Env → Option Env} (h : p.Follows table base c b x)
    (h' : ∀ env file, x = some env → table.Represents env file → table.SameScratch base file →
      p.Follows table base' ⟨b, file⟩ d (y env)) :
    p.Follows table base' c d (x.bind y) := by
  cases x with
  | some env =>
    obtain ⟨file, hreach, henv, hsame⟩ := h
    exact hreach.follows (h' env file rfl henv hsame)
  | none => exact h

/-- Jumps after the code. -/
private theorem Follows.goto {x : Option Env} (h : p.Follows table base c b x)
    (h' : ∀ file, p.Reaches ⟨b, file⟩ ⟨d, file⟩) : p.Follows table base c d x := by
  cases x with
  | some env =>
    obtain ⟨file, hreach, hrest⟩ := h
    exact ⟨file, hreach.trans (h' file), hrest⟩
  | none => exact h

/-- The scratch registers may be compared with those of any file before. -/
theorem Follows.rebase {x : Option Env} (h : p.Follows table base' c b x)
    (hsame : table.SameScratch base base') : p.Follows table base c b x := by
  cases x with
  | some env =>
    obtain ⟨file, hreach, henv, hsame'⟩ := h
    exact ⟨file, hreach, henv, hsame.trans hsame'⟩
  | none => exact h

end Machine.Program

/-- Wherever the code stands, it does to the variables what `meaning` says. The register file has
`size` registers or more, and those after `used` are empty. -/
def Code.Fragment.Realizes (f : Fragment) (table : SymbolTable) (used size : Nat)
    (meaning : Env → Option Env) : Prop :=
  ∀ ⦃p : Program⦄ ⦃address : Label → Nat⦄ ⦃a : Nat⦄ ⦃file : File⦄ ⦃env : Env⦄,
    f.Placed p address a → size ≤ file.size → file.Clean used → table.Represents env file →
    p.Follows table file ⟨a, file⟩ (a + f.size) (meaning env)

theorem Code.Fragment.Realizes.mono {f : Fragment} {table : SymbolTable} {used size size' : Nat}
    {meaning : Env → Option Env} (h : f.Realizes table used size meaning) (hle : size ≤ size') :
    f.Realizes table used size' meaning :=
  fun _ _ _ _ _ hplaced hsize => h hplaced (Nat.le_trans hle hsize)

/-- The variables with the loop's own one, if it is declared, set to the number of a round. -/
def Emit.setRound (loopVariable : Option Symbol) (env : Env) (round : Nat) : Env :=
  match loopVariable with
  | some x => env.set x.name round
  | none => env

/-- Wherever the code stands, it does what `meaning` says as often as the counter says, each time
with the number of the round set, and leaves the counter at zero. -/
def Code.Fragment.Repeats (f : Fragment) (table : SymbolTable) (used size : Nat)
    (counter : Register) (loopVariable : Option Symbol) (meaning : Env → Option Env) : Prop :=
  ∀ ⦃p : Program⦄ ⦃address : Label → Nat⦄ ⦃a : Nat⦄ ⦃file : File⦄ ⦃env : Env⦄,
    f.Placed p address a → size ≤ file.size → file.Clean used → table.Represents env file →
    p.Follows table (file.put counter 0) ⟨a, file⟩ (a + f.size)
      ((List.range (file.val counter)).foldlM
        (fun env round => meaning (Emit.setRound loopVariable env round)) env)

theorem Code.Fragment.Repeats.mono {f : Fragment} {table : SymbolTable} {used size size' : Nat}
    {counter : Register} {loopVariable : Option Symbol} {meaning : Env → Option Env}
    (h : f.Repeats table used size counter loopVariable meaning) (hle : size ≤ size') :
    f.Repeats table used size' counter loopVariable meaning :=
  fun _ _ _ _ _ hplaced hsize => h hplaced (Nat.le_trans hle hsize)

namespace Emit

variable {p : Program} {address : Label → Nat} {a : Nat} {file : File} {table : SymbolTable}
  {env : Env} {used size : Nat}

/-! ### Conditionals -/

/-- Whether a zero test holds of a number. -/
def ZeroTest.holds : ZeroTest → Nat → Bool
  | .isZero _, n => n == 0
  | .isNonzero _, n => n != 0

/-- A condition with a zero test compares the variable with zero, and the test decides it. -/
private theorem ZeroTest.exists_of_ofCondition {c : Condition} {zeroTest : ZeroTest}
    (h : ZeroTest.ofCondition c = .ok zeroTest) :
    ∃ op ∈ [Comparison.eq, .ne, .gt, .le],
      (c = ⟨.var zeroTest.name, op, .lit 0⟩ ∨ c = ⟨.lit 0, op.flip, .var zeroTest.name⟩) ∧
        ∀ n, op.holds n 0 = zeroTest.holds n := by
  obtain ⟨lhs, op, rhs⟩ := c
  unfold ZeroTest.ofCondition at h
  extract_lets normal at h
  have hside : ∀ {name op'}, normal = some (name, op') →
      Condition.mk lhs op rhs = ⟨.var name, op', .lit 0⟩ ∨
        Condition.mk lhs op rhs = ⟨.lit 0, op'.flip, .var name⟩ := by
    intro name op' heq
    dsimp only [normal] at heq
    split at heq
    · cases heq
      exact .inl rfl
    · cases heq
      rw [Comparison.flip_flip]
      exact .inr rfl
    · cases heq
  -- from here on it only matters what the two sides came to
  clear_value normal
  split at h <;> cases h
  · exact ⟨.eq, by simp, hside rfl, fun n => rfl⟩
  · exact ⟨.le, by simp, hside rfl, fun n => by cases n <;> rfl⟩
  · exact ⟨.ne, by simp, hside rfl, fun n => rfl⟩
  · exact ⟨.gt, by simp, hside rfl, fun n => by cases n <;> rfl⟩

/-- A condition holds if its variable passes the test. -/
theorem ZeroTest.eval_eq {c : Condition} {zeroTest : ZeroTest}
    (h : ZeroTest.ofCondition c = .ok zeroTest) (env : Env) :
    c.eval env = zeroTest.holds (env zeroTest.name) := by
  obtain ⟨op, -, rfl | rfl, hholds⟩ := exists_of_ofCondition h
  · exact hholds _
  · exact (op.holds_flip _ _).trans (hholds _)

/-- A condition that a declared variable is tested for is supported. -/
theorem ZeroTest.supported {c : Condition} {zeroTest : ZeroTest}
    (h : ZeroTest.ofCondition c = .ok zeroTest) {declared : List String}
    (hname : zeroTest.name ∈ declared) : c.Supported declared := by
  obtain ⟨op, hop, hc, -⟩ := exists_of_ofCondition h
  exact ⟨_, hname, op, hop, hc⟩

/-- A condition that is supported is a test of a declared variable. -/
theorem ZeroTest.ofCondition_of_supported {c : Condition} {declared : List String}
    (h : c.Supported declared) :
    ∃ zeroTest, ZeroTest.ofCondition c = .ok zeroTest ∧ zeroTest.name ∈ declared := by
  obtain ⟨name, hname, op, hop, rfl | rfl⟩ := h <;>
    simp only [List.mem_cons, List.not_mem_nil, or_false] at hop <;>
    rcases hop with rfl | rfl | rfl | rfl <;>
    exact ⟨_, rfl, hname⟩

/-- The test that opens a conditional, leading to its two blocks. -/
def ZeroTest.code (r : Register) (thenLabel elseLabel : Label) : ZeroTest → Fragment
  | .isZero _ => test r elseLabel thenLabel
  | .isNonzero _ => test r thenLabel elseLabel

/-- A conditional has the meaning of the block that its test selects. -/
theorem realizes_branch {zeroTest : ZeroTest} {x : Symbol} {yes no : Fragment}
    {yesMeaning noMeaning : Env → Option Env} {thenLabel elseLabel endLabel : Label}
    (ht : table.Orderly) (hx : x ∈ table.symbols) (hname : x.name = zeroTest.name)
    (hnamed : table.symbols.length ≤ size)
    (hyes : yes.Realizes table used size yesMeaning)
    (hno : no.Realizes table used size noMeaning) :
    (zeroTest.code x.register thenLabel elseLabel ++ define thenLabel ++ yes ++ jump endLabel
      ++ define elseLabel ++ no ++ define endLabel).Realizes table used size
      fun env => if zeroTest.holds (env zeroTest.name) then yesMeaning env else noMeaning env := by
  intro p address a file env h hsize hclean henv
  obtain ⟨h, hend⟩ := h.append
  obtain ⟨h, hno'⟩ := h.append
  obtain ⟨h, helse⟩ := h.append
  obtain ⟨h, hjump⟩ := h.append
  obtain ⟨h, hyes'⟩ := h.append
  obtain ⟨htest, hthen⟩ := h.append
  have hheadSize : (zeroTest.code x.register thenLabel elseLabel).size = 1 := by
    cases zeroTest <;> rfl
  replace hthen := hthen.address_define
  replace hjump := hjump.fetch_jump
  replace helse := helse.address_define
  replace hend := hend.address_define
  simp only [size_append, size_define, hheadSize, Nat.add_zero] at hthen hyes' hjump
  simp only [size_append, size_define, size_jump, hheadSize, Nat.add_zero] at helse hno' hend ⊢
  have hhas : file.Has x.register := ht.has hx (Nat.le_trans hnamed hsize)
  have hval : file.val x.register = env zeroTest.name := hname ▸ henv x hx
  have hin : p.Reaches ⟨a, file⟩
      ⟨address (if zeroTest.holds (env zeroTest.name) then thenLabel else elseLabel), file⟩ := by
    rw [← hval]
    cases zeroTest with
    | isZero name =>
      refine .single ((Program.step_tst htest.fetch_test hhas).trans ?_)
      by_cases hzero : file.val x.register = 0 <;> simp [ZeroTest.holds, hzero]
    | isNonzero name =>
      refine .single ((Program.step_tst htest.fetch_test hhas).trans ?_)
      by_cases hzero : file.val x.register = 0 <;> simp [ZeroTest.holds, hzero]
  refine hin.follows ?_
  split
  · rw [hthen]
    refine (hyes hyes' hsize hclean henv).goto fun file' => .single ?_
    rw [Program.step_jmp (by rwa [Nat.add_assoc]), hend]
  · rw [helse]
    refine (hno hno' hsize hclean henv).goto fun file' => ?_
    rw [Nat.add_assoc]
    exact .refl _

/-! ### Counted loops -/

/-- The code that goes on to the next round's number. -/
def advance (loopVariable : Option Symbol) : Fragment :=
  match loopVariable with
  | some x => inc x.register
  | none => ∅

/-- The part of a loop that is repeated, from its header to its end. -/
structure LoopCode (p : Program) (address : Label → Nat) (counter : Register)
    (loopVariable : Option Symbol) (body : Fragment) (header step bodyLabel exit : Label) :
    Prop where
  fetch_test : p.fetch? (address header) = some (.tst counter (address step) (address exit))
  advance_placed : (advance loopVariable).Placed p address (address step)
  bodyLabel_eq : address bodyLabel = address step + (advance loopVariable).size
  body_placed : body.Placed p address (address bodyLabel)
  fetch_dec : p.fetch? (address bodyLabel + body.size) = some (.dec counter)
  fetch_back : p.fetch? (address bodyLabel + body.size + 1) = some (.jmp (address header))

section Loop

variable {counter : Register} {loopVariable : Option Symbol} {body : Fragment}
  {header step bodyLabel exit : Label} {meaning : Env → Option Env}

/-- The loop's variable goes from one round's number to the next. -/
private theorem reaches_advance (ht : table.Orderly) (hv : ∀ x ∈ loopVariable, x ∈ table.symbols)
    (h : (advance loopVariable).Placed p address a) (hnamed : table.symbols.length ≤ file.size)
    (hb : file.Bounded) (henv : table.Represents env file) {k : Nat}
    (hk : ∀ x ∈ loopVariable, env x.name = k) (hlt : k + 1 < wordBound) :
    ∃ file' : File, p.Reaches ⟨a, file⟩ ⟨a + (advance loopVariable).size, file'⟩ ∧
      table.Represents (setRound loopVariable env (k + 1)) file' ∧
      table.SameScratch file file' := by
  cases loopVariable with
  | none => exact ⟨file, .refl _, henv, .refl hb⟩
  | some x =>
    have hx := hv x rfl
    have hhas := ht.has hx hnamed
    have hval : file.val x.register = k := (henv x hx).trans (hk x rfl)
    refine ⟨_, .single (Program.step_inc h.fetch_inc hhas (by rwa [hval])), ?_, ?_⟩
    · rw [hval]
      exact henv.put ht hx hnamed (k + 1)
    · rw [hval]
      exact .put hb hhas (ht.register_le hx) hlt

/-- One round: the body, one off the counter, and back to the header. -/
theorem LoopCode.round (h : LoopCode p address counter loopVariable body header step bodyLabel exit)
    (ht : table.Orderly) (hnamed : table.symbols.length < counter.id)
    (hcounter : file.Has counter) (hbody : body.Realizes table used size meaning)
    (hsize : size ≤ file.size) (hclean : file.Clean used) (henv : table.Represents env file)
    {m : Nat} (hm : file.val counter = m + 1) :
    p.Follows table (file.put counter m) ⟨address bodyLabel, file⟩ (address header)
      (meaning env) := by
  have hfollows := hbody h.body_placed hsize hclean henv
  cases hmeaning : meaning env with
  | none =>
    rw [hmeaning] at hfollows
    exact hfollows
  | some env' =>
    rw [hmeaning] at hfollows
    obtain ⟨file', hreach, henv', hsame⟩ := hfollows
    have hcounter' : file'.Has counter := by rwa [File.Has, hsame.size_eq]
    have hval : file'.val counter = m + 1 := (hsame.val_eq counter hnamed).trans hm
    have hm' : m < wordBound := by
      have := hclean.bounded counter hcounter
      omega
    exact ⟨file'.put counter m, hreach.trans (.head (Program.step_dec h.fetch_dec hcounter' hval)
      (.single (Program.step_jmp h.fetch_back))), henv'.put_of_lt ht hnamed hcounter'.2 m,
      hsame.put_both hcounter hm'⟩

/-- The rounds still to go: `m + 1` of them, of which the first has number `k`. -/
private theorem LoopCode.follows
    (h : LoopCode p address counter loopVariable body header step bodyLabel exit)
    (ht : table.Orderly) (hv : ∀ x ∈ loopVariable, x ∈ table.symbols)
    (hnamed : table.symbols.length < counter.id) (hcounter : counter.id ≤ used)
    (hused : used ≤ size) (hbody : body.Realizes table used size meaning)
    (hkeeps : ∀ env env', meaning env = some env' → ∀ x ∈ loopVariable, env' x.name = env x.name)
    {m k : Nat} (hsize : size ≤ file.size) (hclean : file.Clean used)
    (henv : table.Represents (setRound loopVariable env k) file) (hm : file.val counter = m + 1)
    (hk : k + m < wordBound) :
    p.Follows table (file.put counter 0) ⟨address bodyLabel, file⟩ (address exit)
      ((List.range' k (m + 1)).foldlM
        (fun env round => meaning (setRound loopVariable env round)) env) := by
  -- the counter holds the rounds to go, this one included, so the last round is the base case
  induction m generalizing k env file with
  | zero =>
    have hhas : file.Has counter := ⟨Nat.zero_lt_of_lt hnamed, by omega⟩
    rw [List.range'_succ, List.foldlM_cons]
    refine (h.round ht hnamed hhas hbody hsize hclean henv hm).bind
      fun env' file' _ henv' hsame => ⟨file', .single ?_, henv', hsame⟩
    have hhas' : file'.Has counter := by rwa [File.Has, hsame.size_eq, File.size_put]
    have hval : file'.val counter = 0 :=
      (hsame.val_eq counter hnamed).trans (File.val_put_self hhas 0)
    rw [Program.step_tst h.fetch_test hhas', if_pos hval]
  | succ m ih =>
    have hhas : file.Has counter := ⟨Nat.zero_lt_of_lt hnamed, by omega⟩
    rw [List.range'_succ, List.foldlM_cons]
    refine (h.round ht hnamed hhas hbody hsize hclean henv hm).bind
      fun env' file' hmeaning henv' hsame => ?_
    have hsize' : file'.size = file.size := by rw [hsame.size_eq, File.size_put]
    have hhas' : file'.Has counter := by rwa [File.Has, hsize']
    have hval : file'.val counter = m + 1 :=
      (hsame.val_eq counter hnamed).trans (File.val_put_self hhas _)
    -- the body has left the loop's variable at the number of its round
    have hround : ∀ x ∈ loopVariable, env' x.name = k := by
      intro x hx
      rw [hkeeps _ _ hmeaning x hx]
      obtain rfl := hx
      exact Env.set_self ..
    obtain ⟨file'', hreach, henv'', hsame'⟩ := reaches_advance ht hv h.advance_placed
      (by omega) hsame.bounded henv' hround (by omega)
    have hin : p.Reaches ⟨address header, file'⟩ ⟨address bodyLabel, file''⟩ := by
      refine .head (Program.step_tst h.fetch_test hhas') ?_
      rwa [if_neg (by omega), h.bodyLabel_eq]
    have hsame'' := hsame.trans hsame'
    have hclean' : file''.Clean used :=
      hsame''.clean (hclean.put hhas hcounter (by omega)) (by omega)
    -- the counter aside, nothing has changed but variables
    have hbase : table.SameScratch (file.put counter 0) (file''.put counter 0) := by
      have := hsame''.put_both (File.has_put.mpr hhas) (show 0 < wordBound by decide)
      rwa [File.put_put] at this
    refine hin.follows ((ih ?_ hclean' henv'' ?_ (by omega)).rebase hbase)
    · rw [hsame'.size_eq]
      omega
    · rw [hsame'.val_eq counter hnamed, hval]

/-- Where the parts of a loop stand. -/
theorem LoopCode.of_placed {start : Fragment} {entry : Label}
    (h : (test counter entry exit ++ define entry ++ start ++ jump bodyLabel ++ define header
      ++ test counter step exit ++ define step ++ advance loopVariable ++ define bodyLabel ++ body
      ++ dec counter ++ jump header ++ define exit).Placed p address a) :
    p.fetch? a = some (.tst counter (address entry) (address exit)) ∧ address entry = a + 1 ∧
      start.Placed p address (a + 1) ∧
      p.fetch? (a + 1 + start.size) = some (.jmp (address bodyLabel)) ∧
      LoopCode p address counter loopVariable body header step bodyLabel exit ∧
      address exit = a + (test counter entry exit ++ define entry ++ start ++ jump bodyLabel
        ++ define header ++ test counter step exit ++ define step ++ advance loopVariable
        ++ define bodyLabel ++ body ++ dec counter ++ jump header ++ define exit).size := by
  obtain ⟨h, hexit⟩ := h.append
  obtain ⟨h, hback⟩ := h.append
  obtain ⟨h, hdec⟩ := h.append
  obtain ⟨h, hbody⟩ := h.append
  obtain ⟨h, hbodyLabel⟩ := h.append
  obtain ⟨h, hadvance⟩ := h.append
  obtain ⟨h, hstep⟩ := h.append
  obtain ⟨h, htest⟩ := h.append
  obtain ⟨h, hheader⟩ := h.append
  obtain ⟨h, hjump⟩ := h.append
  obtain ⟨h, hstart⟩ := h.append
  obtain ⟨hhead, hentry⟩ := h.append
  simp only [size_append, size_define, size_test, size_jump, size_dec, Nat.add_zero] at *
  have hheader := hheader.address_define
  have hstep := hstep.address_define
  have hbodyLabel := hbodyLabel.address_define
  refine ⟨hhead.fetch_test, hentry.address_define, hstart, ?_, ⟨?_, ?_, ?_, ?_, ?_, ?_⟩, ?_⟩
  · rw [Nat.add_assoc]
    exact hjump.fetch_jump
  · rw [hheader]
    exact htest.fetch_test
  · rwa [hstep]
  · rw [hbodyLabel, hstep]
    omega
  · rwa [hbodyLabel]
  · rw [hbodyLabel, Nat.add_assoc]
    exact hdec.fetch_dec
  · rw [hbodyLabel, Nat.add_assoc, Nat.add_assoc]
    exact hback.fetch_jump
  · rw [hexit.address_define]

/-- The loop's variable starts at zero, the number of the first round. -/
theorem reaches_restart {start : Fragment} (ht : table.Orderly)
    (hv : ∀ x ∈ loopVariable, x ∈ table.symbols) (hnamed : table.symbols.length ≤ file.size)
    (hb : file.Bounded) (henv : table.Represents env file)
    (hruns : p.Runs ⟨a, file⟩ (a + start.size)
      (loopVariable.elim (some file) fun x => file.assign? x.register 0)) :
    ∃ file' : File, p.Reaches ⟨a, file⟩ ⟨a + start.size, file'⟩ ∧
      table.Represents (setRound loopVariable env 0) file' ∧ table.SameScratch file file' := by
  have hpos : 0 < wordBound := by decide
  cases loopVariable with
  | none => exact ⟨file, hruns, henv, .refl hb⟩
  | some x =>
    have hx := hv x rfl
    rw [Option.elim_some, File.assign?_of_lt hpos] at hruns
    exact ⟨_, hruns, henv.put ht hx hnamed 0, .put hb (ht.has hx hnamed) (ht.register_le hx) hpos⟩

/-- The code of a loop whose counter is loaded. -/
theorem repeats_rounds {start : Fragment} {entry : Label} (ht : table.Orderly)
    (hv : ∀ x ∈ loopVariable, x ∈ table.symbols) (hnamed : table.symbols.length < counter.id)
    (hcounter : counter.id ≤ used) (hused : used ≤ size)
    (hstart : start.Performs used size fun file =>
      loopVariable.elim (some file) fun x => file.assign? x.register 0)
    (hbody : body.Realizes table used size meaning)
    (hkeeps : ∀ env env', meaning env = some env' → ∀ x ∈ loopVariable, env' x.name = env x.name) :
    (test counter entry exit ++ define entry ++ start ++ jump bodyLabel ++ define header
      ++ test counter step exit ++ define step ++ advance loopVariable ++ define bodyLabel ++ body
      ++ dec counter ++ jump header ++ define exit).Repeats table used size counter loopVariable
      meaning := by
  intro p address a file env h hsize hclean henv
  obtain ⟨htest, hentry, hstart', hjump, hloop, hexit⟩ := LoopCode.of_placed h
  have hhas : file.Has counter := ⟨Nat.zero_lt_of_lt hnamed, by omega⟩
  rw [← hexit]
  cases hn : file.val counter with
  | zero =>
    refine ⟨file, .single ?_, henv, ?_⟩
    · rw [Program.step_tst htest hhas, if_pos hn]
    · rw [File.put_eq_self hhas hn]
      exact .refl hclean.bounded
  | succ m =>
    have hin : p.Reaches ⟨a, file⟩ ⟨a + 1, file⟩ := by
      refine .single ?_
      rw [Program.step_tst htest hhas, if_neg (by omega), hentry]
    obtain ⟨file', hreach, henv', hsame⟩ := reaches_restart ht hv (by omega) hclean.bounded henv
      (hstart hstart' hsize hclean)
    have hval : file'.val counter = m + 1 := (hsame.val_eq counter hnamed).trans hn
    have hbound := hclean.bounded counter hhas
    have hfollows := hloop.follows ht hv hnamed hcounter hused hbody hkeeps
      (hsame.size_eq ▸ hsize) (hsame.clean hclean (by omega)) henv' hval (by omega)
    rw [List.range_eq_range']
    exact (hin.trans (hreach.trans (.single (Program.step_jmp hjump)))).follows
      (hfollows.rebase (hsame.put_both hhas (by decide)))

/-- A counter that is loaded from a variable's register, and then the rounds. The counter is empty
before and after. -/
theorem realizes_loop {load rounds : Fragment} {x : Symbol} (ht : table.Orderly)
    (hx : x ∈ table.symbols) (hnamed : table.symbols.length ≤ used) (hused : used + 1 ≤ size)
    (hload : load.Performs (used + 1) size fun file => file.add? ⟨used + 1⟩ (file.val x.register))
    (hrounds : rounds.Repeats table (used + 1) size ⟨used + 1⟩ loopVariable meaning) :
    (load ++ rounds).Realizes table used size fun env =>
      (List.range (env x.name)).foldlM
        (fun env round => meaning (setRound loopVariable env round)) env := by
  intro p address a file env h hsize hclean henv
  obtain ⟨hload', hrounds'⟩ := h.append
  have hcounter : file.Has ⟨used + 1⟩ := (Register.Within.next used).has (by omega)
  have hempty : file.val ⟨used + 1⟩ = 0 := hclean.empty _ (Nat.lt_succ_self used)
  have hclean₁ : file.Clean (used + 1) := hclean.mono (Nat.le_succ used)
  have hlt : env x.name < wordBound := henv x hx ▸ hclean.bounded _ (ht.has hx (by omega))
  have hruns : p.Runs ⟨a, file⟩ (a + load.size) (file.add? ⟨used + 1⟩ (file.val x.register)) :=
    hload hload' hsize hclean₁
  rw [File.add?, hempty, Nat.zero_add, henv x hx, File.assign?_of_lt hlt] at hruns
  have hfollows := hrounds hrounds' (by rwa [File.size_put])
    (hclean₁.put hcounter (Nat.le_refl _) hlt)
    (henv.put_of_lt ht (Nat.lt_succ_of_le hnamed) hcounter.2 (env x.name))
  -- with the counter back at zero, the scratch registers are as they were
  rw [File.put_put, File.put_eq_self hcounter hempty, File.val_put_self hcounter] at hfollows
  rw [size_append, ← Nat.add_assoc]
  exact Program.Reaches.follows hruns hfollows

end Loop

end Emit

end Abacus
