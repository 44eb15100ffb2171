import Std.Data.HashMap
import Abacus.Machine.Instr
import Abacus.Code.Label

/-!
# Code fragments

A fragment is a stretch of code whose jumps are still open: its jump operands are placeholders,
`holes` say which labels they stand for, and `labels` say where the fragment defines labels.
Positions are relative to the fragment's start, so fragments form a monoid under `++`, which moves
the positions of its right side past the code of its left side.
-/

namespace Abacus.Code

open Machine

/-- The open jump targets of the instruction at an index. -/
inductive Hole where
  | jump (index : Nat) (target : Label)
  | test (index : Nat) (ifNonzero ifZero : Label)
  deriving DecidableEq, Repr

namespace Hole

/-- The index of the instruction whose targets are open. -/
def index : Hole → Nat
  | .jump i _ => i
  | .test i _ _ => i

/-- The hole at another index. -/
def move (f : Nat → Nat) : Hole → Hole
  | .jump i target => .jump (f i) target
  | .test i ifNonzero ifZero => .test (f i) ifNonzero ifZero

/-- The hole with other labels. -/
def retarget (f : Label → Label) : Hole → Hole
  | .jump i target => .jump i (f target)
  | .test i ifNonzero ifZero => .test i (f ifNonzero) (f ifZero)

end Hole

/-- Code with open jump targets. -/
@[ext]
structure Fragment where
  code : List Instr := []
  holes : List Hole := []
  /-- The labels defined here, each with the index of the instruction it stands before. -/
  labels : List (Label × Nat) := []
  deriving DecidableEq, Repr

namespace Fragment

/-- The number of instructions. -/
def size (f : Fragment) : Nat := f.code.length

/-- The fragment with all its positions moved on by `n`. -/
def shift (n : Nat) (f : Fragment) : Fragment :=
  { f with
    holes := f.holes.map (Hole.move (n + ·))
    labels := f.labels.map fun (l, offset) => (l, n + offset) }

/-- One fragment after another. -/
protected def append (f g : Fragment) : Fragment :=
  let moved := g.shift f.size
  ⟨f.code ++ moved.code, f.holes ++ moved.holes, f.labels ++ moved.labels⟩

instance : EmptyCollection Fragment := ⟨{}⟩

instance : Append Fragment := ⟨Fragment.append⟩

@[simp]
theorem code_append (f g : Fragment) : (f ++ g).code = f.code ++ g.code := rfl

@[simp]
theorem holes_append (f g : Fragment) :
    (f ++ g).holes = f.holes ++ g.holes.map (Hole.move (f.size + ·)) := rfl

@[simp]
theorem labels_append (f g : Fragment) :
    (f ++ g).labels = f.labels ++ g.labels.map fun (l, offset) => (l, f.size + offset) := rfl

@[simp]
theorem size_append (f g : Fragment) : (f ++ g).size = f.size + g.size :=
  List.length_append

theorem empty_append (f : Fragment) : ∅ ++ f = f := by
  have unmoved : Hole.move (0 + ·) = id := by
    funext h
    cases h <;> simp [Hole.move]
  refine Fragment.ext rfl ?_ ?_
  · change [] ++ f.holes.map (Hole.move (0 + ·)) = f.holes
    rw [unmoved, List.map_id, List.nil_append]
  · change [] ++ f.labels.map (fun (l, offset) => (l, 0 + offset)) = f.labels
    simp

theorem append_empty (f : Fragment) : f ++ ∅ = f :=
  Fragment.ext (List.append_nil _) (List.append_nil _) (List.append_nil _)

theorem append_assoc (f g h : Fragment) : f ++ g ++ h = f ++ (g ++ h) := by
  refine Fragment.ext (List.append_assoc _ _ _) ?_ ?_
  · have moved : ∀ x : Hole, (x.move (g.size + ·)).move (f.size + ·) =
        x.move (f.size + g.size + ·) := by
      intro x
      cases x <;> simp [Hole.move, Nat.add_assoc]
    simp [moved]
  · simp [Nat.add_assoc]

/-- Fragments one after another. -/
def join (fs : List Fragment) : Fragment := fs.foldr (· ++ ·) ∅

/-- No code, and a label before whatever comes next. -/
def define (l : Label) : Fragment := { labels := [(l, 0)] }

/-- An increment. -/
def inc (r : Register) : Fragment := { code := [.inc r] }

/-- A decrement. -/
def dec (r : Register) : Fragment := { code := [.dec r] }

/-- A jump to a label. -/
def jump (target : Label) : Fragment := { code := [.jmp 0], holes := [.jump 0 target] }

/-- A zero test that goes on at one of two labels. -/
def test (r : Register) (ifNonzero ifZero : Label) : Fragment :=
  { code := [.tst r 0 0], holes := [.test 0 ifNonzero ifZero] }

/-- Where a label is defined; the first definition counts. -/
def offsetOf? (f : Fragment) (l : Label) : Option Nat := f.labels.lookup l

/-- Where labels are defined, for many look-ups; the last definition counts. -/
def offsets (f : Fragment) : Std.HashMap Label Nat := .ofList f.labels

end Fragment

end Abacus.Code
