import Abacus.Code.Optimize
import Abacus.Code.Link

/-!
# Fragments with arbitrary positions

The positions in emitted code lie within the code. A fragment that is put together from its parts
may have any machine word for a position, and moving that position on can lead beyond the machine
words. The operations of this module tell that case apart; as long as every position stays a
machine word they agree with `++`, `Fragment.optimize` and `link`.
-/

namespace Abacus.Code

open Machine

namespace Fragment

/-- Whether every position is a machine word. -/
def inWords (f : Fragment) : Bool :=
  f.holes.all (fun h => h.index < wordBound) && f.labels.all (fun (_, offset) => offset < wordBound)

/-- One fragment after another, if every position is still a machine word. -/
def append? (f g : Fragment) : Option Fragment :=
  if (f ++ g).inWords then some (f ++ g) else none

theorem append?_eq_some {f g : Fragment} (h : (f ++ g).inWords) : f.append? g = some (f ++ g) :=
  if_pos h

/-- Whether the index after every jump is a machine word. -/
def nextInWords (f : Fragment) : Bool :=
  f.holes.all fun
    | .jump index _ => index + 1 < wordBound
    | .test _ _ _ => true

/-- Optimize at a level. Above level zero every jump is compared with the index after it, which
has to be a machine word. -/
def optimizeBounded (level : Nat) (f : Fragment) : Option Fragment :=
  if level = 0 ∨ f.nextInWords then f.optimize level else none

theorem optimizeBounded_eq_optimize {f : Fragment} (level : Nat) (h : f.nextInWords) :
    f.optimizeBounded level = f.optimize level :=
  if_pos (.inr h)

end Fragment

/-- Make a program of fragments. Positions are moved before any label gets an address, and labels
get their addresses in the order of their definitions, so a label that is defined twice is found
only if every label up to its second definition has a machine word for an address. -/
def linkBounded (base : AddressBase) (registers : Array Nat) (symbols : List (String × Register))
    (fragments : List Fragment) : Except Diagnostic Program := do
  let whole := Fragment.join fragments
  let addressed := whole.labels.takeWhile fun (_, offset) => base.first + offset < wordBound
  unless whole.inWords do
    throw .misplaced
  discard ((labelAddresses base.first addressed).mapError .unresolved)
  unless addressed.length = whole.labels.length do
    throw .misplaced
  (link base registers symbols fragments).mapError .unresolved

/-- Where every position and every label's address is a machine word, nothing else can go wrong
than in linking without bounds. -/
theorem linkBounded_eq_link {base : AddressBase} {fragments : List Fragment}
    (registers : Array Nat) (symbols : List (String × Register))
    (positions : (Fragment.join fragments).inWords)
    (addresses : ∀ l ∈ (Fragment.join fragments).labels, base.first + l.2 < wordBound) :
    linkBounded base registers symbols fragments =
      (link base registers symbols fragments).mapError .unresolved := by
  have all : (Fragment.join fragments).labels.takeWhile
      (fun (_, offset) => base.first + offset < wordBound) = (Fragment.join fragments).labels := by
    simpa using @List.takeWhile_append_of_pos _ _ _ [] fun l hl => decide_eq_true (addresses l hl)
  simp only [linkBounded, all, positions]
  cases h : labelAddresses base.first (Fragment.join fragments).labels with
  | error problem =>
    simp only [link, h]
    rfl
  | ok _ => rfl

end Abacus.Code
