import TreeCensus.Text

/-!
# Priorities

A priority is the list of places that leads to it from the root. Priorities are ordered as lists:
one comes before all that are created under it, and siblings are ordered by their place.
-/

namespace TreeCensus

set_option autoImplicit false

abbrev Priority := List Int

/-- The steps of a walk's work at one level; listing a directory comes before all of them. -/
inductive Tier
  | metadata | directory | file
  deriving DecidableEq

def Tier.place : Tier → Int
  | metadata => 1
  | directory => 2
  | file => 3

namespace Priority

def root : Priority := []

def create (place : Int) (parent : Priority) : Priority := parent ++ [place]

def depth (p : Priority) : Nat := p.length

/-- The priority under which `p` was created. -/
def parent? (p : Priority) : Option Priority :=
  if p = [] then none else some p.dropLast

@[simp] theorem parent?_create (n : Int) (p : Priority) : parent? (create n p) = some p := by
  simp [parent?, create]

def Before (p q : Priority) : Prop := p < q

instance (p q : Priority) : Decidable (Before p q) := inferInstanceAs (Decidable (p < q))

def written (p : Priority) : Text :=
  "Priority(".toList ++ Text.join '.' (p.map Text.ofInt) ++ [')']

/-- Equal priorities keep their order. -/
def sort (ps : List Priority) : List Priority :=
  ps.mergeSort fun p q => !decide (Before q p)

end Priority

end TreeCensus
