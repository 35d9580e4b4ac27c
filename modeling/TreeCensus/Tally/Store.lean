import TreeCensus.Tally

/-!
# Tallies that are changed in place

A tally of a walk is an object: it is made once, and then others are added to it. Here the tallies there are
stand in a list, and each is known by its place.
-/

namespace TreeCensus

set_option autoImplicit false

structure Store where
  tallies : List Tally
  deriving DecidableEq

namespace Store

def read (s : Store) (place : Nat) : Tally := s.tallies[place]?.getD .zero

/-- Makes one more tally. -/
def make (s : Store) (t : Tally) : Store × Nat := (⟨s.tallies ++ [t]⟩, s.tallies.length)

/-- Makes a tally that is a copy of the one at `place`. -/
def copy (s : Store) (place : Nat) : Store × Nat := s.make (s.read place)

def change (s : Store) (place : Nat) (f : Tally → Tally) : Store := ⟨s.tallies.modify place f⟩

/-- Adds the tally at `item` to the one at `total`, which may be the same one: each field is read as it is
when its turn comes. -/
def addTo (s : Store) (total item : Nat) : Store :=
  let s := s.change total fun t => { t with size := t.size + (s.read item).size }
  let s := s.change total fun t => { t with newest := max t.newest (s.read item).newest }
  let s := s.change total fun t => { t with files := t.files + (s.read item).files }
  let s := s.change total fun t => { t with directories := t.directories + (s.read item).directories }
  s.change total fun t => { t with links := t.links + (s.read item).links }

end Store

/-- A way to fill a new tally: tallies that there are, and new ones that are filled in such a way, are added to
it one after another. -/
inductive Grouping
  | new
  | tally (before : Grouping) (place : Nat)
  | subtotal (before inner : Grouping)
  deriving DecidableEq

namespace Grouping

/-- Fills a new tally, and says where it is. -/
def fill : Grouping → Store → Store × Nat
  | new, s => s.make .zero
  | tally before place, s =>
    let (s, total) := before.fill s
    (s.addTo total place, total)
  | subtotal before inner, s =>
    let (s, total) := before.fill s
    let (s, item) := inner.fill s
    (s.addTo total item, total)

/-- The places of the tallies that are added, in any depth. -/
def places : Grouping → List Nat
  | new => []
  | tally before place => before.places ++ [place]
  | subtotal before inner => before.places ++ inner.places

/-- What the new tally comes to. -/
def total (g : Grouping) (s : Store) : Tally :=
  let (s, total) := g.fill s
  s.read total

end Grouping

end TreeCensus
