import TreeCensus.Text

/-!
# Tallies

A tally holds the total size, the numbers of files, directories and links, and the newest
modification time of what was counted. Times are whole numbers of ticks, a tick being an eighth of a
second.
-/

namespace TreeCensus

set_option autoImplicit false

/-- A time given in ticks, as seconds with no more decimal places than it needs, but at least one. -/
def formatSeconds (ticks : Int) : Text :=
  let n := ticks.natAbs
  let fraction : Text :=
    match n % 8 with
    | 0 => ['0']
    | 1 => ['1', '2', '5']
    | 2 => ['2', '5']
    | 3 => ['3', '7', '5']
    | 4 => ['5']
    | 5 => ['6', '2', '5']
    | 6 => ['7', '5']
    | _ => ['8', '7', '5']
  (if ticks < 0 then ['-'] else []) ++ Nat.toDigits 10 (n / 8) ++ '.' :: fraction

inductive ItemKind
  | directory | file | link | other
  deriving DecidableEq

structure Tally where
  size : Int
  files : Int
  directories : Int
  links : Int
  newest : Int
  deriving DecidableEq

namespace Tally

def zero : Tally := ⟨0, 0, 0, 0, 0⟩

def items (t : Tally) : Int := t.files + t.directories + t.links

/-- Sizes and numbers add up, and the newest time is the later one. -/
def add (t u : Tally) : Tally where
  size := t.size + u.size
  files := t.files + u.files
  directories := t.directories + u.directories
  links := t.links + u.links
  newest := max t.newest u.newest

/-- Counts one more item; an item of another kind has no counter. -/
def count : ItemKind → Tally → Tally
  | .directory, t => { t with directories := t.directories + 1 }
  | .file, t => { t with files := t.files + 1 }
  | .link, t => { t with links := t.links + 1 }
  | .other, t => t

theorem add_comm (t u : Tally) : add t u = add u t := by
  simp only [add, mk.injEq]
  omega

theorem add_assoc (t u v : Tally) : add (add t u) v = add t (add u v) := by
  simp only [add, mk.injEq]
  omega

@[simp] theorem items_add (t u : Tally) : (add t u).items = t.items + u.items := by
  simp only [items, add]
  omega

end Tally

/-- A size with its digits in groups of three, set right in nineteen columns. -/
def formatSize (size : Int) : Text := Text.padLeft 19 (Text.ofIntGrouped size)

end TreeCensus
