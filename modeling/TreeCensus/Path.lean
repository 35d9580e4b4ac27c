import TreeCensus.Text

/-!
# Paths

A path is a text with `/` between its names. The normal form of a path has no empty names, no `.`,
and `..` only at the front of a path that is not absolute. A path with exactly two slashes in front
keeps both.
-/

namespace TreeCensus

set_option autoImplicit false

abbrev Path := Text

namespace Path

def here : Text := ['.']

def up : Text := ['.', '.']

def parts (p : Path) : List Text := Text.pieces '/' p

def ofParts (ps : List Text) : Path := Text.join '/' ps

/-- The parts of a path that are not empty. -/
def names (p : Path) : List Text := (parts p).filter (· ≠ [])

def isAbsolute : Path → Bool
  | '/' :: _ => true
  | _ => false

/-- Two slashes in front are kept, and more than two count as one. -/
def root : Path → Path
  | '/' :: '/' :: '/' :: _ => ['/']
  | '/' :: '/' :: _ => ['/', '/']
  | '/' :: _ => ['/']
  | _ => []

theorem root_eq_nil_iff (p : Path) : root p = [] ↔ isAbsolute p = false := by
  unfold root isAbsolute
  split <;> split <;> simp_all

/-- Works off the parts of a path; `kept` holds the names kept so far, the last one first. -/
def reduce (rooted : Bool) : (kept : List Text) → List Text → List Text
  | kept, [] => kept.reverse
  | kept, part :: rest =>
    if part = [] ∨ part = here then reduce rooted kept rest
    else if part = up then
      match kept with
      | [] => if rooted then reduce rooted [] rest else reduce rooted [up] rest
      | last :: before =>
        if last = up then reduce rooted (up :: last :: before) rest
        else reduce rooted before rest
    else reduce rooted (part :: kept) rest

def normal (p : Path) : Path :=
  let r := root p
  let n := r ++ ofParts (reduce (isAbsolute p) [] (parts p))
  if n = [] then here else n

/-- The path `p` seen from the directory `dir`. -/
def under (dir p : Path) : Path :=
  if isAbsolute p then p
  else if dir = [] ∨ Text.endsWith ['/'] dir then dir ++ p
  else dir ++ '/' :: p

def absolute (cwd p : Path) : Path := normal (under cwd p)

/-- Like `absolute`, but a path that ends with a colon names the top of a drive. -/
def resolve (cwd p : Path) : Path :=
  absolute cwd (if Text.endsWith [':'] p then p ++ ['/'] else p)

/-- The path without its last name. -/
def directory (p : Path) : Path :=
  let head := Text.dropEndWhile (· ≠ '/') p
  if head.all (· = '/') then head else Text.dropEndWhile (· = '/') head

def dropCommon : List Text → List Text → List Text × List Text
  | a :: as, b :: bs => if a = b then dropCommon as bs else (a :: as, b :: bs)
  | as, bs => (as, bs)

/-- The way from the directory `start` to `p`; both are absolute and normal. -/
def relativeTo (start p : Path) : Path :=
  let rest := dropCommon (names start) (names p)
  let way := rest.1.map (fun _ => up) ++ rest.2
  if way = [] then here else ofParts way

def isSlash (c : Char) : Bool := c = '/' || c = '\\'

/-- The volume part of a path: its first name, with the slash before it. -/
def drive (p : Path) : Text :=
  let head := (p.take 1).takeWhile isSlash
  let name := (p.drop head.length).takeWhile (!isSlash ·)
  if name = [] then p else head ++ name

/-- Paths are listed in the order of their names, the root being a name too. -/
def sortKey (p : Path) : List Text :=
  if root p = [] then names p else root p :: names p

def precedes (p q : Path) : Bool := decide (sortKey p < sortKey q)

end Path

end TreeCensus
