import TreeCensus.Glob.Matcher
import TreeCensus.Path

/-!
# Filters

A filter is a list of conditions. Later conditions override earlier ones, and an exclusion holds until
it is lifted or a later condition that is not an exclusion matches. A filter has three verdicts, since
a path may match no condition at all.
-/

namespace TreeCensus

set_option autoImplicit false

open Glob (Casing Flaw Matcher)

inductive Verdict
  | included | excluded | unmatched
  deriving DecidableEq

namespace Verdict

def name : Verdict → Text
  | included => "INCLUDED".toList
  | excluded => "EXCLUDED".toList
  | unmatched => "UNMATCHED".toList

def ofAnswer? : Option Bool → Verdict
  | some true => included
  | some false => excluded
  | none => unmatched

def answer? : Verdict → Option Bool
  | included => some true
  | excluded => some false
  | unmatched => none

@[simp] theorem answer?_ofAnswer? (b : Option Bool) : (ofAnswer? b).answer? = b := by
  rcases b with _ | _ | _ <;> rfl

/-- Reads a verdict from a value; the numbers one and zero count as yes and no. -/
def ofValue (v : Value) : Except Fault Verdict :=
  match v with
  | .nothing => .ok unmatched
  | .scalar (.truth b) => .ok (ofAnswer? (some b))
  | .scalar (.number 1) => .ok included
  | .scalar (.number 0) => .ok excluded
  | v => .error (.invalidChoice v.quoted "MatchResult".toList)

/-- Reads a verdict from the answer of any filter: only a plain no excludes, and whatever else counts as
true includes. -/
def ofLooseValue : Value → Verdict
  | .scalar (.truth false) => excluded
  | v => if v.isTrue then included else unmatched

end Verdict

/-- A matcher with its marks: `^` makes it an exclusion, and `!` turns it round. -/
structure Condition where
  exclude : Bool
  negative : Bool
  matcher : Matcher
  deriving DecidableEq

structure Filter where
  conditions : List Condition
  deriving DecidableEq

namespace Filter

/-- What the conditions read so far say. -/
structure Standing where
  verdict : Verdict
  excluded : Bool
  deriving DecidableEq

def Standing.start : Standing := ⟨.unmatched, false⟩

def Standing.apply (s : Standing) (c : Condition) : Standing :=
  if c.exclude then { s with excluded := !c.negative }
  else ⟨if c.negative then .excluded else .included, false⟩

def Standing.final (s : Standing) : Verdict := if s.excluded then .excluded else s.verdict

def Standing.read (path : Path) (s : Standing) (c : Condition) : Standing :=
  if c.matcher.Accepts path then s.apply c else s

/-- The verdict on a path; a slash or `./` in front of it does not matter. -/
def verdict (f : Filter) (path : Path) : Verdict :=
  (f.conditions.foldl (Standing.read (Glob.bare path)) Standing.start).final

/-- A raw glob without its marks. -/
structure Marked where
  exclude : Bool
  negative : Bool
  glob : Text

/-- Takes a mark and the blanks after it from the front of a text. -/
def takeMark (mark : Char) (t : Text) : Bool × Text :=
  match t with
  | c :: r => if c = mark then (true, Text.strip r) else (false, t)
  | [] => (false, [])

def readMarks (raw : Text) : Except Fault Marked :=
  let (exclude, t) := takeMark '^' (Text.strip (Text.replace '\\' '/' raw))
  let (negative, glob) := takeMark '!' t
  if glob.head? = some '!' ∨ glob.head? = some '^' then
    .error (.invalidPattern glob (Flaw.misplacedMark (glob.take 2)).message)
  else .ok ⟨exclude, negative, glob⟩

/-- The directory that the globs of a filter are relative to; no directory leaves them as they are. -/
structure Base where
  cwd : Path
  root : Option Path

def Base.place (b : Base) (glob : Text) : Text :=
  match b.root with
  | none | some [] =>
    match glob with
    | '.' :: '/' :: r => r
    | r => r
  | some root =>
    let inside := match glob with
      | '/' :: _ => '.' :: glob
      | _ => glob
    Text.replace '\\' '/' (Path.normal (Path.under (Path.absolute b.cwd root) inside))

/-- The condition of a raw glob, if it says anything. -/
def readCondition? (base : Base) (casing : Casing) (raw : Text) : Except Fault (Option Condition) :=
  match readMarks raw with
  | .error f => .error f
  | .ok m =>
    let glob := base.place m.glob
    if m.glob = [] ∨ glob.all (· = '/') then .ok none
    else
      match Matcher.compile casing glob with
      | .ok matcher => .ok (some ⟨m.exclude, m.negative, matcher⟩)
      | .error flaw => .error (.invalidPattern raw flaw.message)

def compile (base : Base) (casing : Casing) (globs : List Text) : Except Fault Filter :=
  (globs.mapM (readCondition? base casing)).map fun cs => ⟨cs.filterMap id⟩

def quoted (f : Filter) : Text :=
  "MatchPath([".toList ++ Text.commaList (f.conditions.map fun c => Text.quoted c.matcher.glob) ++
    "])".toList

end Filter

end TreeCensus
