import TreeCensus.Fault
import TreeCensus.Glob.Brace
import TreeCensus.Glob.Condense

/-!
# Matchers

A matcher holds one pattern for each way to choose the alternatives of a glob. A path that is spelled
like the glob is always accepted.
-/

namespace TreeCensus.Glob

set_option autoImplicit false

structure Matcher where
  glob : Text
  casing : Casing
  patterns : List Pattern
  deriving DecidableEq

namespace Matcher

def compile (casing : Casing) (glob : Text) : Except Flaw Matcher :=
  ((expand glob).mapM Pattern.ofGlob).map fun ps => ⟨glob, casing, ps.map (·.under casing)⟩

/-- The path that the glob spells. -/
def spelling (m : Matcher) : Text := bare m.glob

def Accepts (m : Matcher) (path : Text) : Prop :=
  path = m.spelling ∨ ∃ p ∈ m.patterns, p.Accepts m.casing path

instance (m : Matcher) (path : Text) : Decidable (m.Accepts path) :=
  inferInstanceAs (Decidable (_ ∨ _))

def quoted (m : Matcher) : Text :=
  "GlobMatcher(".toList ++ Text.quoted m.glob ++ [')']

end Matcher

/-- The matcher of a glob on its own. -/
def matcher (casing : Casing) (glob : Text) : Except Fault Matcher :=
  match Matcher.compile casing glob with
  | .ok m => .ok m
  | .error flaw => .error (.invalidPattern glob flaw.message)

end TreeCensus.Glob
