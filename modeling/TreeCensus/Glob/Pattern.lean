import TreeCensus.Glob.Token

/-!
# Patterns

The tokens of a glob are put together to a pattern by working off a stack of open groups.
-/

namespace TreeCensus.Glob

set_option autoImplicit false

inductive Pattern
  | empty
  | atom (a : Atom)
  | bracket (b : Bracket)
  | seq (p q : Pattern)
  | alt (p q : Pattern)
  deriving DecidableEq

/-- A group that is being read: where it was opened, its finished choices, and the current one. -/
structure Group where
  opened : Nat
  choices : Option Pattern
  current : Pattern

namespace Group

def start (opened : Nat) : Group := ⟨opened, none, .empty⟩

def whole (g : Group) : Pattern :=
  match g.choices with
  | none => g.current
  | some p => .alt p g.current

def push (g : Group) (p : Pattern) : Group := { g with current := .seq g.current p }

def split (g : Group) : Group := { g with choices := some g.whole, current := .empty }

end Group

/-- Reads tokens from a position of the written expression on; `inner` is the group being read and
`outer` holds those around it. -/
def assemble (expression : Text) : (position : Nat) → (outer : List Group) → (inner : Group) →
    List Token → Except Flaw Pattern
  | _, [], inner, [] => .ok inner.whole
  | _, _ :: _, inner, [] => .error (.unclosedGroup ⟨expression, inner.opened⟩)
  | n, outer, inner, .atom a :: r =>
    assemble expression (n + a.written.length) outer (inner.push (.atom a)) r
  | n, outer, inner, .bracket negated members :: r =>
    match readMembers [] (allMembers negated members) with
    | .ok ms =>
      assemble expression (n + (Token.bracket negated members).written.length) outer
        (inner.push (.bracket ⟨negated, ms⟩)) r
    | .error e =>
      let before := bracketOpening negated ++ writtenMembers e.passed
      .error (.reversedRange e.first e.last ⟨expression, n + before.length⟩)
  | n, outer, inner, .opening :: r => assemble expression (n + 3) (inner :: outer) (.start n) r
  | n, [], _, .closing :: _ => .error (.unopenedGroup ⟨expression, n⟩)
  | n, g :: outer, inner, .closing :: r => assemble expression (n + 1) outer (g.push inner.whole) r
  | n, outer, inner, .bar :: r => assemble expression (n + 1) outer inner.split r

/-- The pattern of a glob without braces. -/
def Pattern.ofGlob (glob : Text) : Except Flaw Pattern :=
  match tokens? glob with
  | none => .error .unclosedBracket
  | some ts => assemble (ts.flatMap Token.written) 0 [] (.start 0) ts

end TreeCensus.Glob
