import TreeCensus.Glob.Bracket

/-!
# Tokens of a glob

A glob without braces is read segment by segment into tokens. Two stars that make up a whole segment
stand for any number of segments; what they become depends on the place of that segment.
-/

namespace TreeCensus.Glob

set_option autoImplicit false

/-- What a matcher accepts at one place. -/
inductive Atom
  | char (c : Char)
  /-- One character of a name. -/
  | one
  /-- Any number of characters of a name. -/
  | run
  /-- A whole name, or a part of one that is not empty. -/
  | name
  /-- Any number of names that are not empty, with a slash after each of them. -/
  | folders
  /-- A slash and the rest of the line. -/
  | below
  /-- Nothing, or a slash and the rest of the line. -/
  | within
  /-- At least one character, and the rest of the line. -/
  | anything
  deriving DecidableEq

inductive Token
  | atom (a : Atom)
  | bracket (negated : Bool) (members : Text)
  | opening
  | closing
  | bar
  deriving DecidableEq

def Atom.written : Atom → Text
  | char c => Glob.written c
  | one => "[^/]".toList
  | run => "[^/]*".toList
  | name => "[^/]+".toList
  | folders => "(?:[^/]+/)*".toList
  | below => "/.*".toList
  | within => "(?:/.*)?".toList
  | anything => ".+".toList

def writtenMembers (ms : Text) : Text := ms.flatMap writtenMember

/-- The members of a negated expression, which never accepts a slash. -/
def allMembers (negated : Bool) (members : Text) : Text :=
  if negated then '/' :: members else members

def bracketOpening (negated : Bool) : Text := if negated then ['[', '^'] else ['[']

def Token.written : Token → Text
  | atom a => a.written
  | bracket negated members =>
    bracketOpening negated ++ writtenMembers (allMembers negated members) ++ [']']
  | opening => "(?:".toList
  | closing => [')']
  | bar => ['|']

/-- Every `\` counts as `/`, and one `/`, or else one `./`, is dropped from the front. -/
def bare (t : Text) : Text :=
  match Text.replace '\\' '/' t with
  | '/' :: r => r
  | '.' :: '/' :: r => r
  | r => r

/-- The number of parentheses left open, unless one is closed that was not opened. -/
def openParentheses? : Nat → Text → Option Nat
  | n, [] => some n
  | n, '(' :: r => openParentheses? (n + 1) r
  | 0, ')' :: _ => none
  | n + 1, ')' :: r => openParentheses? n r
  | n, _ :: r => openParentheses? n r

/-- The parentheses of a segment are groups if they are balanced, be they in brackets or not. -/
def HasGroups (segment : Text) : Prop := '(' ∈ segment ∧ openParentheses? 0 segment = some 0

instance (segment : Text) : Decidable (HasGroups segment) :=
  inferInstanceAs (Decidable (_ ∧ _))

/-- The tokens of a part of a segment, `depth` groups being open; none if a bracket is not closed. -/
def readTokens? (groups : Bool) (depth : Int) : Text → Option (List Token)
  | [] => some []
  | c :: r =>
    if c = '*' then
      if r.head? = some '*' then readTokens? groups depth r
      else (readTokens? groups depth r).map (.atom .run :: ·)
    else if c = '?' then (readTokens? groups depth r).map (.atom .one :: ·)
    else if c = '[' then
      match h : bracketText? r with
      | none => none
      | some b =>
        have := length_of_bracketText? h
        (readTokens? groups depth b.after).map (.bracket b.negated b.members :: ·)
    else if groups ∧ c = '(' then (readTokens? groups (depth + 1) r).map (.opening :: ·)
    else if groups ∧ c = ')' then (readTokens? groups (depth - 1) r).map (.closing :: ·)
    else if groups ∧ c = '|' ∧ 0 < depth then (readTokens? groups depth r).map (.bar :: ·)
    else (readTokens? groups depth r).map (.atom (.char c) :: ·)
termination_by t => t.length
decreasing_by all_goals simp only [List.length_cons]; omega

/-- A segment of stars names an entry, so it is never empty. -/
def segmentTokens? (segment : Text) : Option (List Token) :=
  if segment ≠ [] ∧ segment.all (· = '*') then some [.atom .name]
  else readTokens? (HasGroups segment) 0 segment

def globstar : Text := ['*', '*']

/-- Leaves one of several globstars that follow one another. -/
def collapse : List Text → List Text
  | s :: t :: r => if s = globstar ∧ t = globstar then collapse (t :: r) else s :: collapse (t :: r)
  | r => r

/-- The tokens of the segments after `previous`. A last globstar stands for its directory too, unless
the segment before it ends with a star. -/
def pathTokens? : (previous : Option Text) → List Text → Option (List Token)
  | _, [] => some []
  | previous, s :: rest =>
    if s = globstar then
      let here : List Token :=
        match previous, rest with
        | none, _ => [.atom .folders]
        | some p, [] => if Text.endsWith ['*'] p then [.atom .below] else [.atom .within]
        | some _, _ => [.atom (.char '/'), .atom .folders]
      (pathTokens? (some s) rest).map (here ++ ·)
    else
      let slash : List Token :=
        match previous with
        | none => []
        | some p => if p = globstar then [] else [.atom (.char '/')]
      match segmentTokens? s, pathTokens? (some s) rest with
      | some here, some there => some (slash ++ here ++ there)
      | _, _ => none

/-- The segments of a glob without braces. -/
def segments (glob : Text) : List Text := collapse (Text.pieces '/' (bare glob))

/-- The tokens of a glob without braces; none if a bracket is not closed. -/
def tokens? (glob : Text) : Option (List Token) :=
  if segments glob = [globstar] then some [.atom .anything]
  else pathTokens? none (segments glob)

end TreeCensus.Glob
