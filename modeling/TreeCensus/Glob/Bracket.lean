import TreeCensus.Glob.Casing
import TreeCensus.Glob.Flaw

/-!
# Bracket expressions

A bracket expression lists single characters and ranges. A hyphen stands for itself in the first and
last place and after a range. A negated expression accepts what is not listed, but never a slash: it
is read with a slash as its first member.
-/

namespace TreeCensus.Glob

set_option autoImplicit false

inductive Member
  | single (c : Char)
  | range (first last : Char)
  deriving DecidableEq

structure Bracket where
  negated : Bool
  members : List Member
  deriving DecidableEq

/-- A range that runs backwards, with the text of the members before it. -/
structure ReversedRange where
  passed : Text
  first : Char
  last : Char

/-- Reads the members; `passed` is the text read so far, last character first. -/
def readMembers : (passed : Text) → Text → Except ReversedRange (List Member)
  | _, [] => .ok []
  | passed, a :: '-' :: b :: r =>
    if b < a then .error ⟨passed.reverse, a, b⟩
    else (readMembers (b :: '-' :: a :: passed) r).map (Member.range a b :: ·)
  | passed, a :: r => (readMembers (a :: passed) r).map (Member.single a :: ·)

def Member.Holds (k : Casing) (c : Char) : Member → Prop
  | single x => x ∈ k.members c
  | range a b => ∃ x ∈ k.ranged b c, a ≤ x ∧ x ≤ b

instance (k : Casing) (c : Char) : (m : Member) → Decidable (m.Holds k c)
  | .single x => inferInstanceAs (Decidable (x ∈ k.members c))
  | .range a b => inferInstanceAs (Decidable (∃ x ∈ k.ranged b c, a ≤ x ∧ x ≤ b))

namespace Bracket

def Lists (k : Casing) (b : Bracket) (c : Char) : Prop := ∃ m ∈ b.members, m.Holds k c

instance (k : Casing) (b : Bracket) (c : Char) : Decidable (b.Lists k c) :=
  inferInstanceAs (Decidable (∃ m ∈ b.members, m.Holds k c))

/-- Whether a bracket expression accepts a character. -/
def Accepts (k : Casing) (b : Bracket) (c : Char) : Prop :=
  if b.negated then ¬ b.Lists k c else b.Lists k c

instance (k : Casing) (b : Bracket) (c : Char) : Decidable (b.Accepts k c) := by
  unfold Accepts
  exact inferInstance

end Bracket

/-- Cuts a text at its first closing bracket. -/
def toClosing? : Text → Option (Text × Text)
  | [] => none
  | c :: r =>
    if c = ']' then some ([], r)
    else (toClosing? r).map fun p => (c :: p.1, p.2)

/-- The members up to the closing bracket, and the text after it. A closing bracket in first place is
a member. -/
def membersText? : Text → Option (Text × Text)
  | [] => none
  | c :: r =>
    if c = ']' then (toClosing? r).map fun p => (c :: p.1, p.2)
    else toClosing? (c :: r)

/-- A bracket expression as it stands in a glob, and the text after it. -/
structure BracketText where
  negated : Bool
  members : Text
  after : Text

def bracketText? : Text → Option BracketText
  | [] => none
  | c :: r =>
    if c = '^' then (membersText? r).map fun p => ⟨true, p.1, p.2⟩
    else (membersText? (c :: r)).map fun p => ⟨false, p.1, p.2⟩

theorem length_of_toClosing? {t : Text} {p : Text × Text} (h : toClosing? t = some p) :
    p.2.length < t.length := by
  induction t generalizing p with
  | nil => simp [toClosing?] at h
  | cons c r ih =>
    unfold toClosing? at h
    split at h
    · cases h; simp
    · obtain ⟨q, hq, rfl⟩ := Option.map_eq_some_iff.mp h
      have := ih hq
      simp only [List.length_cons]
      omega

theorem length_of_membersText? {t : Text} {p : Text × Text} (h : membersText? t = some p) :
    p.2.length < t.length := by
  cases t with
  | nil => simp [membersText?] at h
  | cons c r =>
    simp only [membersText?] at h
    split at h
    · obtain ⟨q, hq, rfl⟩ := Option.map_eq_some_iff.mp h
      have := length_of_toClosing? hq
      simp only [List.length_cons]
      omega
    · exact length_of_toClosing? h

theorem length_of_bracketText? {t : Text} {b : BracketText} (h : bracketText? t = some b) :
    b.after.length < t.length := by
  cases t with
  | nil => simp [bracketText?] at h
  | cons c r =>
    simp only [bracketText?] at h
    split at h
    · obtain ⟨q, hq, rfl⟩ := Option.map_eq_some_iff.mp h
      have := length_of_membersText? hq
      simp only [List.length_cons]
      omega
    · obtain ⟨q, hq, rfl⟩ := Option.map_eq_some_iff.mp h
      exact length_of_membersText? hq

end TreeCensus.Glob
