import TreeCensus.Text

/-!
# Flaws of globs

A glob stands for a regular expression, and a flaw is located in the written form of that
expression: at a position, and also by line and column if the expression has several lines.
-/

namespace TreeCensus.Glob

set_option autoImplicit false

/-- The characters that a written expression sets a backslash before. -/
def isSpecial (c : Char) : Bool :=
  c ∈ ['\t', '\n', '\x0b', '\x0c', '\r', ' ', '#', '$', '&', '(', ')', '*', '+', '-', '.', '?', '[',
    '\\', ']', '^', '\x7b', '|', '\x7d', '~']

def written (c : Char) : Text := if isSpecial c then ['\\', c] else [c]

/-- Inside brackets a hyphen is written as it is. -/
def writtenMember (c : Char) : Text := if c = '-' then ['-'] else written c

/-- A position in a written expression. -/
structure Place where
  expression : Text
  position : Nat
  deriving DecidableEq

/-- Line and column are given when the expression has more than one line. -/
def Place.text (p : Place) : Text :=
  let lines := Text.pieces '\n' (p.expression.take p.position)
  let column := (lines.getLast?.getD []).length + 1
  " at position ".toList ++ Text.ofInt p.position ++
    if '\n' ∈ p.expression then
      " (line ".toList ++ Text.ofInt lines.length ++ ", column ".toList ++ Text.ofInt column ++ [')']
    else []

inductive Flaw
  | unclosedBracket
  /-- A range whose first character comes after its last one. -/
  | reversedRange (first last : Char) (place : Place)
  | unopenedGroup (place : Place)
  | unclosedGroup (place : Place)
  /-- A mark that may not stand where it stands; `mark` holds it and the character after it. -/
  | misplacedMark (mark : Text)
  deriving DecidableEq

def Flaw.message : Flaw → Text
  | unclosedBracket => "Ensure all brackets [ ] are properly closed and balanced.".toList
  | reversedRange first last place =>
    "bad character range ".toList ++ writtenMember first ++ '-' :: writtenMember last ++ place.text
  | unopenedGroup place => "unbalanced parenthesis".toList ++ place.text
  | unclosedGroup place => "missing ), unterminated subpattern".toList ++ place.text
  | misplacedMark mark =>
    "The syntax '".toList ++ mark ++
      "' is not supported. Avoid starting with '!' after '^' or repeating special prefixes.".toList

end TreeCensus.Glob
