import TreeCensus.Text.Hidden

/-!
# Quoted texts

A quoted text stands between single quotes, or between double quotes when it holds a single quote and
no double one. The quote, the backslash and characters without a visible form are escaped.
-/

namespace TreeCensus.Text

set_option autoImplicit false

/-- The last `width` hexadecimal digits of a number. -/
def hexDigits : (width : Nat) → Nat → Text
  | 0, _ => []
  | w + 1, n => hexDigits w (n / 16) ++ [Nat.digitChar (n % 16)]

@[simp] theorem length_hexDigits (w n : Nat) : (hexDigits w n).length = w := by
  induction w generalizing n with
  | zero => rfl
  | succ w ih => simp [hexDigits, ih]

/-- A number escape is as short as the character allows: two, four or eight digits. -/
def numberEscape (c : Char) : Text :=
  let n := c.toNat
  if n < 0x100 then '\\' :: 'x' :: hexDigits 2 n
  else if n < 0x10000 then '\\' :: 'u' :: hexDigits 4 n
  else '\\' :: 'U' :: hexDigits 8 n

def quoteChar (t : Text) : Char :=
  if '\'' ∈ t ∧ '"' ∉ t then '"' else '\''

def escapeIn (quote c : Char) : Text :=
  if c = quote ∨ c = '\\' then ['\\', c]
  else if c = '\n' then ['\\', 'n']
  else if c = '\r' then ['\\', 'r']
  else if c = '\t' then ['\\', 't']
  else if isHidden c then numberEscape c
  else [c]

def quoted (t : Text) : Text :=
  let q := quoteChar t
  q :: t.flatMap (escapeIn q) ++ [q]

end TreeCensus.Text
