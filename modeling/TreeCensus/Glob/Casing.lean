import TreeCensus.Text.Kin

/-!
# Heeding or ignoring case

A matcher either takes characters as they are or takes the variants of a letter for one another.
-/

namespace TreeCensus.Glob

set_option autoImplicit false

inductive Casing
  | heeded
  | ignored
  deriving DecidableEq

namespace Casing

/-- The characters that may stand in a glob for `c`. -/
def kin : Casing → Char → List Char
  | heeded, c => [c]
  | ignored, c => Text.kin c

/-- The characters that may stand for `c` as one of several members of a bracket expression. Beyond
the first plane only the small letter does. -/
def members (k : Casing) (c : Char) : List Char :=
  (k.kin c).filter fun x => Text.isBasic x || (k.kin c).all (· ≤ x)

/-- The characters that may stand for `c` in a range that ends with `last`. Where case is ignored and
the range ends beyond the first plane, a letter also counts as the start of its capital form. -/
def ranged (k : Casing) (last c : Char) : List Char :=
  if k = ignored ∧ !Text.isBasic last then k.kin c ++ (Text.capitalStarts.lookup c).toList
  else k.kin c

theorem mem_kin_self (k : Casing) (c : Char) : c ∈ k.kin c := by
  cases k
  · exact List.mem_singleton.mpr rfl
  · exact Text.mem_kin_self c

@[simp] theorem ranged_heeded (last c : Char) : ranged heeded last c = [c] := by
  simp [ranged, kin]

@[simp] theorem members_heeded (c : Char) : members heeded c = [c] := by
  simp [members, kin]

end Casing

end TreeCensus.Glob
