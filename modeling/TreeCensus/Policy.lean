import TreeCensus.Fault

/-!
# Policies on faults

A walk offers its faults to a handler, which takes them or leaves them to the default policy. The
policies of this module are such handlers; each keeps the list of the faults that it was offered.
-/

namespace TreeCensus

set_option autoImplicit false

inductive Policy
  /-- Every fault ends the walk, even that something is not there. -/
  | failFast
  /-- Faults are recorded and taken. -/
  | record (verbose : Bool)
  /-- Faults are taken as long as there are at most `limit` of them. -/
  | tolerate (limit : Int) (verbose : Bool)
  deriving DecidableEq

namespace Policy

/-- Without a handler only the fault that something is not there is taken. -/
def takesByDefault (f : Fault) : Bool := f.isMissing

/-- What a policy does with a fault. -/
structure Response where
  answer : Except Fault Bool
  warning : Text

/-- The path that a fault is about, as warnings name it. -/
def pathText (f : Fault) : Text :=
  match f.subject? with
  | some s => s.plain
  | none => "None".toList

def warning (lead : Text) (f : Fault) : Text :=
  '\n' :: lead ++ " '".toList ++ pathText f ++ "': ".toList ++ f.message ++ ['\n']

/-- The response to the last of the faults offered so far, `count` being their number. -/
def respond (p : Policy) (count : Nat) (f : Fault) : Response :=
  match p with
  | failFast => ⟨.error f, []⟩
  | record verbose =>
    let lead : Text :=
      if f.kind = .permission then "WARNING: Skipping inaccessible path".toList
      else "WARNING: Error for".toList
    ⟨.ok true, if verbose then warning lead f else []⟩
  | tolerate limit verbose =>
    if limit < count then ⟨.error (.tooManyErrors limit f), []⟩
    else
      let lead : Text :=
        "WARNING [".toList ++ Text.ofInt count ++ '/' :: Text.ofInt limit ++ "]: Error for".toList
      ⟨.ok true, if verbose then warning lead f else []⟩

/-- Offers one more fault. -/
def offer (p : Policy) (seen : List Fault) (f : Fault) : List Fault × Response :=
  (seen ++ [f], p.respond (seen.length + 1) f)

/-- The paths that a record of faults says were skipped. -/
def skipped (seen : List Fault) : List Text :=
  seen.filterMap fun f =>
    match f.subject? with
    | some s => if f.kind.isSystem ∧ s.plain ≠ [] then some s.plain else none
    | none => none

/-- A record of faults in numbers. -/
structure Statistics where
  total : Nat
  permission : Nat
  system : Nat
  skipped : Nat
  deriving DecidableEq

def statistics (seen : List Fault) : Statistics where
  total := seen.length
  permission := seen.countP (·.kind = .permission)
  system := seen.countP (·.kind.isSystem)
  skipped := (skipped seen).length

end Policy

end TreeCensus
