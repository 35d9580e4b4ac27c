import TreeCensus.Text.Quoted

/-!
# Values that callers hand in

A caller may give any plain value as the reason of a cancellation, and a setting may turn out to be
any value at all. A value has a plain text, a quoted form, and counts as true or not.
-/

namespace TreeCensus

set_option autoImplicit false

inductive Scalar
  | truth (b : Bool)
  | number (n : Int)
  | text (t : Text)
  deriving DecidableEq

inductive Value
  | nothing
  | scalar (s : Scalar)
  | list (items : List Value)
  | record (fields : List (Text × Value))

namespace Scalar

/-- The form that a value has inside a message. -/
def plain : Scalar → Text
  | .truth true => "True".toList
  | .truth false => "False".toList
  | .number n => Text.ofInt n
  | .text t => t

/-- The form that tells a text from a number. -/
def quoted : Scalar → Text
  | .text t => Text.quoted t
  | s => s.plain

def isTrue : Scalar → Bool
  | .truth b => b
  | .number n => n ≠ 0
  | .text t => t ≠ []

end Scalar

namespace Value

mutual

def quoted : Value → Text
  | .nothing => "None".toList
  | .scalar s => s.quoted
  | .list items => '[' :: Text.commaList (quotedAll items) ++ [']']
  | .record fields => Char.ofNat 0x7B :: Text.commaList (quotedFields fields) ++ [Char.ofNat 0x7D]

def quotedAll : List Value → List Text
  | [] => []
  | v :: vs => quoted v :: quotedAll vs

def quotedFields : List (Text × Value) → List Text
  | [] => []
  | (name, v) :: fields => (Text.quoted name ++ ':' :: ' ' :: quoted v) :: quotedFields fields

end

/-- Nothing, no, zero and whatever is empty do not count as true. -/
def isTrue : Value → Bool
  | .nothing => false
  | .scalar s => s.isTrue
  | .list items => !items.isEmpty
  | .record fields => !fields.isEmpty

end Value

end TreeCensus
