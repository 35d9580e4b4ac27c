import TreeCensus.Value

/-!
# Faults

A fault is the cause for which an operation gives no result. Each fault has a kind, a message, and a
quoted form. A cancellation carries the reason that was given for it, which may itself be a fault.
-/

namespace TreeCensus

set_option autoImplicit false

/-- What a file system answers when a call fails. -/
inductive Errno
  | notPermitted | noEntry | inputOutput | noAccess | busy | alreadyThere | notDirectory
  | isDirectory | invalid | nameTooLong | linkLoop | stale
  deriving DecidableEq

namespace Errno

def number : Errno → Nat
  | notPermitted => 1
  | noEntry => 2
  | inputOutput => 5
  | noAccess => 13
  | busy => 16
  | alreadyThere => 17
  | notDirectory => 20
  | isDirectory => 21
  | invalid => 22
  | nameTooLong => 36
  | linkLoop => 40
  | stale => 116

def text : Errno → Text
  | notPermitted => "Operation not permitted".toList
  | noEntry => "No such file or directory".toList
  | inputOutput => "Input/output error".toList
  | noAccess => "Permission denied".toList
  | busy => "Device or resource busy".toList
  | alreadyThere => "File exists".toList
  | notDirectory => "Not a directory".toList
  | isDirectory => "Is a directory".toList
  | invalid => "Invalid argument".toList
  | nameTooLong => "File name too long".toList
  | linkLoop => "Too many levels of symbolic links".toList
  | stale => "Stale file handle".toList

end Errno

/-- The families that kinds of faults belong to, the widest last. -/
inductive Family
  | invalidPattern | operationCancelled | census | value | system | any
  deriving DecidableEq

def Family.name : Family → Text
  | invalidPattern => "InvalidPatternError".toList
  | operationCancelled => "OperationCancelledError".toList
  | census => "TreeWalkError".toList
  | value => "ValueError".toList
  | system => "OSError".toList
  | any => "Exception".toList

inductive Kind
  | invalidPattern | operationCancelled | value | undecodable | runtime | type | lookup
  | system | permission | notFound | alreadyThere | notDirectory | isDirectory | interrupted
  deriving DecidableEq

namespace Kind

def name : Kind → Text
  | invalidPattern => "InvalidPatternError".toList
  | operationCancelled => "OperationCancelledError".toList
  | value => "ValueError".toList
  | undecodable => "UnicodeDecodeError".toList
  | runtime => "RuntimeError".toList
  | type => "TypeError".toList
  | lookup => "LookupError".toList
  | system => "OSError".toList
  | permission => "PermissionError".toList
  | notFound => "FileNotFoundError".toList
  | alreadyThere => "FileExistsError".toList
  | notDirectory => "NotADirectoryError".toList
  | isDirectory => "IsADirectoryError".toList
  | interrupted => "CancelledError".toList

def families : Kind → List Family
  | invalidPattern => [.invalidPattern, .census, .value, .any]
  | operationCancelled => [.operationCancelled, .census, .any]
  | value | undecodable => [.value, .any]
  | runtime | type | lookup => [.any]
  | system | permission | notFound | alreadyThere | notDirectory | isDirectory => [.system, .any]
  | interrupted => []

/-- Whether faults of this kind come from a file system. -/
def isSystem (k : Kind) : Bool := Family.system ∈ k.families

def ofErrno : Errno → Kind
  | .notPermitted | .noAccess => permission
  | .noEntry => notFound
  | .alreadyThere => alreadyThere
  | .notDirectory => notDirectory
  | .isDirectory => isDirectory
  | _ => system

end Kind

/-- What can be wrong with the settings of a walk. -/
inductive Issue
  | singlePath | negativeLevel | negativeSize | pathHandler | errorHandler | filter
  deriving DecidableEq

def Issue.message : Issue → Text
  | singlePath => "paths must be a list of paths, not a single string".toList
  | negativeLevel => "max_nested_level cannot be negative".toList
  | negativeSize => "min_total_content_size cannot be negative".toList
  | pathHandler => "handle_path must be callable".toList
  | errorHandler => "handle_error must be callable".toList
  | filter => "match_path must be callable".toList

inductive Fault
  /-- A call on `subject` failed. -/
  | system (errno : Errno) (subject : Option Scalar)
  /-- A fault that is known by its kind and message alone. -/
  | plain (kind : Kind) (message : Text)
  | invalidPattern (glob detail : Text)
  /-- Bytes that are not UTF-8. -/
  | undecodable
  | cancelled
  | cancelledWith (reason : Scalar)
  | cancelledBy (cause : Fault)
  /-- The task was told to end. -/
  | interrupted
  | invalidChoice (choice choices : Text)
  | invalidSettings (issues : List Issue)
  | emptyPool
  | tooLargeRequest (count capacity : Int)
  | releasedTooMuch
  | tooManyErrors (limit : Int) (last : Fault)
  deriving DecidableEq

/-- Why something was cancelled. -/
inductive Reason
  | none
  | scalar (s : Scalar)
  | fault (f : Fault)
  deriving DecidableEq

namespace Fault

def kind : Fault → Kind
  | system e _ => .ofErrno e
  | plain k _ => k
  | invalidPattern _ _ => .invalidPattern
  | undecodable => .undecodable
  | cancelled | cancelledWith _ | cancelledBy _ => .operationCancelled
  | interrupted => .interrupted
  | invalidChoice _ _ | invalidSettings _ | emptyPool | tooLargeRequest _ _ => .value
  | releasedTooMuch | tooManyErrors _ _ => .runtime

def patternHelp : Text :=
  "Valid glob patterns use: * (match any characters), ** (match any directories), ".toList ++
    "? (match single character), [abc] (character class with balanced brackets), ".toList ++
    "\x7ba,b\x7d (alternatives), ! (negate pattern), ^ (exclude if included). ".toList ++
    "Examples: \"*.py\", \"src/**/*.py\", \"!node_modules\", \"^dist\".".toList

def cancelledText : Text := "Operation cancelled".toList

def message : Fault → Text
  | system e subject =>
    "[Errno ".toList ++ Text.ofInt e.number ++ "] ".toList ++ e.text ++
      match subject with
      | some s => ':' :: ' ' :: s.quoted
      | none => []
  | plain _ m => m
  | invalidPattern glob detail =>
    "Invalid glob pattern: \"".toList ++ glob ++ "\". ".toList ++ detail ++ ' ' :: patternHelp
  | undecodable => "invalid UTF-8".toList
  | cancelled => cancelledText
  | cancelledWith r => cancelledText ++ ':' :: ' ' :: r.plain
  | cancelledBy f => cancelledText ++ ':' :: ' ' :: f.message
  | interrupted => []
  | invalidChoice choice choices => choice ++ " is not a valid ".toList ++ choices
  | invalidSettings issues =>
    "Invalid configuration: ".toList ++ Text.commaList (issues.map Issue.message)
  | emptyPool => "max_count must be positive".toList
  | tooLargeRequest count capacity =>
    "count ".toList ++ Text.ofInt count ++ " exceeds pool size ".toList ++ Text.ofInt capacity
  | releasedTooMuch => "PriorityPool released more permits than held".toList
  | tooManyErrors limit _ =>
    "Error threshold exceeded (".toList ++ Text.ofInt limit ++ " errors)".toList

/-- The form in which a fault shows as the reason of a cancellation. -/
def quoted (f : Fault) : Text :=
  let arguments :=
    match f with
    | system e _ => Text.ofInt e.number ++ ',' :: ' ' :: Text.quoted e.text
    | interrupted => []
    | f => Text.quoted f.message
  f.kind.name ++ '(' :: arguments ++ [')']

def isCancellation (f : Fault) : Bool := f.kind = .operationCancelled

/-- Whether the fault only says that something is not there. -/
def isMissing (f : Fault) : Bool := f.kind = .notFound

/-- The path or number that the fault is about. -/
def subject? : Fault → Option Scalar
  | system _ s => s
  | _ => none

/-- The fault by which a fault of another kind came about. -/
def cause? : Fault → Option Fault
  | tooManyErrors _ f => some f
  | _ => none

/-- The fault that reports a cancellation: a reason that already is one stands for itself. -/
def ofReason : Reason → Fault
  | .none => cancelled
  | .scalar s => cancelledWith s
  | .fault f => if f.isCancellation then f else cancelledBy f

@[simp] theorem isCancellation_ofReason (r : Reason) : (ofReason r).isCancellation = true := by
  unfold ofReason
  split
  · rfl
  · rfl
  · split
    · assumption
    · rfl

end Fault

def Reason.quoted : Reason → Text
  | none => "None".toList
  | scalar s => s.quoted
  | fault f => f.quoted

end TreeCensus
