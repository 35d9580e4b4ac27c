import TreeCensus.FileSystem

/-!
# Images of file systems

An image is a list of nodes, each with the path at which it stands. A path is looked up part by part;
links on the way are followed, up to a limit.
-/

namespace TreeCensus

set_option autoImplicit false

inductive FileContent
  | text (t : Text)
  | bytes (b : List UInt8)
  deriving DecidableEq

namespace FileContent

def size : FileContent → Int
  | text t => t.foldl (fun n c => n + c.utf8Size) 0
  | bytes b => b.length

/-- Ends every line by `\n`, whether it was ended by `\n`, `\r` or both. -/
def unifyLineEnds : Text → Text
  | '\r' :: '\n' :: r => '\n' :: unifyLineEnds r
  | '\r' :: r => '\n' :: unifyLineEnds r
  | c :: r => c :: unifyLineEnds r
  | [] => []

def decode? : FileContent → Option Text
  | text t => some t
  | bytes b => (String.fromUTF8? (ByteArray.mk b.toArray)).map String.toList

/-- The text of a file as it is read, line ends unified. -/
def read (c : FileContent) : Except Fault Text :=
  match c.decode? with
  | some t => .ok (unifyLineEnds t)
  | none => .error .undecodable

end FileContent

structure Node where
  parts : List Text
  kind : ItemKind
  size : Option Int
  modified : Int
  inode : Option Int
  device : Int
  target : Text
  content : Option FileContent
  infoFailure : Option Errno
  targetFailure : Option Errno
  entriesFailure : Option Errno
  contentFailure : Option Errno
  deriving DecidableEq

namespace Node

/-- A link is as long as its target, and a file as long as its content. -/
def fullSize (n : Node) : Int :=
  match n.size with
  | some s => s
  | none =>
    if n.kind = .link then FileContent.size (.text n.target)
    else
      match n.content with
      | some c => c.size
      | none => 0

def info (n : Node) : FileInfo :=
  ⟨n.kind, n.fullSize, n.modified, n.device, n.inode.getD 0⟩

end Node

structure Image where
  nodes : List Node

namespace Image

/-- Nodes without a number of their own are numbered by their place. -/
def ofNodes (ns : List Node) : Image :=
  ⟨ns.zipIdx.map fun p => { p.1 with inode := some (p.1.inode.getD (p.2 + 1)) }⟩

def find? (img : Image) (parts : List Text) : Option Node :=
  img.nodes.find? (·.parts = parts)

def maxLinks : Nat := 40

/-- Looks up the rest of a path from a directory on, `links` links having been followed. -/
def lookup (img : Image) (follow : Bool) (links : Nat) (current : List Text) :
    List Text → Except Errno Node
  | [] =>
    match img.find? current with
    | some n => .ok n
    | none => .error .noEntry
  | part :: rest =>
    if part = Path.here then lookup img follow links current rest
    else if part = Path.up then lookup img follow links current.dropLast rest
    else
      match img.find? (current ++ [part]) with
      | none => .error .noEntry
      | some n =>
        if n.kind = .link ∧ (rest ≠ [] ∨ follow) then
          if links < maxLinks then
            lookup img follow (links + 1) (if Path.isAbsolute n.target then [] else current)
              (Path.names n.target ++ rest)
          else .error .linkLoop
        else if rest ≠ [] ∧ n.kind ≠ .directory then .error .notDirectory
        else lookup img follow links (current ++ [part]) rest
termination_by parts => (maxLinks - links, parts.length)

/-- Asks `answer` about the node at a path, unless the path leads nowhere or the node is set to fail. -/
def ask {α : Type} (img : Image) (follow : Bool) (failure : Node → Option Errno)
    (answer : Node → Except Errno α) (path : Path) : Except Fault α :=
  let result : Except Errno α :=
    match lookup img follow 0 [] (Path.names path) with
    | .error e => .error e
    | .ok n =>
      match failure n with
      | some e => .error e
      | none => answer n
  match result with
  | .ok a => .ok a
  | .error e => .error (.system e (some (.text path)))

/-- The name of a node that stands directly below `parts`. -/
def nameBelow? (parts : List Text) (n : Node) : Option Text :=
  match n.parts.getLast? with
  | some name => if n.parts.dropLast = parts then some name else none
  | none => none

def entries (img : Image) (n : Node) : List Text := img.nodes.filterMap (nameBelow? n.parts)

def content (img : Image) (path : Path) : Except Fault Text :=
  let content :=
    img.ask true (·.contentFailure)
      (fun n =>
        if n.kind = .directory then .error .isDirectory
        else .ok (n.content.getD (.text [])))
      path
  match content with
  | .error f => .error f
  | .ok c => c.read

/-- The file system that an image shows from a current directory. -/
def toFileSystem (img : Image) (cwd : Path) : FileSystem where
  cwd := cwd
  info := img.ask false (·.infoFailure) fun n => .ok n.info
  target := img.ask false (·.targetFailure) fun n =>
    if n.kind = .link then .ok n.target else .error .invalid
  entries := img.ask true (·.entriesFailure) fun n =>
    if n.kind = .directory then .ok (img.entries n) else .error .notDirectory
  content := img.content

end Image

end TreeCensus
