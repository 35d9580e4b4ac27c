import TreeCensus.Glob.Pattern

/-!
# Reading a text with a pattern

A pattern reads a first part of a text and leaves the rest to a continuation. `reads` follows all ways
to do so. `table` computes the same for all suffixes of a text at once, so that a way that was followed
once is not followed again (`table_reads`).
-/

namespace TreeCensus.Glob

set_option autoImplicit false

/-- Reads one character. -/
def readNext (p : Char → Bool) (K : Text → Bool) : Text → Bool
  | [] => false
  | c :: r => p c && K r

/-- Reads any number of characters. -/
def readWhile (p : Char → Bool) (K : Text → Bool) : Text → Bool
  | [] => K []
  | c :: r => K (c :: r) || (p c && readWhile p K r)

/-- Reads any number of names that are not empty, each with a slash after it; `inName` says that a
name has begun. -/
def readFolders (K : Text → Bool) : (inName : Bool) → Text → Bool
  | false, [] => K []
  | true, [] => false
  | false, c :: r => K (c :: r) || (c ≠ '/' && readFolders K true r)
  | true, c :: r => if c = '/' then readFolders K false r else readFolders K true r

def inName (c : Char) : Bool := c ≠ '/'

def inLine (c : Char) : Bool := c ≠ '\n'

def isSlash (c : Char) : Bool := c = '/'

namespace Atom

def reads (k : Casing) (K : Text → Bool) : Atom → Text → Bool
  | char x => readNext (fun c => x ∈ k.kin c) K
  | one => readNext inName K
  | run => readWhile inName K
  | name => readNext inName (readWhile inName K)
  | folders => readFolders K false
  | below => readNext isSlash (readWhile inLine K)
  | within => fun t => K t || readNext isSlash (readWhile inLine K) t
  | anything => readNext inLine (readWhile inLine K)

end Atom

namespace Pattern

def reads (k : Casing) : Pattern → (Text → Bool) → Text → Bool
  | empty, K => K
  | atom a, K => a.reads k K
  | bracket b, K => readNext (fun c => b.Accepts k c) K
  | seq p q, K => reads k p (reads k q K)
  | alt p q, K => fun t => reads k p K t || reads k q K t

/-- Whether a pattern reads a text to its end. -/
def Accepts (k : Casing) (p : Pattern) (t : Text) : Prop := p.reads k List.isEmpty t = true

end Pattern

/-- The values of `K` on a text and all its suffixes, the longest first. -/
def suffixTable (K : Text → Bool) : Text → List Bool
  | [] => [K []]
  | c :: r => K (c :: r) :: suffixTable K r

@[simp] theorem head?_suffixTable (K : Text → Bool) (t : Text) :
    (suffixTable K t).head? = some (K t) := by
  cases t <;> rfl

def tableNext (p : Char → Bool) : Text → List Bool → List Bool
  | c :: r, _ :: bs => (p c && bs.headD false) :: tableNext p r bs
  | _, _ => [false]

@[simp] theorem tableNext_suffixTable (p : Char → Bool) (K : Text → Bool) (t : Text) :
    tableNext p t (suffixTable K t) = suffixTable (readNext p K) t := by
  induction t with
  | nil => rfl
  | cons c r ih => simp [suffixTable, tableNext, readNext, ih]

def tableWhile (p : Char → Bool) : Text → List Bool → List Bool
  | c :: r, b :: bs =>
    let rest := tableWhile p r bs
    (b || (p c && rest.headD false)) :: rest
  | _, bs => bs

@[simp] theorem tableWhile_suffixTable (p : Char → Bool) (K : Text → Bool) (t : Text) :
    tableWhile p t (suffixTable K t) = suffixTable (readWhile p K) t := by
  induction t with
  | nil => rfl
  | cons c r ih => simp [suffixTable, tableWhile, readWhile, ih]

/-- The table of `readFolders` between names, and its value within a name. -/
def tableFolders : Text → List Bool → List Bool × Bool
  | c :: r, b :: bs =>
    let rest := tableFolders r bs
    ((b || (c ≠ '/' && rest.2)) :: rest.1, if c = '/' then rest.1.headD false else rest.2)
  | _, bs => (bs, false)

@[simp] theorem tableFolders_suffixTable (K : Text → Bool) (t : Text) :
    tableFolders t (suffixTable K t) =
      (suffixTable (readFolders K false) t, readFolders K true t) := by
  induction t with
  | nil => rfl
  | cons c r ih => simp [suffixTable, tableFolders, readFolders, ih]

def tableOr : List Bool → List Bool → List Bool := List.zipWith (· || ·)

@[simp] theorem tableOr_suffixTable (K L : Text → Bool) (t : Text) :
    tableOr (suffixTable K t) (suffixTable L t) = suffixTable (fun s => K s || L s) t := by
  unfold tableOr
  induction t with
  | nil => rfl
  | cons c r ih => simp [suffixTable, ih]

def Atom.table (k : Casing) (t : Text) (bs : List Bool) : Atom → List Bool
  | char x => tableNext (fun c => x ∈ k.kin c) t bs
  | one => tableNext inName t bs
  | run => tableWhile inName t bs
  | name => tableNext inName t (tableWhile inName t bs)
  | folders => (tableFolders t bs).1
  | below => tableNext isSlash t (tableWhile inLine t bs)
  | within => tableOr bs (tableNext isSlash t (tableWhile inLine t bs))
  | anything => tableNext inLine t (tableWhile inLine t bs)

@[simp] theorem Atom.table_reads (k : Casing) (a : Atom) (K : Text → Bool) (t : Text) :
    a.table k t (suffixTable K t) = suffixTable (a.reads k K) t := by
  cases a <;> simp [Atom.table, Atom.reads]

namespace Pattern

def table (k : Casing) (t : Text) : Pattern → List Bool → List Bool
  | empty, bs => bs
  | atom a, bs => a.table k t bs
  | bracket b, bs => tableNext (fun c => b.Accepts k c) t bs
  | seq p q, bs => table k t p (table k t q bs)
  | alt p q, bs => tableOr (table k t p bs) (table k t q bs)

theorem table_reads (k : Casing) (p : Pattern) (K : Text → Bool) (t : Text) :
    p.table k t (suffixTable K t) = suffixTable (p.reads k K) t := by
  induction p generalizing K with
  | empty => rfl
  | atom a => simp [table, reads]
  | bracket b => simp [table, reads]
  | seq p q ihp ihq => simp [table, reads, ihp, ihq]
  | alt p q ihp ihq => simp [table, reads, ihp, ihq]

/-- Runs a pattern on a text by its table. -/
def run (k : Casing) (p : Pattern) (t : Text) : Bool :=
  (p.table k t (suffixTable List.isEmpty t)).headD false

theorem run_eq_true_iff (k : Casing) (p : Pattern) (t : Text) :
    p.run k t = true ↔ p.Accepts k t := by
  simp [run, Accepts, table_reads]

instance (k : Casing) (p : Pattern) (t : Text) : Decidable (p.Accepts k t) :=
  decidable_of_iff _ (run_eq_true_iff k p t)

end Pattern

end TreeCensus.Glob
