/-!
# Texts

A text is the list of its characters. Cutting a text at a separator and joining the pieces again
gives it back (`join_pieces`), and no piece holds the separator (`not_mem_of_mem_pieces`).
-/

namespace TreeCensus

set_option autoImplicit false

abbrev Text := List Char

namespace Text

/-- Cuts a text at every separator, so that n separators give n + 1 pieces. -/
def pieces (sep : Char) : Text → List Text
  | [] => [[]]
  | c :: r =>
    if c = sep then [] :: pieces sep r
    else
      match pieces sep r with
      | [] => [[c]]
      | p :: ps => (c :: p) :: ps

def join (sep : Char) : List Text → Text
  | [] => []
  | [p] => p
  | p :: q :: ps => p ++ sep :: join sep (q :: ps)

theorem pieces_ne_nil (sep : Char) (t : Text) : pieces sep t ≠ [] := by
  cases t with
  | nil => simp [pieces]
  | cons c r =>
    unfold pieces
    split
    · simp
    · split <;> simp

@[simp] theorem join_cons_cons (sep : Char) (c : Char) (p : Text) (ps : List Text) :
    join sep ((c :: p) :: ps) = c :: join sep (p :: ps) := by
  cases ps <;> simp [join]

theorem join_pieces (sep : Char) (t : Text) : join sep (pieces sep t) = t := by
  induction t with
  | nil => rfl
  | cons c r ih =>
    unfold pieces
    split
    · next h =>
      subst h
      cases hp : pieces c r with
      | nil => exact absurd hp (pieces_ne_nil c r)
      | cons p ps => rw [hp] at ih; simp [join, ih]
    · cases hp : pieces sep r with
      | nil => exact absurd hp (pieces_ne_nil sep r)
      | cons p ps => rw [hp] at ih; simp [ih]

theorem not_mem_of_mem_pieces {sep : Char} {t p : Text} (h : p ∈ pieces sep t) : sep ∉ p := by
  induction t generalizing p with
  | nil => simp [pieces] at h; simp [h]
  | cons c r ih =>
    unfold pieces at h
    split at h
    · rcases List.mem_cons.mp h with rfl | h
      · simp
      · exact ih h
    · next hc =>
      cases hp : pieces sep r with
      | nil => exact absurd hp (pieces_ne_nil sep r)
      | cons q qs =>
        rw [hp] at h ih
        rcases List.mem_cons.mp h with rfl | h
        · have := ih List.mem_cons_self
          simp [this, Ne.symm hc]
        · exact ih (List.mem_cons_of_mem q h)

instance decidableMem (t : Text) (ts : List Text) : Decidable (t ∈ ts) := inferInstance

/-- Texts are ordered by their characters, from the first one on. -/
def precedes (t u : Text) : Bool := decide (t < u)

/-- The white space of Unicode, together with the four separators U+001C to U+001F. -/
def isBlank (c : Char) : Bool :=
  let n := c.toNat
  (9 ≤ n && n ≤ 13) || (28 ≤ n && n ≤ 32) || n = 0x85 || n = 0xA0 || n = 0x1680 ||
    (0x2000 ≤ n && n ≤ 0x200A) || n = 0x2028 || n = 0x2029 || n = 0x202F || n = 0x205F || n = 0x3000

theorem isBlank_of_isWhitespace {c : Char} (h : c.isWhitespace = true) : isBlank c = true := by
  have hc : c = ' ' ∨ c = '\t' ∨ c = '\r' ∨ c = '\n' := by
    simpa [Char.isWhitespace, or_assoc] using h
  rcases hc with rfl | rfl | rfl | rfl <;> decide

def dropEndWhile (p : Char → Bool) (t : Text) : Text :=
  (t.reverse.dropWhile p).reverse

/-- The text without the blanks around it. -/
def strip (t : Text) : Text :=
  dropEndWhile isBlank (t.dropWhile isBlank)

def startsWith (lead t : Text) : Bool := lead.isPrefixOf t

def endsWith (tail t : Text) : Bool := tail.isSuffixOf t

def replace (old new : Char) (t : Text) : Text :=
  t.map fun c => if c = old then new else c

@[simp] theorem length_replace (old new : Char) (t : Text) :
    (replace old new t).length = t.length := by
  simp [replace]

/-- The decimal form of an integer. -/
def ofInt (n : Int) : Text :=
  if n < 0 then '-' :: Nat.toDigits 10 n.natAbs else Nat.toDigits 10 n.natAbs

/-- Sets a space after every third digit; the digits come last one first. -/
def spaceThousands : Text → Text
  | a :: b :: c :: d :: r => a :: b :: c :: ' ' :: spaceThousands (d :: r)
  | r => r

/-- The decimal form of an integer with its digits in groups of three. -/
def ofIntGrouped (n : Int) : Text :=
  let digits := (spaceThousands (Nat.toDigits 10 n.natAbs).reverse).reverse
  if n < 0 then '-' :: digits else digits

def padLeft (width : Nat) (t : Text) : Text :=
  List.replicate (width - t.length) ' ' ++ t

/-- Puts texts one after another with `, ` between them. -/
def commaList : List Text → Text
  | [] => []
  | [t] => t
  | t :: u :: ts => t ++ ',' :: ' ' :: commaList (u :: ts)

end Text

end TreeCensus
