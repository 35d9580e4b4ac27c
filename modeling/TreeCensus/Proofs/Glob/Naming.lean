import TreeCensus.Glob.Matcher

/-!
# Which names a segment of a glob fits

`Fits grouped s n` says directly, by recursion on the segment `s`, that it fits the name `n`; `grouped`
says whether its parentheses are groups. `FitsName` takes them for groups if they are balanced. Bracket
expressions are not dealt with here.
-/

namespace TreeCensus.Glob

set_option autoImplicit false

/-- A text whose parentheses are balanced, if they count as such. -/
inductive Nested (grouped : Prop) : Text → Prop
  | nil : Nested grouped []
  | char {c : Char} {s : Text} : (grouped → c ≠ '(' ∧ c ≠ ')') → Nested grouped s →
      Nested grouped (c :: s)
  | group {b s : Text} : grouped → Nested grouped b → Nested grouped s →
      Nested grouped ('(' :: b ++ ')' :: s)

/-- Puts a text before the first of several. -/
def onto (t : Text) : List Text → List Text
  | [] => [t]
  | p :: ps => (t ++ p) :: ps

/-- The parts between the bars that stand outside of all parentheses, `depth` of which are open. -/
def choicesAt : (depth : Nat) → Text → List Text
  | _, [] => [[]]
  | 0, '|' :: r => [] :: choicesAt 0 r
  | d, '(' :: r => onto ['('] (choicesAt (d + 1) r)
  | d, ')' :: r => onto [')'] (choicesAt (d - 1) r)
  | d, c :: r => onto [c] (choicesAt d r)

/-- What a group chooses from. -/
def choices (b : Text) : List Text := choicesAt 0 b

inductive Fits (grouped : Prop) : Text → Text → Prop
  | nil : Fits grouped [] []
  /-- A star stands for any run of characters. -/
  | run {s u v : Text} : Fits grouped s v → Fits grouped ('*' :: s) (u ++ v)
  | one {s v : Text} {c : Char} : Fits grouped s v → Fits grouped ('?' :: s) (c :: v)
  /-- A group stands for one of its choices. -/
  | group {b a s u v : Text} : grouped → Nested True b → a ∈ choices b → Fits grouped a u →
      Fits grouped s v → Fits grouped ('(' :: b ++ ')' :: s) (u ++ v)
  | char {c : Char} {s v : Text} : c ≠ '*' → c ≠ '?' → (grouped → c ≠ '(' ∧ c ≠ ')') →
      Fits grouped s v → Fits grouped (c :: s) (c :: v)

/-- Whether a whole segment fits a name. Stars alone stand for a name, which is never empty. -/
def FitsName (segment name : Text) : Prop :=
  if segment ≠ [] ∧ segment.all (· = '*') then name ≠ []
  else Fits (Nested True segment) segment name

theorem fitsName_iff_fits {segment name : Text} {c : Char} (hc : c ∈ segment) (hstar : c ≠ '*') :
    FitsName segment name ↔ Fits (Nested True segment) segment name := by
  rw [FitsName, if_neg]
  exact fun h => hstar (by simpa using List.all_eq_true.mp h.2 c hc)

theorem choicesAt_zero_char {c : Char} (hp : c ≠ '(' ∧ c ≠ ')') (hb : c ≠ '|') (s : Text) :
    choicesAt 0 (c :: s) = onto [c] (choicesAt 0 s) := by
  rw [choicesAt] <;> simp_all

theorem choicesAt_succ_char (d : Nat) {c : Char} (hp : c ≠ '(' ∧ c ≠ ')') (s : Text) :
    choicesAt (d + 1) (c :: s) = onto [c] (choicesAt (d + 1) s) := by
  rw [choicesAt] <;> simp_all

theorem choicesAt_ne_nil (d : Nat) (s : Text) : choicesAt d s ≠ [] := by
  have honto : ∀ (t : Text) (ps : List Text), onto t ps ≠ [] := fun t ps => by
    cases ps <;> simp [onto]
  fun_cases choicesAt d s <;> simp [honto]

theorem onto_onto (t u : Text) {ps : List Text} (h : ps ≠ []) :
    onto t (onto u ps) = onto (t ++ u) ps := by
  cases ps with
  | nil => exact absurd rfl h
  | cons p ps => simp [onto]

/-- Inside parentheses no bar counts. -/
theorem choicesAt_nested {b : Text} (hb : Nested True b) (d : Nat) (s : Text) :
    choicesAt (d + 1) (b ++ s) = onto b (choicesAt (d + 1) s) := by
  induction hb generalizing d s with
  | nil => cases h : choicesAt (d + 1) s with
    | nil => exact absurd h (choicesAt_ne_nil _ s)
    | cons p ps => simp [onto, h]
  | char hc _ ih =>
    rw [List.cons_append, choicesAt_succ_char d (hc trivial), ih,
      onto_onto _ _ (choicesAt_ne_nil _ s)]
    rfl
  | @group b r _ _ _ ihb ihr =>
    have hclose : ∀ q : Text, choicesAt (d + 1 + 1) (')' :: q) = onto [')'] (choicesAt (d + 1) q) :=
      fun q => by rw [choicesAt]; simp
    have hopen : ∀ q : Text, choicesAt (d + 1) ('(' :: q) = onto ['('] (choicesAt (d + 1 + 1) q) :=
      fun q => by rw [choicesAt]
    have hne := choicesAt_ne_nil (d + 1)
    simp only [List.cons_append, List.append_assoc]
    rw [hopen, ihb, hclose, ihr, onto_onto _ _ (hne s), onto_onto _ _ (hne s),
      onto_onto _ _ (hne s)]
    simp

theorem choices_group {b : Text} (hb : Nested True b) (s : Text) :
    choices ('(' :: b ++ ')' :: s) = onto ('(' :: b ++ [')']) (choices s) := by
  have hclose : choicesAt (0 + 1) (')' :: s) = onto [')'] (choicesAt 0 s) := by
    rw [choicesAt]
  have hopen : ∀ q : Text, choicesAt 0 ('(' :: q) = onto ['('] (choicesAt (0 + 1) q) :=
    fun q => by rw [choicesAt]
  unfold choices
  rw [List.cons_append, hopen, choicesAt_nested hb, hclose,
    onto_onto _ _ (choicesAt_ne_nil 0 s), onto_onto _ _ (choicesAt_ne_nil 0 s)]
  simp

theorem choices_bar (s : Text) : choices ('|' :: s) = [] :: choices s := by
  simp [choices, choicesAt]

theorem choices_char {c : Char} (hp : c ≠ '(' ∧ c ≠ ')') (hb : c ≠ '|') (s : Text) :
    choices (c :: s) = onto [c] (choices s) := choicesAt_zero_char hp hb s

/-- Where a group ends is determined by its text. -/
theorem Nested.end_unique {b : Text} (hb : Nested True b) {b' s s' : Text} (hb' : Nested True b')
    (h : b ++ ')' :: s = b' ++ ')' :: s') : b = b' ∧ s = s' := by
  induction hb generalizing b' s s' with
  | nil =>
    cases hb' with
    | nil => simpa using h
    | char hc _ => exact absurd (List.cons.inj h).1.symm (hc trivial).2
    | group _ _ _ => exact absurd (List.cons.inj h).1 (by decide)
  | char hc _ ih =>
    cases hb' with
    | nil => exact absurd (List.cons.inj h).1 (hc trivial).2
    | char _ hr =>
      obtain ⟨rfl, ht⟩ := List.cons.inj h
      obtain ⟨rfl, rfl⟩ := ih hr ht
      exact ⟨rfl, rfl⟩
    | group _ _ _ => exact absurd (List.cons.inj h).1 (hc trivial).1
  | group _ _ _ ihb ihr =>
    cases hb' with
    | nil => exact absurd (List.cons.inj h).1 (by decide)
    | char hc _ => exact absurd (List.cons.inj h).1.symm (hc trivial).1
    | group _ hb₂ hr₂ =>
      simp only [List.cons_append, List.append_assoc, List.cons.injEq, true_and] at h
      obtain ⟨rfl, ht⟩ := ihb hb₂ h
      obtain ⟨rfl, rfl⟩ := ihr hr₂ ht
      exact ⟨rfl, rfl⟩

/-- A text that closes `n` groups which were opened before it. -/
def Closes : Nat → Text → Prop
  | 0, s => Nested True s
  | n + 1, s => ∃ b r, s = b ++ ')' :: r ∧ Nested True b ∧ Closes n r

theorem Closes.char {n : Nat} {c : Char} {s : Text} (hc : c ≠ '(' ∧ c ≠ ')') (h : Closes n s) :
    Closes n (c :: s) := by
  cases n with
  | zero => exact Nested.char (fun _ => hc) h
  | succ n =>
    obtain ⟨b, r, rfl, hb, hr⟩ := h
    exact ⟨c :: b, r, rfl, .char (fun _ => hc) hb, hr⟩

theorem Closes.group {n : Nat} {b s : Text} (hb : Nested True b) (h : Closes n s) :
    Closes n ('(' :: b ++ ')' :: s) := by
  cases n with
  | zero => exact Nested.group trivial hb h
  | succ n =>
    obtain ⟨b', r, rfl, hb', hr⟩ := h
    exact ⟨'(' :: b ++ ')' :: b', r, by simp, .group trivial hb hb', hr⟩

theorem nested_false (s : Text) : Nested False s := by
  induction s with
  | nil => exact .nil
  | cons c s ih => exact .char False.elim ih

theorem closes_of_openParentheses? {n : Nat} {s : Text} (h : openParentheses? n s = some 0) :
    Closes n s := by
  fun_induction openParentheses? n s with
  | case1 n =>
    obtain rfl : n = 0 := by simpa using h
    exact Nested.nil
  | case2 n r ih =>
    obtain ⟨b, r', rfl, hb, hr⟩ := ih h
    exact Closes.group hb hr
  | case3 => cases h
  | case4 n r ih => exact ⟨[], r, rfl, .nil, ih h⟩
  | case5 n c r hopen hzero hsucc ih =>
    have hc : c ≠ ')' := fun hc => by cases n <;> simp_all
    exact (ih h).char ⟨hopen, hc⟩

theorem openParentheses?_nested {b : Text} (hb : Nested True b) (n : Nat) (s : Text) :
    openParentheses? n (b ++ s) = openParentheses? n s := by
  induction hb generalizing n s with
  | nil => rfl
  | char hc _ ih =>
    rw [List.cons_append, openParentheses?, ih] <;> simp_all
  | group _ _ _ ihb ihr =>
    simp [openParentheses?, ihb, ihr]

theorem nested_iff (s : Text) : Nested True s ↔ openParentheses? 0 s = some 0 := by
  constructor
  · intro h
    simpa [openParentheses?] using openParentheses?_nested h 0 []
  · exact closes_of_openParentheses?

end TreeCensus.Glob
