import TreeCensus.Text

/-!
# Alternatives in braces

`expand` replaces the first group of two or more alternatives by each of them in turn, until no group
is left. A group with one alternative, a brace that is not closed and an escaped brace stand for
themselves. Each step takes away a pair of braces and a comma, so the expansion ends.
-/

namespace TreeCensus.Glob

set_option autoImplicit false

/-- Reads on inside a group, `depth` further groups being open: the alternatives of the group and
the text after it. `part` holds the current alternative and `done` the earlier ones, last ones first. -/
def alternatives? : (depth : Nat) → (part : Text) → (done : List Text) → Text →
    Option (List Text × Text)
  | _, _, _, [] => none
  | _, _, _, ['\\'] => none
  | d, part, done, '\\' :: c :: r => alternatives? d (c :: '\\' :: part) done r
  | d, part, done, '\x7b' :: r => alternatives? (d + 1) ('\x7b' :: part) done r
  | 0, part, done, '\x7d' :: r => some ((part.reverse :: done).reverse, r)
  | d + 1, part, done, '\x7d' :: r => alternatives? d ('\x7d' :: part) done r
  | 0, part, done, ',' :: r => alternatives? 0 [] (part.reverse :: done) r
  | d, part, done, c :: r => alternatives? d (c :: part) done r

theorem length_rest_of_alternatives? {d : Nat} {part : Text} {done : List Text} {t : Text}
    {alts : List Text} {rest : Text} (h : alternatives? d part done t = some (alts, rest)) :
    rest.length < t.length := by
  fun_induction alternatives? d part done t with
  | case1 => simp at h
  | case2 => simp at h
  | case5 => simp at h; simp [h.2]
  | _ => rename_i ih; have := ih h; simp only [List.length_cons]; omega

theorem length_of_mem_alternatives? {d : Nat} {part : Text} {done : List Text} {t : Text}
    {alts : List Text} {rest : Text} (h : alternatives? d part done t = some (alts, rest))
    {a : Text} (ha : a ∈ alts) :
    a ∈ done ∨ a.length + rest.length < part.length + t.length := by
  fun_induction alternatives? d part done t with
  | case1 => simp at h
  | case2 => simp at h
  | case5 part done r =>
    obtain ⟨rfl, rfl⟩ : (part.reverse :: done).reverse = alts ∧ r = rest := by simpa using h
    rcases List.mem_cons.mp (List.mem_reverse.mp ha) with rfl | ha
    · right; simp
    · exact Or.inl ha
  | case7 part done r ih =>
    have hr := length_rest_of_alternatives? h
    rcases ih h with ha | ha
    · rcases List.mem_cons.mp ha with rfl | ha
      · right; simp only [List.length_cons, List.length_reverse]; omega
      · exact Or.inl ha
    · right; simp only [List.length_cons, List.length_nil] at *; omega
  | _ =>
    rename_i ih
    rcases ih h with ha | ha
    · exact Or.inl ha
    · right; simp only [List.length_cons] at *; omega

/-- A group of alternatives with the text before and after it. -/
structure BraceGroup where
  before : Text
  alternatives : List Text
  after : Text

/-- The first group of two or more alternatives; `before` is the text already passed, last
character first. -/
def firstGroup? : (before : Text) → Text → Option BraceGroup
  | _, [] => none
  | _, ['\\'] => none
  | before, '\\' :: c :: r => firstGroup? (c :: '\\' :: before) r
  | before, '\x7b' :: r =>
    match alternatives? 0 [] [] r with
    | some (a :: b :: alts, after) => some ⟨before.reverse, a :: b :: alts, after⟩
    | _ => firstGroup? ('\x7b' :: before) r
  | before, c :: r => firstGroup? (c :: before) r

theorem length_of_firstGroup? {before t : Text} {g : BraceGroup} (h : firstGroup? before t = some g)
    {a : Text} (ha : a ∈ g.alternatives) :
    (g.before ++ a ++ g.after).length < before.length + t.length := by
  fun_induction firstGroup? before t with
  | case1 => simp at h
  | case2 => simp at h
  | case4 before r a' b alts after hg =>
    simp at h
    subst h
    rcases length_of_mem_alternatives? hg ha with h0 | h0
    · simp at h0
    · simp only [List.length_append, List.length_reverse, List.length_cons, List.length_nil] at *
      omega
  | _ => rename_i ih; have := ih h; simp only [List.length_cons] at *; omega

/-- All texts that choosing one alternative in every group gives, the first group varying slowest. -/
def expand (glob : Text) : List Text :=
  match h : firstGroup? [] glob with
  | none => [glob]
  | some g =>
    (g.alternatives.attach.flatMap fun a =>
      have := length_of_firstGroup? h a.2
      expand (g.before ++ a.1 ++ g.after)).eraseDups
termination_by glob.length
decreasing_by simpa using this

theorem expand_of_none {glob : Text} (h : firstGroup? [] glob = none) : expand glob = [glob] := by
  rw [expand]
  split <;> simp_all

theorem expand_of_some {glob : Text} {g : BraceGroup} (h : firstGroup? [] glob = some g) :
    expand glob =
      (g.alternatives.flatMap fun a => expand (g.before ++ a ++ g.after)).eraseDups := by
  rw [expand]
  split <;> rename_i hg <;> rw [h] at hg <;> simp_all

end TreeCensus.Glob
