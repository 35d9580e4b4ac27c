import TreeCensus.Proofs.Glob.Language
import TreeCensus.Proofs.Glob.Naming

/-!
# Segments as patterns

The tokens of a segment without brackets leave the stack of open groups as it was, and what they add to
the group being read is what the segment fits.
-/

namespace TreeCensus.Glob

set_option autoImplicit false

/-- The names that a part of a segment fits. -/
def Names (grouped : Prop) (s y : Text) : Prop := '/' ∉ y ∧ Fits grouped s y

/-- What stands before the rest of a segment reads `P`. -/
def Leads (grouped : Prop) (t : Text) (P : Text → Prop) : Prop :=
  ∀ s y, Names grouped (t ++ s) y ↔ ∃ u v, y = u ++ v ∧ P u ∧ Names grouped s v

theorem names_nil (grouped : Prop) (y : Text) : Names grouped [] y ↔ y = [] := by
  constructor
  · rintro ⟨-, h⟩
    cases h
    rfl
  · rintro rfl
    exact ⟨by simp, .nil⟩

section Leading

variable {grouped : Prop}

theorem leads_run : Leads grouped ['*'] ('/' ∉ ·) := by
  intro s y
  constructor
  · rintro ⟨hy, h⟩
    generalize ht : ['*'] ++ s = t at h
    cases h with
    | run h =>
      cases ht
      simp only [List.mem_append, not_or] at hy
      exact ⟨_, _, rfl, hy.1, hy.2, h⟩
    | char h₁ _ _ _ => cases ht; exact absurd rfl h₁
    | _ => cases ht
  · rintro ⟨u, v, rfl, hu, hv, h⟩
    exact ⟨by simp [hu, hv], .run h⟩

theorem leads_one : Leads grouped ['?'] fun u => ∃ c, u = [c] ∧ c ≠ '/' := by
  intro s y
  constructor
  · rintro ⟨hy, h⟩
    generalize ht : ['?'] ++ s = t at h
    cases h with
    | one h =>
      cases ht
      simp only [List.mem_cons, not_or] at hy
      exact ⟨_, _, rfl, ⟨_, rfl, Ne.symm hy.1⟩, hy.2, h⟩
    | char _ h₂ _ _ => cases ht; exact absurd rfl h₂
    | _ => cases ht
  · rintro ⟨_, v, rfl, ⟨c, rfl, hc⟩, hv, h⟩
    exact ⟨by simp [hv, Ne.symm hc], .one h⟩

theorem leads_char {c : Char} (hs : c ≠ '/') (h₁ : c ≠ '*') (h₂ : c ≠ '?')
    (hp : grouped → c ≠ '(' ∧ c ≠ ')') : Leads grouped [c] (· = [c]) := by
  intro s y
  constructor
  · rintro ⟨hy, h⟩
    generalize ht : [c] ++ s = t at h
    cases h with
    | char _ _ _ h =>
      cases ht
      simp only [List.mem_cons, not_or] at hy
      exact ⟨_, _, rfl, rfl, hy.2, h⟩
    | nil => cases ht
    | run _ => cases ht; exact absurd rfl h₁
    | one _ => cases ht; exact absurd rfl h₂
    | group hg _ _ _ _ => cases ht; exact absurd rfl (hp hg).1
  · rintro ⟨_, v, rfl, rfl, hv, h⟩
    exact ⟨by simp [hv, Ne.symm hs], .char h₁ h₂ hp h⟩

theorem leads_group (hg : grouped) {b : Text} (hb : Nested True b) :
    Leads grouped ('(' :: b ++ [')']) fun u => ∃ a ∈ choices b, Names grouped a u := by
  intro s y
  constructor
  · rintro ⟨hy, h⟩
    generalize ht : '(' :: b ++ [')'] ++ s = t at h
    cases h with
    | group _ hb' ha hu hv =>
      simp only [List.cons_append, List.append_assoc, List.cons.injEq, true_and] at ht
      obtain ⟨rfl, rfl⟩ := hb.end_unique hb' ht
      simp only [List.mem_append, not_or] at hy
      exact ⟨_, _, rfl, ⟨_, ha, hy.1, hu⟩, hy.2, hv⟩
    | char _ _ hp _ => cases ht; exact absurd rfl (hp hg).1
    | _ => cases ht
  · rintro ⟨u, v, rfl, ⟨a, ha, hu, hau⟩, hv, h⟩
    refine ⟨by simp [hu, hv], ?_⟩
    have := Fits.group hg hb ha hau h
    simpa using this

/-- Two stars in a row fit what one star fits. -/
theorem names_stars (s y : Text) :
    Names grouped ('*' :: '*' :: s) y ↔ Names grouped ('*' :: s) y := by
  have outer := @leads_run grouped ('*' :: s) y
  have inner := @leads_run grouped s
  simp only [List.singleton_append] at outer inner
  rw [outer]
  constructor
  · rintro ⟨u, _, rfl, hu, h⟩
    obtain ⟨v, w, rfl, hv, hw⟩ := (inner _).mp h
    exact (inner _).mpr ⟨u ++ v, w, by simp, by simp [hu, hv], hw⟩
  · intro h
    exact ⟨[], y, rfl, by simp, h⟩

end Leading

namespace Group

/-- What a group reads once it has been read on with the first of some choices and then with others. -/
def Reads (grouped : Prop) (g : Group) : List Text → Text → Prop
  | [], y => g.whole.Spells .heeded y
  | a :: as, y =>
    (∃ p, g.choices = some p ∧ p.Spells .heeded y) ∨
    (∃ u v, y = u ++ v ∧ g.current.Spells .heeded u ∧ Names grouped a v) ∨
    ∃ b ∈ as, Names grouped b y

variable {grouped : Prop}

theorem spells_whole (g : Group) (y : Text) :
    g.whole.Spells .heeded y ↔
      (∃ p, g.choices = some p ∧ p.Spells .heeded y) ∨ g.current.Spells .heeded y := by
  unfold whole
  cases g.choices with
  | none => simp
  | some p => simp [Pattern.Spells]

theorem reads_nil (g : Group) (y : Text) :
    g.Reads grouped [[]] y ↔ g.whole.Spells .heeded y := by
  simp only [Reads, names_nil, spells_whole, List.not_mem_nil, false_and, exists_false, or_false]
  refine or_congr_right ⟨?_, fun h => ⟨y, [], by simp, h, rfl⟩⟩
  rintro ⟨u, _, rfl, hu, rfl⟩
  simpa using hu

theorem reads_push (g : Group) {p : Pattern} {t : Text}
    (hp : Leads grouped t (p.Spells .heeded)) (as : List Text) (has : as ≠ []) (y : Text) :
    (g.push p).Reads grouped as y ↔ g.Reads grouped (onto t as) y := by
  cases as with
  | nil => exact absurd rfl has
  | cons a as =>
    simp only [Reads, onto, push, Pattern.Spells, hp a]
    exact or_congr_right (or_congr_left exists_append_assoc)

theorem reads_split (g : Group) (as : List Text) (has : as ≠ []) (y : Text) :
    g.split.Reads grouped as y ↔ g.Reads grouped ([] :: as) y := by
  cases as with
  | nil => exact absurd rfl has
  | cons a as =>
    have hcurrent : (∃ u v, y = u ++ v ∧ g.current.Spells .heeded u ∧ Names grouped [] v) ↔
        g.current.Spells .heeded y := by
      simp only [names_nil]
      refine ⟨?_, fun h => ⟨y, [], by simp, h, rfl⟩⟩
      rintro ⟨u, _, rfl, hu, rfl⟩
      simpa using hu
    have hsplit : (∃ u v, y = u ++ v ∧ u = [] ∧ Names grouped a v) ↔ Names grouped a y := by
      refine ⟨?_, fun h => ⟨[], y, rfl, rfl, h⟩⟩
      rintro ⟨_, v, rfl, rfl, hv⟩
      exact hv
    simp only [Reads, split, Pattern.Spells, Option.some.injEq, exists_eq_left', spells_whole,
      hcurrent, hsplit, List.mem_cons, exists_eq_or_imp, or_assoc]

theorem reads_start (n : Nat) (as : List Text) (has : as ≠ []) (y : Text) :
    (start n).Reads grouped as y ↔ ∃ a ∈ as, Names grouped a y := by
  cases as with
  | nil => exact absurd rfl has
  | cons a as =>
    have hempty : (∃ u v, y = u ++ v ∧ u = [] ∧ Names grouped a v) ↔ Names grouped a y := by
      refine ⟨?_, fun h => ⟨[], y, rfl, rfl, h⟩⟩
      rintro ⟨_, v, rfl, rfl, hv⟩
      exact hv
    simp only [Reads, start, Pattern.Spells, hempty, reduceCtorEq, false_and, exists_false,
      false_or, List.mem_cons, exists_eq_or_imp]

end Group

section Reading

theorem readTokens?_stars (groups : Bool) (d : Int) (r : Text) :
    readTokens? groups d ('*' :: '*' :: r) = readTokens? groups d ('*' :: r) := by
  rw [readTokens?]
  simp

theorem readTokens?_star (groups : Bool) (d : Int) {r : Text} (h : r.head? ≠ some '*') :
    readTokens? groups d ('*' :: r) = (readTokens? groups d r).map (.atom .run :: ·) := by
  rw [readTokens?]
  simp [h]

theorem readTokens?_one (groups : Bool) (d : Int) (r : Text) :
    readTokens? groups d ('?' :: r) = (readTokens? groups d r).map (.atom .one :: ·) := by
  rw [readTokens?]
  simp

theorem readTokens?_opening (d : Int) (r : Text) :
    readTokens? true d ('(' :: r) = (readTokens? true (d + 1) r).map (.opening :: ·) := by
  rw [readTokens?]
  simp

theorem readTokens?_closing (d : Int) (r : Text) :
    readTokens? true d (')' :: r) = (readTokens? true (d - 1) r).map (.closing :: ·) := by
  rw [readTokens?]
  simp

theorem readTokens?_bar {d : Int} (hd : 0 < d) (r : Text) :
    readTokens? true d ('|' :: r) = (readTokens? true d r).map (.bar :: ·) := by
  rw [readTokens?]
  simp [hd]

theorem readTokens?_char {groups : Bool} {d : Int} {c : Char} (h₁ : c ≠ '*') (h₂ : c ≠ '?')
    (h₃ : c ≠ '[') (hp : groups = true → c ≠ '(' ∧ c ≠ ')')
    (hb : groups = true → 0 < d → c ≠ '|') (r : Text) :
    readTokens? groups d (c :: r) = (readTokens? groups d r).map (.atom (.char c) :: ·) := by
  rw [readTokens?]
  cases groups with
  | false => simp [h₁, h₂, h₃]
  | true =>
    have hbar : c = '|' → ¬ 0 < d := fun h hd => hb rfl hd h
    simp only [true_and, h₁, h₂, h₃, (hp rfl).1, (hp rfl).2, if_false]
    split
    · next h => exact absurd h.2 (hbar h.1)
    · rfl

end Reading

/-- What a part of a segment chooses from with `d` groups open. Outside of groups a bar is a character. -/
def alternativesAt (d : Nat) (s : Text) : List Text := if d = 0 then [s] else choices s

theorem alternativesAt_ne_nil (d : Nat) (s : Text) : alternativesAt d s ≠ [] := by
  unfold alternativesAt
  split
  · simp
  · exact choicesAt_ne_nil 0 s

theorem alternativesAt_append {d : Nat} {t s : Text} (h : choices (t ++ s) = onto t (choices s)) :
    alternativesAt d (t ++ s) = onto t (alternativesAt d s) := by
  unfold alternativesAt
  split
  · rfl
  · exact h

/-- The tokens of `s` take the group being read on to a group that reads `s` as well, and leave the
groups around it as they are. -/
def Assembles (groups : Bool) (d : Nat) (s : Text) : Prop :=
  ∃ ts, (∀ r : Text, r.head? ≠ some '*' →
      readTokens? groups d (s ++ r) = (readTokens? groups d r).map (ts ++ ·)) ∧
    ∀ expression n outer inner rest, ∃ m next,
      assemble expression n outer inner (ts ++ rest) = assemble expression m outer next rest ∧
      (d = 0 → next.choices = inner.choices) ∧
      ∀ y, next.whole.Spells .heeded y ↔ inner.Reads (groups = true) (alternativesAt d s) y

namespace Assembles

variable {groups : Bool} {d : Nat} {s : Text}

theorem nil : Assembles groups d [] := by
  refine ⟨[], fun r _ => by simp, ?_⟩
  intro expression n outer inner rest
  refine ⟨n, inner, rfl, fun _ => rfl, ?_⟩
  intro y
  have h : alternativesAt d [] = [[]] := by simp [alternativesAt, choices, choicesAt]
  rw [h, Group.reads_nil]

/-- An atom before a part of a segment. -/
theorem atom {a : Atom} {c : Char}
    (hread : ∀ r : Text, r.head? ≠ some '*' →
      readTokens? groups d (c :: s ++ r) = (readTokens? groups d (s ++ r)).map (.atom a :: ·))
    (hlead : Leads (groups = true) [c] (a.Spells .heeded))
    (halt : alternativesAt d (c :: s) = onto [c] (alternativesAt d s))
    (h : Assembles groups d s) : Assembles groups d (c :: s) := by
  obtain ⟨ts, hts, hasm⟩ := h
  refine ⟨.atom a :: ts, ?_, ?_⟩
  · intro r hr
    rw [hread r hr, hts r hr, Option.map_map]
    rfl
  · intro expression n outer inner rest
    obtain ⟨m, next, heq, hnone, hspells⟩ := hasm expression (n + a.written.length) outer
      (inner.push (.atom a)) rest
    refine ⟨m, next, ?_, hnone, ?_⟩
    · rw [List.cons_append, assemble, heq]
    · intro y
      rw [hspells, halt, Group.reads_push inner hlead _ (alternativesAt_ne_nil d s)]

/-- A star before another one adds nothing. -/
theorem stars (h : Assembles groups d ('*' :: s)) : Assembles groups d ('*' :: '*' :: s) := by
  obtain ⟨ts, hts, hasm⟩ := h
  have hstar : ∀ t : Text, choices ('*' :: t) = onto ['*'] (choices t) :=
    choices_char ⟨by decide, by decide⟩ (by decide)
  refine ⟨ts, ?_, ?_⟩
  · intro r hr
    rw [← hts r hr]
    exact readTokens?_stars groups d (s ++ r)
  · intro expression n outer inner rest
    obtain ⟨m, next, heq, hnone, hspells⟩ := hasm expression n outer inner rest
    refine ⟨m, next, heq, hnone, ?_⟩
    intro y
    have one : alternativesAt d ('*' :: s) = onto ['*'] (alternativesAt d s) :=
      alternativesAt_append (t := ['*']) (hstar s)
    have two : alternativesAt d ('*' :: '*' :: s) = onto ['*'] (alternativesAt d ('*' :: s)) :=
      alternativesAt_append (t := ['*']) (hstar ('*' :: s))
    rw [hspells, two, one]
    cases halt : alternativesAt d s with
    | nil => exact absurd halt (alternativesAt_ne_nil d s)
    | cons a as =>
      simp only [onto, List.cons_append, List.nil_append, Group.Reads, names_stars]

theorem bar (hd : d ≠ 0) (h : Assembles true d s) : Assembles true d ('|' :: s) := by
  obtain ⟨ts, hts, hasm⟩ := h
  refine ⟨.bar :: ts, ?_, ?_⟩
  · intro r hr
    rw [List.cons_append, readTokens?_bar (by omega), hts r hr, Option.map_map]
    rfl
  · intro expression n outer inner rest
    obtain ⟨m, next, heq, hnone, hspells⟩ := hasm expression (n + 1) outer inner.split rest
    refine ⟨m, next, ?_, fun h => absurd h hd, ?_⟩
    · rw [List.cons_append, assemble, heq]
    · intro y
      have halt : alternativesAt d ('|' :: s) = [] :: alternativesAt d s := by
        simp [alternativesAt, hd, choices_bar]
      rw [hspells, halt, Group.reads_split inner _ (alternativesAt_ne_nil d s)]

/-- What is in the parentheses is read as a group of its own. -/
theorem group {b : Text} (hn : Nested True b) (hb : Assembles true (d + 1) b)
    (h : Assembles true d s) : Assembles true d ('(' :: b ++ ')' :: s) := by
  obtain ⟨tb, htb, hasmb⟩ := hb
  obtain ⟨ts, hts, hasm⟩ := h
  refine ⟨.opening :: tb ++ .closing :: ts, ?_, ?_⟩
  · intro r hr
    have hclose : ((d + 1 : Nat) : Int) - 1 = d := by omega
    have hopen : ((d + 1 : Nat) : Int) = d + 1 := by omega
    have hinside := htb (')' :: (s ++ r)) (by simp)
    rw [readTokens?_closing, hclose, hts r hr, hopen] at hinside
    simp only [List.cons_append, List.append_assoc]
    rw [readTokens?_opening, hinside]
    simp only [Option.map_map]
    rfl
  · intro expression n outer inner rest
    obtain ⟨mb, nextb, heqb, -, hspellsb⟩ := hasmb expression (n + 3) (inner :: outer) (.start n)
      (.closing :: (ts ++ rest))
    obtain ⟨m, next, heq, hnone, hspells⟩ := hasm expression (mb + 1) outer
      (inner.push nextb.whole) rest
    refine ⟨m, next, ?_, hnone, ?_⟩
    · simp only [List.cons_append, List.append_assoc]
      rw [assemble, heqb, assemble, heq]
    · intro y
      have halt : alternativesAt d (('(' :: b ++ [')']) ++ s) =
          onto ('(' :: b ++ [')']) (alternativesAt d s) := by
        apply alternativesAt_append
        simpa using choices_group hn s
      have hinside : nextb.whole.Spells .heeded =
          fun u => ∃ a ∈ choices b, Names (true = true) a u := by
        funext u
        have hchoices : alternativesAt (d + 1) b = choices b := by simp [alternativesAt]
        rw [hspellsb, hchoices]
        exact propext (Group.reads_start n _ (choicesAt_ne_nil 0 b) u)
      have hlead : Leads (true = true) ('(' :: b ++ [')']) (nextb.whole.Spells .heeded) := by
        rw [hinside]
        exact leads_group rfl hn
      rw [hspells, Group.reads_push inner hlead _ (alternativesAt_ne_nil d s), ← halt]
      simp

end Assembles

theorem spells_char_heeded (c : Char) :
    (Atom.char c).Spells .heeded = (· = [c]) := by
  funext t
  simp [Atom.Spells, Casing.kin]

/-- A part of a segment is read as what it fits, whatever groups are open around it. -/
theorem assembles_of_nested {groups : Bool} {s : Text} (hs : Nested (groups = true) s)
    (hslash : '/' ∉ s) (hbracket : '[' ∉ s) (d : Nat) (hd : groups = false → d = 0) :
    Assembles groups d s := by
  -- At any depth, since what is in the parentheses is one group deeper than what is around them.
  induction hs generalizing d with
  | nil => exact .nil
  | @char c s hc _ ih =>
    simp only [List.mem_cons, not_or] at hslash hbracket
    have hrest := ih hslash.2 hbracket.2 d hd
    have halt : c ≠ '|' → alternativesAt d (c :: s) = onto [c] (alternativesAt d s) := by
      intro hbar
      cases groups with
      | false => simp [alternativesAt, hd rfl, onto]
      | true => exact alternativesAt_append (t := [c]) (choices_char (hc rfl) hbar s)
    by_cases hstar : c = '*'
    · subst hstar
      -- Of several stars in a row, the last one is read.
      by_cases hnext : s.head? = some '*'
      · obtain ⟨s, rfl⟩ : ∃ s', s = '*' :: s' := by
          cases s with
          | nil => cases hnext
          | cons c s => exact ⟨s, by simpa using hnext⟩
        exact hrest.stars
      · refine .atom (a := .run) ?_ leads_run (halt (by decide)) hrest
        intro r hr
        refine readTokens?_star groups d ?_
        cases s with
        | nil => simpa using hr
        | cons c s => simpa using hnext
    by_cases hone : c = '?'
    · subst hone
      exact .atom (a := .one) (fun r _ => readTokens?_one groups d (s ++ r)) leads_one
        (halt (by decide)) hrest
    by_cases hbar : groups = true ∧ d ≠ 0 ∧ c = '|'
    · obtain ⟨rfl, hd0, rfl⟩ := hbar
      exact hrest.bar hd0
    · have hlead : Leads (groups = true) [c] ((Atom.char c).Spells .heeded) := by
        rw [spells_char_heeded]
        exact leads_char (Ne.symm hslash.1) hstar hone hc
      refine .atom ?_ hlead ?_ hrest
      · intro r _
        refine readTokens?_char hstar hone (Ne.symm hbracket.1) hc ?_ (s ++ r)
        intro hg hd0 he
        exact hbar ⟨hg, by omega, he⟩
      · by_cases he : c = '|'
        · have hd0 : d = 0 := by
            cases groups with
            | false => exact hd rfl
            | true => exact Decidable.byContradiction fun hd0 => hbar ⟨rfl, hd0, he⟩
          simp [alternativesAt, hd0, onto]
        · exact halt he
  | @group b s hg hb _ ihb ihs =>
    subst hg
    simp only [List.cons_append, List.mem_cons, List.mem_append, not_or] at hslash hbracket
    have hb' : Nested True b := by simpa using hb
    exact .group hb' (ihb hslash.2.1 hbracket.2.1 (d + 1) (fun h => by cases h))
      (ihs hslash.2.2.2 hbracket.2.2.2 d hd)

/-- Outside of all groups, the tokens `ts` read on what `P` says. -/
def Adds (ts : List Token) (P : Text → Prop) : Prop :=
  ∀ expression n inner rest, inner.choices = none → ∃ m next,
    assemble expression n [] inner (ts ++ rest) = assemble expression m [] next rest ∧
    next.choices = none ∧
    ∀ y, next.current.Spells .heeded y ↔
      ∃ u v, y = u ++ v ∧ inner.current.Spells .heeded u ∧ P v

namespace Adds

theorem nil : Adds [] (· = []) := by
  intro expression n inner rest hinner
  refine ⟨n, inner, rfl, hinner, ?_⟩
  intro y
  constructor
  · intro h
    exact ⟨y, [], by simp, h, rfl⟩
  · rintro ⟨u, _, rfl, hu, rfl⟩
    simpa using hu

theorem atom (a : Atom) : Adds [.atom a] (a.Spells .heeded) := by
  intro expression n inner rest hinner
  refine ⟨n + a.written.length, inner.push (.atom a), rfl, hinner, ?_⟩
  intro y
  rfl

theorem append {ts us : List Token} {P Q : Text → Prop} (ht : Adds ts P) (hu : Adds us Q) :
    Adds (ts ++ us) fun y => ∃ u v, y = u ++ v ∧ P u ∧ Q v := by
  intro expression n inner rest hinner
  obtain ⟨m, mid, heq, hmid, hspells⟩ := ht expression n inner (us ++ rest) hinner
  obtain ⟨l, next, heq', hnext, hspells'⟩ := hu expression m mid rest hmid
  refine ⟨l, next, ?_, hnext, ?_⟩
  · rw [List.append_assoc, heq, heq']
  · intro y
    simp only [hspells', hspells]
    exact exists_append_assoc

theorem congr {ts : List Token} {P Q : Text → Prop} (h : Adds ts P) (hPQ : ∀ y, P y ↔ Q y) :
    Adds ts Q := by
  obtain rfl : P = Q := funext fun y => propext (hPQ y)
  exact h

theorem pattern {ts : List Token} {P : Text → Prop} (h : Adds ts P) (expression : Text) :
    ∃ p, assemble expression 0 [] (.start 0) ts = .ok p ∧ ∀ y, p.Spells .heeded y ↔ P y := by
  obtain ⟨m, next, heq, hnext, hspells⟩ := h expression 0 (.start 0) [] rfl
  refine ⟨next.whole, ?_, ?_⟩
  · simpa [assemble] using heq
  · intro y
    rw [Group.spells_whole, hnext, hspells]
    simp only [reduceCtorEq, false_and, exists_false, false_or]
    constructor
    · rintro ⟨_, v, rfl, rfl, hv⟩
      exact hv
    · intro hy
      exact ⟨[], y, rfl, rfl, hy⟩

end Adds

/-- Parentheses that a segment does not have make no difference. -/
theorem fits_congr {P Q : Prop} {s : Text} (ho : '(' ∉ s) (hc : ')' ∉ s) {n : Text}
    (h : Fits P s n) : Fits Q s n := by
  induction h with
  | nil => exact .nil
  | run _ ih => exact .run (ih (by simp_all) (by simp_all))
  | one _ ih => exact .one (ih (by simp_all) (by simp_all))
  | group => simp at ho
  | char h₁ h₂ _ _ ih =>
    simp only [List.mem_cons, not_or] at ho hc
    exact .char h₁ h₂ (fun _ => ⟨Ne.symm ho.1, Ne.symm hc.1⟩) (ih ho.2 hc.2)

theorem not_mem_closing_of_nested {s : Text} (h : Nested True s) (ho : '(' ∉ s) : ')' ∉ s := by
  induction h with
  | nil => simp
  | char hc _ ih =>
    simp only [List.mem_cons, not_or] at ho ⊢
    exact ⟨Ne.symm (hc trivial).2, ih ho.2⟩
  | group => simp at ho

theorem fits_hasGroups_iff (s n : Text) :
    Fits (HasGroups s) s n ↔ Fits (Nested True s) s n := by
  have hiff : HasGroups s ↔ '(' ∈ s ∧ Nested True s := by
    rw [HasGroups, nested_iff]
  by_cases ho : '(' ∈ s
  · have : HasGroups s ↔ Nested True s := by simp [hiff, ho]
    rw [this]
  · by_cases hn : Nested True s
    · have hc := not_mem_closing_of_nested hn ho
      exact ⟨fits_congr ho hc, fits_congr ho hc⟩
    · have : HasGroups s ↔ Nested True s := by simp [hiff, ho, hn]
      rw [this]

/-- A segment without brackets is read as the names that it fits. -/
theorem adds_segmentTokens? {s : Text} (hslash : '/' ∉ s) (hbracket : '[' ∉ s) :
    ∃ ts, segmentTokens? s = some ts ∧ Adds ts fun n => '/' ∉ n ∧ FitsName s n := by
  unfold segmentTokens? FitsName
  by_cases hstars : s ≠ [] ∧ s.all (· = '*')
  · rw [if_pos hstars]
    refine ⟨_, rfl, (Adds.atom .name).congr fun n => ?_⟩
    rw [if_pos hstars]
    exact and_comm
  · rw [if_neg hstars]
    have hnested : Nested (decide (HasGroups s) = true) s := by
      by_cases hg : HasGroups s
      · have := (nested_iff s).mpr hg.2
        simpa [hg] using this
      · simpa [hg] using nested_false s
    obtain ⟨ts, hts, hasm⟩ := assembles_of_nested hnested hslash hbracket 0 fun _ => rfl
    have hread : readTokens? (decide (HasGroups s)) 0 s = some ts := by
      have := hts [] (by simp)
      simpa [readTokens?] using this
    refine ⟨ts, hread, ?_⟩
    intro expression n inner rest hinner
    obtain ⟨m, next, heq, hnone, hspells⟩ := hasm expression n [] inner rest
    have hnext : next.choices = none := (hnone rfl).trans hinner
    refine ⟨m, next, heq, hnext, ?_⟩
    intro y
    have hcurrent : next.whole.Spells .heeded y ↔ next.current.Spells .heeded y := by
      simp [Group.spells_whole, hnext]
    have halt : alternativesAt 0 s = [s] := by simp [alternativesAt]
    rw [← hcurrent, hspells, halt]
    simp only [Group.Reads, hinner, reduceCtorEq, false_and, exists_false, false_or,
      List.not_mem_nil, or_false, Names, decide_eq_true_eq, fits_hasGroups_iff, if_neg hstars]

end TreeCensus.Glob
