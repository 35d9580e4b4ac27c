import Mathlib.Data.Char
import TreeCensus.Proofs.Filter.Compiling

/-!
# What a bracket expression lists

The body of a bracket expression is a list of spans, read from left to right: a hyphen between two
characters makes a span of them, and every other character is a span on its own. A body is refused just if
one of its spans ends before it begins (`exists_readMembers_iff`), and otherwise it lists what lies in one of
its spans (`lists_iff_covers`).

A negated expression is read with a slash before its body. This adds one span to the body, the slash itself,
unless the body begins with a hyphen and goes on: then the hyphen is no member but makes a span that begins
with the slash. So `[^S]` accepts what `[S]` does not accept in all cases but this one
(`accepts_negated_iff`).
-/

namespace TreeCensus.Glob

set_option autoImplicit false

/-- The spans of a body, each with its first and its last character. -/
def spans : Text → List (Char × Char)
  | a :: '-' :: b :: r => (a, b) :: spans r
  | a :: r => (a, a) :: spans r
  | [] => []

/-- A span of the body ends before it begins. -/
def Reversed (body : Text) : Prop := ∃ s ∈ spans body, s.2 < s.1

instance (body : Text) : Decidable (Reversed body) :=
  inferInstanceAs (Decidable (∃ s ∈ spans body, s.2 < s.1))

/-- The character lies in a span of the body. -/
def Covers (body : Text) (c : Char) : Prop := ∃ s ∈ spans body, s.1 ≤ c ∧ c ≤ s.2

instance (body : Text) (c : Char) : Decidable (Covers body c) :=
  inferInstanceAs (Decidable (∃ s ∈ spans body, s.1 ≤ c ∧ c ≤ s.2))

/-- A hyphen in front that is not the whole body. -/
def LeadingHyphen : Text → Prop
  | '-' :: _ :: _ => True
  | _ => False

instance (body : Text) : Decidable (LeadingHyphen body) := by
  unfold LeadingHyphen
  split <;> infer_instance

theorem exists_of_leadingHyphen {body : Text} (h : LeadingHyphen body) : ∃ b r, body = '-' :: b :: r := by
  unfold LeadingHyphen at h
  split at h
  · exact ⟨_, _, rfl⟩
  · exact h.elim

/-- A slash in front is a span on its own. -/
theorem spans_slash {body : Text} (h : ¬ LeadingHyphen body) :
    spans ('/' :: body) = ('/', '/') :: spans body := by
  rw [spans]
  rintro b r rfl
  exact h trivial

section Reading

variable {passed t : Text}

theorem exists_readMembers_iff : (∃ ms, readMembers passed t = .ok ms) ↔ ¬ Reversed t := by
  have hmap : ∀ {r : Except ReversedRange (List Member)} (m : Member),
      (∃ ms, r.map (m :: ·) = .ok ms) ↔ ∃ ms, r = .ok ms := by
    rintro (e | ms) m <;> simp [Except.map]
  unfold Reversed
  fun_induction readMembers passed t with
  | case1 => simp [spans]
  | case2 passed a b r hlt => simp [spans, hlt]
  | case3 passed a b r hle ih => simp only [spans, hmap, ih, List.exists_mem_cons_iff, hle, false_or]
  | case4 passed a r hspan ih =>
    rw [spans.eq_2 a r hspan]
    simp only [hmap, ih, List.exists_mem_cons_iff, lt_irrefl, false_or]

theorem holds_range_iff (a b c : Char) : (Member.range a b).Holds .heeded c ↔ a ≤ c ∧ c ≤ b := by
  simp [Member.Holds]

theorem holds_single_iff (a c : Char) : (Member.single a).Holds .heeded c ↔ a ≤ c ∧ c ≤ a := by
  simp only [Member.Holds, Casing.members_heeded, List.mem_singleton]
  exact le_antisymm_iff

/-- Where case is heeded, a body lists what lies in its spans. -/
theorem lists_iff_covers {ms : List Member} (h : readMembers passed t = .ok ms) (c : Char) :
    (∃ m ∈ ms, m.Holds .heeded c) ↔ Covers t c := by
  unfold Covers
  fun_induction readMembers passed t generalizing ms with
  | case1 =>
    obtain rfl := Except.ok.inj h
    simp [spans]
  | case2 => cases h
  | case3 passed a b r hle ih =>
    cases hr : readMembers (b :: '-' :: a :: passed) r with
    | error e => rw [hr] at h; cases h
    | ok ms' =>
      rw [hr] at h
      obtain rfl := Except.ok.inj h
      simp only [spans, List.exists_mem_cons_iff, holds_range_iff, ih hr]
  | case4 passed a r hspan ih =>
    cases hr : readMembers (a :: passed) r with
    | error e => rw [hr] at h; cases h
    | ok ms' =>
      rw [hr] at h
      obtain rfl := Except.ok.inj h
      rw [spans.eq_2 a r hspan]
      simp only [List.exists_mem_cons_iff, holds_single_iff, ih hr]

end Reading

/-- What an expression of a glob accepts: what its body covers or, if it is negated, what is not covered with a
slash before the body. -/
def Admits (negated : Bool) (body : Text) (c : Char) : Prop :=
  if negated then ¬ Covers ('/' :: body) c else Covers body c

instance (negated : Bool) (body : Text) (c : Char) : Decidable (Admits negated body c) := by
  unfold Admits
  infer_instance

theorem accepts_bracket_iff {negated : Bool} {body : Text} {ms : List Member}
    (h : readMembers [] (allMembers negated body) = .ok ms) (c : Char) :
    (Bracket.mk negated ms).Accepts .heeded c ↔ Admits negated body c := by
  have hlists := lists_iff_covers h c
  cases negated with
  | false => exact hlists
  | true => exact not_congr hlists

/-- A bracket expression as it stands in a glob. -/
@[ext] structure WrittenBracket where
  negated : Bool
  body : Text
  body_ne_nil : body ≠ []
  /-- A closing bracket ends the body unless it comes first. -/
  closing_not_mem : ']' ∉ body.tail
  head_ne_caret : negated = false → body.head? ≠ some '^'

namespace WrittenBracket

/-- The text behind the opening bracket. -/
def inside (b : WrittenBracket) : Text := (if b.negated then ['^'] else []) ++ b.body ++ [']']

def text (b : WrittenBracket) : Text := '[' :: b.inside

end WrittenBracket

theorem toClosing?_eq_some_iff {t u v : Text} :
    toClosing? t = some (u, v) ↔ ']' ∉ u ∧ t = u ++ ']' :: v := by
  induction t generalizing u v with
  | nil => simp [toClosing?]
  | cons c r ih =>
    rw [toClosing?]
    cases u with
    | nil => by_cases hc : c = ']' <;> simp [hc]
    | cons d u =>
      by_cases hc : c = ']'
      · subst hc
        simp only [if_true, Option.some.injEq, Prod.mk.injEq, List.nil_eq, reduceCtorEq, false_and, false_iff]
        rintro ⟨hd, heq⟩
        exact hd ((List.cons.inj heq).1 ▸ List.mem_cons_self)
      · simp only [if_neg hc, Option.map_eq_some_iff, Prod.exists, Prod.mk.injEq, List.cons.injEq, ih,
          List.mem_cons, not_or, List.cons_append]
        constructor
        · rintro ⟨_, _, ⟨hu, rfl⟩, ⟨rfl, rfl⟩, rfl⟩
          exact ⟨⟨Ne.symm hc, hu⟩, rfl, rfl⟩
        · rintro ⟨⟨-, hu⟩, rfl, rfl⟩
          exact ⟨u, v, ⟨hu, rfl⟩, ⟨rfl, rfl⟩, rfl⟩

theorem membersText?_eq_some_iff {t u v : Text} :
    membersText? t = some (u, v) ↔ u ≠ [] ∧ ']' ∉ u.tail ∧ t = u ++ ']' :: v := by
  cases t with
  | nil => simp [membersText?]
  | cons c r =>
    rw [membersText?]
    by_cases hc : c = ']'
    · subst hc
      simp only [if_true, Option.map_eq_some_iff, Prod.exists, Prod.mk.injEq, toClosing?_eq_some_iff]
      constructor
      · rintro ⟨u, _, ⟨hu, rfl⟩, rfl, rfl⟩
        exact ⟨by simp, hu, rfl⟩
      · rintro ⟨hne, hu, heq⟩
        obtain ⟨d, u, rfl⟩ := List.exists_cons_of_ne_nil hne
        obtain ⟨rfl, rfl⟩ := List.cons.inj heq
        exact ⟨u, v, ⟨hu, rfl⟩, rfl, rfl⟩
    · rw [if_neg hc, toClosing?_eq_some_iff]
      cases u with
      | nil => simp [hc]
      | cons d u =>
        simp only [List.mem_cons, not_or, List.tail_cons, List.cons_append, List.cons.injEq]
        constructor
        · rintro ⟨⟨-, hu⟩, heq⟩
          exact ⟨by simp, hu, heq⟩
        · rintro ⟨-, hu, rfl, rfl⟩
          exact ⟨⟨Ne.symm hc, hu⟩, rfl, rfl⟩

theorem exists_of_bracketText? {r : Text} {x : BracketText} (h : bracketText? r = some x) :
    ∃ b : WrittenBracket, b.negated = x.negated ∧ b.body = x.members ∧ r = b.inside ++ x.after := by
  cases r with
  | nil => cases h
  | cons c r =>
    rw [bracketText?] at h
    by_cases hc : c = '^'
    · rw [if_pos hc] at h
      obtain ⟨⟨u, v⟩, hm, rfl⟩ := Option.map_eq_some_iff.mp h
      obtain ⟨hne, hclosing, rfl⟩ := membersText?_eq_some_iff.mp hm
      exact ⟨⟨true, u, hne, hclosing, by simp⟩, rfl, rfl, by simp [WrittenBracket.inside, hc]⟩
    · rw [if_neg hc] at h
      obtain ⟨⟨u, v⟩, hm, rfl⟩ := Option.map_eq_some_iff.mp h
      obtain ⟨hne, hclosing, heq⟩ := membersText?_eq_some_iff.mp hm
      have hcaret : u.head? ≠ some '^' := by
        obtain ⟨d, u, rfl⟩ := List.exists_cons_of_ne_nil hne
        simpa [← (List.cons.inj heq).1] using hc
      exact ⟨⟨false, u, hne, hclosing, fun _ => hcaret⟩, rfl, rfl, by simp [WrittenBracket.inside, heq]⟩

theorem WrittenBracket.bracketText?_inside (b : WrittenBracket) (t : Text) :
    bracketText? (b.inside ++ t) = some ⟨b.negated, b.body, t⟩ := by
  obtain ⟨negated, body, hne, hclosing, hcaret⟩ := b
  have hmembers : membersText? (body ++ ']' :: t) = some (body, t) :=
    membersText?_eq_some_iff.mpr ⟨hne, hclosing, rfl⟩
  cases negated with
  | true => simp [inside, bracketText?, hmembers]
  | false =>
    obtain ⟨c, u, rfl⟩ := List.exists_cons_of_ne_nil hne
    have hc : c ≠ '^' := by simpa using hcaret rfl
    rw [List.cons_append] at hmembers
    simp [inside, bracketText?, hc, hmembers]

theorem readTokens?_bracket {groups : Bool} (d : Int) (b : WrittenBracket) (t : Text) :
    readTokens? groups d (b.text ++ t) = (readTokens? groups d t).map (.bracket b.negated b.body :: ·) := by
  rw [WrittenBracket.text, List.cons_append, readTokens?]
  simp only [if_neg (show '[' ≠ '*' by decide), if_neg (show '[' ≠ '?' by decide), if_true]
  split
  · next hnone => rw [b.bracketText?_inside] at hnone; cases hnone
  · next x hx =>
    obtain rfl := Option.some.inj ((b.bracketText?_inside t).symm.trans hx)
    rfl

theorem matcher_eq_ok_iff {k : Casing} {g : Text} {m : Matcher} :
    matcher k g = .ok m ↔ Matcher.compile k g = .ok m := by
  unfold matcher
  cases Matcher.compile k g <;> simp

/-- Without alternatives a matcher has one pattern. -/
theorem matcher_eq_ok_iff_of_expand {k : Casing} {g : Text} (hexpand : expand g = [g]) {m : Matcher} :
    matcher k g = .ok m ↔ ∃ p, Pattern.ofGlob g = .ok p ∧ m = ⟨g, k, [p.under k]⟩ := by
  rw [matcher_eq_ok_iff, Matcher.compile, hexpand, List.mapM_cons, List.mapM_nil]
  cases Pattern.ofGlob g with
  | error f => simp [bind, Except.bind, Except.map]
  | ok p => simp [bind, Except.bind, pure, Except.pure, Except.map, eq_comm]

section Alone

variable (b : WrittenBracket)

theorem WrittenBracket.not_mem_text {c : Char} (hc : c ∉ ['[', '^', ']']) (hbody : c ∉ b.body) :
    c ∉ b.text := by
  unfold text inside
  cases b.negated <;> simp_all

theorem WrittenBracket.expand_text (hopen : '\x7b' ∉ b.body) : expand b.text = [b.text] :=
  expand_of_none (firstGroup?_eq_none (b.not_mem_text (by decide) hopen) [])

variable (hslash : '/' ∉ b.body) (hback : '\\' ∉ b.body)

include hback

theorem WrittenBracket.bare_text : bare b.text = b.text := by
  rw [bare, replace_of_not_mem (b.not_mem_text (by decide) hback)]
  rfl

include hslash

theorem WrittenBracket.segments_text : segments b.text = [b.text] := by
  rw [segments, b.bare_text hback, pieces_of_not_mem (b.not_mem_text (by decide) hslash)]
  rfl

/-- A bracket expression on its own is read as one token. -/
theorem WrittenBracket.tokens?_text : tokens? b.text = some [.bracket b.negated b.body] := by
  have hglobstar : b.text ≠ globstar := fun h => absurd (List.cons.inj h).1 (by decide)
  have hread : readTokens? (HasGroups b.text) 0 b.text = some [.bracket b.negated b.body] := by
    rw [← List.append_nil b.text, readTokens?_bracket, readTokens?]
    rfl
  have hsegment : segmentTokens? b.text = some [.bracket b.negated b.body] := by
    rw [segmentTokens?, if_neg (by simp [text]), hread]
  rw [tokens?, b.segments_text hslash hback, if_neg (by simpa using hglobstar)]
  simp [pathTokens?, hglobstar, hsegment]

/-- A bracket expression on its own becomes a pattern just if its body can be read. -/
theorem WrittenBracket.ofGlob_text_eq_ok_iff {p : Pattern} : Pattern.ofGlob b.text = .ok p ↔
    ∃ ms, readMembers [] (allMembers b.negated b.body) = .ok ms ∧
      p = .seq .empty (.bracket ⟨b.negated, ms⟩) := by
  rw [Pattern.ofGlob, b.tokens?_text hslash hback]
  simp only [assemble]
  cases readMembers [] (allMembers b.negated b.body) with
  | error e => simp
  | ok ms =>
    simp only [Except.ok.injEq, exists_eq_left']
    exact eq_comm

variable (hopen : '\x7b' ∉ b.body)

include hopen

/-- A bracket expression on its own compiles unless one of its spans ends before it begins. -/
theorem WrittenBracket.exists_matcher (k : Casing) (hread : ¬ Reversed (allMembers b.negated b.body)) :
    ∃ m, matcher k b.text = .ok m := by
  obtain ⟨ms, hms⟩ := exists_readMembers_iff.mpr hread
  have hpattern := (b.ofGlob_text_eq_ok_iff hslash hback).mpr ⟨ms, hms, rfl⟩
  exact ⟨_, (matcher_eq_ok_iff_of_expand (b.expand_text hopen)).mpr ⟨_, hpattern, rfl⟩⟩

/-- A bracket expression on its own accepts the characters that it admits. -/
theorem WrittenBracket.accepts_iff {m : Matcher} (hm : matcher .heeded b.text = .ok m) (c : Char) :
    m.Accepts [c] ↔ Admits b.negated b.body c := by
  obtain ⟨p, hp, rfl⟩ := (matcher_eq_ok_iff_of_expand (b.expand_text hopen)).mp hm
  obtain ⟨ms, hms, rfl⟩ := (b.ofGlob_text_eq_ok_iff hslash hback).mp hp
  have hlong : [c] ≠ bare b.text := by
    rw [b.bare_text hback]
    intro h
    have hlength := congrArg List.length h
    have hpos := List.length_pos_iff.mpr b.body_ne_nil
    simp only [text, inside, List.length_cons, List.length_append, List.length_nil] at hlength
    omega
  rw [← accepts_bracket_iff hms]
  simp [Matcher.Accepts, Matcher.spelling, hlong, Pattern.under, Pattern.Accepts, Pattern.reads, readNext]

end Alone

/-- A negated expression accepts what the same expression without negation does not accept, apart from the
slash. If its body begins with a hyphen and goes on, it refuses what comes after the slash up to the second
character of the body, and what the rest of the body covers. -/
theorem accepts_negated_iff {body : Text} (hne : body ≠ [])
    (hchars : ∀ c ∈ body, c ∉ [']', '/', '\\', '\x7b', '\x7d', ',']) (hcaret : body.head? ≠ some '^')
    {m m' : Matcher} (hm : matcher .heeded ('[' :: body ++ [']']) = .ok m)
    (hm' : matcher .heeded ('[' :: '^' :: body ++ [']']) = .ok m') {c : Char} (hc : c ≠ '/') :
    (m.Accepts [c] ↔ Covers body c) ∧
      (¬ LeadingHyphen body → (m'.Accepts [c] ↔ ¬ m.Accepts [c])) ∧
      ∀ b r, body = '-' :: b :: r → (m'.Accepts [c] ↔ ¬ (('/' ≤ c ∧ c ≤ b) ∨ Covers r c)) := by
  have hfree : ∀ {d : Char}, d ∈ [']', '/', '\\', '\x7b', '\x7d', ','] → d ∉ body := fun hd hmem =>
    hchars _ hmem hd
  have hclosing : ']' ∉ body.tail := fun hmem => hfree (by decide) (List.mem_of_mem_tail hmem)
  have hplain : m.Accepts [c] ↔ Covers body c :=
    WrittenBracket.accepts_iff ⟨false, body, hne, hclosing, fun _ => hcaret⟩ (hfree (by decide))
      (hfree (by decide)) (hfree (by decide)) hm c
  have hnegated : m'.Accepts [c] ↔ ¬ Covers ('/' :: body) c :=
    WrittenBracket.accepts_iff ⟨true, body, hne, hclosing, by simp⟩ (hfree (by decide))
      (hfree (by decide)) (hfree (by decide)) hm' c
  refine ⟨hplain, ?_, ?_⟩
  · intro hlead
    have hslash : ¬ ('/' ≤ c ∧ c ≤ '/') := fun h => hc (le_antisymm h.2 h.1)
    rw [hnegated, hplain, Covers, spans_slash hlead, List.exists_mem_cons_iff]
    simp only [hslash, false_or]
    rfl
  · rintro b r rfl
    rw [hnegated, Covers, spans, List.exists_mem_cons_iff]
    rfl

/-- The span from the slash to a small letter takes in the capital letters: neither of the two expressions
accepts one. -/
theorem accepts_negated_of_leading_hyphen :
    ['-', 'a'] ≠ [] ∧ (∀ c ∈ ['-', 'a'], c ∉ [']', '/', '\\', '\x7b', '\x7d', ',']) ∧
      ['-', 'a'].head? ≠ some '^' ∧ 'A' ≠ '/' ∧
      ∃ m m', matcher .heeded ['[', '-', 'a', ']'] = .ok m ∧
        matcher .heeded ['[', '^', '-', 'a', ']'] = .ok m' ∧ ¬ m.Accepts ['A'] ∧ ¬ m'.Accepts ['A'] := by
  have hne : ['-', 'a'] ≠ [] := by decide
  have hchars : ∀ c ∈ ['-', 'a'], c ∉ [']', '/', '\\', '\x7b', '\x7d', ','] := by simp
  have hcaret : ['-', 'a'].head? ≠ some '^' := by decide
  have hslash : 'A' ≠ '/' := by decide
  obtain ⟨m, hm⟩ := WrittenBracket.exists_matcher ⟨false, ['-', 'a'], by decide, by decide, by decide⟩
    (by decide) (by decide) (by decide) .heeded (by decide)
  obtain ⟨m', hm'⟩ := WrittenBracket.exists_matcher ⟨true, ['-', 'a'], by decide, by decide, by decide⟩
    (by decide) (by decide) (by decide) .heeded (by decide)
  obtain ⟨hplain, -, hhyphen⟩ := accepts_negated_iff hne hchars hcaret hm hm' hslash
  refine ⟨hne, hchars, hcaret, hslash, m, m', hm, hm', ?_, ?_⟩
  · rw [hplain]
    decide
  · rw [hhyphen 'a' [] rfl]
    decide

end TreeCensus.Glob
