import Mathlib.Data.List.DropRight
import TreeCensus.Filter

/-!
# Precedence

A filter reads its conditions from the first to the last. What comes out depends on two of them: the last
condition that is no exclusion and matches, and the last exclusion after it that matches
(`Filter.verdict_of_last`). The conditions before the first of the two say nothing.
-/

namespace TreeCensus

set_option autoImplicit false

/-- A condition of the kind asked for that matches. -/
def Condition.Hits (exclude : Bool) (path : Path) (c : Condition) : Prop :=
  c.exclude = exclude ∧ c.matcher.Accepts path

instance (exclude : Bool) (path : Path) (c : Condition) : Decidable (c.Hits exclude path) :=
  inferInstanceAs (Decidable (_ ∧ _))

namespace Filter

variable (path : Path)

def lastHit? (exclude : Bool) (cs : List Condition) : Option Condition :=
  cs.reverse.find? (Condition.Hits exclude path)

/-- The conditions after the last one that matches and is no exclusion; all of them if there is none. -/
def afterLastPlain (cs : List Condition) : List Condition :=
  cs.rtakeWhile fun c => ¬ c.Hits false path

/-- What the last plain condition and the last exclusion after it say together. -/
def ruling (plain? exclusion? : Option Condition) : Verdict :=
  if exclusion?.any (!·.negative) then .excluded
  else match plain? with
    | some i => if i.negative then .excluded else .included
    | none => .unmatched

def lastRuling (cs : List Condition) : Verdict :=
  ruling (lastHit? path false cs) (lastHit? path true (afterLastPlain path cs))

section LastHits

variable {path} {b : Bool} {cs before after : List Condition} {c : Condition}

@[simp] theorem lastHit?_nil : lastHit? path b [] = none := rfl

@[simp] theorem afterLastPlain_nil : afterLastPlain path [] = [] := rfl

theorem lastHit?_concat :
    lastHit? path b (cs ++ [c]) = if c.Hits b path then some c else lastHit? path b cs := by
  by_cases hc : c.Hits b path <;> simp [lastHit?, hc]

theorem afterLastPlain_concat :
    afterLastPlain path (cs ++ [c]) = if c.Hits false path then [] else afterLastPlain path cs ++ [c] := by
  by_cases hc : c.Hits false path <;> simp [afterLastPlain, hc]

theorem lastHit?_of_split (hc : c.Hits b path) (hafter : ∀ d ∈ after, ¬ d.Hits b path) :
    lastHit? path b (before ++ c :: after) = some c := by
  induction after using List.reverseRecOn with
  | nil => rw [lastHit?_concat, if_pos hc]
  | append_singleton ds d ih =>
    rw [List.forall_mem_append, List.forall_mem_singleton] at hafter
    rw [← List.cons_append, ← List.append_assoc, lastHit?_concat, if_neg hafter.2, ih hafter.1]

theorem afterLastPlain_of_split (hc : c.Hits false path) (hafter : ∀ d ∈ after, ¬ d.Hits false path) :
    afterLastPlain path (before ++ c :: after) = after := by
  induction after using List.reverseRecOn with
  | nil => rw [afterLastPlain_concat, if_pos hc]
  | append_singleton ds d ih =>
    rw [List.forall_mem_append, List.forall_mem_singleton] at hafter
    rw [← List.cons_append, ← List.append_assoc, afterLastPlain_concat, if_neg hafter.2, ih hafter.1]

theorem afterLastPlain_of_none (h : ∀ d ∈ cs, ¬ d.Hits false path) : afterLastPlain path cs = cs := by
  rw [afterLastPlain, List.rtakeWhile_eq_self_iff]
  simpa using h

end LastHits

namespace Standing

variable {path} {s : Standing} {c : Condition}

theorem read_of_plain (h : c.Hits false path) :
    s.read path c = ⟨if c.negative then .excluded else .included, false⟩ := by
  rw [read, if_pos h.2, apply, if_neg (by simp [h.1])]

theorem read_of_exclusion (h : c.Hits true path) :
    s.read path c = { s with excluded := !c.negative } := by
  rw [read, if_pos h.2, apply, if_pos h.1]

theorem read_of_miss (hplain : ¬ c.Hits false path) (hexclusion : ¬ c.Hits true path) :
    s.read path c = s := by
  refine if_neg fun h => ?_
  cases hc : c.exclude with
  | false => exact hplain ⟨hc, h⟩
  | true => exact hexclusion ⟨hc, h⟩

/-- The two flags after a run over the conditions: the verdict is the last plain condition's, and the
exclusion is lifted or stands by the last exclusion after it. -/
structure Reflects (path : Path) (cs : List Condition) (s : Standing) : Prop where
  verdict : s.verdict = ruling (lastHit? path false cs) none
  excluded : s.excluded = (lastHit? path true (afterLastPlain path cs)).any (!·.negative)

theorem Reflects.read {cs : List Condition} (h : s.Reflects path cs) :
    (s.read path c).Reflects path (cs ++ [c]) := by
  by_cases hplain : c.Hits false path
  · rw [read_of_plain hplain]
    constructor
    · rw [lastHit?_concat, if_pos hplain]
      rfl
    · rw [afterLastPlain_concat, if_pos hplain]
      rfl
  · by_cases hexclusion : c.Hits true path
    · rw [read_of_exclusion hexclusion]
      constructor
      · rw [lastHit?_concat, if_neg hplain]
        exact h.verdict
      · rw [afterLastPlain_concat, if_neg hplain, lastHit?_concat, if_pos hexclusion]
        rfl
    · rw [read_of_miss hplain hexclusion]
      constructor
      · rw [lastHit?_concat, if_neg hplain]
        exact h.verdict
      · rw [afterLastPlain_concat, if_neg hplain, lastHit?_concat, if_neg hexclusion]
        exact h.excluded

theorem reflects_foldl (cs : List Condition) : (cs.foldl (read path) start).Reflects path cs := by
  induction cs using List.reverseRecOn with
  | nil => exact ⟨rfl, rfl⟩
  | append_singleton cs c ih =>
    rw [List.foldl_concat]
    exact ih.read

theorem Reflects.final_eq {cs : List Condition} (h : s.Reflects path cs) :
    s.final = lastRuling path cs := by
  rw [final, h.verdict, h.excluded]
  rfl

end Standing

theorem verdict_eq_lastRuling (f : Filter) : f.verdict path = lastRuling (Glob.bare path) f.conditions :=
  (Standing.reflects_foldl _).final_eq

/-- A plain condition that matches forgets all that was read before it. -/
theorem verdict_append_cons {before after : List Condition} {i : Condition}
    (hi : i.Hits false (Glob.bare path)) :
    verdict ⟨before ++ i :: after⟩ path = verdict ⟨i :: after⟩ path := by
  rw [verdict, verdict, List.foldl_append, List.foldl_cons, List.foldl_cons,
    Standing.read_of_plain hi, Standing.read_of_plain hi]

/-- The verdict is that of the last plain condition `i` that matches and of the last exclusion after it that
matches, or of the last exclusion anywhere if there is no `i`; what comes before `i` can be left out, or
anything else be put there. -/
theorem verdict_of_last (f : Filter) (path : Path) :
    let p := Glob.bare path
    f.verdict path = ruling (lastHit? p false f.conditions)
      (lastHit? p true (afterLastPlain p f.conditions)) ∧
    ((∀ c ∈ f.conditions, ¬ c.Hits false p) →
      f.verdict path = ruling none (lastHit? p true f.conditions)) ∧
    ∀ before i after, f.conditions = before ++ i :: after → i.Hits false p →
      (∀ c ∈ after, ¬ c.Hits false p) →
      f.verdict path = ruling (some i) (lastHit? p true after) ∧
        ∀ others, verdict ⟨others ++ i :: after⟩ path = f.verdict path := by
  intro p
  have heq := f.verdict_eq_lastRuling path
  refine ⟨heq, ?_, ?_⟩
  · intro hnone
    have hlast : lastHit? p false f.conditions = none := by
      rw [lastHit?, List.find?_eq_none]
      simpa using hnone
    rw [heq, lastRuling, hlast, afterLastPlain_of_none hnone]
  · intro before i after hsplit hi hafter
    refine ⟨?_, ?_⟩
    · rw [heq, hsplit, lastRuling, lastHit?_of_split hi hafter, afterLastPlain_of_split hi hafter]
    · intro others
      obtain ⟨cs⟩ := f
      obtain rfl : cs = before ++ i :: after := hsplit
      rw [verdict_append_cons path hi, verdict_append_cons path hi]

/-- Of two paths, one meets a plain condition with an exclusion lifted after it, and the other an exclusion
only. -/
theorem verdict_of_last_under_docs :
    let globs := ["^docs/**", "docs/**", "^!docs/*.md", "^**/*.py"].map String.toList
    let p := "docs/a.md".toList
    let q := "src/a.py".toList
    ∃ f i, compile ⟨"/w".toList, none⟩ .heeded globs = .ok f ∧
      f.conditions = f.conditions.take 1 ++ i :: f.conditions.drop 2 ∧
      (i.Hits false (Glob.bare p) ∧ ∀ c ∈ f.conditions.drop 2, ¬ c.Hits false (Glob.bare p)) ∧
      (∀ c ∈ f.conditions, ¬ c.Hits false (Glob.bare q)) ∧
      f.verdict p = ruling (some i) (lastHit? (Glob.bare p) true (f.conditions.drop 2)) ∧
      (∀ others, verdict ⟨others ++ i :: f.conditions.drop 2⟩ p = f.verdict p) ∧
      f.verdict q = ruling none (lastHit? (Glob.bare q) true f.conditions) := by
  intro globs p q
  have hsome : ∃ f ∈ (compile ⟨"/w".toList, none⟩ .heeded globs).toOption, ∃ i ∈ f.conditions[1]?,
      f.conditions = f.conditions.take 1 ++ i :: f.conditions.drop 2 ∧
      (i.Hits false (Glob.bare p) ∧ ∀ c ∈ f.conditions.drop 2, ¬ c.Hits false (Glob.bare p)) ∧
      ∀ c ∈ f.conditions, ¬ c.Hits false (Glob.bare q) := by
    decide +kernel
  obtain ⟨f, hf, i, -, hsplit, ⟨hi, hafter⟩, hnone⟩ := hsome
  obtain ⟨hp, hothers⟩ := (verdict_of_last f p).2.2 _ i _ hsplit hi hafter
  have hcompile : compile ⟨"/w".toList, none⟩ .heeded globs = .ok f := by
    cases h : compile ⟨"/w".toList, none⟩ .heeded globs with
    | ok g => rw [h] at hf; exact congrArg _ (Option.some.inj hf)
    | error e => rw [h] at hf; cases hf
  exact ⟨f, i, hcompile, hsplit, ⟨hi, hafter⟩, hnone, hp, hothers, (verdict_of_last f q).2.1 hnone⟩

end Filter

end TreeCensus
