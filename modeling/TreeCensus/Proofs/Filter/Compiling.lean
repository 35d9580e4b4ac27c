import TreeCensus.Filter
import TreeCensus.Proofs.Glob.Plain

/-!
# What compiling a filter comes to

A matcher compiles if all alternatives of its glob do, and a filter if all its raw globs do
(`Filter.exists_compile_iff`); its conditions are those of the raw globs that say anything, in their order.
-/

namespace TreeCensus

set_option autoImplicit false

open Glob (Casing Matcher Pattern bare expand)
open TreeCensus.Path (parts)

section Lists

variable {α β ε : Type} {f : α → Except ε β} {l : List α}

theorem mapM_ok_iff {bs : List β} :
    l.mapM f = .ok bs ↔ List.Forall₂ (fun a b => f a = .ok b) l bs := by
  induction l generalizing bs with
  | nil => cases bs <;> simp [pure, Except.pure]
  | cons a l ih =>
    rw [List.mapM_cons]
    cases ha : f a with
    | error e => simp [bind, Except.bind, List.forall₂_cons_left_iff, ha]
    | ok b =>
      cases hl : l.mapM f with
      | error e =>
        have hnone : ∀ bs, ¬ List.Forall₂ (fun a b => f a = .ok b) l bs := fun bs h => by
          rw [← ih, hl] at h
          cases h
        simp [bind, Except.bind, List.forall₂_cons_left_iff, hnone]
      | ok bs' =>
        simp only [bind, Except.bind, pure, Except.pure, Except.ok.injEq, List.forall₂_cons_left_iff,
          ← ih, hl, ha]
        constructor
        · rintro rfl
          exact ⟨b, bs', rfl, rfl, rfl⟩
        · rintro ⟨c, cs, rfl, rfl, rfl⟩
          rfl

theorem exists_mapM_ok_iff : (∃ bs, l.mapM f = .ok bs) ↔ ∀ a ∈ l, ∃ b, f a = .ok b := by
  simp only [mapM_ok_iff]
  induction l with
  | nil => simp
  | cons a l ih =>
    rw [List.forall_mem_cons, ← ih]
    simp only [List.forall₂_cons_left_iff]
    constructor
    · rintro ⟨_, b, bs, hb, hbs, rfl⟩
      exact ⟨⟨b, hb⟩, bs, hbs⟩
    · rintro ⟨⟨b, hb⟩, bs, hbs⟩
      exact ⟨b :: bs, b, bs, hb, hbs, rfl⟩

theorem exists_forall₂ {R : α → β → Prop} (h : ∀ a ∈ l, ∃ b, R a b) : ∃ bs, List.Forall₂ R l bs := by
  induction l with
  | nil => exact ⟨[], .nil⟩
  | cons a l ih =>
    obtain ⟨b, hb⟩ := h a List.mem_cons_self
    obtain ⟨bs, hbs⟩ := ih fun a ha => h a (List.mem_cons_of_mem _ ha)
    exact ⟨b :: bs, .cons hb hbs⟩

theorem exists_ok_or_error (r : Except ε β) : (∃ b, r = .ok b) ∨ ∃ e, r = .error e := by
  cases r with
  | ok b => exact .inl ⟨b, rfl⟩
  | error e => exact .inr ⟨e, rfl⟩

end Lists

namespace Glob.Matcher

variable {k : Casing} {glob : Text}

theorem exists_compile_iff (k : Casing) (glob : Text) :
    (∃ m, compile k glob = .ok m) ↔ ∀ a ∈ expand glob, ∃ p, Pattern.ofGlob a = .ok p := by
  rw [← exists_mapM_ok_iff, compile]
  cases (expand glob).mapM Pattern.ofGlob <;> simp [Except.map]

theorem accepts_iff_of_compile {m : Matcher} (h : compile k glob = .ok m) (path : Text) :
    m.Accepts path ↔ path = bare glob ∨
      ∃ a ∈ expand glob, ∃ p, Pattern.ofGlob a = .ok p ∧ (p.under k).Accepts k path := by
  unfold compile at h
  cases hps : (expand glob).mapM Pattern.ofGlob with
  | error e => rw [hps] at h; cases h
  | ok ps =>
    rw [hps] at h
    obtain rfl : m = ⟨glob, k, ps.map (·.under k)⟩ := (Except.ok.inj h).symm
    have hpatterns := mapM_ok_iff.mp hps
    unfold Accepts spelling
    refine or_congr_right ?_
    simp only [List.mem_map, exists_exists_and_eq_and]
    clear hps h
    generalize expand glob = as at hpatterns
    induction hpatterns with
    | nil => simp
    | @cons a p as ps hp _ ih => simp [hp, ih]

end Glob.Matcher

namespace Filter

theorem mem_of_mem_strip {c : Char} {t : Text} (h : c ∈ Text.strip t) : c ∈ t := by
  have hend := (List.dropWhile_sublist _).subset (List.mem_reverse.mp h)
  exact (List.dropWhile_sublist _).subset (List.mem_reverse.mp hend)

theorem mem_of_mem_takeMark {mark c : Char} {t : Text} (h : c ∈ (takeMark mark t).2) : c ∈ t := by
  unfold takeMark at h
  split at h
  · split at h
    · exact List.mem_cons_of_mem _ (mem_of_mem_strip h)
    · exact h
  · exact h

theorem not_mem_replace {old new : Char} (h : old ≠ new) (t : Text) :
    old ∉ Text.replace old new t := by
  intro hmem
  obtain ⟨c, -, hc⟩ := List.mem_map.mp hmem
  split at hc
  · exact h hc.symm
  · next hne => exact hne hc

/-- Without its marks a glob has no backslash. -/
theorem not_mem_of_readMarks {raw : Text} {m : Marked} (h : readMarks raw = .ok m) : '\\' ∉ m.glob := by
  unfold readMarks at h
  dsimp only at h
  split at h
  · cases h
  · obtain rfl := Except.ok.inj h
    intro hmem
    exact not_mem_replace (by decide) raw
      (mem_of_mem_strip (mem_of_mem_takeMark (mem_of_mem_takeMark hmem)))

section Compiling

variable {base : Base} {k : Casing} {raw : Text} {globs : List Text}

/-- Slashes alone compile. -/
theorem exists_compile_slashes {t : Text} (h : t.all (· = '/') = true) :
    ∃ m, Matcher.compile k t = .ok m := by
  have hslash : ∀ c ∈ t, c = '/' := fun c hc => by simpa using List.all_eq_true.mp h c hc
  have hfree : ∀ {c : Char}, c ≠ '/' → c ∉ t := fun hne hc => hne (hslash _ hc)
  rw [Matcher.exists_compile_iff, Glob.expand_of_none (Glob.firstGroup?_eq_none (hfree (by decide)) [])]
  intro a ha
  obtain rfl := List.mem_singleton.mp ha
  have hloose : ∀ s ∈ parts a, Glob.segmentBonds? s = some [] := by
    intro s hs
    have hnil : s = [] := List.eq_nil_iff_forall_not_mem.mpr fun c hc =>
      Path.not_slash_of_mem_parts hs (hslash c (Glob.mem_of_mem_pieces hs hc) ▸ hc)
    rw [hnil, Glob.segmentBonds?_nil]
  have hbonds := Glob.pathBonds?_append_of_loose hloose []
  rw [List.append_nil] at hbonds
  rw [Glob.exists_ofGlob_iff, Glob.replace_of_not_mem (hfree (by decide))]
  exact ⟨[], hbonds, rfl⟩

/-- A raw glob is read if its marks are, and there is nothing behind them or what is there compiles. -/
theorem exists_readCondition?_iff : (∃ c, readCondition? base k raw = .ok c) ↔
    ∃ m, readMarks raw = .ok m ∧ (m.glob = [] ∨ ∃ c, Matcher.compile k (base.place m.glob) = .ok c) := by
  unfold readCondition?
  cases readMarks raw with
  | error e => simp
  | ok m =>
    simp only [Except.ok.injEq, exists_eq_left']
    split
    · next h =>
      refine iff_of_true ⟨none, rfl⟩ ?_
      rcases h with h | h
      · exact .inl h
      · exact .inr (exists_compile_slashes h)
    · next h =>
      have hne : m.glob ≠ [] := fun hnil => h (.inl hnil)
      cases Matcher.compile k (base.place m.glob) <;> simp [hne]

theorem readCondition?_eq_some {c : Condition} (h : readCondition? base k raw = .ok (some c)) :
    ∃ m, readMarks raw = .ok m ∧ Matcher.compile k (base.place m.glob) = .ok c.matcher ∧
      c.exclude = m.exclude ∧ c.negative = m.negative := by
  unfold readCondition? at h
  cases hm : readMarks raw with
  | error e => rw [hm] at h; cases h
  | ok m =>
    rw [hm] at h
    dsimp only at h
    split at h
    · cases h
    · cases hc : Matcher.compile k (base.place m.glob) with
      | error e => rw [hc] at h; cases h
      | ok matcher =>
        rw [hc] at h
        obtain rfl := Option.some.inj (Except.ok.inj h)
        exact ⟨m, rfl, hc, rfl, rfl⟩

theorem exists_compile_iff : (∃ f, compile base k globs = .ok f) ↔
    ∀ raw ∈ globs, ∃ c, readCondition? base k raw = .ok c := by
  rw [← exists_mapM_ok_iff, compile]
  cases globs.mapM (readCondition? base k) <;> simp [Except.map]

/-- The conditions of a filter are those of its raw globs, in their order. -/
theorem exists_of_compile {f : Filter} (h : compile base k globs = .ok f) :
    ∃ cs, List.Forall₂ (fun raw c => readCondition? base k raw = .ok c) globs cs ∧
      f.conditions = cs.filterMap id := by
  unfold compile at h
  cases hcs : globs.mapM (readCondition? base k) with
  | error e => rw [hcs] at h; cases h
  | ok cs =>
    rw [hcs] at h
    obtain rfl := Except.ok.inj h
    exact ⟨cs, mapM_ok_iff.mp hcs, rfl⟩

/-- Raw globs that all say something make a filter with a condition for each of them. -/
theorem compile_eq_of_forall₂ {cs : List Condition}
    (h : List.Forall₂ (fun raw c => readCondition? base k raw = .ok (some c)) globs cs) :
    compile base k globs = .ok ⟨cs⟩ := by
  have hread : globs.mapM (readCondition? base k) = .ok (cs.map some) :=
    mapM_ok_iff.mpr (List.forall₂_map_right_iff.mpr h)
  rw [compile, hread]
  simp [Except.map]

theorem exists_of_mem_conditions {f : Filter} (h : compile base k globs = .ok f) {c : Condition}
    (hc : c ∈ f.conditions) : ∃ raw ∈ globs, readCondition? base k raw = .ok (some c) := by
  obtain ⟨cs, hcs, hf⟩ := exists_of_compile h
  rw [hf, List.mem_filterMap] at hc
  obtain ⟨o, ho, rfl⟩ : ∃ o ∈ cs, o = some c := hc
  clear hf h
  induction hcs with
  | nil => cases ho
  | @cons raw o globs cs hraw _ ih =>
    rcases List.mem_cons.mp ho with rfl | ho
    · exact ⟨raw, List.mem_cons_self, hraw⟩
    · obtain ⟨raw', hmem, hraw'⟩ := ih ho
      exact ⟨raw', List.mem_cons_of_mem raw hmem, hraw'⟩

/-- What no condition matches is unmatched. -/
theorem verdict_eq_unmatched {f : Filter} {p : Path}
    (h : ∀ c ∈ f.conditions, ¬ c.matcher.Accepts (bare p)) : f.verdict p = .unmatched := by
  have hstart : f.conditions.foldl (Standing.read (bare p)) .start = .start := by
    generalize f.conditions = cs at h
    induction cs with
    | nil => rfl
    | cons c cs ih =>
      rw [List.foldl_cons, Standing.read, if_neg (h c List.mem_cons_self)]
      exact ih fun d hd => h d (List.mem_cons_of_mem c hd)
  rw [verdict, hstart]
  rfl

end Compiling

end Filter

end TreeCensus
