import TreeCensus.Proofs.Filter.Loading

/-!
# Paths that are spelled like a glob

What leads a glob is dropped where the glob is read and again where it is compiled, and what leads a path is
dropped once. So a glob without marks includes the path that is spelled like it, if the second time nothing is
left to be dropped (`includes_own_spelling`). A glob that stands for the directory itself says nothing.
-/

namespace TreeCensus

set_option autoImplicit false

open Glob (Casing Matcher bare)
open TreeCensus.Path (isSlash slashed)

namespace Text

theorem isBlank_slashed (c : Char) : isBlank (if c = '\\' then '/' else c) = isBlank c := by
  split
  · next h => subst h; decide
  · rfl

theorem dropWhile_slashed (t : Text) : (slashed t).dropWhile isBlank = slashed (t.dropWhile isBlank) := by
  have hsame : (isBlank ∘ fun c => if c = '\\' then '/' else c) = isBlank := funext isBlank_slashed
  rw [slashed, replace, List.dropWhile_map, hsame]
  rfl

/-- No slash is a blank, so it does not matter which of them is written. -/
theorem strip_slashed (t : Text) : strip (slashed t) = slashed (strip t) := by
  have hreverse : ∀ u : Text, (slashed u).reverse = slashed u.reverse := fun u => List.map_reverse.symm
  rw [strip, strip, dropEndWhile, dropEndWhile, dropWhile_slashed, hreverse, dropWhile_slashed, hreverse]

end Text

namespace Filter

/-- A text that is a glob without marks, and names something. -/
structure IsUnmarkedGlob (glob : Text) : Prop where
  trimmed : Text.strip glob = glob
  unmarked : ∀ c ∈ glob.head?, c ≠ '!' ∧ c ≠ '^'
  names : ∃ c ∈ glob, isSlash c = false

instance (glob : Text) : Decidable (IsUnmarkedGlob glob) :=
  have hnames : glob.all isSlash = false ↔ ∃ c ∈ glob, isSlash c = false := by simp
  decidable_of_iff (Text.strip glob = glob ∧ glob.head?.all (fun c => c ≠ '!' ∧ c ≠ '^') = true ∧
      glob.all isSlash = false)
    ⟨fun h => ⟨h.1, option_all_iff.mp h.2.1, hnames.mp h.2.2⟩,
      fun h => ⟨h.trimmed, option_all_iff.mpr h.unmarked, hnames.mpr h.names⟩⟩

/-- What a glob says of the directory that it names at its front. -/
def insideHere? (glob : Text) : Option Text :=
  match slashed glob with
  | '.' :: '/' :: r => some r
  | _ => none

/-- Whether a glob stands for the directory that it is read in. -/
def NamesHere (glob : Text) : Prop := ∃ r ∈ insideHere? glob, r.all (· = '/') = true

instance (glob : Text) : Decidable (NamesHere glob) := inferInstanceAs (Decidable (∃ r ∈ _, _))

/-- Whether nothing more is dropped from a glob that has lost its `./`. -/
def LeadsOnce (glob : Text) : Prop := ∀ r ∈ insideHere? glob, bare r = r

instance (glob : Text) : Decidable (LeadsOnce glob) := inferInstanceAs (Decidable (∀ r ∈ _, _))

theorem insideHere?_eq_some_iff {glob r : Text} : insideHere? glob = some r ↔ slashed glob = '.' :: '/' :: r := by
  unfold insideHere?
  split
  · next s hs => simp [hs]
  · next hglob => exact iff_of_false (by simp) (hglob r)

theorem place_slashed (cwd : Path) (glob : Text) :
    (Base.mk cwd none).place (slashed glob) = (insideHere? glob).getD (slashed glob) := by
  unfold Base.place
  dsimp only
  split
  · next r hr => rw [insideHere?_eq_some_iff.mpr hr, Option.getD_some]
  · next hglob =>
    have hnone : insideHere? glob = none :=
      Option.eq_none_iff_forall_ne_some.mpr fun r hr => hglob r (insideHere?_eq_some_iff.mp hr)
    rw [hnone, Option.getD_none]

/-- What leads a glob is dropped in two places, and what leads a path in one. -/
theorem bare_place (cwd : Path) {glob : Text} (hlead : LeadsOnce glob) :
    bare ((Base.mk cwd none).place (slashed glob)) = bare glob := by
  have hbare : bare (slashed glob) = bare glob := by
    unfold Glob.bare
    rw [show Text.replace '\\' '/' (slashed glob) = slashed glob from Path.slashed_slashed glob]
    rfl
  rw [place_slashed]
  cases hr : insideHere? glob with
  | none => exact hbare
  | some r =>
    have hglob : Text.replace '\\' '/' glob = '.' :: '/' :: r := insideHere?_eq_some_iff.mp hr
    rw [Option.getD_some, hlead r hr]
    simp only [Glob.bare, hglob]

namespace IsUnmarkedGlob

variable {glob : Text} (h : IsUnmarkedGlob glob)

include h

theorem readMarks_eq : readMarks glob = .ok ⟨false, false, slashed glob⟩ := by
  have hstrip : Text.strip (slashed glob) = slashed glob := by rw [Text.strip_slashed, h.trimmed]
  have hraw : slashed glob = marks false false ++ slashed glob := rfl
  have hread := Filter.readMarks_eq hraw
  rw [hstrip] at hread
  apply hread
  intro c hc
  rw [Path.head?_slashed] at hc
  obtain ⟨d, hd, rfl⟩ := Option.map_eq_some_iff.mp hc
  split
  · decide
  · exact h.unmarked d hd

theorem slashed_ne_nil : slashed glob ≠ [] := by
  obtain ⟨c, hc, -⟩ := h.names
  simpa [slashed, Text.replace] using List.ne_nil_of_mem hc

theorem all_slashes_place (cwd : Path) :
    ((Base.mk cwd none).place (slashed glob)).all (· = '/') = true ↔ NamesHere glob := by
  rw [place_slashed, NamesHere]
  cases insideHere? glob with
  | some r => simp
  | none =>
    obtain ⟨c, hc, hname⟩ := h.names
    have hmem : c ∈ slashed glob := by
      refine List.mem_map.mpr ⟨c, hc, if_neg ?_⟩
      rintro rfl
      exact absurd hname (by decide)
    simp only [Option.getD_none, Option.not_mem_none, false_and, exists_false, iff_false]
    intro hall
    obtain rfl : c = '/' := by simpa using List.all_eq_true.mp hall c hmem
    exact absurd hname (by decide)

end IsUnmarkedGlob

/-- A glob that stands for its directory matches nothing, and any other one includes the path that is spelled
like it. -/
theorem includes_own_spelling (cwd : Path) (k : Casing) {glob : Text} (h : IsUnmarkedGlob glob) {f : Filter}
    (hf : compile ⟨cwd, none⟩ k [glob] = .ok f) :
    (NamesHere glob → ∀ p, f.verdict p = .unmatched) ∧
      (¬ NamesHere glob → LeadsOnce glob → f.verdict glob = .included) := by
  obtain ⟨cs, hcs, hconditions⟩ := exists_of_compile hf
  obtain ⟨c, hc, rfl⟩ : ∃ c, readCondition? ⟨cwd, none⟩ k glob = .ok c ∧ cs = [c] := by
    cases hcs with
    | cons hc hnil => cases hnil; exact ⟨_, hc, rfl⟩
  unfold readCondition? at hc
  simp only [h.readMarks_eq, h.slashed_ne_nil, false_or, h.all_slashes_place] at hc
  constructor
  · intro hhere p
    rw [if_pos hhere] at hc
    obtain rfl := Except.ok.inj hc
    exact verdict_eq_unmatched (by simp [hconditions])
  · intro hhere hlead
    rw [if_neg hhere] at hc
    split at hc
    · next m hm =>
      obtain rfl := Except.ok.inj hc
      have haccepts : m.Accepts (bare glob) := by
        rw [Matcher.accepts_iff_of_compile hm, bare_place cwd hlead]
        exact .inl rfl
      simp [verdict, hconditions, Standing.read, haccepts, Standing.apply, Standing.final]
    · cases hc

/-- A glob with a group, alternatives and a bracket matches what it spells, and one of a dot and slashes matches
nothing. -/
theorem includes_own_spelling_of_specials :
    let glob := ".\\a(b)\\\x7bx,y\x7d[z]".toList
    let dot := ".//".toList
    IsUnmarkedGlob glob ∧ ¬ NamesHere glob ∧ LeadsOnce glob ∧ IsUnmarkedGlob dot ∧ NamesHere dot ∧
      (∃ f, compile ⟨"/w".toList, none⟩ .heeded [glob] = .ok f ∧ f.verdict glob = .included) ∧
      ∃ f, compile ⟨"/w".toList, none⟩ .heeded [dot] = .ok f ∧ ∀ p, f.verdict p = .unmatched := by
  intro glob dot
  have hglob : IsUnmarkedGlob glob := by decide +kernel
  have hnames : ¬ NamesHere glob := by decide +kernel
  have hlead : LeadsOnce glob := by decide +kernel
  have hdot : IsUnmarkedGlob dot := by decide +kernel
  have hhere : NamesHere dot := by decide +kernel
  refine ⟨hglob, hnames, hlead, hdot, hhere, ?_, ?_⟩
  · have hok : (compile ⟨"/w".toList, none⟩ .heeded [glob]).isOk = true := by decide +kernel
    cases hf : compile ⟨"/w".toList, none⟩ .heeded [glob] with
    | error e => rw [hf] at hok; cases hok
    | ok f => exact ⟨f, rfl, (includes_own_spelling _ _ hglob hf).2 hnames hlead⟩
  · have hf : compile ⟨"/w".toList, none⟩ .heeded [dot] = .ok ⟨[]⟩ := rfl
    exact ⟨_, hf, (includes_own_spelling _ _ hdot hf).1 hhere⟩

/-- A dot with a slash is no glob of slashes alone, but it says nothing either. Of a glob that loses two dots the
path that is spelled like it loses one. -/
theorem not_includes_own_spelling :
    (IsUnmarkedGlob "./".toList ∧ ∃ f, compile ⟨"/w".toList, none⟩ .heeded ["./".toList] = .ok f ∧
      f.verdict "./".toList ≠ .included) ∧
    IsUnmarkedGlob "././x".toList ∧ ∃ f, compile ⟨"/w".toList, none⟩ .heeded ["././x".toList] = .ok f ∧
      f.verdict "././x".toList ≠ .included := by
  refine ⟨⟨by decide +kernel, ⟨[]⟩, rfl, by decide⟩, by decide +kernel, ?_⟩
  have hread : ∃ f ∈ (compile ⟨"/w".toList, none⟩ .heeded ["././x".toList]).toOption,
      f.verdict "././x".toList ≠ .included := by
    decide +kernel
  obtain ⟨f, hf, hverdict⟩ := hread
  refine ⟨f, ?_, hverdict⟩
  cases hresult : compile ⟨"/w".toList, none⟩ .heeded ["././x".toList] with
  | error e => rw [hresult] at hf; cases hf
  | ok g => rw [hresult] at hf; exact congrArg _ (Option.some.inj hf)

end Filter

end TreeCensus
