import TreeCensus.Proofs.Filter.Compiling

/-!
# Filters of a root directory

The globs of a filter are put behind its root directory. With a directory of plain names such a filter
compiles if the globs do so on their own, and matches nothing outside of the directory (`confined_to_root`).
-/

namespace TreeCensus.Filter

set_option autoImplicit false

open Glob (Casing Matcher Pattern IsPlain bare expand)
open Glob.Pattern (chain spelled)
open TreeCensus.Path (parts steps isAbsolute slashed under up here root ofParts normal IsWithin)

/-- The glob as it is put behind a directory. -/
def inside (glob : Text) : Text :=
  match glob with
  | '/' :: _ => '.' :: glob
  | _ => glob

theorem isAbsolute_inside (glob : Text) : isAbsolute (inside glob) = false := by
  unfold inside
  split
  · rfl
  · next h =>
    unfold isAbsolute
    split
    · exact absurd rfl (h _)
    · rfl

theorem steps_inside (glob : Text) : steps (inside glob) = steps glob := by
  unfold inside
  split
  · next r =>
    rw [Path.steps_slash]
    exact Path.steps_append_slash here r
  · rfl

theorem up_not_mem_inside {glob : Text} (h : up ∉ parts glob) : up ∉ parts (inside glob) := by
  unfold inside
  split
  · next r =>
    rw [Path.parts_slash, List.mem_cons, not_or] at h
    have hparts : parts ('.' :: '/' :: r) = [['.']] ++ parts r := Path.parts_append_slash here r
    rw [hparts, List.mem_append, not_or]
    exact ⟨by decide, h.2⟩
  · exact h

theorem slashed_append (p q : Path) : slashed (p ++ q) = slashed p ++ slashed q := List.map_append

theorem ofParts_steps_slashed {glob : Text} (h : '\\' ∉ glob) :
    slashed (ofParts (steps glob)) = ofParts (steps glob) := by
  apply Glob.replace_of_not_mem
  intro hmem
  rcases Text.mem_of_mem_join hmem with hc | ⟨n, hn, hc⟩
  · exact absurd hc (by decide)
  · exact h (Glob.mem_of_mem_pieces (List.mem_of_mem_filter hn) hc)

/-- A directory that a glob reads as it stands. -/
structure IsPlainDir (dir : Path) : Prop where
  absolute : isAbsolute dir = true
  normal : normal dir = dir
  /-- Two slashes are a directory of their own, but not one that globs can be put behind. -/
  single : dir ≠ ['/', '/']
  unbraced : '\x7b' ∉ dir
  plain : ∀ s ∈ parts (slashed dir), IsPlain s

namespace IsPlainDir

variable {cwd dir : Path} (h : IsPlainDir dir)

include h

theorem exists_slashed : ∃ u, slashed dir = '/' :: u ∧ (∀ s ∈ parts u, IsPlain s) ∧ '\\' ∉ u ∧
    '\x7b' ∉ u := by
  obtain ⟨r, hr⟩ : ∃ r, dir = '/' :: r := by
    have habs := h.absolute
    unfold isAbsolute at habs
    split at habs
    · exact ⟨_, rfl⟩
    · cases habs
  have hslashed : slashed dir = '/' :: slashed r := by rw [hr]; rfl
  have hplain := h.plain
  rw [hslashed, Path.parts_slash] at hplain
  refine ⟨slashed r, hslashed, fun s hs => hplain s (List.mem_cons_of_mem _ hs),
    not_mem_replace (by decide) r, ?_⟩
  intro hmem
  obtain ⟨c, hc, hopen⟩ := List.mem_map.mp hmem
  split at hopen
  · exact absurd hopen (by decide)
  · exact h.unbraced (hr ▸ List.mem_cons_of_mem _ (hopen ▸ hc))

variable (cwd) in
/-- The names of a glob are put behind the directory. -/
theorem place_cases {glob : Text} (hglob : '\\' ∉ glob) (hup : up ∉ parts glob) :
    (steps glob = [] ∧ (Base.mk cwd (some dir)).place glob = slashed dir) ∨
    (steps glob ≠ [] ∧ ∃ w, (w = slashed dir ∨ dir = ['/'] ∧ w = []) ∧
      (Base.mk cwd (some dir)).place glob = w ++ '/' :: ofParts (steps glob)) := by
  obtain ⟨ns, hbase⟩ := Path.exists_isBase h.absolute h.normal
  obtain ⟨c, r, rfl⟩ := List.exists_cons_of_ne_nil hbase.ne_nil
  have habsolute : Path.absolute cwd (c :: r) = c :: r := by
    rw [Path.absolute, under, if_pos h.absolute, h.normal]
  have hplace : (Base.mk cwd (some (c :: r))).place glob =
      slashed (Path.normal (under (Path.absolute cwd (c :: r)) (inside glob))) := rfl
  rw [hplace, habsolute, hbase.normal_under (isAbsolute_inside glob) (up_not_mem_inside hup),
    steps_inside]
  by_cases hsteps : steps glob = []
  · refine .inl ⟨hsteps, ?_⟩
    rw [hsteps, List.append_nil, ← hbase.eq]
  · refine .inr ⟨hsteps, ?_⟩
    by_cases hns : ns = []
    · subst hns
      have hroot : c :: r = root (c :: r) := by simpa [ofParts, Text.join] using hbase.eq
      rcases hbase.root with hr | hr
      · refine ⟨[], .inr ⟨hroot.trans hr, rfl⟩, ?_⟩
        rw [hr, List.nil_append, slashed_append, ofParts_steps_slashed hglob]
        rfl
      · exact absurd (hroot.trans hr) h.single
    · refine ⟨slashed (c :: r), .inl rfl, ?_⟩
      have hjoin : root (c :: r) ++ ofParts (ns ++ steps glob) =
          (c :: r) ++ '/' :: ofParts (steps glob) := by
        rw [ofParts, Text.join_append hns hsteps, ← List.append_assoc]
        exact congrArg (· ++ '/' :: ofParts (steps glob)) hbase.eq.symm
      rw [hjoin, slashed_append]
      change _ ++ '/' :: slashed (ofParts (steps glob)) = _
      rw [ofParts_steps_slashed hglob]

/-- A glob that compiles on its own compiles behind the directory. -/
theorem exists_compile_place {k : Casing} {glob : Text} (hglob : '\\' ∉ glob) (hup : up ∉ parts glob)
    (hok : ∃ m, Matcher.compile k ((Base.mk cwd none).place glob) = .ok m) :
    ∃ m, Matcher.compile k ((Base.mk cwd (some dir)).place glob) = .ok m := by
  obtain ⟨u, hu, hplain, hback, hopen⟩ := h.exists_slashed
  rw [Matcher.exists_compile_iff] at hok ⊢
  have hbonds : ∀ a ∈ expand glob, ∃ bs, Glob.pathBonds? (parts a) = some bs ∧ Glob.Fastens 0 bs := by
    have hown : ∀ r, '\\' ∉ r → (∀ a ∈ expand r, ∃ p, Pattern.ofGlob a = .ok p) →
        ∀ a ∈ expand r, ∃ bs, Glob.pathBonds? (parts a) = some bs ∧ Glob.Fastens 0 bs := by
      intro r hr hok a ha
      have hfree : '\\' ∉ a := fun hc => hr (Glob.mem_of_mem_expand ha hc)
      have hiff := Glob.exists_ofGlob_iff a
      rw [Glob.replace_of_not_mem hfree] at hiff
      exact hiff.mp (hok a ha)
    unfold Base.place at hok
    dsimp only at hok
    split at hok
    · next r =>
      have hr : '\\' ∉ r := fun hc => hglob (by simp [hc])
      intro a ha
      have hsurrounded := Glob.mem_expand_surrounded (u := ['.', '/']) (v := []) (by decide)
        (by decide) (by decide) (by decide) hr a
      obtain ⟨b, hb, rfl⟩ := hsurrounded.mp (by simpa using ha)
      have hparts : parts (['.', '/'] ++ b ++ []) = ['.'] :: parts b := by
        rw [List.append_nil]
        exact Path.parts_append_slash ['.'] b
      rw [hparts, Glob.pathBonds?_cons_of_loose Glob.segmentBonds?_dot]
      exact hown r hr hok b hb
    · exact hown glob hglob hok
  rcases h.place_cases cwd hglob hup with ⟨-, hplace⟩ | ⟨hsteps, w, hw, hplace⟩
  · rw [hplace, hu, Glob.expand_of_none (Glob.firstGroup?_eq_none (by simpa using hopen) [])]
    intro a ha
    obtain rfl := List.mem_singleton.mp ha
    exact ⟨_, Glob.ofGlob_plain hplain hback⟩
  · rw [hplace]
    intro a ha
    have hw' : (∀ s ∈ parts w, IsPlain s) ∧ '\x7b' ∉ w ∧ '\\' ∉ w := by
      rcases hw with rfl | ⟨-, rfl⟩
      · refine ⟨h.plain, ?_, ?_⟩ <;> rw [hu] <;> simp [hopen, hback]
      · refine ⟨?_, by simp, by simp⟩
        intro s hs
        obtain rfl : s = [] := by simpa [parts, Text.pieces] using hs
        exact ⟨by simp, by simp [Glob.HasGroups]⟩
    exact Glob.exists_ofGlob_behind hw'.1 hw'.2.1 hw'.2.2 hglob hsteps hbonds ha

/-- A matcher of a glob behind the directory accepts nothing outside of it. -/
theorem accepts_place {glob : Text} (hglob : '\\' ∉ glob) (hup : up ∉ parts glob)
    (hroot : dir ≠ ['/']) {m : Matcher}
    (hm : Matcher.compile .heeded ((Base.mk cwd (some dir)).place glob) = .ok m) {t : Text}
    (ht : m.Accepts t) : '/' :: t = slashed dir ∨ ∃ v, '/' :: t = slashed dir ++ '/' :: v := by
  obtain ⟨u, hu, hplain, hback, hopen⟩ := h.exists_slashed
  have key : t = u ∨ ∃ v, t = u ++ '/' :: v := by
    rw [Matcher.accepts_iff_of_compile hm] at ht
    rcases h.place_cases cwd hglob hup with ⟨-, hplace⟩ | ⟨hsteps, w, hw, hplace⟩
    · rw [hplace, hu, Glob.bare_slash hback,
        Glob.expand_of_none (Glob.firstGroup?_eq_none (by simpa using hopen) [])] at ht
      rcases ht with ht | ⟨a, ha, p, hp, hread⟩
      · exact .inl ht
      · obtain rfl := List.mem_singleton.mp ha
        exact .inl (Glob.eq_of_accepts_plain hplain hback hp hread)
    · obtain rfl : w = slashed dir := hw.resolve_right fun hw => hroot hw.1
      have hnames : '\\' ∉ ofParts (steps glob) := by
        rw [← ofParts_steps_slashed hglob]
        exact not_mem_replace (by decide) _
      rw [hplace, hu, List.cons_append, Glob.bare_slash (by simp [hback, hnames])] at ht
      rcases ht with ht | ⟨a, ha, p, hp, hread⟩
      · exact .inr ⟨_, ht⟩
      · have hsurrounded := Glob.mem_expand_surrounded (u := '/' :: u ++ ['/']) (v := [])
          (by simp [hopen]) (by simp [hback]) (by simp) (by simp) hnames a
        obtain ⟨b, hb, rfl⟩ := hsurrounded.mp (by simpa using ha)
        have hfree : '\\' ∉ b := fun hc => hnames (Glob.mem_of_mem_expand hb hc)
        have hsame : '/' :: u ++ ['/'] ++ b ++ [] = '/' :: u ++ '/' :: b := by simp
        rw [hsame] at hp
        exact Glob.exists_of_accepts_behind_plain hplain hback hfree hp hread
  rw [hu]
  rcases key with rfl | ⟨v, rfl⟩
  · exact .inl rfl
  · exact .inr ⟨v, rfl⟩

end IsPlainDir


/-- A filter of a directory of plain names compiles if its globs do so on their own, and matches nothing
outside of the directory, unless a glob goes up. -/
theorem confined_to_root {cwd dir : Path} (h : IsPlainDir dir) {globs : List Text}
    (hup : ∀ raw ∈ globs, ∀ m, readMarks raw = .ok m → up ∉ parts m.glob) :
    ((∃ e, compile ⟨cwd, some dir⟩ .heeded globs = .error e) →
      ∃ e, compile ⟨cwd, none⟩ .heeded globs = .error e) ∧
    ∀ f, compile ⟨cwd, some dir⟩ .heeded globs = .ok f → ∀ p, isAbsolute p = true →
      ¬ IsWithin (slashed dir) (slashed p) → f.verdict p = .unmatched := by
  constructor
  · rintro ⟨e, he⟩
    refine (exists_ok_or_error (compile ⟨cwd, none⟩ .heeded globs)).resolve_left fun hok => ?_
    rw [exists_compile_iff] at hok
    have hrooted : ∀ raw ∈ globs, ∃ c, readCondition? ⟨cwd, some dir⟩ .heeded raw = .ok c := by
      intro raw hraw
      obtain ⟨m, hm, hcompiles⟩ := exists_readCondition?_iff.mp (hok raw hraw)
      refine exists_readCondition?_iff.mpr ⟨m, hm, hcompiles.imp_right fun hcompiles => ?_⟩
      exact h.exists_compile_place (not_mem_of_readMarks hm) (hup raw hraw m hm) hcompiles
    obtain ⟨f, hf⟩ := exists_compile_iff.mpr hrooted
    rw [he] at hf
    cases hf
  · intro f hf p habs hout
    apply verdict_eq_unmatched
    intro c hc haccepts
    apply hout
    obtain ⟨raw, hraw, hread⟩ := exists_of_mem_conditions hf hc
    obtain ⟨m, hm, hmatcher, -, -⟩ := readCondition?_eq_some hread
    have hslashed : slashed p = '/' :: bare p := by
      unfold isAbsolute at habs
      split at habs
      · rfl
      · cases habs
    rw [hslashed]
    by_cases hroot : dir = ['/']
    · subst hroot
      exact .inr ⟨bare p, rfl⟩
    · rcases h.accepts_place (not_mem_of_readMarks hm) (hup raw hraw m hm) hroot hmatcher haccepts with
        heq | ⟨v, hv⟩
      · exact .inl heq
      · refine .inr ?_
        have hend : under (slashed dir) [] <+: slashed dir ++ '/' :: v := by
          rw [under, if_neg (by decide)]
          split
          · exact ⟨'/' :: v, by simp⟩
          · exact ⟨v, by simp⟩
        rwa [hv]

/-- A directory whose name has a parenthesis and a bracket that nothing opens keeps its filter to itself. -/
theorem confined_to_unbalanced :
    IsPlainDir "/r(1]".toList ∧
      (∀ raw ∈ ["./*.\x7bo,so\x7d".toList], ∀ m, readMarks raw = .ok m → up ∉ parts m.glob) ∧
      ∃ f, compile ⟨['/'], some "/r(1]".toList⟩ .heeded ["./*.\x7bo,so\x7d".toList] = .ok f ∧
        f.verdict "/r1/a.o".toList = .unmatched := by
  have hdir : IsPlainDir "/r(1]".toList :=
    ⟨by decide, by decide +kernel, by decide, by decide, by decide +kernel⟩
  have hup : ∀ raw ∈ ["./*.\x7bo,so\x7d".toList], ∀ m, readMarks raw = .ok m → up ∉ parts m.glob := by
    intro raw hraw m hm
    obtain rfl := List.mem_singleton.mp hraw
    have hglob : m.glob = "./*.\x7bo,so\x7d".toList := by
      have hread : (readMarks "./*.\x7bo,so\x7d".toList).toOption.map (·.glob) =
          some "./*.\x7bo,so\x7d".toList := by decide +kernel
      rw [hm] at hread
      exact Option.some.inj hread
    rw [hglob]
    decide +kernel
  refine ⟨hdir, hup, ?_⟩
  have hok : (compile ⟨['/'], some "/r(1]".toList⟩ .heeded ["./*.\x7bo,so\x7d".toList]).isOk = true := by
    decide +kernel
  cases hf : compile ⟨['/'], some "/r(1]".toList⟩ .heeded ["./*.\x7bo,so\x7d".toList] with
  | error e => rw [hf] at hok; cases hok
  | ok f => exact ⟨f, rfl, (confined_to_root hdir hup).2 f hf _ (by decide) (by decide +kernel)⟩

end TreeCensus.Filter
