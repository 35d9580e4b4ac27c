import TreeCensus.Proofs.Filter.Below

/-!
# Lines that hold at any depth

A line of the ignore file in the root directory that is not anchored is read behind a globstar. What a pattern
behind a globstar reads, it reads one directory further down as well (`Glob.accepts_further_down`), and so does the
condition of the line (`IgnoreFile.holds_at_any_depth`). A path that is matched only because it is spelled like the
glob is matched nowhere else.
-/

namespace TreeCensus

set_option autoImplicit false

open Glob (Casing Matcher Pattern Folders segments globstar anyDepth bare expand)
open TreeCensus.Path (slashed here up parts)

namespace Glob

open Pattern (chain)

/-- Whether a glob without braces starts with a globstar. -/
def Floats (a : Text) : Prop := (segments a).head? = some globstar

instance (a : Text) : Decidable (Floats a) := inferInstanceAs (Decidable (_ = _))

theorem floats_of_parts {a : Text} (hback : '\\' ∉ a) {ns : List Text} (hparts : parts a = globstar :: ns) :
    Floats a := by
  obtain ⟨rest, hcollapse⟩ := exists_collapse_cons globstar ns
  have hbare : bare a = a := bare_eq_self hback hparts (by decide) (by decide)
  rw [Floats, segments, hbare, show Text.pieces '/' a = _ from hparts, hcollapse, List.head?_cons]

variable {a : Text} {p : Pattern}

/-- The pattern of a glob that starts with a globstar and goes on. -/
theorem exists_chain_of_floats {rest : List Text} (hsegments : segments a = globstar :: rest) (hrest : rest ≠ [])
    (hp : Pattern.ofGlob a = .ok p) : ∃ ps, p = chain .empty (.atom .folders :: ps) := by
  rw [Pattern.ofGlob, tokens?, hsegments, if_neg (by simp [hrest]), pathTokens?, if_pos rfl] at hp
  cases hts : pathTokens? (some globstar) rest with
  | none => simp [hts] at hp
  | some ts =>
    simp only [hts, Option.map_some] at hp
    let g : Group := (Group.start 0).push (.atom .folders)
    have habreast : Abreast (chain .empty [.atom .folders]) .empty [g] [.start 0] :=
      .outermost [] rfl rfl rfl rfl
    have hassembled := assemble_abreast habreast (enclosed_of_pathTokens? hts 0)
      (([Token.atom .folders] ++ ts).flatMap Token.written) [] (0 + Atom.folders.written.length) 0
    rcases hassembled with ⟨f, _, hf, -⟩ | ⟨ps, hps, -⟩
    · exact absurd (hp.symm.trans hf) (by simp)
    · exact ⟨ps, Except.ok.inj (hp.symm.trans hps)⟩

theorem accepts_lone_globstar (hsegments : segments a = [globstar]) (hp : Pattern.ofGlob a = .ok p) (k : Casing)
    (t : Text) : (p.under k).Accepts k t ↔ t ≠ [] ∧ '\n' ∉ t := by
  have heq : Pattern.ofGlob a = .ok (chain .empty [.atom .anything]) := by
    rw [Pattern.ofGlob, tokens?, if_pos hsegments]
    rfl
  obtain rfl := Except.ok.inj (hp.symm.trans heq)
  unfold Pattern.Accepts
  rw [reads_atom_under, Atom.reads_iff]
  simp [Atom.Spells]

/-- Behind a globstar a path can lie one directory further down. Only a globstar that has nothing behind it
minds the line breaks in the name of that directory. -/
theorem accepts_further_down (ha : Floats a) (hp : Pattern.ofGlob a = .ok p) {k : Casing} {t : Text}
    (hread : (p.under k).Accepts k t) {d : Text} (hne : d ≠ []) (hname : '/' ∉ d)
    (hline : segments a = [globstar] → '\n' ∉ d) : (p.under k).Accepts k (d ++ '/' :: t) := by
  obtain ⟨s, rest, hsegments⟩ : ∃ s rest, segments a = s :: rest := by
    cases hsegments : segments a with
    | nil => rw [Floats, hsegments] at ha; cases ha
    | cons s rest => exact ⟨s, rest, rfl⟩
  rw [Floats, hsegments] at ha
  obtain rfl := Option.some.inj ha
  cases rest with
  | nil =>
    rw [accepts_lone_globstar hsegments hp] at hread ⊢
    refine ⟨by simp, ?_⟩
    rw [List.mem_append, List.mem_cons]
    rintro (h | h | h)
    · exact hline hsegments h
    · exact absurd h (by decide)
    · exact hread.2 h
  | cons r rest =>
    obtain ⟨ps, rfl⟩ := exists_chain_of_floats hsegments (List.cons_ne_nil r rest) hp
    rw [accepts_folders] at hread ⊢
    obtain ⟨u, v, rfl, hu, hv⟩ := hread
    exact ⟨d ++ '/' :: u, v, by simp, hu.cons hne hname, hv⟩

/-- A glob without braces reads a path. -/
def Reads (k : Casing) (a path : Text) : Prop := ∃ p, Pattern.ofGlob a = .ok p ∧ (p.under k).Accepts k path

/-- A line that is not held to its directory and does not go up. -/
structure IsUnanchored (line : Text) : Prop where
  slash : ∀ r, (splitMark '!' line).2 ≠ '/' :: r
  up : ∀ r, (splitMark '!' line).2 ≠ '.' :: '.' :: '/' :: r

theorem isUnanchored_dropEndSlashes {line : Text} (h : IsUnanchored line) :
    IsUnanchored (GlobSource.dropEndSlashes line) ∧
      (globstar <+: (splitMark '!' (GlobSource.dropEndSlashes line)).2 → globstar <+: (splitMark '!' line).2) := by
  obtain ⟨n, hline, -⟩ := GlobSource.exists_dropEndSlashes line
  have hwhole : (splitMark '!' line).2 =
      (splitMark '!' (GlobSource.dropEndSlashes line)).2 ++ List.replicate n '/' := by
    conv_lhs => rw [hline]
    apply splitMark_snd_append
    rintro c hc rfl
    exact absurd (List.eq_of_mem_replicate (List.mem_of_head? hc)) (by decide)
  refine ⟨⟨?_, ?_⟩, ?_⟩
  · intro r hr
    exact h.slash (r ++ List.replicate n '/') (by rw [hwhole, hr]; rfl)
  · intro r hr
    exact h.up (r ++ List.replicate n '/') (by rw [hwhole, hr]; rfl)
  · intro hstars
    rw [hwhole]
    exact hstars.trans (List.prefix_append _ _)

/-- A line that is not anchored begins with two stars, or is put behind a globstar. -/
theorem ofIgnoreLine_cases {line : Text} (h : IsUnanchored line) :
    ∃ y, ofIgnoreLine line = Filter.marks false (decide (line.head? = some '!')) ++ y ∧
      ((∃ r, y = '*' :: '*' :: r ∧ globstar <+: (splitMark '!' line).2) ∨ ∃ t, y = anyDepth t) := by
  have hmarks : (splitMark '!' line).1 = Filter.marks false (decide (line.head? = some '!')) := by
    rw [splitMark_fst]
    simp [Filter.marks]
  rw [ofIgnoreLine, ← hmarks]
  refine ⟨_, rfl, ?_⟩
  split
  · exact absurd ‹_› (h.slash _)
  · next r hr => exact .inl ⟨r, rfl, hr ▸ ⟨r, rfl⟩⟩
  · exact absurd ‹_› (h.up _)
  · exact .inr ⟨_, rfl⟩

end Glob

theorem Text.strip_stars (t : Text) : strip ('*' :: '*' :: t) = '*' :: '*' :: dropEndWhile isBlank t := by
  rw [strip_cons (by decide)]
  exact congrArg _ (dropEndWhile_append_cons (by decide) [] t)

/-- The glob of a line that is not anchored. It starts with a globstar unless the line begins with two stars of
its own. -/
theorem GlobSource.exists_glob_of_unanchored {s : GlobSource} {line : Text} (h : Glob.IsUnanchored line)
    {m : Filter.Marked} (hm : Filter.readMarks (s.mark (ofLine here line)) = .ok m) :
    ∃ w, m.glob = '*' :: '*' :: w ∧ (¬ globstar <+: (Glob.splitMark '!' line).2 → ∃ u, w = '/' :: u) := by
  obtain ⟨hdrop, hstars⟩ := Glob.isUnanchored_dropEndSlashes h
  obtain ⟨y, hy, hcases⟩ := Glob.ofIgnoreLine_cases hdrop
  rw [ofLine, if_pos rfl, hy] at hm
  have hfront : ∀ t, ∀ c ∈ (Text.strip (slashed ('*' :: '*' :: t))).head?, c ≠ '!' ∧ c ≠ '^' := by
    intro t c hc
    rw [show slashed ('*' :: '*' :: t) = '*' :: '*' :: slashed t from rfl, Text.strip_stars] at hc
    obtain rfl := Option.some.inj hc
    decide
  rcases hcases with ⟨r, rfl, hline⟩ | ⟨t, rfl⟩
  · obtain ⟨hglob, -⟩ := Filter.readMarks_mark hm (hfront r)
    exact ⟨_, hglob.trans (Text.strip_stars (slashed r)), fun hnot => absurd (hstars hline) hnot⟩
  · obtain ⟨hglob, -⟩ := Filter.readMarks_mark hm (hfront ('/' :: t))
    refine ⟨_, hglob.trans (Text.strip_stars ('/' :: slashed t)), fun _ => ⟨Text.dropEndWhile Text.isBlank (slashed t), ?_⟩⟩
    exact Text.dropEndWhile_append_cons (by decide) [] (slashed t)

/-- What a condition is if it is that of a line that holds at any depth. -/
structure Condition.HoldsDeeper (k : Casing) (line : Text) (c : Condition) : Prop where
  reads : ∀ p, c.matcher.Accepts p → p = c.matcher.spelling ∨ ∃ a ∈ expand c.matcher.glob, Glob.Reads k a p
  floats : ¬ globstar <+: (Glob.splitMark '!' line).2 → ∀ a ∈ expand c.matcher.glob, Glob.Floats a
  deeper : ∀ a ∈ expand c.matcher.glob, Glob.Floats a → ∀ p, Glob.Reads k a p → ∀ d, d ≠ [] → '/' ∉ d →
    (segments a = [globstar] → '\n' ∉ d) → c.matcher.Accepts (d ++ '/' :: p)

theorem Glob.Matcher.glob_of_compile {k : Casing} {glob : Text} {m : Matcher} (h : compile k glob = .ok m) :
    m.glob = glob := by
  unfold compile at h
  cases hps : (expand glob).mapM Pattern.ofGlob with
  | error e => rw [hps] at h; cases h
  | ok ps =>
    rw [hps] at h
    rw [← Except.ok.inj h]

theorem GlobSource.holdsDeeper_of_unanchored {s : GlobSource} {line : Text} (h : Glob.IsUnanchored line) {cwd : Path}
    {k : Casing} {c : Condition}
    (hc : Filter.readCondition? ⟨cwd, none⟩ k (s.mark (ofLine here line)) = .ok (some c)) :
    c.HoldsDeeper k line := by
  obtain ⟨m, hm, hcompile, -⟩ := Filter.readCondition?_eq_some hc
  obtain ⟨w, hw, hslash⟩ := exists_glob_of_unanchored h hm
  have hback : '\\' ∉ m.glob := Filter.not_mem_of_readMarks hm
  have hplace : (Filter.Base.mk cwd none).place m.glob = m.glob := by
    rw [hw]
    rfl
  rw [hplace] at hcompile
  have hglob : c.matcher.glob = m.glob := Glob.Matcher.glob_of_compile hcompile
  have haccepts := Glob.Matcher.accepts_iff_of_compile hcompile
  refine ⟨?_, ?_, ?_⟩
  · intro p hp
    rw [Matcher.spelling, hglob]
    exact (haccepts p).mp hp
  · intro hline a ha
    obtain ⟨u, rfl⟩ := hslash hline
    rw [hglob, hw] at ha
    rw [hw] at hback
    have hfree : '\\' ∉ u := fun hu => hback (by simp [hu])
    have hsurrounded := Glob.mem_expand_surrounded (u := globstar ++ ['/']) (v := []) (by decide) (by decide)
      (by simp) (by simp) hfree a
    obtain ⟨b, hb, rfl⟩ := hsurrounded.mp (by simpa [globstar] using ha)
    have hparts : parts (globstar ++ ['/'] ++ b ++ []) = globstar :: parts b := by
      rw [List.append_nil]
      exact Glob.parts_anyDepth b
    refine Glob.floats_of_parts ?_ hparts
    have hfree' : '\\' ∉ b := fun hc => hfree (Glob.mem_of_mem_expand hb hc)
    simp [globstar, hfree']
  · rintro a ha hfloats p ⟨pattern, hpattern, hread⟩ d hne hname hline
    refine (haccepts _).mpr (.inr ⟨a, hglob ▸ ha, pattern, hpattern, ?_⟩)
    exact Glob.accepts_further_down hfloats hpattern hread hne hname hline

/-- A line of the ignore file in the root directory that is not anchored matches at any depth what a pattern of it
reads. Each of its patterns starts with a globstar, unless the line begins with two stars of its own. -/
theorem IgnoreFile.holds_at_any_depth {fs : FileSystem} {root : Option Path} {s : GlobSource} {content : Text}
    (h : IgnoreFile fs root [] s content) {line : Text} (hline : line ∈ GlobSource.ignoreLines content)
    (hfree : Glob.IsUnanchored line) :
    ∃ globs, GlobSource.load fs root [s] = .ok globs ∧ s.mark (GlobSource.ofLine here line) ∈ globs ∧
      ∀ k c, Filter.readCondition? ⟨fs.cwd, none⟩ k (s.mark (GlobSource.ofLine here line)) = .ok (some c) →
        c.HoldsDeeper k line :=
  ⟨_, h.load_eq (by simp), List.mem_map_of_mem hline, fun _ _ hc => GlobSource.holdsDeeper_of_unanchored hfree hc⟩

/-- An exclusion lifted at any depth, with alternatives of which one is a globstar. -/
theorem IgnoreFile.holds_at_any_depth_of_alternatives :
    let s : GlobSource := ⟨".ignore".toList, .file, true⟩
    let line := "!\x7bbuild,**\x7d\\*.o /".toList
    let content := "# objects\n  !\x7bbuild,**\x7d\\*.o /\n".toList
    let fs := FileSystem.ofFiles "/w".toList [("/w/.ignore".toList, content)]
    let glob := s.mark (GlobSource.ofLine here line)
    IgnoreFile fs none [] s content ∧ line ∈ GlobSource.ignoreLines content ∧ Glob.IsUnanchored line ∧
      ∃ globs c, GlobSource.load fs none [s] = .ok globs ∧ glob ∈ globs ∧
        Filter.readCondition? ⟨fs.cwd, none⟩ .ignored glob = .ok (some c) ∧ c.HoldsDeeper .ignored line := by
  intro s line content fs glob
  have hname : Path.IsName ".ignore".toList := by decide
  have hfile : IgnoreFile fs none [] s content :=
    ⟨by decide, rfl, by decide, ⟨_, hname, by decide +kernel⟩, by decide +kernel⟩
  have hline : line ∈ GlobSource.ignoreLines content := by decide +kernel
  have hfree : Glob.IsUnanchored line := ⟨by simp [line, Glob.splitMark], by simp [line, Glob.splitMark]⟩
  obtain ⟨globs, hload, hglob, hdeeper⟩ := IgnoreFile.holds_at_any_depth hfile hline hfree
  have hsome : ∃ c, Filter.readCondition? ⟨fs.cwd, none⟩ .ignored glob = .ok (some c) := by
    have hread : ((Filter.readCondition? ⟨fs.cwd, none⟩ .ignored glob).toOption.bind id).isSome = true := by
      decide +kernel
    cases hc : Filter.readCondition? ⟨fs.cwd, none⟩ .ignored glob with
    | error e => rw [hc] at hread; cases hread
    | ok c =>
      rw [hc] at hread
      obtain ⟨c, rfl⟩ := Option.isSome_iff_exists.mp hread
      exact ⟨c, rfl⟩
  obtain ⟨c, hc⟩ := hsome
  exact ⟨hfile, hline, hfree, globs, c, hload, hglob, hc, hdeeper _ c hc⟩

/-- A path that is matched for its spelling alone is not matched further down. -/
theorem IgnoreFile.spelling_holds_only_here :
    let s : GlobSource := ⟨".ignore".toList, .file, false⟩
    let content := "[ab]".toList
    let fs := FileSystem.ofFiles "/w".toList [("/w/.ignore".toList, content)]
    IgnoreFile fs none [] s content ∧ GlobSource.ignoreLines content = ["[ab]".toList] ∧
      Glob.IsUnanchored "[ab]".toList ∧ GlobSource.load fs none [s] = .ok ["**/[ab]".toList] ∧
      ∃ c, Filter.readCondition? ⟨fs.cwd, none⟩ .heeded "**/[ab]".toList = .ok (some c) ∧
        c.matcher.Accepts "**/[ab]".toList ∧ ¬ c.matcher.Accepts "x/**/[ab]".toList := by
  intro s content fs
  have hname : Path.IsName ".ignore".toList := by decide
  have hfile : IgnoreFile fs none [] s content :=
    ⟨by decide, rfl, by decide, ⟨_, hname, by decide +kernel⟩, by decide +kernel⟩
  have hload : GlobSource.load fs none [s] = .ok ["**/[ab]".toList] := by
    rw [hfile.load_eq (by simp)]
    decide +kernel
  have hread : ∃ c ∈ (Filter.readCondition? ⟨fs.cwd, none⟩ .heeded "**/[ab]".toList).toOption.join,
      c.matcher.Accepts "**/[ab]".toList ∧ ¬ c.matcher.Accepts "x/**/[ab]".toList := by
    decide +kernel
  obtain ⟨c, hc, haccepts⟩ := hread
  refine ⟨hfile, by decide +kernel, ⟨by simp [Glob.splitMark], by simp [Glob.splitMark]⟩, hload, c, ?_, haccepts⟩
  cases hresult : Filter.readCondition? ⟨fs.cwd, none⟩ .heeded "**/[ab]".toList with
  | error e => rw [hresult] at hc; cases hc
  | ok o =>
    rw [hresult] at hc
    obtain rfl : o = some c := hc
    rfl

end TreeCensus
