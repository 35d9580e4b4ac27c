import TreeCensus.Proofs.Filter.Loading

/-!
# The meaning of ignore files

A line of ordinary characters matches what its glob matches, in the directory of its file if the line
begins with a slash and at any depth below it otherwise (`IgnoreFile.means`). A file makes one condition
of each of its lines. A line that is clean, with all its alternatives, says further down what it says in
the root directory (`IgnoreFile.alike`).
-/

namespace TreeCensus

set_option autoImplicit false

open Glob (IsLiteral Casing Matcher Pattern below trail anyDepth globstar expand bare)
open TreeCensus.Path (slashed up here ofParts parts way IsName IsClean)

/-- Names without dots at the front, and without characters that a glob or its marks could be made of. -/
theorem isHome_of_chars {dirs : List Text} (h : ∀ n ∈ dirs, n ≠ [] ∧ n ≠ here ∧ ¬ up <+: n ∧
    ∀ c ∈ n, c ∉ '/' :: '!' :: '^' :: Filter.specials ∧ Text.isBlank c = false) : IsHome dirs := by
  have hchar : ∀ c ∈ ofParts dirs, Opens c := by
    intro c hc
    rcases Text.mem_of_mem_join hc with rfl | ⟨n, hn, hc⟩
    · decide
    · obtain ⟨hspecial, hblank⟩ := (h n hn).2.2.2 c hc
      simp only [List.mem_cons, not_or] at hspecial
      exact ⟨hspecial.2.1, hspecial.2.2.1, hblank⟩
  refine ⟨?_, fun c hc => hchar c (List.mem_of_head? hc), fun c hc => (hchar c (List.mem_of_getLast? hc)).2.2, ?_⟩
  · intro n hn
    obtain ⟨hnil, hhere, hup, hchars⟩ := h n hn
    have hfree : ∀ c ∈ '/' :: '!' :: '^' :: Filter.specials, c ∉ n := fun c hc hmem => (hchars c hmem).1 hc
    refine ⟨⟨hnil, hhere, fun hsame => hup (hsame ▸ List.prefix_rfl), hfree _ (by decide)⟩, ⟨?_, ?_⟩,
      hfree _ (by decide), hfree _ (by decide)⟩
    · intro c hc
      refine ⟨?_, ?_, ?_⟩ <;> rintro rfl <;> exact hfree _ (by decide) hc
    · exact fun hgroups => hfree '(' (by decide) hgroups.1
  · intro hprefix
    cases dirs with
    | nil => exact absurd hprefix (by decide)
    | cons n dirs =>
      obtain ⟨hnil, hhere, hup, -⟩ := h n List.mem_cons_self
      rw [ofParts, Glob.join_cons_eq] at hprefix
      cases n with
      | nil => exact hnil rfl
      | cons c n =>
        obtain ⟨rfl, hrest⟩ := List.cons_prefix_cons.mp hprefix
        cases n with
        | nil => exact hhere rfl
        | cons d n =>
          obtain ⟨rfl, -⟩ := List.cons_prefix_cons.mp hrest
          exact hup ⟨n, rfl⟩

/-- The lines of a file, with any number of empty ones behind them. -/
theorem GlobSource.ignoreLines_join {texts : List Text} (h : ∀ t ∈ texts, '\n' ∉ t ∧ Text.strip t = t ∧
    t ≠ [] ∧ t.head? ≠ some '#') (empty : Nat) :
    ignoreLines (Text.join '\n' (texts ++ List.replicate empty [])) = texts := by
  have hstrip : texts.map Text.strip = texts :=
    (List.map_congr_left fun t ht => (h t ht).2.1).trans (List.map_id texts)
  have hkept : texts.filter (fun l => l ≠ [] ∧ l.head? ≠ some '#') = texts :=
    List.filter_eq_self.mpr fun t ht => by simpa using (h t ht).2.2
  by_cases hne : texts ++ List.replicate empty [] = []
  · obtain ⟨rfl, -⟩ := List.append_eq_nil_iff.mp hne
    rw [hne]
    rfl
  · have hpieces : Text.pieces '\n' (Text.join '\n' (texts ++ List.replicate empty [])) =
        texts ++ List.replicate empty [] := by
      apply Text.pieces_join hne
      intro t ht
      rcases List.mem_append.mp ht with ht | ht
      · exact (h t ht).1
      · rw [List.eq_of_mem_replicate ht]
        exact List.not_mem_nil
    rw [ignoreLines, hpieces, List.map_append, List.filter_append, hstrip, hkept]
    simp [Text.strip, Text.dropEndWhile]

/-- A line of ordinary characters. -/
structure IgnoreLine.IsOrdinary (l : IgnoreLine) : Prop where
  body : Glob.IsOrdinary l.body
  front : ∀ c ∈ l.body.head?, Opens c
  back : ∀ c ∈ l.body.getLast?, Text.isBlank c = false
  /-- A globstar at the front would be held to its place as a slash is. -/
  shallow : ¬ globstar <+: l.body
  comment : l.text.head? ≠ some '#'

instance (l : IgnoreLine) : Decidable l.IsOrdinary :=
  decidable_of_iff (Glob.IsOrdinary l.body ∧ l.body.head?.all (fun c => Opens c) = true ∧
    l.body.getLast?.all (fun c => Text.isBlank c = false) = true ∧ ¬ globstar <+: l.body ∧ l.text.head? ≠ some '#')
    ⟨fun h => ⟨h.1, option_all_iff.mp h.2.1, option_all_iff.mp h.2.2.1, h.2.2.2.1, h.2.2.2.2⟩,
      fun h => ⟨h.body, option_all_iff.mpr h.front, option_all_iff.mpr h.back, h.shallow, h.comment⟩⟩

/-- What a condition says if it is that of a line of a file below some names. -/
structure Condition.Means (dirs : List Text) (exclude : Bool) (l : IgnoreLine) (c : Condition) : Prop where
  exclude : c.exclude = exclude
  negative : c.negative = l.negated
  accepts : ∃ m, Matcher.compile .heeded l.body = .ok m ∧ ∀ p, c.matcher.Accepts p ↔
    ∃ qs r, (∀ q ∈ qs, q ≠ [] ∧ '/' ∉ q) ∧ (l.anchored = true → qs = []) ∧
      p = ofParts (dirs ++ qs ++ [r]) ∧ m.Accepts r

namespace IgnoreLine.IsOrdinary

variable {l : IgnoreLine} (h : l.IsOrdinary)

include h

theorem slashed_body : slashed l.body = l.body :=
  Glob.replace_of_not_mem (h.body.not_mem (by decide))

theorem isTidy : l.IsTidy := ⟨h.slashed_body.symm ▸ h.body.clean, h.front, h.back⟩

theorem verbatim_eq : l.verbatim = l.anchored := by
  have hstart : Text.startsWith globstar l.body = false := by
    rw [Bool.eq_false_iff]
    exact fun hstart => h.shallow (List.isPrefixOf_iff_prefix.mp hstart)
  rw [verbatim, hstart, Bool.or_false]

/-- A line is on one line, and has no blanks around it. -/
theorem text_trimmed : '\n' ∉ l.text ∧ Text.strip l.text = l.text ∧ l.text ≠ [] := by
  have hne := h.isTidy.body_ne_nil
  refine ⟨?_, Text.strip_eq_self ?_ ?_, by simp [text, hne]⟩
  · have hbody : '\n' ∉ l.body := h.body.not_mem (by decide)
    cases hn : l.negated <;> cases ha : l.anchored <;> simp [text, lead, Filter.marks, hn, ha, hbody]
  · have hhead : ∀ t, (l.body ++ t).head? = l.body.head? := fun t => List.head?_append_of_ne_nil _ hne
    intro c hc
    rw [text] at hc
    cases hn : l.negated <;> cases ha : l.anchored <;>
      simp only [lead, Filter.marks, hn, ha, Bool.false_eq_true, if_false, if_true, List.nil_append,
        List.cons_append, List.head?_cons, hhead] at hc
    · exact (h.front c hc).2.2
    all_goals obtain rfl := Option.some.inj hc
    all_goals decide
  · intro c hc
    rw [text] at hc
    cases hslashes : l.slashes with
    | zero =>
      rw [hslashes, List.replicate_zero, List.append_nil, ← List.append_assoc,
        List.getLast?_append_of_ne_nil _ hne] at hc
      exact h.back c hc
    | succ n =>
      rw [hslashes, List.replicate_succ', ← List.append_assoc, List.getLast?_concat] at hc
      obtain rfl := Option.some.inj hc
      decide

/-- The condition that is read from the raw glob of a line means what the line does. -/
theorem exists_condition {dirs : List Text} (hdirs : IsHome dirs) (cwd : Path) (s : GlobSource) :
    ∃ c, Filter.readCondition? ⟨cwd, none⟩ .heeded
      (s.mark (GlobSource.ofLine (way dirs) l.text)) = .ok (some c) ∧
        c.Means dirs s.exclude l := by
  have hmarks := h.isTidy.readMarks_ofLine hdirs s
  have hclean := Glob.isClean_below hdirs.names l.verbatim h.isTidy.clean
  obtain ⟨m, m', hm, hm', haccepts⟩ := h.body.compile_below h.shallow hdirs.names l.anchored
  rw [h.slashed_body, h.verbatim_eq] at hmarks hclean
  refine ⟨⟨s.exclude, l.negated, m⟩, ?_, rfl, rfl, m', hm', haccepts⟩
  rw [Filter.readCondition?_of_isClean cwd hmarks hclean, hm]

end IgnoreLine.IsOrdinary

/-- An ignore file makes a filter of one condition for each line, in their order, that means what the
line does. -/
theorem IgnoreFile.means {fs : FileSystem} {root : Option Path} {dirs : List Text} {s : GlobSource}
    {lines : List IgnoreLine} {empty : Nat}
    (h : IgnoreFile fs root dirs s (Text.join '\n' (lines.map IgnoreLine.text ++ List.replicate empty [])))
    (hdirs : IsHome dirs) (hlines : ∀ l ∈ lines, l.IsOrdinary) :
    ∃ globs f, GlobSource.load fs root [s] = .ok globs ∧
      Filter.compile ⟨fs.cwd, none⟩ .heeded globs = .ok f ∧
      List.Forall₂ (fun l c => c.Means dirs s.exclude l) lines f.conditions := by
  have hloaded := h.load_eq fun n hn => (hdirs.names n hn).name
  rw [GlobSource.ignoreLines_join, List.map_map] at hloaded
  · obtain ⟨cs, hcs⟩ := exists_forall₂ fun l hl => (hlines l hl).exists_condition hdirs fs.cwd s
    refine ⟨_, ⟨cs⟩, hloaded, ?_, hcs.imp fun _ _ hc => hc.2⟩
    apply Filter.compile_eq_of_forall₂
    rw [List.forall₂_map_left_iff]
    exact hcs.imp fun _ _ hc => hc.1
  · intro t ht
    obtain ⟨l, hl, rfl⟩ := List.mem_map.mp ht
    obtain ⟨hsingle, hstrip, hne⟩ := (hlines l hl).text_trimmed
    exact ⟨hsingle, hstrip, hne, (hlines l hl).comment⟩

/-- Two directories down, one line holds only there and one at any depth. -/
theorem IgnoreFile.means_two_levels_down :
    let dirs : List Text := ["src".toList, ".x".toList]
    let s : GlobSource := ⟨"src/.x/.ignore".toList, .file, true⟩
    let lines : List IgnoreLine := [⟨false, true, "dist".toList, 1⟩, ⟨true, false, "*.log".toList, 0⟩]
    let content := Text.join '\n' (lines.map IgnoreLine.text ++ List.replicate 1 [])
    let fs := FileSystem.ofFiles "/w".toList [("/w/src/.x/.ignore".toList, content)]
    IgnoreFile fs none dirs s content ∧ IsHome dirs ∧ (∀ l ∈ lines, l.IsOrdinary) ∧
      ∃ globs f, GlobSource.load fs none [s] = .ok globs ∧
        Filter.compile ⟨fs.cwd, none⟩ .heeded globs = .ok f ∧
        List.Forall₂ (fun l c => c.Means dirs true l) lines f.conditions := by
  intro dirs s lines content fs
  have hname : IsName ".ignore".toList := by decide
  have hfile : IgnoreFile fs none dirs s content :=
    ⟨by decide, rfl, by decide, ⟨_, hname, by decide +kernel⟩, by decide +kernel⟩
  have hdirs : IsHome dirs := by decide +kernel
  have hlines : ∀ l ∈ lines, l.IsOrdinary := by
    intro l hl
    rcases List.mem_pair.mp hl with rfl | rfl
    · decide +kernel
    · decide +kernel
  exact ⟨hfile, hdirs, hlines, IgnoreFile.means hfile hdirs hlines⟩

/-- A slash before a glob makes no difference if nothing is dropped from the front of the glob and its
alternatives. -/
theorem Glob.Matcher.compile_slash {g : Text} (hback : '\\' ∉ g) (hbare : ∀ a ∈ g :: expand g, bare a = a)
    (k : Casing) : ((∃ m, compile k ('/' :: g) = .ok m) ↔ ∃ m, compile k g = .ok m) ∧
      ∀ m m', compile k ('/' :: g) = .ok m → compile k g = .ok m' → ∀ t, m.Accepts t ↔ m'.Accepts t := by
  have hexpand : ∀ a, a ∈ expand ('/' :: g) ↔ ∃ b ∈ expand g, a = '/' :: b := by
    intro a
    simpa using Glob.mem_expand_surrounded (u := ['/']) (v := []) (by decide) (by decide) (by simp)
      (by simp) hback a
  have hsame : ∀ b ∈ expand g, Pattern.ofGlob ('/' :: b) = Pattern.ofGlob b := by
    intro b hb
    apply Glob.ofGlob_congr
    rw [hbare b (List.mem_cons_of_mem g hb)]
    exact Glob.bare_slash fun hc => hback (Glob.mem_of_mem_expand hb hc)
  constructor
  · rw [exists_compile_iff, exists_compile_iff]
    constructor
    · intro h b hb
      exact hsame b hb ▸ h _ ((hexpand _).mpr ⟨b, hb, rfl⟩)
    · intro h a ha
      obtain ⟨b, hb, rfl⟩ := (hexpand a).mp ha
      exact (hsame b hb).symm ▸ h b hb
  · intro m m' hm hm' t
    rw [accepts_iff_of_compile hm, accepts_iff_of_compile hm', Glob.bare_slash hback, hbare g List.mem_cons_self]
    refine or_congr_right ?_
    constructor
    · rintro ⟨a, ha, p, hp, hread⟩
      obtain ⟨b, hb, rfl⟩ := (hexpand a).mp ha
      exact ⟨b, hb, p, hsame b hb ▸ hp, hread⟩
    · rintro ⟨b, hb, p, hp, hread⟩
      exact ⟨_, (hexpand _).mpr ⟨b, hb, rfl⟩, p, (hsame b hb).symm ▸ hp, hread⟩

namespace IsHome

variable {dirs : List Text} (h : IsHome dirs) (hne : dirs ≠ [])

include h hne

/-- Behind the names of a directory nothing is dropped from the front of a path. -/
theorem bare_behind (p : Path) : bare (ofParts dirs ++ '/' :: p) = ofParts dirs ++ '/' :: slashed p := by
  have hslashed : slashed (ofParts dirs ++ '/' :: p) = trail dirs ++ slashed p := by
    rw [← Glob.trail_append_eq hne, h.slashed_trail_append]
  have hsame : bare (slashed (ofParts dirs ++ '/' :: p)) = bare (ofParts dirs ++ '/' :: p) := by
    unfold Glob.bare
    rw [show Text.replace '\\' '/' (slashed (ofParts dirs ++ '/' :: p)) =
      Text.replace '\\' '/' (ofParts dirs ++ '/' :: p) from Path.slashed_slashed _]
  have hparts := Glob.parts_trail_append h.names (slashed p)
  obtain ⟨n, ns, rfl⟩ := List.exists_cons_of_ne_nil hne
  have hname := (h.names n List.mem_cons_self).name
  have hback : '\\' ∉ trail (n :: ns) ++ slashed p := hslashed ▸ Filter.not_mem_replace (by decide) _
  rw [← hsame, hslashed, Glob.bare_eq_self hback hparts hname.ne_nil hname.ne_here, Glob.trail_append_eq hne]

/-- Behind the names of a directory a clean glob with clean alternatives compiles if it does so alone, and
accepts what it accepts alone. -/
theorem compile_behind {y : Text} (hback : '\\' ∉ y) (hclean : ∀ a ∈ y :: expand y, IsClean a) (k : Casing) :
    ((∃ m, Matcher.compile k (ofParts dirs ++ '/' :: y) = .ok m) ↔ ∃ m, Matcher.compile k y = .ok m) ∧
      ∀ m m', Matcher.compile k (ofParts dirs ++ '/' :: y) = .ok m → Matcher.compile k y = .ok m' →
        ∀ t, t ≠ [] → (m.Accepts (ofParts dirs ++ '/' :: t) ↔ m'.Accepts t) := by
  have hplain := (Glob.ofGlob_trail_slash h.names hne (x := []) (by simp)).1
  have hfree : '\\' ∉ ofParts dirs ++ '/' :: y := by simp [h.unbacked, hback]
  have hbehind : ∀ b, '\\' ∉ b → bare (ofParts dirs ++ '/' :: b) = ofParts dirs ++ '/' :: b := by
    intro b hb
    rw [h.bare_behind hne, slashed, Glob.replace_of_not_mem hb]
  have hbare : ∀ a ∈ (ofParts dirs ++ '/' :: y) :: expand (ofParts dirs ++ '/' :: y), bare a = a := by
    refine List.forall_mem_cons.mpr ⟨hbehind y hback, ?_⟩
    intro a ha
    have hsurrounded := Glob.mem_expand_surrounded (u := ofParts dirs ++ ['/']) (v := []) (by simp [h.unbraced])
      (by simp [h.unbacked]) (by simp) (by simp) hback a
    obtain ⟨b, hb, rfl⟩ := hsurrounded.mp (by simpa using ha)
    simpa using hbehind b fun hc => hback (Glob.mem_of_mem_expand hb hc)
  -- the names are accepted with a slash before them, which makes no difference to the glob
  obtain ⟨hread, haccepts⟩ := Filter.compile_behind hplain h.unbacked h.unbraced hback hclean
    (Or.inl rfl : ([] : Text) = [] ∨ ([] : Text) = ['/']) k
  obtain ⟨hread', haccepts'⟩ := Matcher.compile_slash hfree hbare k
  refine ⟨hread'.symm.trans hread, ?_⟩
  intro m m' hm hm' t ht
  obtain ⟨m'', hm''⟩ := hread'.mpr ⟨m, hm⟩
  rw [← haccepts' m'' m hm'' hm]
  exact haccepts m'' m' hm'' hm' t ht

end IsHome

/-- A tidy line with tidy alternatives. -/
structure IgnoreLine.IsSteady (l : IgnoreLine) : Prop extends l.IsTidy where
  alternatives : ∀ a ∈ expand (slashed l.body), IsClean a

instance (l : IgnoreLine) : Decidable l.IsSteady :=
  decidable_of_iff (l.IsTidy ∧ (expand (slashed l.body)).all (fun a => IsClean a) = true)
    ⟨fun h => ⟨h.1, by simpa using h.2⟩, fun h => ⟨h.toIsTidy, by simpa using h.alternatives⟩⟩

namespace IgnoreLine.IsSteady

variable {l : IgnoreLine} (h : l.IsSteady)

include h

/-- What a line says in the root directory is clean, and so are the alternatives of it. -/
theorem isClean_alternatives (verbatim : Bool) :
    ∀ a ∈ below [] verbatim (slashed l.body) :: expand (below [] verbatim (slashed l.body)), IsClean a := by
  have hback : '\\' ∉ slashed l.body := Filter.not_mem_replace (by decide) l.body
  cases verbatim with
  | true => exact List.forall_mem_cons.mpr ⟨h.clean, h.alternatives⟩
  | false =>
    refine List.forall_mem_cons.mpr ⟨Glob.isClean_anyDepth h.clean, ?_⟩
    intro a ha
    have hsurrounded := Glob.mem_expand_surrounded (u := globstar ++ ['/']) (v := []) (by decide) (by decide)
      (by simp) (by simp) hback a
    obtain ⟨b, hb, rfl⟩ := hsurrounded.mp (by simpa [below, trail, anyDepth, globstar] using ha)
    simpa [anyDepth, globstar] using Glob.isClean_anyDepth (h.alternatives b hb)

variable {dirs : List Text} (hdirs : IsHome dirs) (hne : dirs ≠ [])

include hdirs hne

/-- Below the names of a directory the glob of a line compiles if it does so in the root directory, and
accepts what it accepts there. -/
theorem compile_below (k : Casing) (verbatim : Bool) :
    ((∃ m, Matcher.compile k (below dirs verbatim (slashed l.body)) = .ok m) ↔
      ∃ m, Matcher.compile k (below [] verbatim (slashed l.body)) = .ok m) ∧
    ∀ m m', Matcher.compile k (below dirs verbatim (slashed l.body)) = .ok m →
      Matcher.compile k (below [] verbatim (slashed l.body)) = .ok m' →
        ∀ t, t ≠ [] → (m.Accepts (ofParts dirs ++ '/' :: t) ↔ m'.Accepts t) := by
  have hback : '\\' ∉ below [] verbatim (slashed l.body) := by
    have hbody : '\\' ∉ slashed l.body := Filter.not_mem_replace (by decide) l.body
    cases verbatim with
    | true => exact hbody
    | false => simpa [below, trail, anyDepth] using hbody
  have hbelow : below dirs verbatim (slashed l.body) =
      ofParts dirs ++ '/' :: below [] verbatim (slashed l.body) := Glob.trail_append_eq hne _
  rw [hbelow]
  exact hdirs.compile_behind hne hback (h.isClean_alternatives verbatim) k

/-- The raw glob of a line in a directory says there what that of the line in the root directory says. -/
theorem echoes {s s' : GlobSource} (hexclude : s'.exclude = s.exclude) (cwd : Path) (k : Casing) :
    Filter.Echoes ⟨cwd, none⟩ ⟨cwd, none⟩ k (ofParts dirs)
      (s'.mark (GlobSource.ofLine (way dirs) l.text))
      (s.mark (GlobSource.ofLine here l.text)) := by
  have hroot : IsHome [] := isHome_of_chars (by simp)
  have hread' := h.toIsTidy.readMarks_ofLine hdirs s'
  have hread := h.toIsTidy.readMarks_ofLine hroot s
  rw [show way [] = here from rfl] at hread
  have hcondition' := Filter.readCondition?_of_isClean cwd (k := k) hread'
    (Glob.isClean_below hdirs.names l.verbatim h.clean)
  have hcondition := Filter.readCondition?_of_isClean cwd (k := k) hread
    (Glob.isClean_below hroot.names l.verbatim h.clean)
  obtain ⟨hiff, haccepts⟩ := h.compile_below hdirs hne k l.verbatim
  dsimp only at hcondition hcondition'
  constructor
  · rw [hcondition, hcondition']
    cases hm' : Matcher.compile k (below dirs l.verbatim (slashed l.body)) <;>
      cases hm : Matcher.compile k (below [] l.verbatim (slashed l.body)) <;> simp_all
  · intro c' c hc' hc
    rw [hcondition'] at hc'
    rw [hcondition] at hc
    cases hm' : Matcher.compile k (below dirs l.verbatim (slashed l.body)) with
    | error e => rw [hm'] at hc'; cases hc'
    | ok m' =>
      cases hm : Matcher.compile k (below [] l.verbatim (slashed l.body)) with
      | error e => rw [hm] at hc; cases hc
      | ok m =>
        rw [hm'] at hc'
        rw [hm] at hc
        obtain rfl := Except.ok.inj hc'
        obtain rfl := Except.ok.inj hc
        exact .some ⟨hexclude, rfl, haccepts m' m hm' hm⟩

end IgnoreLine.IsSteady

/-- An ignore file in a directory says there what the same file in the root directory says, if its lines are
clean and have clean alternatives. -/
theorem IgnoreFile.alike {fs : FileSystem} {root : Option Path} {dirs : List Text} {s s' : GlobSource}
    {content : Text} (h : IgnoreFile fs root [] s content) (h' : IgnoreFile fs root dirs s' content)
    (hexclude : s'.exclude = s.exclude) (hdirs : IsHome dirs) (hne : dirs ≠ [])
    (hlines : ∀ line ∈ GlobSource.ignoreLines content, ∃ l : IgnoreLine, l.IsSteady ∧ line = l.text)
    (k : Casing) :
    ∃ globs globs', GlobSource.load fs root [s] = .ok globs ∧ GlobSource.load fs root [s'] = .ok globs' ∧
      ((∃ e, Filter.compile ⟨fs.cwd, none⟩ k globs' = .error e) ↔
        ∃ e, Filter.compile ⟨fs.cwd, none⟩ k globs = .error e) ∧
      ∀ f f', Filter.compile ⟨fs.cwd, none⟩ k globs = .ok f → Filter.compile ⟨fs.cwd, none⟩ k globs' = .ok f' →
        ∀ p, p ≠ [] → bare p = slashed p → f.verdict p = f'.verdict (ofParts dirs ++ '/' :: p) := by
  have hechoes : List.Forall₂ (Filter.Echoes ⟨fs.cwd, none⟩ ⟨fs.cwd, none⟩ k (ofParts dirs))
      ((GlobSource.ignoreLines content).map fun line =>
        s'.mark (GlobSource.ofLine (way dirs) line))
      ((GlobSource.ignoreLines content).map fun line =>
        s.mark (GlobSource.ofLine (way []) line)) := by
    rw [List.forall₂_map_left_iff, List.forall₂_map_right_iff, List.forall₂_same]
    intro line hline
    obtain ⟨l, hl, rfl⟩ := hlines line hline
    exact hl.echoes hdirs hne hexclude fs.cwd k
  obtain ⟨hiff, hconditions⟩ := Filter.conditions_shift hechoes
  refine ⟨_, _, h.load_eq (by simp), h'.load_eq fun n hn => (hdirs.names n hn).name, hiff, ?_⟩
  intro f f' hf hf' p hp hbare
  have hbehind := hdirs.bare_behind hne p
  have hfull : slashed p ≠ [] := by simpa [slashed, Text.replace] using hp
  rw [Filter.verdict, Filter.verdict, hbehind, hbare, Filter.foldl_read_shifts (hconditions f' f hf' hf) hfull]

/-- A line that is lifted below `sub` and one that holds only there say the same as in the root directory. -/
theorem IgnoreFile.alike_in_subdirectory :
    let s : GlobSource := ⟨".ignore".toList, .file, true⟩
    let s' : GlobSource := ⟨"sub/.ignore".toList, .file, true⟩
    let content := "!a\\*.\x7bo,so\x7d\n/dist/".toList
    let fs := FileSystem.ofFiles "/w".toList [("/w/.ignore".toList, content), ("/w/sub/.ignore".toList, content)]
    IgnoreFile fs none [] s content ∧ IgnoreFile fs none ["sub".toList] s' content ∧ s'.exclude = s.exclude ∧
      IsHome ["sub".toList] ∧ ["sub".toList] ≠ [] ∧
      (∀ line ∈ GlobSource.ignoreLines content, ∃ l : IgnoreLine, l.IsSteady ∧ line = l.text) ∧
      ∃ globs globs', GlobSource.load fs none [s] = .ok globs ∧ GlobSource.load fs none [s'] = .ok globs' ∧
        ((∃ e, Filter.compile ⟨fs.cwd, none⟩ .ignored globs' = .error e) ↔
          ∃ e, Filter.compile ⟨fs.cwd, none⟩ .ignored globs = .error e) ∧
        ∀ f f', Filter.compile ⟨fs.cwd, none⟩ .ignored globs = .ok f →
          Filter.compile ⟨fs.cwd, none⟩ .ignored globs' = .ok f' → ∀ p, p ≠ [] → bare p = slashed p →
            f.verdict p = f'.verdict (ofParts ["sub".toList] ++ '/' :: p) := by
  intro s s' content fs
  have hname : IsName ".ignore".toList := by decide
  have hfile : IgnoreFile fs none [] s content :=
    ⟨by decide, rfl, by decide, ⟨_, hname, by decide +kernel⟩, by decide +kernel⟩
  have hfile' : IgnoreFile fs none ["sub".toList] s' content :=
    ⟨by decide, rfl, by decide, ⟨_, hname, by decide +kernel⟩, by decide +kernel⟩
  have hdirs : IsHome ["sub".toList] := by decide +kernel
  have hlines : ∀ line ∈ GlobSource.ignoreLines content, ∃ l : IgnoreLine, l.IsSteady ∧ line = l.text := by
    have hcontent : GlobSource.ignoreLines content = ["!a\\*.\x7bo,so\x7d".toList, "/dist/".toList] := by
      decide +kernel
    rw [hcontent]
    intro line hline
    rcases List.mem_pair.mp hline with rfl | rfl
    · exact ⟨⟨true, false, "a\\*.\x7bo,so\x7d".toList, 0⟩, by decide +kernel, by decide +kernel⟩
    · exact ⟨⟨false, true, "dist".toList, 1⟩, by decide +kernel, by decide +kernel⟩
  exact ⟨hfile, hfile', rfl, hdirs, by decide, hlines,
    IgnoreFile.alike hfile hfile' rfl hdirs (by decide) hlines .ignored⟩

end TreeCensus
