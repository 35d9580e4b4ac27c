import TreeCensus.Glob.Ignore
import TreeCensus.Proofs.Filter.Compiling

/-!
# Globs further down

A globstar before a glob reads any number of folders, and names before it read themselves; then the glob
reads what it reads on its own (`compile_below`). A glob of ordinary characters fits itself segment by
segment, so it makes no difference that a matcher always accepts what is spelled like its glob.
-/

namespace TreeCensus.Glob

set_option autoImplicit false

open Pattern (chain spelled)
open TreeCensus.Path (parts ofParts IsName IsClean)

/-- A name that a glob reads as it stands. -/
structure IsLiteral (n : Text) : Prop where
  name : IsName n
  plain : IsPlain n
  back : '\\' ∉ n
  unbraced : '\x7b' ∉ n

instance (n : Text) : Decidable (IsLiteral n) :=
  decidable_of_iff (IsName n ∧ IsPlain n ∧ '\\' ∉ n ∧ '\x7b' ∉ n)
    ⟨fun ⟨name, plain, back, unbraced⟩ => ⟨name, plain, back, unbraced⟩,
      fun h => ⟨h.name, h.plain, h.back, h.unbraced⟩⟩

/-- A glob without brackets, groups and alternatives, on one line, whose segments are names. -/
structure IsOrdinary (x : Text) : Prop where
  clean : IsClean x
  chars : ∀ c ∈ x, c ∉ ['[', ']', '(', ')', '\x7b', '\x7d', '|', '\\', '\r', '\n']

instance (x : Text) : Decidable (IsOrdinary x) :=
  decidable_of_iff (IsClean x ∧
    x.all (fun c => c ∉ ['[', ']', '(', ')', '\x7b', '\x7d', '|', '\\', '\r', '\n']) = true)
    ⟨fun h => ⟨h.1, fun c hc => of_decide_eq_true (List.all_eq_true.mp h.2 c hc)⟩,
      fun h => ⟨h.clean, List.all_eq_true.mpr fun c hc => decide_eq_true (h.chars c hc)⟩⟩

theorem IsOrdinary.not_mem {x : Text} (h : IsOrdinary x) {c : Char}
    (hc : c ∈ ['[', ']', '(', ')', '\x7b', '\x7d', '|', '\\', '\r', '\n']) : c ∉ x :=
  fun hmem => h.chars c hmem hc

theorem IsOrdinary.bare {x : Text} (h : IsOrdinary x) : Glob.bare x = x :=
  bare_of_isClean h.clean (h.not_mem (by decide))

section Folders

theorem accepts_folders (k : Casing) (ps : List Pattern) (t : Text) : ((chain .empty (.atom .folders :: ps)).under k).Accepts k t ↔
    ∃ u v, t = u ++ v ∧ Folders u ∧ ((chain .empty ps).under k).Accepts k v := by
  have hlinks : (Pattern.atom .folders :: ps).flatMap (Pattern.links k) =
      .atom .folders :: ps.flatMap (Pattern.links k) := by
    cases k <;> rfl
  unfold Pattern.Accepts
  simp only [Pattern.reads_under_chain, hlinks]
  exact Atom.reads_iff k .folders _ t

theorem pathTokens?_globstar {s : Text} (hs : s ≠ globstar) (rest : List Text) :
    pathTokens? none (globstar :: s :: rest) =
      (pathTokens? none (s :: rest)).map ([.atom .folders] ++ ·) := by
  rw [pathTokens?, if_pos rfl]
  simp only [pathTokens?, if_neg hs]
  rfl

/-- A globstar before a glob does not decide whether it compiles, and its pattern stands behind the
folders. -/
theorem ofGlob_anyDepth {x y s : Text} {rest : List Text} (hx : segments x = s :: rest)
    (hy : segments y = globstar :: s :: rest) (hs : s ≠ globstar) :
    (∃ f f', Pattern.ofGlob y = .error f ∧ Pattern.ofGlob x = .error f') ∨
    ∃ ps, Pattern.ofGlob y = .ok (chain .empty (.atom .folders :: ps)) ∧
      Pattern.ofGlob x = .ok (chain .empty ps) := by
  rw [Pattern.ofGlob, Pattern.ofGlob, tokens?, tokens?, hx, hy, if_neg (by simp), if_neg (by simp [hs]),
    pathTokens?_globstar hs]
  cases hts : pathTokens? none (s :: rest) with
  | none => exact .inl ⟨_, _, rfl, rfl⟩
  | some ts =>
    let g : Group := (Group.start 0).push (.atom .folders)
    have habreast : Abreast (chain .empty [.atom .folders]) .empty [g] [.start 0] :=
      .outermost [] rfl rfl rfl rfl
    rcases assemble_abreast habreast (enclosed_of_pathTokens? hts 0)
      (([Token.atom .folders] ++ ts).flatMap Token.written) (ts.flatMap Token.written)
      (0 + Atom.folders.written.length) 0 with h | ⟨ps, hps, hps'⟩
    · exact .inl h
    · exact .inr ⟨ps, hps, hps'⟩

end Folders

theorem accepts_spelled {ps : List Pattern} {u t : Text} :
    (chain .empty (spelled u ++ ps)).Accepts .heeded t ↔
      ∃ v, t = u ++ v ∧ (chain .empty ps).Accepts .heeded v := by
  constructor
  · exact Pattern.exists_of_accepts_behind
  · rintro ⟨v, rfl, hv⟩
    exact (Pattern.accepts_behind .heeded u v ps).mpr hv

section Trail

variable {dirs : List Text} (hdirs : ∀ n ∈ dirs, IsLiteral n)

theorem trail_append (ps qs : List Text) : trail (ps ++ qs) = trail ps ++ trail qs := List.flatMap_append

theorem trail_append_eq {ps : List Text} (hne : ps ≠ []) (x : Text) : trail ps ++ x = ofParts ps ++ '/' :: x := by
  rw [← join_append_slash hne, List.append_assoc]
  rfl

theorem ofParts_concat (ps : List Text) (r : Text) : ofParts (ps ++ [r]) = trail ps ++ r := by
  by_cases hps : ps = []
  · rw [hps]
    rfl
  · rw [ofParts, Text.join_append hps (by simp), trail_append_eq hps]
    rfl

include hdirs

theorem not_mem_trail {c : Char} (hslash : c ≠ '/') (h : ∀ n, IsLiteral n → c ∉ n) : c ∉ trail dirs := by
  intro hmem
  obtain ⟨n, hn, hc⟩ := List.mem_flatMap.mp hmem
  rcases List.mem_append.mp hc with hc | hc
  · exact h n (hdirs n hn) hc
  · exact hslash (List.mem_singleton.mp hc)

theorem parts_trail_append (x : Text) : parts (trail dirs ++ x) = dirs ++ parts x := by
  induction dirs with
  | nil => rfl
  | cons n dirs ih =>
    have hcons : trail (n :: dirs) ++ x = n ++ '/' :: (trail dirs ++ x) := by simp [trail]
    rw [hcons, parts, pieces_append (hdirs n List.mem_cons_self).name.single, List.cons_append]
    exact congrArg (n :: ·) (ih fun m hm => hdirs m (List.mem_cons_of_mem n hm))

/-- Names are plain, and a slash before them makes no difference. -/
theorem ofGlob_trail_slash (hne : dirs ≠ []) {x : Text} (hback : '\\' ∉ x) :
    (∀ s ∈ parts (ofParts dirs), IsPlain s) ∧ '\\' ∉ ofParts dirs ∧
      Pattern.ofGlob (trail dirs ++ x) = Pattern.ofGlob ('/' :: ofParts dirs ++ '/' :: x) := by
  have hjoin := join_append_slash hne
  have hfree : '\\' ∉ ofParts dirs := by
    have hnot := not_mem_trail hdirs (c := '\\') (by decide) fun n hn => hn.back
    rw [← hjoin, List.mem_append, not_or] at hnot
    exact hnot.1
  refine ⟨?_, hfree, ?_⟩
  · intro s hs
    rw [Path.parts_ofParts (fun n hn => (hdirs n hn).name) hne] at hs
    exact (hdirs s hs).plain
  · obtain ⟨n, ns, rfl⟩ := List.exists_cons_of_ne_nil hne
    have hn := (hdirs n List.mem_cons_self).name
    have hsame := trail_append_eq (List.cons_ne_nil n ns) x
    have hnot : '\\' ∉ ofParts (n :: ns) ++ '/' :: x := by simp [hfree, hback]
    apply ofGlob_congr
    rw [List.cons_append, bare_slash hnot, ← hsame]
    exact bare_eq_self (hsame ▸ hnot) (parts_trail_append hdirs x) hn.ne_nil hn.ne_here

/-- Behind names and a slash a glob is read as on its own, unless it is a globstar. -/
theorem ofGlob_trail {x : Text} (hback : '\\' ∉ x) (hx : segments x = collapse (parts x))
    (hlone : segments x ≠ [globstar]) :
    (∃ f f', Pattern.ofGlob (trail dirs ++ x) = .error f ∧ Pattern.ofGlob x = .error f') ∨
    ∃ ps, Pattern.ofGlob (trail dirs ++ x) = .ok (chain .empty (spelled (trail dirs) ++ ps)) ∧
      Pattern.ofGlob x = .ok (chain .empty ps) := by
  cases dirs with
  | nil =>
    change (∃ f f', Pattern.ofGlob x = .error f ∧ _) ∨ ∃ ps, Pattern.ofGlob x = .ok (chain .empty ps) ∧ _
    rw [Pattern.ofGlob, tokens?, if_neg hlone]
    cases hts : pathTokens? none (segments x) with
    | none => exact .inl ⟨_, _, rfl, rfl⟩
    | some ts =>
      rcases assemble_behind (enclosed_of_pathTokens? hts 0) [] (ts.flatMap Token.written)
        (ts.flatMap Token.written) with ⟨f, _, hf, _⟩ | ⟨ps, hps, _⟩
      · exact .inl ⟨f, f, hf, hf⟩
      · exact .inr ⟨ps, hps, hps⟩
  | cons n dirs =>
    obtain ⟨hplain, hfree, hsame⟩ := ofGlob_trail_slash hdirs (by simp) hback
    rw [hsame, ← join_append_slash (List.cons_ne_nil n dirs)]
    exact ofGlob_behind_slash hplain hfree hback hx (hx ▸ hlone)

end Trail

section Self

theorem fits_self {P : Prop} {s : Text} (hopen : '(' ∉ s) (hclose : ')' ∉ s) : Fits P s s := by
  induction s with
  | nil => exact .nil
  | cons c s ih =>
    simp only [List.mem_cons, not_or] at hopen hclose
    have hrest := ih hopen.2 hclose.2
    by_cases hrun : c = '*'
    · subst hrun
      exact .run (u := ['*']) hrest
    · by_cases hone : c = '?'
      · subst hone
        exact .one hrest
      · exact .char hrun hone (fun _ => ⟨Ne.symm hopen.1, Ne.symm hclose.1⟩) hrest

theorem fitsName_self {s : Text} (hopen : '(' ∉ s) (hclose : ')' ∉ s) : FitsName s s := by
  unfold FitsName
  split
  · next h => exact h.1
  · exact fits_self hopen hclose

/-- A globstar that fits some names fits one more before them. -/
theorem fitsPath_globstar_cons {previous : Option Text} {rest names : List Text} {n : Text} (hn : n ≠ [])
    (h : FitsPath previous (globstar :: rest) names) :
    FitsPath previous (globstar :: rest) (n :: names) := by
  have hmore : ∀ {next : List Text}, (∃ k, (∀ m ∈ names.take k, m ≠ []) ∧
      FitsPath (some globstar) next (names.drop k)) → ∃ k, (∀ m ∈ (n :: names).take k, m ≠ []) ∧
        FitsPath (some globstar) next ((n :: names).drop k) := by
    rintro next ⟨k, hk, hfits⟩
    refine ⟨k + 1, ?_, hfits⟩
    intro m hm
    rcases List.mem_cons.mp hm with rfl | hm
    · exact hn
    · exact hk m hm
  cases rest with
  | nil =>
    cases previous with
    | none => exact hmore h
    | some p =>
      rw [fitsPath_last]
      simp
  | cons t rest =>
    rw [fitsPath_globstar] at h ⊢
    exact hmore h

theorem exists_collapse_cons (s : Text) (rest : List Text) : ∃ rest', collapse (s :: rest) = s :: rest' := by
  induction rest generalizing s with
  | nil => exact ⟨[], rfl⟩
  | cons t rest ih =>
    rw [collapse]
    split
    · next h =>
      obtain ⟨rest', hrest⟩ := ih t
      exact ⟨rest', by rw [hrest, h.1, h.2]⟩
    · exact ⟨_, rfl⟩

/-- Segments fit themselves, each globstar fitting all those that stand together. -/
theorem fitsPath_self {segs : List Text} (h : ∀ s ∈ segs, s ≠ [] ∧ FitsName s s) (previous : Option Text) :
    FitsPath previous (collapse segs) segs := by
  fun_induction collapse segs generalizing previous with
  | case1 s t r hst ih =>
    obtain ⟨rfl, rfl⟩ := hst
    have hrest := ih (fun s hs => h s (List.mem_cons_of_mem _ hs)) previous
    obtain ⟨rest', hcollapse⟩ := exists_collapse_cons globstar r
    rw [hcollapse] at hrest ⊢
    exact fitsPath_globstar_cons (h globstar List.mem_cons_self).1 hrest
  | case2 s t r hst ih =>
    have hrest := ih fun s hs => h s (List.mem_cons_of_mem _ hs)
    by_cases hs : s = globstar
    · subst hs
      obtain ⟨rest', hcollapse⟩ := exists_collapse_cons t r
      rw [hcollapse] at hrest ⊢
      rw [fitsPath_globstar]
      exact ⟨1, by simp [globstar], hrest (some globstar)⟩
    · rw [fitsPath_name hs]
      exact ⟨s, t :: r, rfl, (h s List.mem_cons_self).2, hrest (some s)⟩
  | case3 segs hsegs =>
    cases segs with
    | nil => rfl
    | cons s rest =>
      obtain rfl : rest = [] := by
        cases rest with
        | nil => rfl
        | cons t r => exact absurd rfl (hsegs s t r)
      by_cases hs : s = globstar
      · subst hs
        cases previous with
        | none => exact ⟨1, by simp [globstar], rfl⟩
        | some p =>
          rw [fitsPath_last]
          simp
      · rw [fitsPath_name hs]
        exact ⟨s, [], rfl, (h s List.mem_cons_self).2, rfl⟩

/-- The pattern of an ordinary glob accepts the glob itself. -/
theorem IsOrdinary.accepts_self {x : Text} (h : IsOrdinary x) :
    ∃ p, Pattern.ofGlob x = .ok p ∧ p.Accepts .heeded x := by
  obtain ⟨p, hp, hspells⟩ := ofGlob_spells_iff (h.not_mem (c := '[') (by decide))
  refine ⟨p, hp, ?_⟩
  rw [Pattern.accepts_iff_spells, hspells x (h.not_mem (by decide)), FitsGlob]
  split
  · intro hnil
    exact (h.clean [] (by rw [hnil]; exact List.mem_singleton_self _)).1 rfl
  · rw [segments, h.bare]
    apply fitsPath_self
    intro s hs
    have hmem : ∀ {c : Char}, c ∉ x → c ∉ s := fun hc hcs => hc (mem_of_mem_pieces hs hcs)
    exact ⟨(h.clean s hs).1, fitsName_self (hmem (h.not_mem (by decide))) (hmem (h.not_mem (by decide)))⟩

end Self

section Below

variable {k : Casing} {dirs : List Text} {x : Text}

theorem exists_matcher {g : Text} (hg : '\x7b' ∉ g) {p : Pattern} (hp : Pattern.ofGlob g = .ok p) :
    ∃ m, Matcher.compile k g = .ok m ∧ ∀ t, m.Accepts t ↔ t = bare g ∨ (p.under k).Accepts k t := by
  have hexpand : expand g = [g] := expand_of_none (firstGroup?_eq_none hg [])
  obtain ⟨m, hm⟩ : ∃ m, Matcher.compile k g = .ok m := by
    rw [Matcher.exists_compile_iff, hexpand]
    intro a ha
    rw [List.mem_singleton.mp ha]
    exact ⟨p, hp⟩
  refine ⟨m, hm, ?_⟩
  intro t
  rw [Matcher.accepts_iff_of_compile hm, hexpand]
  simp [hp]

theorem isClean_trail (hdirs : ∀ n ∈ dirs, IsLiteral n) (hx : IsClean x) : IsClean (trail dirs ++ x) := by
  intro n hn
  rw [parts_trail_append hdirs] at hn
  rcases List.mem_append.mp hn with hn | hn
  · exact ⟨(hdirs n hn).name.ne_nil, (hdirs n hn).name.ne_here, (hdirs n hn).name.ne_up⟩
  · exact hx n hn

theorem parts_anyDepth (x : Text) : parts (anyDepth x) = globstar :: parts x :=
  Path.parts_append_slash globstar x

theorem isClean_anyDepth (hx : IsClean x) : IsClean (anyDepth x) := by
  intro n hn
  rw [parts_anyDepth] at hn
  rcases List.mem_cons.mp hn with rfl | hn
  · decide
  · exact hx n hn

theorem IsOrdinary.anyDepth (h : IsOrdinary x) : IsOrdinary (anyDepth x) := by
  refine ⟨isClean_anyDepth h.clean, ?_⟩
  intro c hc
  rcases List.mem_append.mp (show c ∈ ['*', '*', '/'] ++ x from hc) with hc | hc
  · have hfree : ∀ d ∈ ['*', '*', '/'],
        d ∉ ['[', ']', '(', ')', '\x7b', '\x7d', '|', '\\', '\r', '\n'] := by simp
    exact hfree c hc
  · exact h.chars c hc

/-- A glob behind names. -/
def below (dirs : List Text) (anchored : Bool) (x : Text) : Text :=
  trail dirs ++ if anchored then x else anyDepth x

theorem isClean_below (hdirs : ∀ n ∈ dirs, IsLiteral n) (anchored : Bool) (hx : IsClean x) :
    IsClean (below dirs anchored x) := by
  apply isClean_trail hdirs
  split
  · exact hx
  · exact isClean_anyDepth hx

theorem IsOrdinary.choose (h : IsOrdinary x) (anchored : Bool) :
    IsOrdinary (if anchored then x else Glob.anyDepth x) := by
  split
  · exact h
  · exact h.anyDepth

section Choice

variable (h : IsOrdinary x) (hfirst : ¬ globstar <+: x)

include h hfirst

/-- The segments of an ordinary glob, and those that it has behind a globstar. -/
theorem IsOrdinary.exists_segments : ∃ s rest, segments x = s :: rest ∧
    segments (Glob.anyDepth x) = globstar :: s :: rest ∧ s ≠ globstar := by
  obtain ⟨s, ss, hparts⟩ : ∃ s ss, parts x = s :: ss := List.exists_cons_of_ne_nil (Text.pieces_ne_nil '/' x)
  have hs : s ≠ globstar := by
    rintro rfl
    apply hfirst
    have hjoin := Text.join_pieces '/' x
    rw [show Text.pieces '/' x = globstar :: ss from hparts, join_cons_eq] at hjoin
    exact ⟨_, hjoin⟩
  obtain ⟨rest, hcollapse⟩ := exists_collapse_cons s ss
  refine ⟨s, rest, ?_, ?_, hs⟩
  · rw [segments, h.bare]
    exact (congrArg collapse hparts).trans hcollapse
  · rw [segments, h.anyDepth.bare]
    change collapse (parts (Glob.anyDepth x)) = _
    rw [parts_anyDepth, hparts, collapse, if_neg fun hst => hs hst.2, hcollapse]

/-- A glob is not a globstar alone, whether it is held to its place or not. -/
theorem IsOrdinary.not_lone (anchored : Bool) :
    segments (if anchored then x else Glob.anyDepth x) ≠ [globstar] := by
  obtain ⟨s, rest, hx, hdeep, hs⟩ := h.exists_segments hfirst
  cases anchored with
  | true =>
    change segments x ≠ _
    rw [hx]
    simp [hs]
  | false =>
    change segments (Glob.anyDepth x) ≠ _
    rw [hdeep]
    simp

/-- At any depth a glob accepts what it accepts on its own, behind folders. -/
theorem IsOrdinary.ofGlob_choose (anchored : Bool) : ∃ p ps, Pattern.ofGlob x = .ok p ∧
    p.Accepts .heeded x ∧ Pattern.ofGlob (if anchored then x else Glob.anyDepth x) = .ok (chain .empty ps) ∧
      ∀ t, (chain .empty ps).Accepts .heeded t ↔
        ∃ u v, t = u ++ v ∧ Folders u ∧ (anchored = true → u = []) ∧ p.Accepts .heeded v := by
  obtain ⟨s, rest, hx, hdeep, hs⟩ := h.exists_segments hfirst
  obtain ⟨p, hp, hself⟩ := h.accepts_self
  have hown := ofGlob_anyDepth hx hdeep hs
  rw [hp] at hown
  obtain ⟨f, f', _, hf'⟩ | ⟨ps, hps, hps'⟩ := hown
  · cases hf'
  obtain rfl := Except.ok.inj hps'
  cases anchored with
  | true =>
    refine ⟨_, ps, hp, hself, hp, ?_⟩
    intro t
    constructor
    · intro ht
      exact ⟨[], t, rfl, .nil, fun _ => rfl, ht⟩
    · rintro ⟨u, v, rfl, _, hu, hv⟩
      rw [hu rfl]
      exact hv
  | false =>
    refine ⟨_, .atom .folders :: ps, hp, hself, hps, ?_⟩
    intro t
    have hiff := accepts_folders .heeded ps t
    simpa [Pattern.under] using hiff

/-- Behind names a glob accepts these names, then folders unless it is held to its place, and then what it
accepts on its own. -/
theorem IsOrdinary.accepts_below (hdirs : ∀ n ∈ dirs, IsLiteral n) (anchored : Bool) :
    ∃ m m', Matcher.compile .heeded (below dirs anchored x) = .ok m ∧ Matcher.compile .heeded x = .ok m' ∧
      ∀ t, m.Accepts t ↔ ∃ u v, t = trail dirs ++ (u ++ v) ∧ Folders u ∧ (anchored = true → u = []) ∧
        m'.Accepts v := by
  obtain ⟨p, ps, hp, hself, hps, hreads⟩ := h.ofGlob_choose hfirst anchored
  have hy := h.choose anchored
  have hbehind := ofGlob_trail hdirs (hy.not_mem (by decide)) (by rw [segments, hy.bare]; rfl)
    (h.not_lone hfirst anchored)
  rw [hps] at hbehind
  obtain ⟨f, f', _, hf'⟩ | ⟨ps', hps', hsame⟩ := hbehind
  · cases hf'
  have hfree : '\x7b' ∉ trail dirs ∧ '\\' ∉ trail dirs :=
    ⟨not_mem_trail hdirs (by decide) fun n hn => hn.unbraced, not_mem_trail hdirs (by decide) fun n hn => hn.back⟩
  have hbare : Glob.bare (below dirs anchored x) = below dirs anchored x := by
    apply bare_of_isClean (isClean_below hdirs anchored h.clean)
    simp [below, hfree.2, hy.not_mem (c := '\\') (by decide)]
  obtain ⟨m, hm, hmiff⟩ := exists_matcher (k := .heeded) (g := below dirs anchored x)
    (by simp [below, hfree.1, hy.not_mem (c := '\x7b') (by decide)]) hps'
  obtain ⟨m', hm', hmiff'⟩ := exists_matcher (k := .heeded) (h.not_mem (c := '\x7b') (by decide)) hp
  refine ⟨m, m', hm, hm', ?_⟩
  have hm'p : ∀ r, m'.Accepts r ↔ p.Accepts .heeded r := by
    intro r
    rw [hmiff', h.bare]
    constructor
    · rintro (rfl | hr)
      · exact hself
      · exact hr
    · exact .inr
  intro t
  simp only [hm'p]
  rw [hmiff, hbare]
  change _ ∨ (chain .empty (spelled (trail dirs) ++ ps')).Accepts .heeded t ↔ _
  rw [accepts_spelled, ← Except.ok.inj hsame]
  simp only [hreads]
  constructor
  · rintro (rfl | ⟨_, rfl, u, v, rfl, hrest⟩)
    · obtain ⟨u, hu, hfolders, hnone⟩ : ∃ u, (if anchored then x else Glob.anyDepth x) = u ++ x ∧ Folders u ∧
          (anchored = true → u = []) := by
        cases anchored with
        | true => exact ⟨[], rfl, .nil, fun _ => rfl⟩
        | false =>
          exact ⟨globstar ++ '/' :: [], rfl, .cons (by decide) (by decide) .nil, fun h => absurd h Bool.false_ne_true⟩
      exact ⟨u, x, by rw [below, hu], hfolders, hnone, hself⟩
    · exact ⟨u, v, rfl, hrest⟩
  · rintro ⟨u, v, rfl, hrest⟩
    exact .inr ⟨u ++ v, rfl, u, v, rfl, hrest⟩

/-- An ordinary glob reads behind names, or else at any depth behind them, what it reads on its own. -/
theorem IsOrdinary.compile_below (hdirs : ∀ n ∈ dirs, IsLiteral n) (anchored : Bool) :
    ∃ m m', Matcher.compile .heeded (below dirs anchored x) = .ok m ∧ Matcher.compile .heeded x = .ok m' ∧
      ∀ t, m.Accepts t ↔ ∃ qs r, (∀ q ∈ qs, q ≠ [] ∧ '/' ∉ q) ∧ (anchored = true → qs = []) ∧
        t = ofParts (dirs ++ qs ++ [r]) ∧ m'.Accepts r := by
  obtain ⟨m, m', hm, hm', haccepts⟩ := h.accepts_below hfirst hdirs anchored
  have hjoin : ∀ qs r, ofParts (dirs ++ qs ++ [r]) = trail dirs ++ (trail qs ++ r) := by
    intro qs r
    rw [ofParts_concat, trail_append, List.append_assoc]
  refine ⟨m, m', hm, hm', ?_⟩
  intro t
  rw [haccepts]
  simp only [hjoin]
  constructor
  · rintro ⟨_, v, rfl, ⟨qs, hqs, rfl⟩, hnone, hv⟩
    refine ⟨qs, v, hqs, ?_, rfl, hv⟩
    intro hanchored
    cases qs with
    | nil => rfl
    | cons q qs => simpa using hnone hanchored
  · rintro ⟨qs, r, hqs, hnone, rfl, hr⟩
    refine ⟨trail qs, r, rfl, ⟨qs, hqs, rfl⟩, ?_, hr⟩
    intro hanchored
    rw [hnone hanchored]
    rfl

end Choice

end Below

end TreeCensus.Glob
