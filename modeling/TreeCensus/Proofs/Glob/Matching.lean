import TreeCensus.Path
import TreeCensus.Proofs.Glob.Expansion
import TreeCensus.Proofs.Glob.Segment

/-!
# Globs read segment by segment

`FitsGlob` compares the segments of a glob with the names of a path, one after the other. A glob without
brackets always compiles, and its matcher accepts a path just if the path is spelled like the glob or one
of the glob's alternatives fits it segment by segment (`matcher_accepts_iff`).
-/

namespace TreeCensus.Glob

set_option autoImplicit false

/-- Whether the segments after `previous` fit names. -/
def FitsPath : (previous : Option Text) → List Text → List Text → Prop
  | _, [], names => names = []
  | previous, s :: rest, names =>
    if s = globstar then
      match previous, rest with
      -- The last globstar.
      | some p, [] => Text.endsWith ['*'] p → names ≠ []
      | _, _ => ∃ k, (∀ n ∈ names.take k, n ≠ []) ∧ FitsPath (some s) rest (names.drop k)
    else
      match names with
      | [] => False
      | n :: names => FitsName s n ∧ FitsPath (some s) rest names

/-- Whether a glob without braces fits a path. A globstar alone fits whatever is not empty. -/
def FitsGlob (glob path : Text) : Prop :=
  if segments glob = [globstar] then path ≠ []
  else FitsPath none (segments glob) (Path.parts path)

theorem pieces_of_not_mem {sep : Char} {t : Text} (h : sep ∉ t) : Text.pieces sep t = [t] := by
  induction t with
  | nil => rfl
  | cons c r ih =>
    simp only [List.mem_cons, not_or] at h
    rw [Text.pieces, if_neg (Ne.symm h.1), ih h.2]

theorem pieces_append {sep : Char} {n : Text} (h : sep ∉ n) (r : Text) :
    Text.pieces sep (n ++ sep :: r) = n :: Text.pieces sep r := by
  induction n with
  | nil => simp [Text.pieces]
  | cons c n ih =>
    simp only [List.mem_cons, not_or] at h
    rw [List.cons_append, Text.pieces, if_neg (Ne.symm h.1), ih h.2]

/-- A text either has no separator, or it has a first one. -/
theorem pieces_cases (sep : Char) (t : Text) :
    (sep ∉ t ∧ Text.pieces sep t = [t]) ∨
    ∃ n r, t = n ++ sep :: r ∧ sep ∉ n ∧ Text.pieces sep t = n :: Text.pieces sep r := by
  by_cases h : sep ∈ t
  · obtain ⟨n, r, rfl, hn⟩ := List.eq_append_cons_of_mem h
    exact Or.inr ⟨n, r, rfl, hn, pieces_append hn r⟩
  · exact Or.inl ⟨h, pieces_of_not_mem h⟩

/-- Reading folders off a path takes away names from the front, none of them empty. -/
theorem exists_folders_iff (y : Text) (Q : List Text → Prop) (hQ : ¬ Q []) :
    (∃ u v, y = u ++ v ∧ Folders u ∧ Q (Path.parts v)) ↔
      ∃ k, (∀ n ∈ (Path.parts y).take k, n ≠ []) ∧ Q ((Path.parts y).drop k) := by
  unfold Path.parts
  constructor
  · rintro ⟨_, v, rfl, ⟨names, hnames, rfl⟩, hv⟩
    induction names with
    | nil => exact ⟨0, by simp, by simpa using hv⟩
    | cons n names ih =>
      obtain ⟨hne, hslash⟩ := hnames n List.mem_cons_self
      obtain ⟨k, hk, hkQ⟩ := ih fun m hm => hnames m (List.mem_cons_of_mem n hm)
      refine ⟨k + 1, ?_⟩
      simp only [List.flatMap_cons, List.append_assoc, List.cons_append, List.nil_append]
      rw [pieces_append hslash, List.take_succ_cons, List.drop_succ_cons]
      refine ⟨?_, hkQ⟩
      intro m hm
      rcases List.mem_cons.mp hm with rfl | hm
      · exact hne
      · exact hk m hm
  · rintro ⟨k, hk, hkQ⟩
    induction k generalizing y with
    | zero => exact ⟨[], y, rfl, .nil, by simpa using hkQ⟩
    | succ k ih =>
      rcases pieces_cases '/' y with ⟨_, hp⟩ | ⟨n, r, rfl, hslash, hp⟩
      · rw [hp] at hkQ
        exact absurd (by simpa using hkQ) hQ
      · rw [hp, List.take_succ_cons] at hk
        rw [hp, List.drop_succ_cons] at hkQ
        obtain ⟨u, v, rfl, hu, hv⟩ := ih r (fun m hm => hk m (List.mem_cons_of_mem n hm)) hkQ
        exact ⟨n ++ '/' :: u, v, by simp, .cons (hk n List.mem_cons_self) hslash hu, hv⟩

/-- What the tokens of one segment read, between the segment before it and the rest. -/
def SegmentSpells (previous : Option Text) (s : Text) (rest : List Text) (u : Text) : Prop :=
  if s = globstar then
    match previous, rest with
    | none, _ => Folders u
    | some p, [] => if Text.endsWith ['*'] p then Beneath u else u = [] ∨ Beneath u
    | some _, _ => ∃ w, u = '/' :: w ∧ Folders w
  else if previous = none ∨ previous = some globstar then '/' ∉ u ∧ FitsName s u
  else ∃ n, u = '/' :: n ∧ '/' ∉ n ∧ FitsName s n

def PathSpells : (previous : Option Text) → List Text → Text → Prop
  | _, [], y => y = []
  | previous, s :: rest, y =>
    ∃ u v, y = u ++ v ∧ SegmentSpells previous s rest u ∧ PathSpells (some s) rest v

theorem spells_slash {P : Text → Prop} (y : Text) :
    (∃ u v, y = u ++ v ∧ (Atom.char '/').Spells .heeded u ∧ P v) ↔ ∃ v, y = '/' :: v ∧ P v := by
  simp only [spells_char_heeded]
  constructor
  · rintro ⟨_, v, rfl, rfl, hv⟩
    exact ⟨v, rfl, hv⟩
  · rintro ⟨v, rfl, hv⟩
    exact ⟨['/'], v, rfl, rfl, hv⟩

/-- The tokens of a path without brackets read its segments in order. -/
theorem adds_pathTokens? (previous : Option Text) (segs : List Text)
    (h : ∀ s ∈ segs, '/' ∉ s ∧ '[' ∉ s) :
    ∃ ts, pathTokens? previous segs = some ts ∧ Adds ts (PathSpells previous segs) := by
  induction segs generalizing previous with
  | nil => exact ⟨[], rfl, .nil⟩
  | cons s rest ih =>
    obtain ⟨there, hthere, haddsThere⟩ := ih (some s) fun t ht => h t (List.mem_cons_of_mem s ht)
    obtain ⟨hslash, hbracket⟩ := h s List.mem_cons_self
    by_cases hs : s = globstar
    · have key : ∃ here, pathTokens? previous (s :: rest) = some (here ++ there) ∧
          Adds here (SegmentSpells previous s rest) := by
        unfold SegmentSpells
        simp only [pathTokens?, if_pos hs, hthere, Option.map_some]
        cases previous with
        | none => exact ⟨_, rfl, .atom .folders⟩
        | some p =>
          cases rest with
          | nil =>
            by_cases hp : Text.endsWith ['*'] p = true
            · simp only [hp, if_true]
              exact ⟨_, rfl, .atom .below⟩
            · simp only [hp]
              exact ⟨_, rfl, .atom .within⟩
          | cons _ _ =>
            exact ⟨_, rfl, ((Adds.atom (.char '/')).append (.atom .folders)).congr spells_slash⟩
      obtain ⟨here, hhere, haddsHere⟩ := key
      exact ⟨here ++ there, hhere, haddsHere.append haddsThere⟩
    · obtain ⟨here, hhere, haddsHere⟩ := adds_segmentTokens? hslash hbracket
      simp only [pathTokens?, if_neg hs, hhere, hthere]
      refine ⟨_, rfl, ?_⟩
      have key : ∀ {slash : List Token}, Adds (slash ++ here) (SegmentSpells previous s rest) →
          Adds (slash ++ here ++ there) (PathSpells previous (s :: rest)) :=
        fun hslash => hslash.append haddsThere
      apply key
      unfold SegmentSpells
      simp only [if_neg hs]
      cases previous with
      | none => simpa using haddsHere
      | some p =>
        by_cases hp : p = globstar
        · simpa [hp] using haddsHere
        · simp only [reduceCtorEq, Option.some.injEq, hp, or_self, if_false]
          exact ((Adds.atom (.char '/')).append haddsHere).congr spells_slash

theorem beneath_iff_of_line {y : Text} (hy : '\n' ∉ y) : Beneath y ↔ ∃ z, y = '/' :: z := by
  constructor
  · rintro ⟨z, rfl, -⟩
    exact ⟨z, rfl⟩
  · rintro ⟨z, rfl⟩
    exact ⟨z, rfl, fun h => hy (List.mem_cons_of_mem _ h)⟩

/-- No globstar follows another one. -/
def Collapsed : (previous : Option Text) → List Text → Prop
  | _, [] => True
  | previous, s :: rest => (previous = some globstar → s ≠ globstar) ∧ Collapsed (some s) rest

theorem collapsed_collapse (segs : List Text) (previous : Option Text)
    (h : previous = some globstar → segs.head? ≠ some globstar) :
    Collapsed previous (collapse segs) := by
  induction segs generalizing previous with
  | nil => trivial
  | cons s rest ih =>
    cases rest with
    | nil => exact ⟨fun hp hs => h hp (by simp [hs]), trivial⟩
    | cons t rest =>
      rw [collapse]
      split
      · next hst => exact ih previous fun hp => absurd (by simp [hst.1]) (h hp)
      · next hst =>
        refine ⟨fun hp hs => h hp (by simp [hs]), ih (some s) ?_⟩
        intro hs ht
        exact hst ⟨Option.some.inj hs, by simpa using ht⟩

theorem not_fitsPath_nil {previous : Option Text} {s : Text} {rest : List Text}
    (hs : s ≠ globstar) : ¬ FitsPath previous (s :: rest) [] := by
  simp [FitsPath, hs]

/-- Behind a name there is nothing, or a slash and further names. -/
def FitsBehind (p : Text) (segs : List Text) (y : Text) : Prop :=
  (y = [] ∧ FitsPath (some p) segs []) ∨ ∃ z, y = '/' :: z ∧ FitsPath (some p) segs (Path.parts z)

theorem exists_name_iff (s p : Text) (rest : List Text) (y : Text) :
    (∃ u v, y = u ++ v ∧ ('/' ∉ u ∧ FitsName s u) ∧ FitsBehind p rest v) ↔
      ∃ n ns, Path.parts y = n :: ns ∧ FitsName s n ∧ FitsPath (some p) rest ns := by
  unfold Path.parts FitsBehind
  constructor
  · rintro ⟨u, _, rfl, ⟨hslash, hfit⟩, ⟨rfl, hrest⟩ | ⟨z, rfl, hrest⟩⟩
    · exact ⟨u, [], by simpa using pieces_of_not_mem hslash, hfit, hrest⟩
    · exact ⟨u, _, pieces_append hslash z, hfit, hrest⟩
  · rintro ⟨n, ns, hparts, hfit, hrest⟩
    rcases pieces_cases '/' y with ⟨hslash, hp⟩ | ⟨m, r, rfl, hslash, hp⟩
    · obtain ⟨rfl, rfl⟩ := List.cons.inj (hp.symm.trans hparts)
      exact ⟨y, [], by simp, ⟨hslash, hfit⟩, Or.inl ⟨rfl, hrest⟩⟩
    · obtain ⟨rfl, rfl⟩ := List.cons.inj (hp.symm.trans hparts)
      exact ⟨m, '/' :: r, rfl, ⟨hslash, hfit⟩, Or.inr ⟨r, rfl, hrest⟩⟩

theorem fitsPath_name {previous : Option Text} {s : Text} (hs : s ≠ globstar) (rest names : List Text) :
    FitsPath previous (s :: rest) names ↔
      ∃ n ns, names = n :: ns ∧ FitsName s n ∧ FitsPath (some s) rest ns := by
  cases names with
  | nil => simp [FitsPath, hs]
  | cons n ns => simp [FitsPath, hs, and_assoc]

theorem fitsPath_globstar (previous : Option Text) (t : Text) (rest names : List Text) :
    FitsPath previous (globstar :: t :: rest) names ↔
      ∃ k, (∀ n ∈ names.take k, n ≠ []) ∧
        FitsPath (some globstar) (t :: rest) (names.drop k) := by
  cases previous <;> simp [FitsPath]

theorem fitsPath_last (p : Text) (names : List Text) :
    FitsPath (some p) [globstar] names ↔ (Text.endsWith ['*'] p = true → names ≠ []) := by
  simp [FitsPath]

/-- A last globstar reads what lies behind the segment before it. -/
theorem spells_last_iff {p y : Text} (hy : '\n' ∉ y) :
    SegmentSpells (some p) globstar [] y ↔ FitsBehind p [globstar] y := by
  have hparts : ∀ z, Path.parts z ≠ [] := Text.pieces_ne_nil '/'
  simp only [SegmentSpells, if_true, FitsBehind, fitsPath_last, beneath_iff_of_line hy]
  by_cases hp : Text.endsWith ['*'] p = true
  · simp [hp, hparts]
  · simp [hp]

/-- A globstar with a segment behind it takes away names until that segment begins. -/
theorem spells_globstar_iff {t : Text} {rest : List Text} (ht : t ≠ globstar)
    (previous : Option Text) (z : Text) (P : Text → Prop)
    (hP : ∀ v, (∃ u, z = u ++ v) → (P v ↔ FitsPath (some globstar) (t :: rest) (Path.parts v))) :
    (∃ u v, z = u ++ v ∧ Folders u ∧ P v) ↔
      FitsPath previous (globstar :: t :: rest) (Path.parts z) := by
  rw [fitsPath_globstar, ← exists_folders_iff z _ (not_fitsPath_nil ht)]
  constructor
  · rintro ⟨u, v, rfl, hu, hv⟩
    exact ⟨u, v, rfl, hu, (hP v ⟨u, rfl⟩).mp hv⟩
  · rintro ⟨u, v, rfl, hu, hv⟩
    exact ⟨u, v, rfl, hu, (hP v ⟨u, rfl⟩).mpr hv⟩

/-- On one line, the tokens of the segments after `previous` read the paths that these segments fit.
Behind a name the path goes on with a slash, and behind a globstar with a name. -/
theorem pathSpells_iff (segs : List Text) (previous : Option Text) (hc : Collapsed previous segs) :
    (∀ p, previous = some p → p ≠ globstar →
      ∀ y, '\n' ∉ y → (PathSpells previous segs y ↔ FitsBehind p segs y)) ∧
    (previous = none ∧ segs ≠ [globstar] ∨ previous = some globstar → segs ≠ [] →
      ∀ y, '\n' ∉ y → (PathSpells previous segs y ↔ FitsPath previous segs (Path.parts y))) := by
  -- Both together, because a globstar has a name before it or behind it.
  induction segs generalizing previous with
  | nil =>
    refine ⟨?_, fun _ h => absurd rfl h⟩
    intro p _ _ y _
    simp [PathSpells, FitsBehind, FitsPath, Path.parts, Text.pieces_ne_nil]
  | cons s rest ih =>
    obtain ⟨hprevious, hrest⟩ := hc
    obtain ⟨ihName, ihStar⟩ := ih (some s) hrest
    by_cases hs : s = globstar
    · subst hs
      constructor
      · rintro p rfl hp y hy
        cases rest with
        | nil =>
          rw [← spells_last_iff hy]
          constructor
          · rintro ⟨u, _, rfl, hu, rfl⟩
            simpa using hu
          · intro h
            exact ⟨y, [], by simp, h, rfl⟩
        | cons t rest =>
          have ht : t ≠ globstar := hrest.1 rfl
          have hz : ∀ z, y = '/' :: z → ((∃ u v, z = u ++ v ∧ Folders u ∧
              PathSpells (some globstar) (t :: rest) v) ↔
                FitsPath (some p) (globstar :: t :: rest) (Path.parts z)) := by
            rintro z rfl
            apply spells_globstar_iff ht
            rintro v ⟨u, rfl⟩
            exact ihStar (Or.inr rfl) (by simp) v fun h => hy (by simp [h])
          have hnil : ¬ FitsPath (some p) (globstar :: t :: rest) [] := by
            rw [fitsPath_globstar]
            rintro ⟨k, -, h⟩
            exact not_fitsPath_nil ht (by simpa using h)
          simp only [FitsBehind, hnil, and_false, false_or]
          constructor
          · rintro ⟨_, v, rfl, ⟨w, rfl, hw⟩, hv⟩
            exact ⟨w ++ v, rfl, (hz _ rfl).mp ⟨w, v, rfl, hw, hv⟩⟩
          · rintro ⟨z, rfl, h⟩
            obtain ⟨w, v, rfl, hw, hv⟩ := (hz z rfl).mpr h
            exact ⟨'/' :: w, v, rfl, ⟨w, rfl, hw⟩, hv⟩
      · rintro hplace - y hy
        obtain ⟨rfl, hlone⟩ : previous = none ∧ globstar :: rest ≠ [globstar] :=
          hplace.resolve_right fun h => hprevious h rfl
        cases rest with
        | nil => exact absurd rfl hlone
        | cons t rest =>
          apply spells_globstar_iff (hrest.1 rfl)
          rintro v ⟨u, rfl⟩
          exact ihStar (Or.inr rfl) (by simp) v fun h => hy (by simp [h])
    · have hbehind : ∀ y, '\n' ∉ y → ((∃ u v, y = u ++ v ∧ ('/' ∉ u ∧ FitsName s u) ∧
          PathSpells (some s) rest v) ↔ FitsPath previous (s :: rest) (Path.parts y)) := by
        intro y hy
        rw [fitsPath_name hs, ← exists_name_iff]
        constructor
        · rintro ⟨u, v, rfl, hu, hv⟩
          exact ⟨u, v, rfl, hu, (ihName s rfl hs v fun h => hy (by simp [h])).mp hv⟩
        · rintro ⟨u, v, rfl, hu, hv⟩
          exact ⟨u, v, rfl, hu, (ihName s rfl hs v fun h => hy (by simp [h])).mpr hv⟩
      constructor
      · rintro p rfl hp y hy
        simp only [PathSpells, SegmentSpells, if_neg hs, reduceCtorEq, Option.some.injEq, hp,
          or_self, if_false, FitsBehind, not_fitsPath_nil hs, and_false, false_or]
        constructor
        · rintro ⟨_, v, rfl, ⟨n, rfl, hn⟩, hv⟩
          exact ⟨n ++ v, rfl, (hbehind _ fun h => hy (by simp_all)).mp ⟨n, v, rfl, hn, hv⟩⟩
        · rintro ⟨z, rfl, h⟩
          obtain ⟨n, v, rfl, hn, hv⟩ := (hbehind z fun h => hy (by simp [h])).mpr h
          exact ⟨'/' :: n, v, rfl, ⟨n, rfl, hn⟩, hv⟩
      · intro hplace _ y hy
        have : previous = none ∨ previous = some globstar := hplace.imp_left And.left
        simpa only [PathSpells, SegmentSpells, if_neg hs, if_pos this] using hbehind y hy

/-- A glob without braces and brackets is read as the lines that it fits. -/
theorem ofGlob_spells_iff {a : Text} (ha : '[' ∉ a) :
    ∃ p, Pattern.ofGlob a = .ok p ∧
      ∀ y, '\n' ∉ y → (p.Spells .heeded y ↔ FitsGlob a y) := by
  unfold Pattern.ofGlob tokens? FitsGlob
  by_cases hlone : segments a = [globstar]
  · rw [if_pos hlone]
    obtain ⟨p, hp, hspells⟩ := (Adds.atom .anything).pattern
      ([Token.atom .anything].flatMap Token.written)
    refine ⟨p, hp, ?_⟩
    intro y hy
    rw [hspells, if_pos hlone]
    exact and_iff_left hy
  · rw [if_neg hlone]
    have hsegs : ∀ s ∈ segments a, '/' ∉ s ∧ '[' ∉ s := fun s hs =>
      ⟨not_mem_of_mem_segments hs, fun h => ha (mem_of_mem_segments hs h)⟩
    obtain ⟨ts, hts, hadds⟩ := adds_pathTokens? none (segments a) hsegs
    obtain ⟨p, hp, hspells⟩ := hadds.pattern (ts.flatMap Token.written)
    rw [hts]
    refine ⟨p, hp, ?_⟩
    intro y hy
    have hcollapsed : Collapsed none (segments a) :=
      collapsed_collapse _ none fun h => by cases h
    have hnil : segments a ≠ [] := by
      have honce : ∀ l : List Text, l ≠ [] → collapse l ≠ [] := fun l => by
        fun_induction collapse l with
        | case1 s t r _ ih => exact fun _ => ih (by simp)
        | case2 => simp
        | case3 => exact id
      exact honce _ (Text.pieces_ne_nil '/' (bare a))
    rw [hspells, if_neg hlone]
    exact (pathSpells_iff (segments a) none hcollapsed).2 (Or.inl ⟨rfl, hlone⟩) hnil y hy

theorem mapM_ok {α β γ : Type} {f : α → Except Flaw β} {P : α → γ → Prop} {Q : β → γ → Prop}
    {C : γ → Prop} {l : List α} (h : ∀ a ∈ l, ∃ b, f a = .ok b ∧ ∀ x, C x → (Q b x ↔ P a x)) :
    ∃ bs, l.mapM f = .ok bs ∧ ∀ x, C x → ((∃ b ∈ bs, Q b x) ↔ ∃ a ∈ l, P a x) := by
  induction l with
  | nil => exact ⟨[], rfl, by simp⟩
  | cons a l ih =>
    obtain ⟨b, hb, hQ⟩ := h a List.mem_cons_self
    obtain ⟨bs, hbs, hQs⟩ := ih fun a ha => h a (List.mem_cons_of_mem _ ha)
    refine ⟨b :: bs, ?_, ?_⟩
    · rw [List.mapM_cons, hb, hbs]
      rfl
    · intro x hx
      simp only [List.mem_cons, exists_eq_or_imp, hQ x hx, hQs x hx]

/-- A glob without brackets compiles. Where case is heeded its matcher accepts, of the paths on one
line, the one that is spelled like the glob and those that an alternative fits segment by segment. -/
theorem matcher_accepts_iff {glob : Text} (h : '[' ∉ glob) :
    ∃ m, matcher .heeded glob = .ok m ∧
      ∀ path, '\n' ∉ path →
        (m.Accepts path ↔ path = bare glob ∨ ∃ a ∈ expand glob, FitsGlob a path) := by
  obtain ⟨ps, hps, hiff⟩ := mapM_ok (f := Pattern.ofGlob) (P := FitsGlob)
    (Q := fun p y => p.Spells .heeded y) (C := fun y => '\n' ∉ y) (l := expand glob)
    fun a ha => ofGlob_spells_iff fun hc => h (mem_of_mem_expand ha hc)
  refine ⟨⟨glob, .heeded, ps.map (·.under .heeded)⟩, ?_, ?_⟩
  · simp only [matcher, Matcher.compile, hps]
    rfl
  · intro path hpath
    rw [← hiff path hpath]
    simp only [Matcher.Accepts, Matcher.spelling, Pattern.accepts_iff_spells, Pattern.under,
      List.map_id']

/-- A globstar passes over two folders, and a group chooses. -/
theorem matcher_accepts_below_folders :
    '[' ∉ "s/**/(l|b*)?".toList ∧ '\n' ∉ "s/x/y/bin".toList ∧
      ∃ m, matcher .heeded "s/**/(l|b*)?".toList = .ok m ∧ m.Accepts "s/x/y/bin".toList := by
  have hglob : "s/**/(l|b*)?".toList = ['s', '/', '*', '*', '/', '(', 'l', '|', 'b', '*', ')', '?'] := by
    decide
  have hpath : "s/x/y/bin".toList = ['s', '/', 'x', '/', 'y', '/', 'b', 'i', 'n'] := by decide
  rw [hglob, hpath]
  obtain ⟨m, hm, haccepts⟩ := matcher_accepts_iff
    (by decide : '[' ∉ ['s', '/', '*', '*', '/', '(', 'l', '|', 'b', '*', ')', '?'])
  have hsegments : segments ['s', '/', '*', '*', '/', '(', 'l', '|', 'b', '*', ')', '?'] =
      [['s'], globstar, ['(', 'l', '|', 'b', '*', ')', '?']] := by decide
  have hparts : Path.parts ['s', '/', 'x', '/', 'y', '/', 'b', 'i', 'n'] =
      [['s'], ['x'], ['y'], ['b', 'i', 'n']] := by decide
  have hfirst : FitsName ['s'] ['s'] := by
    have hmem : 's' ∈ ['s'] := List.mem_cons_self
    apply (fitsName_iff_fits hmem (by decide)).mpr
    exact .char (by decide) (by decide) (fun _ => by decide) .nil
  have hlast : FitsName ['(', 'l', '|', 'b', '*', ')', '?'] ['b', 'i', 'n'] := by
    have hmem : '(' ∈ ['(', 'l', '|', 'b', '*', ')', '?'] := List.mem_cons_self
    have hnested : Nested True ['l', '|', 'b', '*'] := (nested_iff _).mpr (by decide)
    apply (fitsName_iff_fits hmem (by decide)).mpr
    exact .group (b := ['l', '|', 'b', '*']) (a := ['b', '*']) ((nested_iff _).mpr (by decide)) hnested
      (by decide) (.char (by decide) (by decide) (fun _ => by decide) (.run (u := ['i']) .nil))
      (.one .nil)
  have hexpand : ['s', '/', '*', '*', '/', '(', 'l', '|', 'b', '*', ')', '?'] ∈
      expand ['s', '/', '*', '*', '/', '(', 'l', '|', 'b', '*', ')', '?'] := by
    rw [expand_of_none (by decide)]
    exact List.mem_singleton_self _
  refine ⟨by decide, by decide, m, hm, (haccepts _ (by decide)).mpr (Or.inr ⟨_, hexpand, ?_⟩)⟩
  rw [FitsGlob, hsegments, hparts, if_neg (by decide), fitsPath_name (by decide)]
  refine ⟨_, _, rfl, hfirst, ?_⟩
  rw [fitsPath_globstar]
  refine ⟨2, by decide, ?_⟩
  rw [fitsPath_name (by decide)]
  exact ⟨_, _, rfl, hlast, rfl⟩

end TreeCensus.Glob
