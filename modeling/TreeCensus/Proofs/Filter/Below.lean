import TreeCensus.Proofs.Filter.Loading

/-!
# Ignore files below the root directory

The names of a directory that a raw glob can begin with hold the lines of its ignore file to the directory:
their conditions match nothing outside of it, and have the marks that they have in the root directory
(`IgnoreFile.contained`).
-/

namespace TreeCensus

set_option autoImplicit false

open Glob (Matcher trail anyDepth bare)
open TreeCensus.Path (isAbsolute slashed under up here ofParts parts steps way IsName IsWithin)

theorem Text.dropEndWhile_append_cons {p : Char → Bool} {c : Char} (hc : p c = false) (t u : Text) :
    dropEndWhile p (t ++ c :: u) = t ++ c :: dropEndWhile p u := by
  induction t with
  | nil => rw [List.nil_append, dropEndWhile_cons, if_neg (by simp [hc]), List.nil_append]
  | cons d t ih => rw [List.cons_append, dropEndWhile_cons, ih, if_neg (by simp), List.cons_append]

namespace IsHome

variable {dirs : List Text} (h : IsHome dirs) (hne : dirs ≠ []) {p : Path}

include h hne

theorem isWithin_iff : IsWithin (ofParts dirs) p ↔ p = ofParts dirs ∨ ∃ v, p = trail dirs ++ v := by
  have hunder : under (ofParts dirs) [] = trail dirs := by
    rw [under, if_neg (by decide), if_neg (by simp [h.ne_nil hne, h.not_endsWith hne])]
    exact Glob.join_append_slash hne
  rw [IsWithin, hunder]
  exact or_congr_right (exists_congr fun v => eq_comm)

theorem isWithin_slashed (hp : IsWithin (ofParts dirs) p) : IsWithin (ofParts dirs) (slashed p) := by
  rw [h.isWithin_iff hne] at hp ⊢
  rcases hp with rfl | ⟨v, rfl⟩
  · exact .inl h.slashed_ofParts
  · exact .inr ⟨slashed v, h.slashed_trail_append v⟩

theorem head?_of_isWithin (hp : IsWithin (ofParts dirs) p) : p.head? = (ofParts dirs).head? := by
  rw [h.isWithin_iff hne] at hp
  rcases hp with rfl | ⟨v, rfl⟩
  · rfl
  · rw [Glob.trail_append_eq hne]
    exact List.head?_append_of_ne_nil _ (h.ne_nil hne)

theorem isWithin_strip (hp : IsWithin (ofParts dirs) p) : IsWithin (ofParts dirs) (Text.strip p) := by
  have hstrip : Text.strip p = Text.dropEndWhile Text.isBlank p := by
    have hfront := h.front
    rw [← h.head?_of_isWithin hne hp] at hfront
    cases p with
    | nil => rfl
    | cons c r =>
      have hc := (hfront c rfl).2.2
      rw [Text.strip_cons hc, Text.dropEndWhile_cons, if_neg (by simp [hc])]
  rw [hstrip]
  rw [h.isWithin_iff hne] at hp ⊢
  rcases hp with rfl | ⟨v, rfl⟩
  · exact .inl (Text.dropEndWhile_eq_self h.back)
  · refine .inr ⟨Text.dropEndWhile Text.isBlank v, ?_⟩
    rw [Glob.trail_append_eq hne, Glob.trail_append_eq hne]
    exact Text.dropEndWhile_append_cons (by decide) _ v

theorem isWithin_ofParts (ns : List Text) : IsWithin (ofParts dirs) (ofParts (dirs ++ ns)) := by
  rw [h.isWithin_iff hne]
  by_cases hnil : ns = []
  · exact .inl (by rw [hnil, List.append_nil])
  · refine .inr ⟨ofParts ns, ?_⟩
    rw [ofParts, Text.join_append hne hnil, Glob.trail_append_eq hne]
    rfl

/-- The names stay in front of a path that does not go up. -/
theorem normal_trail_append {v : Text} (hup : up ∉ parts v) :
    Path.normal (trail dirs ++ v) = ofParts (dirs ++ steps v) := by
  have hnames : ∀ n ∈ dirs, IsName n := fun n hn => (h.names n hn).name
  have hparts := Glob.parts_trail_append h.names v
  have hrelative : isAbsolute (trail dirs ++ v) = false := by
    rw [Glob.trail_append_eq hne, Path.isAbsolute_append (h.ne_nil hne)]
    exact Path.isAbsolute_ofParts hnames
  have hno : up ∉ parts (trail dirs ++ v) := by
    rw [hparts, List.mem_append, not_or]
    exact ⟨fun hmem => (hnames up hmem).ne_up rfl, hup⟩
  have hsteps : steps (trail dirs ++ v) = dirs ++ steps v := by
    rw [steps, hparts, List.filter_append, steps]
    congr 1
    exact List.filter_eq_self.mpr fun n hn => by simp [(hnames n hn).ne_nil, (hnames n hn).ne_here]
  have hfull : ofParts (dirs ++ steps v) ≠ [] := by
    intro hnil
    have hhead := h.head?_of_isWithin hne (h.isWithin_ofParts hne (steps v))
    rw [hnil] at hhead
    exact h.ne_nil hne (List.head?_eq_none_iff.mp hhead.symm)
  rw [Path.normal, (Path.root_eq_nil_iff _).mpr hrelative, hrelative, Path.reduce_of_not_up hno]
  change (if ofParts (steps (trail dirs ++ v)) = [] then here else ofParts (steps (trail dirs ++ v))) = _
  rw [hsteps, if_neg hfull]

/-- Behind the names of the directory a glob that does not go up comes to something within it. -/
theorem isWithin_normalGlob {v : Text} (hup : up ∉ parts (slashed v)) :
    IsWithin (ofParts dirs) (Glob.normalGlob (trail dirs ++ v)) := by
  have hof := h.isWithin_ofParts hne (steps (slashed v))
  rw [Glob.normalGlob_eq, h.slashed_trail_append, h.normal_trail_append hne hup]
  split
  · rw [h.isWithin_iff hne] at hof ⊢
    rcases hof with hof | ⟨w, hw⟩
    · exact .inr ⟨[], by rw [hof, Glob.trail_append_eq hne]⟩
    · exact .inr ⟨w ++ ['/'], by rw [hw, List.append_assoc]⟩
  · exact hof

theorem exists_parts_of_isWithin (hp : IsWithin (ofParts dirs) p) :
    ∃ n ns, parts p = n :: ns ∧ n ≠ [] ∧ n ≠ here := by
  obtain ⟨n, ns, hdirs⟩ := List.exists_cons_of_ne_nil hne
  have hname := (h.names n (hdirs ▸ List.mem_cons_self)).name
  rw [h.isWithin_iff hne] at hp
  rcases hp with rfl | ⟨v, rfl⟩
  · exact ⟨n, ns, (h.parts_ofParts hne).trans hdirs, hname.ne_nil, hname.ne_here⟩
  · refine ⟨n, ns ++ parts v, ?_, hname.ne_nil, hname.ne_here⟩
    rw [Glob.parts_trail_append h.names, hdirs, List.cons_append]

/-- What stands within the directory is a glob as it stands. -/
theorem place_of_isWithin (hp : IsWithin (ofParts dirs) p) (cwd : Path) :
    (Filter.Base.mk cwd none).place p = p := by
  obtain ⟨n, ns, hparts, -, hhere⟩ := h.exists_parts_of_isWithin hne hp
  unfold Filter.Base.place
  dsimp only
  split
  · next r =>
    have hfirst : parts ('.' :: '/' :: r) = here :: parts r := Path.parts_append_slash here r
    rw [hfirst] at hparts
    exact absurd (List.cons.inj hparts).1.symm hhere
  · rfl

/-- A glob within the directory accepts nothing outside of it. -/
theorem accepts_within (hp : IsWithin (ofParts dirs) p) (hback : '\\' ∉ p) {m : Matcher}
    (hm : Matcher.compile .heeded p = .ok m) {t : Path} (ht : m.Accepts t) : IsWithin (ofParts dirs) t := by
  obtain ⟨n, ns, hparts, hnil, hhere⟩ := h.exists_parts_of_isWithin hne hp
  obtain ⟨hplain, hfree, -⟩ := Glob.ofGlob_trail_slash h.names hne (x := []) (by simp)
  have hbare : bare p = p := Glob.bare_eq_self hback hparts hnil hhere
  rw [Matcher.accepts_iff_of_compile hm, hbare] at ht
  rcases ht with rfl | ⟨a, ha, q, hq, hread⟩
  · exact hp
  rw [h.isWithin_iff hne] at hp ⊢
  rcases hp with rfl | ⟨v, rfl⟩
  · rw [Glob.expand_of_none (Glob.firstGroup?_eq_none h.unbraced [])] at ha
    obtain rfl := List.mem_singleton.mp ha
    rw [Glob.ofGlob_congr (hbare.trans (Glob.bare_slash hfree).symm)] at hq
    exact .inl (Glob.eq_of_accepts_plain hplain hfree hq hread)
  · have hv : '\\' ∉ v := fun hc => hback (List.mem_append_right _ hc)
    have hsurrounded := Glob.mem_expand_surrounded (u := trail dirs) (v := [])
      (Glob.not_mem_trail h.names (by decide) fun n hn => hn.unbraced)
      (Glob.not_mem_trail h.names (by decide) fun n hn => hn.back) (by simp) (by simp) hv a
    obtain ⟨b, hb, rfl⟩ := hsurrounded.mp (by simpa using ha)
    have hb' : '\\' ∉ b := fun hc => hv (Glob.mem_of_mem_expand hb hc)
    rw [List.append_nil, (Glob.ofGlob_trail_slash h.names hne hb').2.2] at hq
    rcases Glob.exists_of_accepts_behind_plain hplain hfree hb' hq hread with rfl | ⟨w, rfl⟩
    · exact .inl rfl
    · exact .inr ⟨w, (Glob.trail_append_eq hne w).symm⟩

end IsHome

namespace Glob

/-- A line that has no mark but at its front, even where a slash leads it. -/
structure IsUnmarked (line : Text) : Prop where
  front : line.head? ≠ some '^'
  lead : ∀ r, (splitMark '!' line).2 = '/' :: r → ∀ c ∈ (Text.strip (slashed r)).head?, c ≠ '!' ∧ c ≠ '^'

theorem splitMark_snd_append {mark : Char} {rest : Text} (hrest : ∀ c ∈ rest.head?, c ≠ mark) (t : Text) :
    (splitMark mark (t ++ rest)).2 = (splitMark mark t).2 ++ rest := by
  cases t with
  | nil => rw [List.nil_append, splitMark_of_head hrest]; rfl
  | cons c r =>
    rw [List.cons_append, splitMark, splitMark]
    split <;> rfl

theorem up_not_mem_inner {t : Text} (h : up ∉ parts (slashed t)) : up ∉ parts (slashed (inner t)) := by
  unfold inner
  split
  · next r =>
    rw [show slashed ('/' :: r) = [] ++ '/' :: slashed r from rfl, Path.parts_append_slash] at h
    exact fun hmem => h (List.mem_append_right _ hmem)
  · next r =>
    rw [show slashed ('.' :: '/' :: r) = here ++ '/' :: slashed r from rfl, Path.parts_append_slash] at h
    exact fun hmem => h (List.mem_append_right _ hmem)
  · exact h
  · rw [show slashed (anyDepth t) = anyDepth (slashed t) from rfl, parts_anyDepth]
    exact List.not_mem_cons_of_ne_of_not_mem (by decide) h

end Glob

theorem Text.head?_strip_append {c : Char} {t : Text} (hc : c ∈ (strip t).head?) (u : Text) :
    c ∈ (strip (t ++ u)).head? := by
  induction t with
  | nil => cases hc
  | cons d t ih =>
    rw [List.cons_append]
    cases hd : isBlank d with
    | true =>
      rw [strip_blank hd] at hc ⊢
      exact ih hc
    | false =>
      rw [strip_cons hd] at hc ⊢
      exact hc

namespace GlobSource

/-- Slashes that are dropped at the end of a line are not all of it. -/
theorem exists_dropEndSlashes (line : Text) : ∃ n, line = dropEndSlashes line ++ List.replicate n '/' ∧
    (dropEndSlashes line).head? = line.head? := by
  let dropped : Text := (line.reverse.takeWhile (· = '/')).reverse
  have hwhole : line = Text.dropEndWhile (· = '/') line ++ dropped := by
    rw [Text.dropEndWhile, ← List.reverse_append, List.takeWhile_append_dropWhile, List.reverse_reverse]
  have hdropped : dropped = List.replicate dropped.length '/' := by
    apply List.eq_replicate_of_mem
    intro c hc
    simpa using List.mem_takeWhile_imp (List.mem_reverse.mp hc)
  rw [dropEndSlashes]
  split
  · exact ⟨0, (List.append_nil line).symm, rfl⟩
  · next hne =>
    refine ⟨dropped.length, hdropped ▸ hwhole, ?_⟩
    conv_rhs => rw [hwhole, List.head?_append_of_ne_nil _ hne]

theorem up_not_mem_dropEndSlashes {line : Text} (h : up ∉ parts (slashed (Glob.unmark line))) :
    up ∉ parts (slashed (Glob.unmark (dropEndSlashes line))) := by
  obtain ⟨n, hline, -⟩ := exists_dropEndSlashes line
  generalize dropEndSlashes line = t at hline
  subst hline
  have hhead : ∀ mark, mark ≠ '/' → ∀ c ∈ (List.replicate n '/').head?, c ≠ mark := by
    rintro mark hmark c hc rfl
    exact hmark (List.eq_of_mem_replicate (List.mem_of_head? hc))
  rw [Glob.unmark, Glob.splitMark_snd_append (hhead '^' (by decide)),
    Glob.splitMark_snd_append (hhead '!' (by decide)), Filter.slashed_append] at h
  cases n with
  | zero => simpa [slashed, Text.replace, Glob.unmark] using h
  | succ n =>
    rw [List.replicate_succ] at h
    intro hmem
    apply h
    rw [show slashed ('/' :: List.replicate n '/') = '/' :: slashed (List.replicate n '/') from rfl,
      Path.parts_append_slash]
    exact List.mem_append_left _ hmem

theorem isUnmarked_dropEndSlashes {line : Text} (h : Glob.IsUnmarked line) :
    Glob.IsUnmarked (dropEndSlashes line) := by
  obtain ⟨n, hline, hhead⟩ := exists_dropEndSlashes line
  refine ⟨hhead ▸ h.front, ?_⟩
  intro r hr c hc
  apply h.lead (r ++ List.replicate n '/') _ c
  · rw [Filter.slashed_append]
    exact Text.head?_strip_append hc _
  · rw [hline, Glob.splitMark_snd_append _ _, hr, List.cons_append]
    rintro d hd rfl
    exact absurd (List.eq_of_mem_replicate (List.mem_of_head? hd)) (by decide)

end GlobSource

namespace Filter

/-- An exclusion cannot be excluded again. -/
theorem readMarks_twice {raw t : Text} (hraw : slashed raw = '^' :: '^' :: t) :
    ∃ e, readMarks raw = .error e := by
  have hcaret : takeMark '^' (Text.strip ('^' :: '^' :: t)) = (true, Text.strip ('^' :: t)) :=
    takeMark_strip (by decide) _
  have hmark : takeMark '!' (Text.strip ('^' :: t)) = (false, Text.strip ('^' :: t)) := by
    apply takeMark_of_head
    rw [Text.strip_cons (by decide)]
    simp
  have hleft : (Text.strip ('^' :: t)).head? = some '!' ∨ (Text.strip ('^' :: t)).head? = some '^' := by
    rw [Text.strip_cons (by decide)]
    exact .inr rfl
  rw [slashed] at hraw
  simp only [readMarks, hraw, hcaret, hmark, if_pos hleft]
  exact ⟨_, rfl⟩

/-- Behind the marks of a line there is its glob, and its marks stand if there are no others. -/
theorem readMarks_mark {s : GlobSource} {caret negative : Bool} {y : Text} {m : Marked}
    (hm : readMarks (s.mark (marks caret negative ++ y)) = .ok m)
    (hfront : ∀ c ∈ (Text.strip (slashed y)).head?, c ≠ '!' ∧ c ≠ '^') :
    m.glob = Text.strip (slashed y) ∧ (caret = false → m.exclude = s.exclude ∧ m.negative = negative) := by
  have hmarks : slashed (marks caret negative) = marks caret negative := by
    cases caret <;> cases negative <;> rfl
  have hraw : slashed (s.mark (marks caret negative ++ y)) =
      marks s.exclude false ++ (marks caret negative ++ slashed y) := by
    rw [s.slashed_mark, slashed_append, hmarks]
  by_cases hboth : s.exclude = true ∧ caret = true
  · have htwice : ∃ t, slashed (s.mark (marks caret negative ++ y)) = '^' :: '^' :: t := by
      rw [hraw, hboth.1, hboth.2]
      exact ⟨_, rfl⟩
    obtain ⟨t, ht⟩ := htwice
    obtain ⟨e, he⟩ := readMarks_twice ht
    rw [he] at hm
    cases hm
  · have hone : slashed (s.mark (marks caret negative ++ y)) =
        marks (s.exclude || caret) negative ++ slashed y := by
      rw [hraw]
      cases hexclude : s.exclude <;> cases hcaret : caret <;> simp_all [marks]
    rw [readMarks_eq hone hfront] at hm
    obtain rfl := Except.ok.inj hm
    refine ⟨rfl, ?_⟩
    rintro rfl
    exact ⟨Bool.or_false _, rfl⟩

end Filter

/-- What a condition keeps to if it is that of a line of a file below some names. -/
structure Condition.Keeps (dirs : List Text) (exclude : Bool) (line : Text) (c : Condition) : Prop where
  within : ∀ p, c.matcher.Accepts p → IsWithin (ofParts dirs) p
  marks : Glob.IsUnmarked line → c.exclude = exclude ∧ c.negative = decide (line.head? = some '!')

section Lines

variable {s : GlobSource} {t : Text} {m : Filter.Marked}

/-- The marks of a line in the root directory. -/
theorem marks_of_ofIgnoreLine (ht : Glob.IsUnmarked t)
    (hm : Filter.readMarks (s.mark (Glob.ofIgnoreLine t)) = .ok m) :
    m.exclude = s.exclude ∧ m.negative = decide (t.head? = some '!') := by
  obtain ⟨w, hw, hfront⟩ : ∃ w, Glob.ofIgnoreLine t = (Glob.splitMark '!' t).1 ++ w ∧
      ∀ c ∈ (Text.strip (slashed w)).head?, c ≠ '!' ∧ c ≠ '^' := by
    refine ⟨_, rfl, ?_⟩
    have hchar : ∀ {c : Char} {r : Text}, Opens c → ∀ d ∈ (Text.strip (c :: r)).head?, d ≠ '!' ∧ d ≠ '^' := by
      intro c r hc d hd
      rw [Text.strip_cons hc.2.2] at hd
      obtain rfl := Option.some.inj hd
      exact ⟨hc.1, hc.2.1⟩
    split
    · next r hr => exact ht.lead r hr
    · exact hchar (by decide)
    · exact hchar (by decide)
    · exact hchar (by decide)
  have hmarks : (Glob.splitMark '!' t).1 = Filter.marks false (decide (t.head? = some '!')) := by
    rw [Glob.splitMark_fst]
    simp [Filter.marks]
  rw [hw, hmarks] at hm
  exact (Filter.readMarks_mark hm hfront).2 rfl

variable {dirs : List Text} (h : IsHome dirs) (hne : dirs ≠ [])

include h hne

/-- The glob and the marks of a line further down, unless it goes up. -/
theorem IsHome.marks_of_relocate (hup : up ∉ parts (slashed (Glob.unmark t)))
    (hm : Filter.readMarks (s.mark (Glob.relocate (ofParts dirs) t)) = .ok m) :
    IsWithin (ofParts dirs) m.glob ∧ (t.head? ≠ some '^' →
      m.exclude = s.exclude ∧ m.negative = decide (t.head? = some '!')) := by
  have hnot : ∀ r, Glob.unmark t ≠ '.' :: '.' :: '/' :: r := by
    intro r hr
    rw [hr, show slashed ('.' :: '.' :: '/' :: r) = up ++ '/' :: slashed r from rfl,
      Path.parts_append_slash] at hup
    exact hup (List.mem_append_left _ List.mem_cons_self)
  have hwithin : IsWithin (ofParts dirs) (Text.strip (slashed (Glob.moveInto (ofParts dirs) (Glob.unmark t)))) := by
    rw [h.moveInto_eq hne hnot]
    exact h.isWithin_strip hne (h.isWithin_slashed hne (h.isWithin_normalGlob hne (Glob.up_not_mem_inner hup)))
  rw [h.relocate_eq hne] at hm
  obtain ⟨hglob, hflags⟩ := Filter.readMarks_mark hm fun c hc => by
    rw [h.head?_of_isWithin hne hwithin] at hc
    exact ⟨(h.front c hc).1, (h.front c hc).2.1⟩
  refine ⟨hglob ▸ hwithin, ?_⟩
  intro hcaret
  obtain ⟨hexclude, hnegative⟩ := hflags (decide_eq_false hcaret)
  have hhead : ∀ c ∈ t.head?, c ≠ '^' := by
    rintro c hc rfl
    exact hcaret hc
  rw [Glob.splitMark_of_head hhead] at hnegative
  exact ⟨hexclude, hnegative⟩

end Lines

/-- Of the lines of an ignore file those that do not go up match nothing outside of its directory, and have
the same marks in every directory unless they have some in unusual places. -/
theorem IgnoreFile.contained {fs : FileSystem} {root : Option Path} {dirs : List Text} {s : GlobSource}
    {content : Text} (h : IgnoreFile fs root dirs s content) (hdirs : IsHome dirs) :
    ∃ globs, GlobSource.load fs root [s] = .ok globs ∧
      List.Forall₂ (fun line glob => up ∉ parts (slashed (Glob.unmark line)) →
        ∀ f, Filter.compile ⟨fs.cwd, none⟩ .heeded [glob] = .ok f →
          ∀ c ∈ f.conditions, c.Keeps dirs s.exclude line) (GlobSource.ignoreLines content) globs := by
  refine ⟨_, h.load_eq fun n hn => (hdirs.names n hn).name, ?_⟩
  rw [List.forall₂_map_right_iff, List.forall₂_same]
  intro line _ hup f hf c hc
  obtain ⟨glob, hglob, hread⟩ := Filter.exists_of_mem_conditions hf hc
  obtain rfl := List.mem_singleton.mp hglob
  obtain ⟨m, hm, hmatcher, hexclude, hnegative⟩ := Filter.readCondition?_eq_some hread
  obtain ⟨-, -, hhead⟩ := GlobSource.exists_dropEndSlashes line
  have hup' := GlobSource.up_not_mem_dropEndSlashes hup
  rw [GlobSource.ofLine] at hm
  by_cases hne : dirs = []
  · subst hne
    rw [if_pos (show way [] = here from rfl)] at hm
    refine ⟨fun p _ => .inr ⟨p, rfl⟩, ?_⟩
    intro hline
    obtain ⟨hexclude', hnegative'⟩ := marks_of_ofIgnoreLine (GlobSource.isUnmarked_dropEndSlashes hline) hm
    exact ⟨hexclude.trans hexclude', hnegative.trans (hhead ▸ hnegative')⟩
  · rw [show way dirs = ofParts dirs from if_neg hne, if_neg (hdirs.ne_here hne)] at hm
    obtain ⟨hwithin, hflags⟩ := hdirs.marks_of_relocate hne hup' hm
    refine ⟨?_, ?_⟩
    · intro p hp
      rw [hdirs.place_of_isWithin hne hwithin] at hmatcher
      exact hdirs.accepts_within hne hwithin (Filter.not_mem_of_readMarks hm) hmatcher hp
    · intro hline
      obtain ⟨hexclude', hnegative'⟩ := hflags (hhead ▸ hline.front)
      exact ⟨hexclude.trans hexclude', hnegative.trans (hhead ▸ hnegative')⟩

/-- A directory with a parenthesis and a mark in its name, though not at the front, keeps its lines. -/
theorem IgnoreFile.contained_in_subdirectory :
    let dirs : List Text := ["a(b".toList, "!c".toList]
    let s : GlobSource := ⟨"a(b/!c/.ignore".toList, .file, false⟩
    let content := "!./*.log\n[x/]*".toList
    let fs := FileSystem.ofFiles "/w".toList [("/w/a(b/!c/.ignore".toList, content)]
    IgnoreFile fs none dirs s content ∧ IsHome dirs ∧
      ∃ globs, GlobSource.load fs none [s] = .ok globs ∧
        List.Forall₂ (fun line glob => up ∉ parts (slashed (Glob.unmark line)) →
          ∀ f, Filter.compile ⟨fs.cwd, none⟩ .heeded [glob] = .ok f →
            ∀ c ∈ f.conditions, c.Keeps dirs s.exclude line) (GlobSource.ignoreLines content) globs := by
  intro dirs s content fs
  have hname : IsName ".ignore".toList := by decide
  have hfile : IgnoreFile fs none dirs s content :=
    ⟨by decide, rfl, by decide, ⟨_, hname, by decide +kernel⟩, by decide +kernel⟩
  have hdirs : IsHome dirs := by decide +kernel
  exact ⟨hfile, hdirs, IgnoreFile.contained hfile hdirs⟩

end TreeCensus
