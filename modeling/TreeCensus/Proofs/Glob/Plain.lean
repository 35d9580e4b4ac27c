import TreeCensus.Proofs.Glob.Splicing
import TreeCensus.Proofs.Path.Normal

/-!
# Globs behind plain names

A name is plain if a glob reads it as it stands. Plain names before a glob do not decide whether it
compiles, and the compiled glob first reads these names and a slash, and then what it reads on its own
(`ofGlob_behind`); it reads nothing outside of the directory with these names
(`exists_of_accepts_behind_plain`).
-/

namespace TreeCensus.Glob

set_option autoImplicit false

open Pattern (chain spelled)

/-- A name without characters that have a meaning in a segment, and without groups. -/
structure IsPlain (s : Text) : Prop where
  char : ∀ c ∈ s, c ≠ '*' ∧ c ≠ '?' ∧ c ≠ '['
  ungrouped : ¬ HasGroups s

instance (s : Text) : Decidable (IsPlain s) :=
  decidable_of_iff (s.all (fun c => c ≠ '*' ∧ c ≠ '?' ∧ c ≠ '[') = true ∧ ¬ HasGroups s)
    ⟨fun h => ⟨fun c hc => of_decide_eq_true (List.all_eq_true.mp h.1 c hc), h.2⟩,
      fun h => ⟨List.all_eq_true.mpr fun c hc => decide_eq_true (h.char c hc), h.ungrouped⟩⟩

namespace IsPlain

variable {s : Text}

theorem ne_globstar (h : IsPlain s) : s ≠ globstar := by
  rintro rfl
  exact (h.char '*' (by decide)).1 rfl

theorem endsWith_star (h : IsPlain s) : Text.endsWith ['*'] s = false := by
  apply Bool.eq_false_iff.mpr
  intro hend
  obtain ⟨t, rfl⟩ := List.isSuffixOf_iff_suffix.mp hend
  exact (h.char '*' (by simp)).1 rfl

theorem readTokens? (h : ∀ c ∈ s, c ≠ '*' ∧ c ≠ '?' ∧ c ≠ '[') (d : Int) :
    readTokens? false d s = some (literal s) := by
  induction s with
  | nil => rw [Glob.readTokens?]; rfl
  | cons c s ih =>
    obtain ⟨hrun, hone, hbracket⟩ := h c List.mem_cons_self
    rw [Glob.readTokens?, if_neg hrun, if_neg hone, if_neg hbracket,
      ih fun c hc => h c (List.mem_cons_of_mem _ hc)]
    simp [literal]

theorem segmentTokens? (h : IsPlain s) : segmentTokens? s = some (literal s) := by
  have hstars : ¬ (s ≠ [] ∧ s.all (· = '*') = true) := by
    rintro ⟨hne, hall⟩
    obtain ⟨c, t, rfl⟩ := List.exists_cons_of_ne_nil hne
    exact (h.char c List.mem_cons_self).1 (by simpa using List.all_eq_true.mp hall c List.mem_cons_self)
  rw [Glob.segmentTokens?, if_neg hstars, decide_eq_false h.ungrouped]
  exact readTokens? h.char 0

theorem segmentBonds? (h : IsPlain s) : segmentBonds? s = some [] := by
  rw [Glob.segmentBonds?, h.segmentTokens?, Option.map_some, Option.some.injEq]
  exact List.filter_eq_nil_iff.mpr fun t ht => by
    obtain ⟨c, _, rfl⟩ := List.mem_map.mp ht
    simp [Token.isBond]

end IsPlain

theorem literal_append (s t : Text) : literal (s ++ t) = literal s ++ literal t := List.map_append

section Segments

variable {ps : List Text}

/-- Plain names after a plain one are read with a slash before each of them. -/
theorem exists_pathTokens?_after {p : Text} (hp : IsPlain p) (hps : ∀ s ∈ ps, IsPlain s) :
    ∃ q, IsPlain q ∧ ∀ segs, pathTokens? (some p) (ps ++ segs) =
      (pathTokens? (some q) segs).map (literal (ps.flatMap ('/' :: ·)) ++ ·) := by
  induction ps generalizing p with
  | nil => exact ⟨p, hp, fun segs => by simp [literal]⟩
  | cons s ps ih =>
    have hs := hps s List.mem_cons_self
    obtain ⟨q, hq, hrest⟩ := ih hs fun t ht => hps t (List.mem_cons_of_mem s ht)
    refine ⟨q, hq, fun segs => ?_⟩
    rw [List.cons_append]
    simp only [pathTokens?, if_neg hs.ne_globstar, if_neg hp.ne_globstar, hs.segmentTokens?, hrest]
    cases pathTokens? (some q) segs with
    | none => rfl
    | some ts => simp [literal]

theorem join_cons_eq (sep : Char) (p : Text) (ps : List Text) :
    Text.join sep (p :: ps) = p ++ ps.flatMap (sep :: ·) := by
  induction ps generalizing p with
  | nil => simp [Text.join]
  | cons q ps ih => rw [Text.join, ih]; simp

/-- Plain names are read as they stand. -/
theorem exists_pathTokens?_behind (hne : ps ≠ []) (hps : ∀ s ∈ ps, IsPlain s) :
    ∃ q, IsPlain q ∧ ∀ segs, pathTokens? none (ps ++ segs) =
      (pathTokens? (some q) segs).map (literal (Text.join '/' ps) ++ ·) := by
  obtain ⟨p, ps, rfl⟩ := List.exists_cons_of_ne_nil hne
  have hp := hps p List.mem_cons_self
  obtain ⟨q, hq, hrest⟩ := exists_pathTokens?_after hp fun s hs => hps s (List.mem_cons_of_mem p hs)
  refine ⟨q, hq, fun segs => ?_⟩
  rw [List.cons_append, join_cons_eq, literal_append]
  simp only [pathTokens?, if_neg hp.ne_globstar, hp.segmentTokens?, hrest]
  cases pathTokens? (some q) segs with
  | none => rfl
  | some ts => simp

/-- After a plain name, segments are read as they are at the front, behind a slash, unless there is but
a globstar: it stands for the directory too. -/
theorem pathTokens?_after {q : Text} (hq : IsPlain q) (s : Text) (rest : List Text) :
    pathTokens? (some q) (s :: rest) =
      if s = globstar ∧ rest = [] then some [.atom .within]
      else (pathTokens? none (s :: rest)).map (literal ['/'] ++ ·) := by
  by_cases hs : s = globstar
  · cases rest with
    | nil => simp [pathTokens?, hs, hq.endsWith_star]
    | cons t rest =>
      rw [pathTokens?.eq_4 s _ q (by simp), pathTokens?.eq_2, if_pos hs, if_pos hs, if_neg (by simp),
        Option.map_map]
      rfl
  · rw [if_neg fun h => hs h.1]
    cases hhere : segmentTokens? s with
    | none => cases rest <;> simp only [pathTokens?, if_neg hs, hhere, Option.map_none]
    | some here =>
      cases hthere : pathTokens? (some s) rest with
      | none => cases rest <;> simp_all [pathTokens?]
      | some there =>
        have hslash : literal ['/'] = [.atom (.char '/')] := rfl
        cases rest <;> simp_all [pathTokens?, hq.ne_globstar]

theorem collapse_append (hps : ∀ s ∈ ps, s ≠ globstar) (segs : List Text) :
    collapse (ps ++ segs) = ps ++ collapse segs := by
  induction ps with
  | nil => rfl
  | cons s ps ih =>
    have hs := hps s List.mem_cons_self
    have hrest := ih fun t ht => hps t (List.mem_cons_of_mem s ht)
    rw [List.cons_append, List.cons_append, ← hrest]
    cases ps ++ segs with
    | nil => rfl
    | cons t r => rw [collapse, if_neg fun h => hs h.1]

theorem collapse_ne_nil {segs : List Text} (h : segs ≠ []) : collapse segs ≠ [] := by
  fun_induction collapse segs with
  | case1 s t r _ ih => exact ih (by simp)
  | case2 => simp
  | case3 => exact h

end Segments

theorem replace_of_not_mem {old new : Char} {t : Text} (h : old ∉ t) : Text.replace old new t = t := by
  unfold Text.replace
  induction t with
  | nil => rfl
  | cons c t ih =>
    simp only [List.mem_cons, not_or] at h
    rw [List.map_cons, if_neg (Ne.symm h.1), ih h.2]

theorem bare_slash {t : Text} (h : '\\' ∉ t) : bare ('/' :: t) = t := by
  rw [bare, replace_of_not_mem (by simpa using h)]
  rfl

/-- Nothing is dropped from the front of a glob that begins with a name. -/
theorem bare_eq_self {t : Text} (hback : '\\' ∉ t) {n : Text} {ns : List Text} (hparts : Path.parts t = n :: ns)
    (hnil : n ≠ []) (hhere : n ≠ Path.here) : bare t = t := by
  unfold bare
  rw [replace_of_not_mem hback]
  split
  · rw [Path.parts_slash] at hparts
    exact absurd (List.cons.inj hparts).1.symm hnil
  · next r =>
    rw [show Path.parts ('.' :: '/' :: r) = ['.'] :: Path.parts r from Path.parts_append_slash ['.'] r] at hparts
    exact absurd (List.cons.inj hparts).1.symm hhere
  · rfl

theorem bare_of_isClean {t : Text} (h : Path.IsClean t) (hback : '\\' ∉ t) : bare t = t := by
  obtain ⟨n, ns, hparts⟩ := List.exists_cons_of_ne_nil (Text.pieces_ne_nil '/' t)
  have hn : n ∈ Path.parts t := by
    rw [Path.parts, hparts]
    exact List.mem_cons_self
  exact bare_eq_self hback hparts (h n hn).1 (h n hn).2.1

theorem ofGlob_congr {a b : Text} (h : bare a = bare b) : Pattern.ofGlob a = Pattern.ofGlob b := by
  unfold Pattern.ofGlob tokens? segments
  rw [h]

section Behind

variable {u : Text}

/-- The patterns that globs begin with behind plain names, and the ones that they begin with otherwise. -/
inductive Shifted : List Pattern → List Pattern → Prop
  | slash (ps : List Pattern) : Shifted (.atom (.char '/') :: ps) ps
  /-- A globstar on its own. -/
  | globstar : Shifted [.atom .within] [.atom .anything]

theorem reads_atom_under (k : Casing) (a : Atom) (K : Text → Bool) :
    ((chain .empty [.atom a]).under k).reads k K = a.reads k K := by
  rw [Pattern.reads_under_chain]
  cases k <;> rfl

theorem Shifted.accepts_iff {ps ps' : List Pattern} (h : Shifted ps ps') (k : Casing) {t : Text}
    (ht : t ≠ []) :
    ((chain .empty (spelled u ++ ps)).under k).Accepts k (u ++ '/' :: t) ↔
      ((chain .empty ps').under k).Accepts k t := by
  rw [Pattern.accepts_behind]
  cases h with
  | slash => exact Pattern.accepts_behind k ['/'] t ps'
  | globstar =>
    obtain ⟨c, r, rfl⟩ := List.exists_cons_of_ne_nil ht
    unfold Pattern.Accepts
    rw [reads_atom_under, reads_atom_under]
    simp [Atom.reads, readNext, readWhile, isSlash]

/-- What stands behind plain names reads nothing, or a slash first. -/
theorem Shifted.exists_of_accepts {ps ps' : List Pattern} (h : Shifted ps ps') {t : Text}
    (ht : ((chain .empty (spelled u ++ ps)).under .heeded).Accepts .heeded t) :
    t = u ∨ ∃ v, t = u ++ '/' :: v := by
  obtain ⟨v, rfl, hv⟩ := Pattern.exists_of_accepts_behind ht
  cases h with
  | slash =>
    obtain ⟨w, rfl, -⟩ := Pattern.exists_of_accepts_behind (u := ['/']) hv
    exact Or.inr ⟨w, rfl⟩
  | globstar =>
    unfold Pattern.Accepts at hv
    rw [reads_atom_under] at hv
    cases v with
    | nil => exact Or.inl (List.append_nil u)
    | cons c r =>
      have hc : isSlash c = true := by
        simp only [Atom.reads, readNext, List.isEmpty_cons, Bool.false_or, Bool.and_eq_true] at hv
        exact hv.1
      obtain rfl : c = '/' := by simpa [isSlash] using hc
      exact Or.inr ⟨r, rfl⟩

variable (hu : ∀ s ∈ Text.pieces '/' u, IsPlain s) (hback : '\\' ∉ u)

include hu hback

theorem ofGlob_plain : Pattern.ofGlob ('/' :: u) = .ok (chain .empty (spelled u)) := by
  have hne := Text.pieces_ne_nil '/' u
  have hsegs : segments ('/' :: u) = Text.pieces '/' u := by
    have hcollapse := collapse_append (fun s hs => (hu s hs).ne_globstar) []
    rw [List.append_nil] at hcollapse
    rw [segments, bare_slash hback, hcollapse]
    exact List.append_nil _
  have hlone : segments ('/' :: u) ≠ [globstar] := by
    intro h
    rw [hsegs] at h
    exact (hu globstar (h ▸ List.mem_singleton_self _)).ne_globstar rfl
  obtain ⟨q, -, hq⟩ := exists_pathTokens?_behind hne hu
  have htokens : tokens? ('/' :: u) = some (literal u ++ []) := by
    rw [tokens?, if_neg hlone, hsegs]
    have hnil := hq []
    rw [List.append_nil, Text.join_pieces] at hnil
    exact hnil
  rw [Pattern.ofGlob, htokens]
  obtain ⟨m, g, heq, hchoices, hcurrent⟩ :=
    assemble_literal ((literal u ++ []).flatMap Token.written) u [] 0 (g := .start 0) [] rfl rfl
  change assemble _ 0 [] (.start 0) (literal u ++ []) = _
  rw [heq, assemble, Group.whole, hchoices, hcurrent]
  rfl

/-- The tokens of a glob behind plain names. -/
theorem tokens?_behind {x : Text} (hx : '\\' ∉ x) :
    tokens? ('/' :: u ++ '/' :: x) =
      if collapse (Text.pieces '/' x) = [globstar] then some (literal u ++ [.atom .within])
      else (pathTokens? none (collapse (Text.pieces '/' x))).map (literal (u ++ ['/']) ++ ·) := by
  have hne := Text.pieces_ne_nil '/' u
  have hsegs : segments ('/' :: u ++ '/' :: x) =
      Text.pieces '/' u ++ collapse (Text.pieces '/' x) := by
    rw [segments, List.cons_append, bare_slash (by simp [hback, hx]), Text.pieces_append_sep]
    exact collapse_append (fun s hs => (hu s hs).ne_globstar) _
  obtain ⟨s, rest, hrest⟩ :=
    List.exists_cons_of_ne_nil (collapse_ne_nil (Text.pieces_ne_nil '/' x))
  have hlone : segments ('/' :: u ++ '/' :: x) ≠ [globstar] := by
    intro h
    have hlength := congrArg List.length h
    rw [hsegs, hrest, List.length_append, List.length_cons] at hlength
    have hpos := List.length_pos_iff.mpr hne
    simp only [List.length_cons, List.length_nil] at hlength
    omega
  obtain ⟨q, hplain, hq⟩ := exists_pathTokens?_behind hne hu
  rw [tokens?, if_neg hlone, hsegs, hq, Text.join_pieces, hrest, pathTokens?_after hplain]
  by_cases hglobstar : s = globstar ∧ rest = []
  · rw [if_pos hglobstar, if_pos (by rw [hglobstar.1, hglobstar.2])]
    rfl
  · have hcons : s :: rest ≠ [globstar] := fun h => hglobstar (by simpa using h)
    rw [if_neg hglobstar, if_neg hcons, Option.map_map, literal_append]
    congr 1
    funext ts
    simp

/-- Behind plain names and a slash a glob is read as on its own, unless it is a globstar. -/
theorem ofGlob_behind_slash {x y : Text} (hx : '\\' ∉ x) (hy : segments y = collapse (Text.pieces '/' x))
    (hlone : collapse (Text.pieces '/' x) ≠ [globstar]) :
    (∃ f f', Pattern.ofGlob ('/' :: u ++ '/' :: x) = .error f ∧ Pattern.ofGlob y = .error f') ∨
    ∃ ps, Pattern.ofGlob ('/' :: u ++ '/' :: x) = .ok (chain .empty (spelled (u ++ ['/']) ++ ps)) ∧
      Pattern.ofGlob y = .ok (chain .empty ps) := by
  rw [Pattern.ofGlob, Pattern.ofGlob, tokens?_behind hu hback hx, tokens?, hy, if_neg hlone, if_neg hlone]
  cases hts : pathTokens? none (collapse (Text.pieces '/' x)) with
  | none => exact .inl ⟨_, _, rfl, rfl⟩
  | some ts =>
    exact assemble_behind (enclosed_of_pathTokens? hts 0) (u ++ ['/'])
      ((literal (u ++ ['/']) ++ ts).flatMap Token.written) (ts.flatMap Token.written)

/-- Plain names before a glob do not decide whether it compiles, and its pattern stands behind theirs. -/
theorem ofGlob_behind {x y : Text} (hx : '\\' ∉ x) (hy : segments y = collapse (Text.pieces '/' x)) :
    (∃ f f', Pattern.ofGlob ('/' :: u ++ '/' :: x) = .error f ∧ Pattern.ofGlob y = .error f') ∨
    ∃ ps ps', Pattern.ofGlob ('/' :: u ++ '/' :: x) = .ok (chain .empty (spelled u ++ ps)) ∧
      Pattern.ofGlob y = .ok (chain .empty ps') ∧ Shifted ps ps' := by
  by_cases hlone : collapse (Text.pieces '/' x) = [globstar]
  · rw [Pattern.ofGlob, Pattern.ofGlob, tokens?_behind hu hback hx, tokens?, hy, if_pos hlone, if_pos hlone]
    refine .inr ⟨_, _, ?_, rfl, .globstar⟩
    obtain ⟨m, g, heq, hchoices, hcurrent⟩ :=
      assemble_literal ((literal u ++ [Token.atom .within]).flatMap Token.written) u [.atom .within] 0
        (g := .start 0) [] rfl rfl
    change assemble _ 0 [] (.start 0) (literal u ++ [.atom .within]) = _
    rw [heq, Pattern.chain_append]
    simp only [assemble, Group.whole, Group.push, hchoices, hcurrent]
    rfl
  · rcases ofGlob_behind_slash hu hback hx hy hlone with h | ⟨ps, hps, hps'⟩
    · exact .inl h
    · refine .inr ⟨_, _, ?_, hps', .slash ps⟩
      rw [hps]
      simp [spelled]

/-- Plain names accept but themselves. -/
theorem eq_of_accepts_plain {p : Pattern} (hp : Pattern.ofGlob ('/' :: u) = .ok p) {t : Text}
    (ht : (p.under .heeded).Accepts .heeded t) : t = u := by
  rw [ofGlob_plain hu hback] at hp
  obtain rfl := Except.ok.inj hp
  have hspelled : chain .empty (spelled u) = chain .empty (spelled u ++ []) := by simp
  rw [hspelled] at ht
  obtain ⟨v, rfl, hv⟩ := Pattern.exists_of_accepts_behind ht
  obtain rfl : v = [] := List.isEmpty_iff.mp hv
  exact List.append_nil u

/-- Behind plain names a glob accepts nothing outside of the directory with these names. -/
theorem exists_of_accepts_behind_plain {x : Text} (hx : '\\' ∉ x) {p : Pattern}
    (hp : Pattern.ofGlob ('/' :: u ++ '/' :: x) = .ok p) {t : Text}
    (ht : (p.under .heeded).Accepts .heeded t) : t = u ∨ ∃ v, t = u ++ '/' :: v := by
  have hsegs : segments ('/' :: x) = collapse (Text.pieces '/' x) := by
    rw [segments, bare_slash hx]
  rcases ofGlob_behind hu hback hx hsegs with ⟨f, -, hf, -⟩ | ⟨ps, ps', hps, -, hshift⟩
  · rw [hf] at hp
    cases hp
  · rw [hps] at hp
    obtain rfl := Except.ok.inj hp
    exact hshift.exists_of_accepts ht

end Behind

section Names

open TreeCensus.Path (parts steps ofParts)

/-- Parts with a slash after each of them. -/
def trail (ps : List Text) : Text := ps.flatMap (· ++ ['/'])

theorem join_append_slash {ps : List Text} (h : ps ≠ []) : Text.join '/' ps ++ ['/'] = trail ps := by
  induction ps with
  | nil => exact absurd rfl h
  | cons p ps ih =>
    cases ps with
    | nil => simp [Text.join, trail]
    | cons q ps =>
      rw [Text.join, List.append_assoc, List.cons_append, ih (by simp)]
      simp [trail]

theorem thins_trail {ps : List Text} (h : ∀ p ∈ ps, '\\' ∉ p) {s : Text} (hs : Silent s) :
    Thins (s ++ '/' :: trail ps)
      ('/' :: trail (ps.filter fun n => n ≠ [] ∧ n ≠ Path.here)) := by
  induction ps generalizing s with
  | nil => exact .drop hs .nil
  | cons p ps ih =>
    have hrest : ∀ p ∈ ps, '\\' ∉ p := fun q hq => h q (List.mem_cons_of_mem p hq)
    have hcons : s ++ '/' :: trail (p :: ps) = (s ++ '/' :: p) ++ '/' :: trail ps := by simp [trail]
    by_cases hp : p = [] ∨ p = Path.here
    · have hsilent : Silent (s ++ '/' :: p) := by
        rcases hp with rfl | rfl
        · exact hs.append (.empty .nil)
        · exact hs.append (.here .nil)
      rw [List.filter_cons_of_neg (by rcases hp with rfl | rfl <;> simp), hcons]
      exact ih hrest hsilent
    · rw [List.filter_cons_of_pos (by simpa using hp)]
      refine .drop hs ?_
      have hname : Thins p p := .refl (h p List.mem_cons_self)
      simpa [trail] using hname.append (ih hrest .nil)

/-- The names of a glob are the glob without its empty names and dots. -/
theorem thins_steps {glob : Text} (hglob : '\\' ∉ glob) (hne : steps glob ≠ []) :
    Thins ('/' :: (glob ++ ['/'])) ('/' :: (ofParts (steps glob) ++ ['/'])) := by
  have hparts : ∀ p ∈ parts glob, '\\' ∉ p := fun p hp hc => hglob (mem_of_mem_pieces hp hc)
  have hwhole : glob ++ ['/'] = trail (parts glob) := by
    have hjoin := join_append_slash (Text.pieces_ne_nil '/' glob)
    rwa [Text.join_pieces] at hjoin
  rw [hwhole, ofParts, join_append_slash hne]
  exact thins_trail hparts .nil

theorem mem_expand_between_slashes {glob : Text} (hglob : '\\' ∉ glob) (a : Text) :
    a ∈ expand ('/' :: (glob ++ ['/'])) ↔ ∃ b ∈ expand glob, a = '/' :: (b ++ ['/']) := by
  simpa using mem_expand_surrounded (u := ['/']) (v := ['/']) (by decide) (by decide) (by decide)
    (by decide) hglob a

theorem pathBonds?_between_slashes (t : Text) :
    pathBonds? (parts ('/' :: (t ++ ['/']))) = pathBonds? (parts t) := by
  have hloose : ∀ s ∈ [([] : Text)], segmentBonds? s = some [] := by simp [segmentBonds?_nil]
  rw [Path.parts_slash, Path.parts_append_slash, pathBonds?_cons_of_loose segmentBonds?_nil]
  exact pathBonds?_append_loose hloose _

/-- A glob whose alternatives all compile also compiles as its names behind plain ones. -/
theorem exists_ofGlob_behind {w glob : Text} (hw : ∀ s ∈ parts w, IsPlain s) (hopen : '\x7b' ∉ w)
    (hback : '\\' ∉ w) (hglob : '\\' ∉ glob) (hne : steps glob ≠ [])
    (h : ∀ a ∈ expand glob, ∃ bs, pathBonds? (parts a) = some bs ∧ Fastens 0 bs) {a : Text}
    (ha : a ∈ expand (w ++ '/' :: ofParts (steps glob))) : ∃ p, Pattern.ofGlob a = .ok p := by
  have hnames : '\\' ∉ ofParts (steps glob) := by
    intro hmem
    rcases Text.mem_of_mem_join hmem with hc | ⟨n, hn, hc⟩
    · exact absurd hc (by decide)
    · exact hglob (mem_of_mem_pieces (List.mem_of_mem_filter hn) hc)
  obtain ⟨b, hb, rfl⟩ : ∃ b ∈ expand (ofParts (steps glob)), a = w ++ '/' :: b := by
    have hsurrounded := mem_expand_surrounded (u := w ++ ['/']) (v := []) (by simp [hopen])
      (by simp [hback]) (by simp) (by simp) hnames a
    simpa using hsurrounded.mp (by simpa using ha)
  obtain ⟨d, hd, hthins⟩ := exists_mem_expand (thins_steps hglob hne)
    ((mem_expand_between_slashes hnames _).mpr ⟨b, hb, rfl⟩)
  obtain ⟨e, he, rfl⟩ := (mem_expand_between_slashes hglob d).mp hd
  have hbonds : pathBonds? (parts e) = pathBonds? (parts b) := by
    rw [← pathBonds?_between_slashes e, ← pathBonds?_between_slashes b]
    exact hthins.pathBonds?
  have hfree : '\\' ∉ w ++ '/' :: b := by
    have hb' : '\\' ∉ b := fun hc => hnames (mem_of_mem_expand hb hc)
    simp [hback, hb']
  have hplain := pathBonds?_append_of_loose (fun s hs => (hw s hs).segmentBonds?) (parts b)
  rw [exists_ofGlob_iff, replace_of_not_mem hfree, Text.pieces_append_sep]
  obtain ⟨bs, hbs, hfastens⟩ := h e he
  exact ⟨bs, hplain.trans (hbonds.symm.trans hbs), hfastens⟩

end Names

end TreeCensus.Glob
