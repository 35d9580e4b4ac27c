import TreeCensus.Proofs.Glob.Members

/-!
# A globstar at the end of a glob

Tokens are put together in order, so what comes last is read behind everything else (`exists_assemble_append`).
A globstar behind a glob whose last segment does not end with a star reads nothing, or a slash and the rest of
the line, behind what the glob reads (`ofGlob_trailing`). A matcher also accepts what is spelled like its glob:
this alone does not carry over to the glob with the globstar (`accepts_trailing`).
-/

namespace TreeCensus.Glob

set_option autoImplicit false

open Pattern (chain)
open TreeCensus.Path (parts)

/-- The tokens before others are put together on their own. -/
theorem exists_assemble_append {e : Text} {ts : List Token} {n : Nat} {outer : List Group} {inner : Group}
    {p : Pattern} (h : assemble e n outer inner ts = .ok p) :
    ∃ m g, g.whole = p ∧ ∀ us, assemble e n outer inner (ts ++ us) = assemble e m [] g us := by
  induction ts generalizing n outer inner with
  | nil =>
    cases outer with
    | nil => exact ⟨n, inner, Except.ok.inj h, fun us => rfl⟩
    | cons g outer => cases h
  | cons t ts ih =>
    cases t with
    | atom a =>
      rw [assemble] at h
      obtain ⟨m, g, hg, heq⟩ := ih h
      exact ⟨m, g, hg, fun us => by rw [List.cons_append, assemble, heq]⟩
    | bracket negated members =>
      simp only [assemble] at h
      cases hms : readMembers [] (allMembers negated members) with
      | error r => rw [hms] at h; cases h
      | ok ms =>
        rw [hms] at h
        obtain ⟨m, g, hg, heq⟩ := ih h
        refine ⟨m, g, hg, fun us => ?_⟩
        simp only [List.cons_append, assemble, hms]
        exact heq us
    | opening =>
      rw [assemble] at h
      obtain ⟨m, g, hg, heq⟩ := ih h
      exact ⟨m, g, hg, fun us => by rw [List.cons_append, assemble, heq]⟩
    | closing =>
      cases outer with
      | nil => cases h
      | cons g outer =>
        rw [assemble] at h
        obtain ⟨m, g, hg, heq⟩ := ih h
        exact ⟨m, g, hg, fun us => by rw [List.cons_append, assemble, heq]⟩
    | bar =>
      rw [assemble] at h
      obtain ⟨m, g, hg, heq⟩ := ih h
      exact ⟨m, g, hg, fun us => by rw [List.cons_append, assemble, heq]⟩

theorem chain_empty_ne_alt (ps : List Pattern) (p q : Pattern) : chain .empty ps ≠ .alt p q := by
  induction ps using List.reverseRecOn with
  | nil => simp [chain]
  | append_singleton ps r _ =>
    rw [Pattern.chain_append]
    exact fun h => by cases h

/-- An atom behind tokens that stand in no group is read behind them. -/
theorem assemble_append_atom {e e' : Text} {ts : List Token} (henclosed : Enclosed 0 ts) (a : Atom)
    {p : Pattern} (h : assemble e 0 [] (.start 0) ts = .ok p) : ∃ ps, p = chain .empty ps ∧
      assemble e' 0 [] (.start 0) (ts ++ [.atom a]) = .ok (chain .empty (ps ++ [.atom a])) := by
  have habreast : Abreast .empty .empty [.start 0] [.start 0] := .outermost [] rfl rfl rfl rfl
  rcases assemble_abreast habreast henclosed e e' 0 0 with ⟨f, f', hf, -⟩ | ⟨ps, hps, hps'⟩
  · rw [hf] at h
    cases h
  · -- in no group, what is read so far is the outermost group as it stands
    obtain ⟨m, g, hg, heq⟩ := exists_assemble_append hps'
    refine ⟨ps, Except.ok.inj (h.symm.trans hps), ?_⟩
    have hcurrent : g.choices = none ∧ g.current = chain .empty ps := by
      unfold Group.whole at hg
      cases hchoices : g.choices with
      | none =>
        rw [hchoices] at hg
        exact ⟨rfl, hg⟩
      | some q =>
        rw [hchoices] at hg
        exact absurd hg.symm (chain_empty_ne_alt ps q g.current)
    rw [heq, assemble, assemble, Group.whole, Group.push]
    simp only [hcurrent]
    rw [Pattern.chain_append]
    rfl

/-- Behind a pattern there is nothing, or a slash and the rest of the line. -/
theorem accepts_append_within (k : Casing) (ps : List Pattern) (t : Text) :
    ((chain .empty (ps ++ [.atom .within])).under k).Accepts k t ↔
      ∃ u v, t = u ++ v ∧ ((chain .empty ps).under k).Accepts k u ∧ (v = [] ∨ Beneath v) := by
  have hlinks : [Pattern.atom .within].flatMap (Pattern.links k) = [.atom .within] := by
    cases k <;> rfl
  have hlast : ∀ v,
      (Pattern.sequence [.atom .within]).reads k List.isEmpty v = true ↔ v = [] ∨ Beneath v := by
    intro v
    change (Pattern.atom .within).Accepts k v ↔ _
    rw [Pattern.accepts_iff_spells]
    rfl
  have hfront : ∀ u, ((chain .empty ps).under k).Accepts k u ↔
      (Pattern.sequence (ps.flatMap (Pattern.links k))).Spells k u := by
    intro u
    rw [← Pattern.accepts_iff_spells, Pattern.Accepts, Pattern.Accepts, Pattern.reads_under_chain]
  rw [Pattern.Accepts, Pattern.reads_under_chain, List.flatMap_append, hlinks, Pattern.reads_sequence_append,
    Pattern.reads_iff]
  simp only [hlast, hfront]

section Last

variable {s : Text} (hs : s ≠ globstar)

include hs

theorem collapse_append_globstar {segs : List Text} (hlast : segs.getLast? = some s) :
    collapse (segs ++ [globstar]) = collapse segs ++ [globstar] ∧ (collapse segs).getLast? = some s := by
  fun_induction collapse segs with
  | case1 a b r hab ih =>
    rw [List.getLast?_cons_cons] at hlast
    rw [List.cons_append, List.cons_append, collapse, if_pos hab]
    exact ih hlast
  | case2 a b r hab ih =>
    rw [List.getLast?_cons_cons] at hlast
    obtain ⟨heq, hlast'⟩ := ih hlast
    refine ⟨?_, by rw [List.getLast?_cons, hlast']; rfl⟩
    rw [List.cons_append, List.cons_append, collapse, if_neg hab, ← List.cons_append, heq, List.cons_append]
  | case3 segs hshort =>
    refine ⟨?_, hlast⟩
    rcases segs with _ | ⟨a, _ | ⟨b, r⟩⟩
    · cases hlast
    · obtain rfl := Option.some.inj hlast
      rw [List.singleton_append, collapse, if_neg fun h => hs h.1]
      rfl
    · exact (hshort a b r rfl).elim

variable (hstar : Text.endsWith ['*'] s = false)

include hstar

theorem pathTokens?_append_globstar {segs : List Text} (hlast : segs.getLast? = some s)
    (previous : Option Text) :
    pathTokens? previous (segs ++ [globstar]) = (pathTokens? previous segs).map (· ++ [.atom .within]) := by
  induction segs generalizing previous with
  | nil => cases hlast
  | cons x rest ih =>
    cases rest with
    | nil =>
      obtain rfl : x = s := by simpa using hlast
      cases previous <;> cases hhere : segmentTokens? x <;> simp [pathTokens?, hs, hstar, hhere]
    | cons y rest =>
      rw [List.getLast?_cons_cons] at hlast
      have hrest := ih hlast (some x)
      simp only [List.cons_append] at hrest ⊢
      unfold pathTokens?
      rw [hrest]
      cases hthere : pathTokens? (some x) (y :: rest) with
      | none => cases previous <;> cases segmentTokens? x <;> simp
      | some there =>
        by_cases hx : x = globstar
        · cases previous <;> simp [hx]
        · cases segmentTokens? x <;> simp [hx]

end Last

/-- What leads a glob is dropped alike with more behind it, unless the glob is a dot. -/
theorem bare_append_slash {g : Text} (hback : '\\' ∉ g) (hnil : g ≠ []) (hdot : g ≠ Path.here) {t : Text}
    (ht : '\\' ∉ t) : bare (g ++ '/' :: t) = bare g ++ '/' :: t := by
  have hall : '\\' ∉ g ++ '/' :: t := by simp [hback, ht]
  rcases pieces_cases '/' g with ⟨hslash, hparts⟩ | ⟨n, r, rfl, hslash, hparts⟩
  · rw [bare_eq_self hback hparts hnil hdot, bare_eq_self hall (pieces_append hslash t) hnil hdot]
  · rw [List.append_assoc, List.cons_append] at hall ⊢
    by_cases hempty : n = []
    · subst hempty
      simp only [List.nil_append, List.mem_cons, not_or] at hback hall ⊢
      rw [bare_slash hback.2, bare_slash hall.2]
    by_cases hhere : n = Path.here
    · subst hhere
      rw [bare, bare, replace_of_not_mem hback, replace_of_not_mem hall]
      rfl
    · rw [bare_eq_self hback hparts hempty hhere, bare_eq_self hall (pieces_append hslash _) hempty hhere,
        List.append_assoc, List.cons_append]

theorem getLast?_parts_bare {g s : Text} (hback : '\\' ∉ g) (hs : (parts g).getLast? = some s) :
    (parts (bare g)).getLast? = some s := by
  have hcons : ∀ (n : Text) (r : Path), (n :: parts r).getLast? = some s → (parts r).getLast? = some s := by
    intro n r h
    obtain ⟨q, qs, hr⟩ := List.exists_cons_of_ne_nil (Text.pieces_ne_nil '/' r)
    rw [parts, hr, List.getLast?_cons_cons] at h
    rwa [parts, hr]
  unfold bare
  rw [replace_of_not_mem hback]
  split
  · next r =>
    rw [Path.parts_slash] at hs
    exact hcons [] r hs
  · next r =>
    rw [show parts ('.' :: '/' :: r) = Path.here :: parts r from Path.parts_append_slash Path.here r] at hs
    exact hcons Path.here r hs
  · exact hs

/-- Whether a pattern of the matcher accepts the path, however its glob is spelled. -/
def Matcher.Reads (m : Matcher) (path : Path) : Prop := ∃ p ∈ m.patterns, p.Accepts m.casing path

instance (m : Matcher) (path : Path) : Decidable (m.Reads path) :=
  inferInstanceAs (Decidable (∃ p ∈ m.patterns, p.Accepts m.casing path))

theorem Matcher.accepts_iff_reads (m : Matcher) (path : Path) :
    m.Accepts path ↔ path = m.spelling ∨ m.Reads path :=
  Iff.rfl

/-- What can be decided about the matcher of a glob, together with the fact that there is one. -/
theorem exists_matcher_of_any {k : Casing} {g : Text} {P : Matcher → Prop} [DecidablePred P]
    (h : (matcher k g).toOption.any (fun m => decide (P m)) = true) : ∃ m, matcher k g = .ok m ∧ P m := by
  cases hm : matcher k g with
  | error e => rw [hm] at h; cases h
  | ok m =>
    rw [hm] at h
    exact ⟨m, rfl, of_decide_eq_true h⟩

section Trailing

variable {g s : Text} (hback : '\\' ∉ g) (hdot : g ≠ Path.here) (hlast : (parts g).getLast? = some s)
  (hne : s ≠ []) (hstar : Text.endsWith ['*'] s = false)

include hback hdot hlast hne

theorem bare_trailing : bare (g ++ '/' :: globstar) = bare g ++ '/' :: globstar := by
  have hnil : g ≠ [] := by
    rintro rfl
    exact hne (Option.some.inj hlast).symm
  exact bare_append_slash hback hnil hdot (by decide)

include hstar

/-- A globstar behind a glob reads nothing, or a slash and the rest of the line, behind what the glob reads. -/
theorem ofGlob_trailing {p : Pattern} (hp : Pattern.ofGlob g = .ok p) : ∃ ps, p = chain .empty ps ∧
    Pattern.ofGlob (g ++ '/' :: globstar) = .ok (chain .empty (ps ++ [.atom .within])) := by
  have hs : s ≠ globstar := by
    rintro rfl
    exact absurd hstar (by decide)
  obtain ⟨hcollapse, hend⟩ := collapse_append_globstar hs (getLast?_parts_bare hback hlast)
  have hend : (segments g).getLast? = some s := hend
  have hsegments : segments (g ++ '/' :: globstar) = segments g ++ [globstar] := by
    rw [segments, bare_trailing hback hdot hlast hne]
    exact (congrArg collapse (Path.parts_append_slash (bare g) globstar)).trans hcollapse
  have hlone : segments g ≠ [globstar] := by
    intro heq
    rw [heq] at hend
    exact hs (Option.some.inj hend).symm
  have hlone' : segments (g ++ '/' :: globstar) ≠ [globstar] := by
    rw [hsegments]
    intro heq
    have hlength := congrArg List.length heq
    have hpos := List.length_pos_iff.mpr (collapse_ne_nil (Text.pieces_ne_nil '/' (bare g)))
    rw [← segments, ← Nat.ne_zero_iff_zero_lt] at hpos
    rw [List.length_append] at hlength
    exact hpos (Nat.succ.inj hlength)
  have htokens : tokens? (g ++ '/' :: globstar) = (tokens? g).map (· ++ [.atom .within]) := by
    rw [tokens?, tokens?, if_neg hlone, if_neg hlone', hsegments]
    exact pathTokens?_append_globstar hs hstar hend none
  rw [Pattern.ofGlob] at hp
  rw [Pattern.ofGlob, htokens]
  cases hts : tokens? g with
  | none => rw [hts] at hp; cases hp
  | some ts =>
    rw [hts] at hp
    have henclosed : Enclosed 0 ts := by
      rw [tokens?, if_neg hlone] at hts
      exact enclosed_of_pathTokens? hts 0
    exact assemble_append_atom henclosed .within hp

end Trailing

/-- With a globstar behind it, a glob accepts what its pattern accepts, and what lies below that on one line.
Beyond this it accepts at most what lies below on several lines, and what is spelled like it: a path that the
glob alone accepts for its spelling may be refused. -/
theorem accepts_trailing {k : Casing} {g s : Text} (hbrace : '\x7b' ∉ g) (hback : '\\' ∉ g)
    (hdot : g ≠ Path.here) (hlast : (parts g).getLast? = some s) (hne : s ≠ [])
    (hstar : Text.endsWith ['*'] s = false) {m : Matcher} (hm : matcher k g = .ok m) :
    ∃ m', matcher k (g ++ '/' :: globstar) = .ok m' ∧
      (∀ path, m'.Accepts path → m.Accepts path ∨ ∃ a rest, path = a ++ '/' :: rest ∧ m.Accepts a) ∧
      (∀ path, m'.Accepts path → path = m.spelling ++ '/' :: globstar ∨ m.Reads path ∨
        ∃ a rest, path = a ++ '/' :: rest ∧ m.Reads a) ∧
      (∀ path, m.Reads path → m'.Accepts path) ∧
      ∀ a rest, '\n' ∉ rest → m.Reads a → m'.Accepts (a ++ '/' :: rest) := by
  have hbrace' : '\x7b' ∉ g ++ '/' :: globstar := by simp [hbrace, globstar]
  have hexpand : expand g = [g] := expand_of_none (firstGroup?_eq_none hbrace [])
  have hexpand' : expand (g ++ '/' :: globstar) = [g ++ '/' :: globstar] :=
    expand_of_none (firstGroup?_eq_none hbrace' [])
  obtain ⟨p, hp, rfl⟩ := (matcher_eq_ok_iff_of_expand hexpand).mp hm
  obtain ⟨ps, rfl, hp'⟩ := ofGlob_trailing hback hdot hlast hne hstar hp
  refine ⟨_, (matcher_eq_ok_iff_of_expand (k := k) hexpand').mpr ⟨_, hp', rfl⟩, ?_⟩
  generalize hm₁ : Matcher.mk g k [(chain .empty ps).under k] = m₁
  generalize hm₂ : Matcher.mk (g ++ '/' :: globstar) k [(chain .empty (ps ++ [.atom .within])).under k] = m₂
  have hspelling : m₂.spelling = m₁.spelling ++ '/' :: globstar := by
    rw [← hm₁, ← hm₂]
    exact bare_trailing hback hdot hlast hne
  have hreads : ∀ path, m₂.Reads path ↔ ∃ u v, path = u ++ v ∧ m₁.Reads u ∧ (v = [] ∨ Beneath v) := by
    intro path
    simp only [← hm₁, ← hm₂, Matcher.Reads, List.mem_singleton, exists_eq_left, accepts_append_within]
  have hfrom : ∀ path, m₂.Accepts path → path = m₁.spelling ++ '/' :: globstar ∨ m₁.Reads path ∨
      ∃ a rest, path = a ++ '/' :: rest ∧ m₁.Reads a := by
    intro path hpath
    rcases (m₂.accepts_iff_reads path).mp hpath with heq | hpath
    · exact .inl (heq.trans hspelling)
    · obtain ⟨u, v, rfl, hu, rfl | ⟨rest, rfl, -⟩⟩ := (hreads path).mp hpath
      · exact .inr (.inl (by rwa [List.append_nil]))
      · exact .inr (.inr ⟨u, rest, rfl, hu⟩)
  refine ⟨?_, hfrom, ?_, ?_⟩
  · intro path hpath
    rcases hfrom path hpath with heq | hread | ⟨a, rest, heq, hread⟩
    · exact .inr ⟨m₁.spelling, globstar, heq, .inl rfl⟩
    · exact .inl (.inr hread)
    · exact .inr ⟨a, rest, heq, .inr hread⟩
  · intro path hread
    exact .inr ((hreads path).mpr ⟨path, [], (List.append_nil path).symm, hread, .inl rfl⟩)
  · intro a rest hrest hread
    exact .inr ((hreads _).mpr ⟨a, '/' :: rest, rfl, hread, .inr ⟨rest, rfl, hrest⟩⟩)

/-- What lies below an entry that a group of the glob reads. -/
theorem accepts_trailing_below :
    '\x7b' ∉ ['s', '/', '(', 'l', '|', 'b', ')', '?'] ∧ '\\' ∉ ['s', '/', '(', 'l', '|', 'b', ')', '?'] ∧
      ['s', '/', '(', 'l', '|', 'b', ')', '?'] ≠ Path.here ∧
      (parts ['s', '/', '(', 'l', '|', 'b', ')', '?']).getLast? = some ['(', 'l', '|', 'b', ')', '?'] ∧
      ['(', 'l', '|', 'b', ')', '?'] ≠ [] ∧ Text.endsWith ['*'] ['(', 'l', '|', 'b', ')', '?'] = false ∧
      ∃ m m', matcher .heeded ['s', '/', '(', 'l', '|', 'b', ')', '?'] = .ok m ∧ m.Reads ['s', '/', 'b', 'x'] ∧
        matcher .heeded (['s', '/', '(', 'l', '|', 'b', ')', '?'] ++ '/' :: globstar) = .ok m' ∧
        m'.Accepts ['s', '/', 'b', 'x'] ∧ m'.Accepts (['s', '/', 'b', 'x'] ++ '/' :: ['y', '/', 'z']) := by
  have hbrace : '\x7b' ∉ ['s', '/', '(', 'l', '|', 'b', ')', '?'] := by decide
  have hback : '\\' ∉ ['s', '/', '(', 'l', '|', 'b', ')', '?'] := by decide
  have hdot : ['s', '/', '(', 'l', '|', 'b', ')', '?'] ≠ Path.here := by decide
  have hlast : (parts ['s', '/', '(', 'l', '|', 'b', ')', '?']).getLast? =
      some ['(', 'l', '|', 'b', ')', '?'] := by decide
  have hne : ['(', 'l', '|', 'b', ')', '?'] ≠ [] := by decide
  have hstar : Text.endsWith ['*'] ['(', 'l', '|', 'b', ')', '?'] = false := by decide
  have hmatch : (matcher .heeded ['s', '/', '(', 'l', '|', 'b', ')', '?']).toOption.any
      (fun m => decide (m.Reads ['s', '/', 'b', 'x'])) = true := by decide +kernel
  obtain ⟨m, hm, hread⟩ := exists_matcher_of_any hmatch
  obtain ⟨m', hm', -, -, hsame, hbelow⟩ := accepts_trailing hbrace hback hdot hlast hne hstar hm
  exact ⟨hbrace, hback, hdot, hlast, hne, hstar, m, m', hm, hread, hm', hsame _ hread,
    hbelow _ _ (by decide) hread⟩

/-- A glob with a group accepts its own spelling, which its pattern does not read; with a globstar behind it the
glob does not. -/
theorem not_accepts_trailing_of_spelling :
    '\x7b' ∉ ['a', '(', 'b', ')'] ∧ '\x7d' ∉ ['a', '(', 'b', ')'] ∧ '\\' ∉ ['a', '(', 'b', ')'] ∧
      ['a', '(', 'b', ')'] ≠ Path.here ∧ (parts ['a', '(', 'b', ')']).getLast? = some ['a', '(', 'b', ')'] ∧
      ['a', '(', 'b', ')'] ≠ [] ∧ Text.endsWith ['*'] ['a', '(', 'b', ')'] = false ∧
      ∃ m m', matcher .heeded ['a', '(', 'b', ')'] = .ok m ∧
        matcher .heeded (['a', '(', 'b', ')'] ++ '/' :: globstar) = .ok m' ∧
        ¬ (m'.Accepts ['a', '(', 'b', ')'] ↔ m.Accepts ['a', '(', 'b', ')'] ∨
          ∃ a rest, ['a', '(', 'b', ')'] = a ++ '/' :: rest ∧ m.Accepts a) := by
  refine ⟨by decide, by decide, by decide, by decide, by decide, by decide, by decide, ?_⟩
  have hmatch : (matcher .heeded ['a', '(', 'b', ')']).toOption.any
      (fun m => decide (m.Accepts ['a', '(', 'b', ')'])) = true := by decide +kernel
  have hmatch' : (matcher .heeded (['a', '(', 'b', ')'] ++ '/' :: globstar)).toOption.any
      (fun m => decide ¬ m.Accepts ['a', '(', 'b', ')']) = true := by decide +kernel
  obtain ⟨m, hm, haccepts⟩ := exists_matcher_of_any hmatch
  obtain ⟨m', hm', hrefuses⟩ := exists_matcher_of_any hmatch'
  exact ⟨m, m', hm, hm', fun hiff => hrefuses (hiff.mpr (.inl haccepts))⟩

end TreeCensus.Glob
