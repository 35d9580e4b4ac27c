import Mathlib.Data.Set.List
import TreeCensus.Proofs.Glob.AnyDepth
import TreeCensus.Proofs.Glob.Downward
import TreeCensus.Proofs.Glob.Slashes
import TreeCensus.Proofs.Text.Kinship

/-!
# Ignoring case

Where case is ignored, every part of a pattern takes kin for one another, so a pattern reads two texts that are
alike or neither (`Pattern.accepts_alike`). A matcher also accepts the path that is spelled like its glob, and
this it takes as it stands: it tells a path from one that is alike just if one of the two is spelled like the
glob and the patterns read neither (`accepts_alike_iff`). An ordinary glob reads its own spelling.
-/

namespace TreeCensus.Glob

set_option autoImplicit false

open Text (Alike mem_kin_iff_of_mem_kin eq_iff_of_mem_kin)
open Pattern (chain links sequence)

section Kin

variable {c d : Char}

theorem Casing.mem_members_iff_of_mem_kin (h : d ∈ Text.kin c) (x : Char) :
    x ∈ Casing.ignored.members d ↔ x ∈ Casing.ignored.members c := by
  have hkin := mem_kin_iff_of_mem_kin h
  have hall : (Text.kin d).all (· ≤ x) = (Text.kin c).all (· ≤ x) := by
    rw [Bool.eq_iff_iff, List.all_eq_true, List.all_eq_true]
    exact forall_congr' fun y => imp_congr_left (hkin y)
  rw [members, members, List.mem_filter, List.mem_filter, kin, kin, hkin, hall]

/-- A letter whose capital form has several characters has no variant of one character. -/
theorem lookup_capitalStarts_eq (h : d ∈ Text.kin c) :
    Text.capitalStarts.lookup d = Text.capitalStarts.lookup c := by
  have hlone : ∀ p ∈ Text.capitalStarts, Text.kin p.1 = [p.1] := by decide +kernel
  by_cases heq : d = c
  · rw [heq]
  · have hnone : ∀ x, (∀ p ∈ Text.capitalStarts, x ≠ p.1) → Text.capitalStarts.lookup x = none := by
      intro x hx
      rw [List.lookup_eq_none_iff]
      simpa using hx
    rw [hnone d, hnone c]
    · rintro p hp rfl
      exact heq ((eq_iff_of_mem_kin (hlone p hp) h).mp rfl)
    · rintro p hp rfl
      exact heq ((eq_iff_of_mem_kin (hlone p hp) h).mpr rfl).symm

theorem Casing.mem_ranged_iff_of_mem_kin (h : d ∈ Text.kin c) (last x : Char) :
    x ∈ Casing.ignored.ranged last d ↔ x ∈ Casing.ignored.ranged last c := by
  have hkin := mem_kin_iff_of_mem_kin h x
  simp only [ranged, kin, lookup_capitalStarts_eq h]
  split
  · rw [List.mem_append, List.mem_append, hkin]
  · exact hkin

theorem Member.holds_iff_of_mem_kin (h : d ∈ Text.kin c) (m : Member) :
    m.Holds .ignored d ↔ m.Holds .ignored c := by
  cases m with
  | single x => exact Casing.mem_members_iff_of_mem_kin h x
  | range a b => exact exists_congr fun x => and_congr_left' (Casing.mem_ranged_iff_of_mem_kin h b x)

theorem Bracket.accepts_iff_of_mem_kin (h : d ∈ Text.kin c) (b : Bracket) :
    b.Accepts .ignored d ↔ b.Accepts .ignored c := by
  simp only [Bracket.Accepts, Bracket.Lists, Member.holds_iff_of_mem_kin h]

end Kin

/-- Whether a test on texts takes kin for one another. -/
def Folds (K : Text → Bool) : Prop := ∀ ⦃t u : Text⦄, Alike t u → K t = K u

/-- Whether a test on characters takes kin for one another. -/
def FoldsChar (p : Char → Bool) : Prop := ∀ ⦃c d : Char⦄, d ∈ Text.kin c → p c = p d

namespace FoldsChar

theorem decide_iff {P : Char → Prop} [DecidablePred P] (h : ∀ ⦃c d⦄, d ∈ Text.kin c → (P d ↔ P c)) :
    FoldsChar fun c => P c :=
  fun _ _ hcd => (decide_eq_decide.mpr (h hcd)).symm

theorem ne {x : Char} (hx : Text.kin x = [x]) : FoldsChar fun c => c ≠ x :=
  decide_iff fun _ _ h => not_congr (eq_iff_of_mem_kin hx h).symm

theorem inName : FoldsChar Glob.inName := ne Text.kin_slash

theorem inLine : FoldsChar Glob.inLine := ne (by decide +kernel)

theorem isSlash : FoldsChar Glob.isSlash :=
  decide_iff fun _ _ h => (eq_iff_of_mem_kin Text.kin_slash h).symm

end FoldsChar

namespace Folds

variable {p q : Char → Bool} {K L : Text → Bool}

theorem isEmpty : Folds List.isEmpty := by
  intro t u h
  cases h <;> rfl

theorem or (hK : Folds K) (hL : Folds L) : Folds fun t => K t || L t :=
  fun _ _ h => congrArg₂ _ (hK h) (hL h)

theorem readNext (hp : FoldsChar p) (hK : Folds K) : Folds (Glob.readNext p K) := by
  intro t u h
  cases h with
  | nil => rfl
  | cons hcd h => rw [Glob.readNext, Glob.readNext, hp hcd, hK h]

theorem readWhile (hp : FoldsChar p) (hK : Folds K) : Folds (Glob.readWhile p K) := by
  intro t u h
  induction h with
  | nil => rfl
  | cons hcd h ih => rw [Glob.readWhile, Glob.readWhile, hK (.cons hcd h), hp hcd, ih]

theorem readFolders (hK : Folds K) (within : Bool) : Folds fun t => Glob.readFolders K within t := by
  intro t u h
  induction h generalizing within with
  | nil => rfl
  | @cons c d t u hcd h ih =>
    have hslash : c = '/' ↔ d = '/' := eq_iff_of_mem_kin Text.kin_slash hcd
    cases within with
    | false =>
      simp only [Glob.readFolders] at ih ⊢
      rw [hK (.cons hcd h), ih true]
      simp only [ne_eq, hslash]
    | true =>
      simp only [Glob.readFolders] at ih ⊢
      rw [ih true, ih false]
      simp only [hslash]

theorem reads_atom (hK : Folds K) (a : Atom) : Folds (a.reads .ignored K) := by
  cases a with
  | char x => exact readNext (.decide_iff fun _ _ h => mem_kin_iff_of_mem_kin h x) hK
  | one => exact readNext .inName hK
  | run => exact readWhile .inName hK
  | name => exact readNext .inName (readWhile .inName hK)
  | folders => exact readFolders hK false
  | below => exact readNext .isSlash (readWhile .inLine hK)
  | within => exact hK.or (readNext .isSlash (readWhile .inLine hK))
  | anything => exact readNext .inLine (readWhile .inLine hK)

theorem reads (hK : Folds K) (p : Pattern) : Folds (p.reads .ignored K) := by
  induction p generalizing K with
  | empty => exact hK
  | atom a => exact hK.reads_atom a
  | bracket b => exact readNext (.decide_iff fun _ _ h => b.accepts_iff_of_mem_kin h) hK
  | seq p q ihp ihq => exact ihp (ihq hK)
  | alt p q ihp ihq => exact (ihp hK).or (ihq hK)

end Folds

theorem Pattern.accepts_alike (p : Pattern) {t u : Text} (h : Alike t u) :
    p.Accepts .ignored t ↔ p.Accepts .ignored u := by
  rw [Accepts, Accepts, Folds.isEmpty.reads p h]

theorem Matcher.reads_alike {m : Matcher} (hm : m.casing = .ignored) {t u : Text} (h : Alike t u) :
    m.Reads t ↔ m.Reads u := by
  simp only [Reads, hm, Pattern.accepts_alike _ h]

section Ordinary

theorem segmentBonds?_of_open {s : Text} (hbracket : '[' ∉ s) (hopen : '(' ∉ s) :
    segmentBonds? s = some [] := by
  have hread : ∀ t : Text, '[' ∉ t → ∀ d, (readTokens? false d t).map bonds = some [] := by
    intro t ht d
    fun_induction readTokens? false d t <;> simp_all [bonds, Token.isBond]
  rw [segmentBonds?, segmentTokens?]
  split
  · rfl
  · rw [show decide (HasGroups s) = false from decide_eq_false fun h => hopen h.1]
    exact hread s hbracket 0

/-- The atoms that a glob without brackets and groups is read as. -/
theorem exists_atoms {g : Text} (hbracket : '[' ∉ g) (hopen : '(' ∉ g) :
    ∃ as : List Atom, tokens? g = some (as.map Token.atom) := by
  have hloose : ∀ s ∈ Text.pieces '/' (bare g), segmentBonds? s = some [] := by
    intro s hs
    have hmem : ∀ {c : Char}, c ≠ '/' → c ∉ g → c ∉ s := fun hc hg hcs =>
      (mem_of_mem_bare (mem_of_mem_pieces hs hcs)).elim hc hg
    exact segmentBonds?_of_open (hmem (by decide) hbracket) (hmem (by decide) hopen)
  have hbonds : (tokens? g).map bonds = some [] := by
    rw [map_bonds_tokens?]
    simpa [pathBonds?] using pathBonds?_append_of_loose hloose []
  obtain ⟨ts, hts, hnone⟩ := Option.map_eq_some_iff.mp hbonds
  have hatoms : ts ∈ Set.range (List.map Token.atom) := by
    rw [Set.range_list_map]
    intro t ht
    have hbond := List.filter_eq_nil_iff.mp hnone t ht
    cases t with
    | atom a => exact ⟨a, rfl⟩
    | _ => exact absurd rfl hbond
  obtain ⟨as, rfl⟩ := hatoms
  exact ⟨as, hts⟩

theorem assemble_atoms (e : Text) (as : List Atom) (n : Nat) {g : Group} {ps : List Pattern}
    (hchoices : g.choices = none) (hcurrent : g.current = chain .empty ps) :
    assemble e n [] g (as.map Token.atom) = .ok (chain .empty (ps ++ as.map Pattern.atom)) := by
  induction as generalizing n g ps with
  | nil => rw [List.map_nil, List.map_nil, List.append_nil, assemble, Group.whole, hchoices, hcurrent]
  | cons a as ih =>
    have hpush : (g.push (.atom a)).current = chain .empty (ps ++ [.atom a]) := by
      rw [Pattern.chain_append, ← hcurrent]
      rfl
    rw [List.map_cons, assemble, ih _ (g := g.push (.atom a)) hchoices hpush]
    simp

theorem Atom.spells_ignored {a : Atom} {t : Text} (h : a.Spells .heeded t) : a.Spells .ignored t := by
  cases a with
  | char x =>
    obtain ⟨c, rfl, hx⟩ := h
    obtain rfl := List.mem_singleton.mp hx
    exact ⟨x, rfl, Casing.mem_kin_self _ x⟩
  | _ => exact h

/-- What reads a text with its case reads it without. -/
theorem accepts_ignored_of_atoms {as : List Atom} {t : Text}
    (h : (chain .empty (as.map Pattern.atom)).Accepts .heeded t) :
    ((chain .empty (as.map Pattern.atom)).under .ignored).Accepts .ignored t := by
  have hlinks : ∀ k, (as.map Pattern.atom).flatMap (links k) = as.map Pattern.atom := by
    intro k
    rw [List.flatMap_map]
    cases k <;> exact List.flatMap_pure_eq_map Pattern.atom as
  have hunder : ∀ k, ((chain .empty (as.map Pattern.atom)).under k).Accepts k t ↔
      (sequence (as.map Pattern.atom)).Spells k t := by
    intro k
    rw [← Pattern.accepts_iff_spells, Pattern.Accepts, Pattern.reads_under_chain, hlinks, Pattern.Accepts]
  rw [hunder .ignored]
  replace h := (hunder .heeded).mp h
  clear hunder hlinks
  induction as generalizing t with
  | nil => exact h
  | cons a as ih =>
    obtain ⟨u, v, rfl, hu, hv⟩ := h
    exact ⟨u, v, rfl, Atom.spells_ignored hu, ih hv⟩

theorem IsOrdinary.reads_spelling {g : Text} (h : IsOrdinary g) {m : Matcher}
    (hm : matcher .ignored g = .ok m) : m.Reads m.spelling := by
  have hexpand : expand g = [g] := expand_of_none (firstGroup?_eq_none (h.not_mem (by decide)) [])
  obtain ⟨p, hp, rfl⟩ := (matcher_eq_ok_iff_of_expand hexpand).mp hm
  obtain ⟨as, has⟩ := exists_atoms (h.not_mem (by decide)) (h.not_mem (by decide))
  obtain rfl : chain .empty (as.map Pattern.atom) = p := by
    rw [Pattern.ofGlob, has] at hp
    exact Except.ok.inj ((@assemble_atoms _ as 0 _ [] rfl rfl).symm.trans hp)
  obtain ⟨p, hp', hself⟩ := h.accepts_self
  obtain rfl := Except.ok.inj (hp.symm.trans hp')
  refine ⟨_, List.mem_singleton_self _, ?_⟩
  rw [Matcher.spelling, h.bare]
  exact accepts_ignored_of_atoms hself

end Ordinary

theorem Matcher.casing_of_matcher {k : Casing} {g : Text} {m : Matcher} (hm : matcher k g = .ok m) :
    m.casing = k := by
  rw [matcher_eq_ok_iff, Matcher.compile] at hm
  cases hps : (expand g).mapM Pattern.ofGlob with
  | error e => rw [hps] at hm; cases hm
  | ok ps =>
    rw [hps] at hm
    exact congrArg Matcher.casing (Except.ok.inj hm).symm

/-- Where case is ignored, the patterns of a glob read both of two paths that are alike or neither. The matcher
answers alike unless its patterns read neither and just one of the paths is spelled like the glob; and always if
the glob is ordinary. -/
theorem accepts_alike_iff {g : Text} {m : Matcher} (hm : matcher .ignored g = .ok m) {p q : Path}
    (h : Alike p q) :
    (m.Reads p ↔ m.Reads q) ∧
      ((m.Accepts p ↔ m.Accepts q) ↔ m.Reads p ∨ (p = m.spelling ↔ q = m.spelling)) ∧
      (IsOrdinary g → (m.Accepts p ↔ m.Accepts q)) := by
  have hreads := Matcher.reads_alike (Matcher.casing_of_matcher hm) h
  have hiff : (m.Accepts p ↔ m.Accepts q) ↔ m.Reads p ∨ (p = m.spelling ↔ q = m.spelling) := by
    rw [m.accepts_iff_reads, m.accepts_iff_reads, hreads]
    tauto
  refine ⟨hreads, hiff, fun hordinary => ?_⟩
  have hself := hordinary.reads_spelling hm
  rw [m.accepts_iff_reads, m.accepts_iff_reads, hreads]
  refine or_congr_left' fun hnot => ⟨?_, ?_⟩
  · rintro rfl
    exact absurd (hreads.mp hself) hnot
  · rintro rfl
    exact absurd hself hnot

/-- A bracket expression that accepts its own spelling tells it from the same text in capital letters, and an
ordinary glob does not. -/
theorem accepts_alike_of_spelling :
    (∃ m, matcher .ignored "[a]".toList = .ok m ∧ Alike "[a]".toList "[A]".toList ∧
      (m.Reads "[a]".toList ↔ m.Reads "[A]".toList) ∧ ¬ m.Reads "[a]".toList ∧
      m.Accepts "[a]".toList ∧ ¬ m.Accepts "[A]".toList) ∧
    ∃ m, matcher .ignored "src/*.Py".toList = .ok m ∧ Alike "Src/a.py".toList "sRC/A.PY".toList ∧
      IsOrdinary "src/*.Py".toList ∧ (m.Accepts "Src/a.py".toList ↔ m.Accepts "sRC/A.PY".toList) ∧
      m.Accepts "Src/a.py".toList := by
  have hbracket : (matcher .ignored "[a]".toList).toOption.any (fun m => decide
      (¬ m.Reads "[a]".toList ∧ "[a]".toList = m.spelling ∧ "[A]".toList ≠ m.spelling)) = true := by
    decide +kernel
  have hplain : (matcher .ignored "src/*.Py".toList).toOption.any (fun m => decide
      (m.Accepts "Src/a.py".toList)) = true := by
    decide +kernel
  have hordinary : IsOrdinary "src/*.Py".toList := by decide +kernel
  have halike : Alike "[a]".toList "[A]".toList := Text.alike_of_map_toLower (by decide +kernel)
  have halike' : Alike "Src/a.py".toList "sRC/A.PY".toList := Text.alike_of_map_toLower (by decide +kernel)
  obtain ⟨m, hm, hnot, heq, hne⟩ := exists_matcher_of_any hbracket
  obtain ⟨m', hm', haccepts⟩ := exists_matcher_of_any hplain
  obtain ⟨hreads, hiff, -⟩ := accepts_alike_iff hm halike
  obtain ⟨-, -, hsame⟩ := accepts_alike_iff hm' halike'
  refine ⟨⟨m, hm, halike, hreads, hnot, .inl heq, fun haccepts => ?_⟩,
    m', hm', halike', hordinary, hsame hordinary, haccepts⟩
  rcases hiff.mp ⟨fun _ => haccepts, fun _ => .inl heq⟩ with hread | hspelled
  · exact hnot hread
  · exact hne (hspelled.mp heq)

end TreeCensus.Glob
