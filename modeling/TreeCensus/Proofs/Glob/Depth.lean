import Mathlib.Algebra.GroupWithZero.Nat
import TreeCensus.Proofs.Glob.Scanning
import TreeCensus.Proofs.Glob.Slashes

/-!
# How deep the paths lie that a glob accepts

Without globstars the tokens of a glob read within names, apart from one slash between two segments. So a
path that is accepted has at most as many slashes as the glob, and one more for every bracket expression that
accepts a slash. It has no fewer, as long as no group goes on behind its segment: then every slash of the glob
stands outside of all groups (`slashes_of_accepts`).
-/

namespace TreeCensus.Glob

set_option autoImplicit false

open TreeCensus.Path (parts)

/-- The atoms that read within a name. -/
def Atom.InName : Atom → Prop
  | char c => c ≠ '/'
  | one | run | name => True
  | _ => False

theorem Atom.InName.count_slash {a : Atom} (ha : a.InName) {k : Casing} {t : Text} (h : a.Spells k t) :
    t.count '/' = 0 := by
  cases a with
  | char x =>
    obtain ⟨c, rfl, hc⟩ := h
    rw [Casing.count_slash_of_mem_kin hc, count_slash_singleton ha]
  | one =>
    obtain ⟨c, rfl, hc⟩ := h
    exact count_slash_singleton hc
  | run => exact List.count_eq_zero.mpr h
  | name => exact List.count_eq_zero.mpr h.2
  | _ => exact ha.elim

/-- A bracket expression that accepts a slash. A negated one never does. -/
def Crosses (negated : Bool) (body : Text) : Prop := negated = false ∧ Covers body '/'

instance (negated : Bool) (body : Text) : Decidable (Crosses negated body) :=
  inferInstanceAs (Decidable (_ ∧ _))

theorem covers_slash {body : Text} (h : ¬ Reversed ('/' :: body)) : Covers ('/' :: body) '/' := by
  by_cases hlead : LeadingHyphen body
  · obtain ⟨b, r, rfl⟩ := exists_of_leadingHyphen hlead
    have hle : '/' ≤ b := le_of_not_gt fun hlt => h ⟨('/', b), List.mem_cons_self, hlt⟩
    exact ⟨('/', b), List.mem_cons_self, le_refl _, hle⟩
  · refine ⟨('/', '/'), ?_, le_refl _, le_refl _⟩
    rw [spans_slash hlead]
    exact List.mem_cons_self

theorem crosses_of_accepts {negated : Bool} {body : Text} {ms : List Member}
    (h : readMembers [] (allMembers negated body) = .ok ms)
    (hslash : (Bracket.mk negated ms).Accepts .heeded '/') : Crosses negated body := by
  rw [accepts_bracket_iff h] at hslash
  cases negated with
  | false => exact ⟨rfl, hslash⟩
  | true => exact absurd (covers_slash (exists_readMembers_iff.mp ⟨ms, h⟩)) hslash

namespace Pattern

def AtMost (b : Nat) (p : Pattern) : Prop := ∀ n, p.Depths n → n ≤ b

def AtLeast (b : Nat) (p : Pattern) : Prop := ∀ n, p.Depths n → b ≤ n

theorem AtMost.mono {p : Pattern} {i j : Nat} (h : p.AtMost i) (hij : i ≤ j) : p.AtMost j :=
  fun n hn => Nat.le_trans (h n hn) hij

theorem eq_one_of_depths_slash {n : Nat} (h : (atom (.char '/')).Depths n) : n = 1 := by
  obtain ⟨k, t, ⟨c, rfl, hc⟩, rfl⟩ := h
  rw [Casing.count_slash_of_mem_kin hc]
  rfl

theorem atMost_inName {a : Atom} (ha : a.InName) : (atom a).AtMost 0 := by
  rintro _ ⟨k, t, ht, rfl⟩
  rw [ha.count_slash ht]

theorem atMost_bracket {negated : Bool} {body : Text} {ms : List Member}
    (h : readMembers [] (allMembers negated body) = .ok ms) :
    (bracket ⟨negated, ms⟩).AtMost (if Crosses negated body then 1 else 0) := by
  rintro _ ⟨k, c, hc, rfl⟩
  by_cases hslash : c = '/'
  · subst hslash
    rw [if_pos (crosses_of_accepts h ((Bracket.accepts_slash_iff k _).mp hc))]
    decide
  · rw [count_slash_singleton hslash]
    exact Nat.zero_le _

end Pattern

/-- How many slashes a token adds at most. -/
def Token.most : Token → Nat
  | .atom a => if a = .char '/' then 1 else 0
  | .bracket negated members => if Crosses negated members then 1 else 0
  | _ => 0

/-- A token as it comes from a glob without globstars. -/
def Token.IsLevel (t : Token) : Prop := ∀ a, t = .atom a → a = .char '/' ∨ a.InName

namespace Group

variable {g : Group} {i j : Nat} {q : Pattern}

theorem atMost_push (hg : g.whole.AtMost i) (hq : q.AtMost j) : (g.push q).whole.AtMost (i + j) := by
  obtain ⟨opened, choices, current⟩ := g
  cases choices with
  | none =>
    rintro _ ⟨l, m, rfl, hl, hm⟩
    exact Nat.add_le_add (hg l hl) (hq m hm)
  | some p =>
    rintro n (hn | ⟨l, m, rfl, hl, hm⟩)
    · exact Nat.le_trans (hg n (.inl hn)) (Nat.le_add_right i j)
    · exact Nat.add_le_add (hg l (.inr hl)) (hq m hm)

theorem atMost_split (hg : g.whole.AtMost i) : g.split.whole.AtMost i := by
  rintro n (hn | rfl)
  · exact hg n hn
  · exact Nat.zero_le i

end Group

/-- What is put together reads no more slashes than the open groups and the tokens do. -/
theorem assemble_atMost {e : Text} {p : Pattern} {ts : List Token} (hlevel : ∀ t ∈ ts, t.IsLevel) {n : Nat}
    {outer : List Group} {inner : Group} {bs : List Nat}
    (hstack : List.Forall₂ (fun g b => g.whole.AtMost b) (inner :: outer) bs)
    (h : assemble e n outer inner ts = .ok p) : p.AtMost (bs.sum + (ts.map Token.most).sum) := by
  induction ts generalizing n outer inner bs with
  | nil =>
    cases outer with
    | nil =>
      obtain rfl := Except.ok.inj h
      cases hstack with
      | cons hb hrest =>
        cases hrest
        exact hb.mono (by simp)
    | cons g outer => cases h
  | cons t ts ih =>
    obtain ⟨ht, hts⟩ := List.forall_mem_cons.mp hlevel
    -- every open group keeps its own bound: at a closing parenthesis the two innermost bounds become one
    cases hstack with
    | @cons _ b _ bs hb hrest =>
    simp only [List.map_cons, List.sum_cons]
    cases t with
    | atom a =>
      have ha : (Pattern.atom a).AtMost (Token.atom a).most := by
        rcases ht a rfl with rfl | hname
        · exact fun n hn => Nat.le_of_eq (Pattern.eq_one_of_depths_slash hn)
        · exact (Pattern.atMost_inName hname).mono (Nat.zero_le _)
      rw [assemble] at h
      refine (ih hts (.cons (Group.atMost_push hb ha) hrest) h).mono ?_
      simp only [List.sum_cons]
      omega
    | bracket negated members =>
      simp only [assemble] at h
      cases hms : readMembers [] (allMembers negated members) with
      | error r => rw [hms] at h; cases h
      | ok ms =>
        rw [hms] at h
        refine (ih hts (.cons (Group.atMost_push hb (Pattern.atMost_bracket hms)) hrest) h).mono ?_
        simp only [List.sum_cons, Token.most]
        omega
    | opening =>
      rw [assemble] at h
      have hstart : (Group.start n).whole.AtMost 0 := fun m hm => Nat.le_of_eq hm
      refine (ih hts (.cons hstart (.cons hb hrest)) h).mono ?_
      simp only [List.sum_cons, Token.most]
      omega
    | closing =>
      cases hrest with
      | nil => cases h
      | cons hb' hrest =>
        refine (ih hts (.cons (Group.atMost_push hb' hb) hrest) h).mono ?_
        simp only [List.sum_cons, Token.most]
        omega
    | bar =>
      rw [assemble] at h
      refine (ih hts (.cons (Group.atMost_split hb) hrest) h).mono ?_
      simp only [List.sum_cons, Token.most]
      omega

/-- The outermost of the open groups has no choices so far, and it reads at least `b` slashes. -/
inductive Grounded (b : Nat) : List Group → Prop
  | ground {g : Group} (choices : g.choices = none) (current : g.current.AtLeast b) : Grounded b [g]
  | above (g : Group) {gs : List Group} (h : Grounded b gs) : Grounded b (g :: gs)

theorem Grounded.push {b : Nat} {g : Group} {gs : List Group} (h : Grounded b (g :: gs)) (q : Pattern) :
    Grounded b (g.push q :: gs) := by
  cases h with
  | ground choices current =>
    refine .ground choices ?_
    rintro _ ⟨l, m, rfl, hl, -⟩
    exact Nat.le_trans (current l hl) (Nat.le_add_right l m)
  | above g h => exact .above _ h

theorem Grounded.push_slash {b : Nat} {g : Group} (h : Grounded b [g]) :
    Grounded (b + 1) [g.push (.atom (.char '/'))] := by
  cases h with
  | ground choices current =>
    refine .ground choices ?_
    rintro _ ⟨l, m, rfl, hl, hm⟩
    exact Nat.add_le_add (current l hl) (Nat.le_of_eq (Pattern.eq_one_of_depths_slash hm).symm)
  | above g h => cases h

/-- How many slashes stand outside of all groups, `depth` groups being open. -/
def outside : (depth : Nat) → List Token → Nat
  | _, [] => 0
  | 0, .atom (.char '/') :: r => outside 0 r + 1
  | d, .opening :: r => outside (d + 1) r
  | d, .closing :: r => outside (d - 1) r
  | d, _ :: r => outside d r

theorem outside_atom_of_ne {d : Nat} {a : Atom} (h : d ≠ 0 ∨ a ≠ .char '/') (r : List Token) :
    outside d (.atom a :: r) = outside d r := by
  have hne : d = 0 → a ≠ .char '/' := fun hd => h.resolve_left fun hnot => hnot hd
  rw [outside] <;> simp_all

/-- What is put together reads the slashes that stand outside of all groups. -/
theorem assemble_atLeast {e : Text} {p : Pattern} {ts : List Token} {n b : Nat} {outer : List Group}
    {inner : Group} (henclosed : Enclosed outer.length ts) (hstack : Grounded b (inner :: outer))
    (h : assemble e n outer inner ts = .ok p) : p.AtLeast (b + outside outer.length ts) := by
  induction ts generalizing n b outer inner with
  | nil =>
    cases hstack with
    | ground choices current =>
      obtain rfl := Except.ok.inj h
      rw [Group.whole, choices]
      exact current
    | above _ hstack => cases hstack <;> cases h
  | cons t ts ih =>
    cases t with
    | atom a =>
      rw [assemble] at h
      by_cases hslash : outer.length = 0 ∧ a = .char '/'
      · obtain ⟨hnil, rfl⟩ := hslash
        obtain rfl := List.length_eq_zero_iff.mp hnil
        have hrest := ih henclosed hstack.push_slash h
        rw [List.length_nil, outside, Nat.add_comm _ 1, ← Nat.add_assoc]
        exact hrest
      · rw [outside_atom_of_ne (not_and_or.mp hslash)]
        exact ih henclosed (hstack.push _) h
    | bracket negated members =>
      simp only [assemble] at h
      cases hms : readMembers [] (allMembers negated members) with
      | error r => rw [hms] at h; cases h
      | ok ms =>
        rw [hms] at h
        exact ih henclosed (hstack.push _) h
    | opening =>
      rw [assemble] at h
      exact ih henclosed (.above _ hstack) h
    | closing =>
      cases outer with
      | nil => cases h
      | cons g outer =>
        cases hstack with
        | above _ hstack => exact ih henclosed (hstack.push _) h
    | bar =>
      -- a bar stands in a group, so the outermost group never gets choices
      cases hstack with
      | ground choices current => exact absurd rfl henclosed.1
      | above _ hstack =>
        rw [assemble] at h
        exact ih henclosed.2 (.above _ hstack) h

theorem inName_of_readTokens? {groups : Bool} {d : Int} {t : Text} {ts : List Token}
    (h : readTokens? groups d t = some ts) (ht : '/' ∉ t) {a : Atom} (ha : .atom a ∈ ts) : a.InName := by
  fun_induction readTokens? groups d t generalizing ts with
  | case1 =>
    obtain rfl := Option.some.inj h
    cases ha
  | case2 d r hnext ih => exact ih h (fun hmem => ht (List.mem_cons_of_mem _ hmem)) ha
  | case5 => cases h
  | case6 =>
    rename_i hb _ _ _ ih
    obtain ⟨us, hus, rfl⟩ := Option.map_eq_some_iff.mp h
    rcases List.mem_cons.mp ha with heq | ha
    · cases heq
    · obtain ⟨w, -, -, rfl⟩ := exists_of_bracketText? hb
      exact ih hus (fun hmem => ht (List.mem_cons_of_mem _ (List.mem_append_right _ hmem))) ha
  | case10 =>
    rename_i ih
    obtain ⟨us, hus, rfl⟩ := Option.map_eq_some_iff.mp h
    rcases List.mem_cons.mp ha with heq | ha
    · obtain rfl := Token.atom.inj heq
      exact fun hc => ht (hc ▸ List.mem_cons_self)
    · exact ih hus (fun hmem => ht (List.mem_cons_of_mem _ hmem)) ha
  | _ =>
    rename_i ih
    obtain ⟨us, hus, rfl⟩ := Option.map_eq_some_iff.mp h
    rcases List.mem_cons.mp ha with heq | ha
    · cases heq <;> trivial
    · exact ih hus (fun hmem => ht (List.mem_cons_of_mem _ hmem)) ha

theorem inName_of_segmentTokens? {s : Text} {ts : List Token} (h : segmentTokens? s = some ts) (hs : '/' ∉ s)
    {a : Atom} (ha : .atom a ∈ ts) : a.InName := by
  unfold segmentTokens? at h
  split at h
  · obtain rfl := Option.some.inj h
    obtain rfl := Token.atom.inj (List.mem_singleton.mp ha)
    trivial
  · exact inName_of_readTokens? h hs ha

/-- No group of the segment goes on behind it. -/
def Closed (s : Text) : Prop := HasGroups s → ∀ bs o, Scan s bs o → Nested True o

/-- Tokens with `n` slashes; if `closed` holds, all of them stand outside of groups. -/
structure Descends (closed : Prop) (n : Nat) (ts : List Token) : Prop where
  level : ∀ t ∈ ts, t.IsLevel
  slashes : ts.count (.atom (.char '/')) = n
  outside : closed → ∀ us, outside 0 (ts ++ us) = n + outside 0 us

namespace Descends

variable {P Q : Prop} {n m : Nat} {ts us : List Token}

theorem nil : Descends P 0 [] := ⟨by simp, rfl, fun _ us => (Nat.zero_add _).symm⟩

theorem slash : Descends P 1 [.atom (.char '/')] := by
  refine ⟨?_, rfl, fun _ us => Nat.add_comm _ 1⟩
  intro t ht a ha
  obtain rfl := List.mem_singleton.mp ht
  exact .inl (Token.atom.inj ha).symm

theorem append (ht : Descends P n ts) (hu : Descends P m us) : Descends P (n + m) (ts ++ us) := by
  refine ⟨List.forall_mem_append.mpr ⟨ht.level, hu.level⟩, ?_, ?_⟩
  · rw [List.count_append, ht.slashes, hu.slashes]
  · intro hp vs
    rw [List.append_assoc, ht.outside hp, hu.outside hp, Nat.add_assoc]

theorem imp (h : Descends P n ts) (hpq : Q → P) : Descends Q n ts :=
  ⟨h.level, h.slashes, fun hq => h.outside (hpq hq)⟩

/-- The tokens of a segment before those of further segments. -/
theorem cons {s : Text} {rest : List Text} (ht : Descends (Closed s) 0 ts)
    (hu : Descends (∀ t ∈ rest, Closed t) n us) : Descends (∀ t ∈ s :: rest, Closed t) n (ts ++ us) := by
  have hhere : Descends (∀ t ∈ s :: rest, Closed t) 0 ts := ht.imp fun h => h s List.mem_cons_self
  have hthere : Descends (∀ t ∈ s :: rest, Closed t) n us :=
    hu.imp fun h t ht => h t (List.mem_cons_of_mem s ht)
  have hall := hhere.append hthere
  rwa [Nat.zero_add] at hall

end Descends

/-- Behind the tokens of a name there are as many open groups as its parentheses leave open. -/
theorem outside_append {ts : List Token} (hname : ∀ a, .atom a ∈ ts → a.InName) {d d' : Nat}
    (h : openParentheses? d (ts.filterMap Token.parenthesis?) = some d') (us : List Token) :
    outside d (ts ++ us) = outside d' us := by
  induction ts generalizing d with
  | nil =>
    obtain rfl := Option.some.inj h
    rfl
  | cons t ts ih =>
    have hrest := @ih fun a ha => hname a (List.mem_cons_of_mem t ha)
    rw [List.cons_append]
    cases t with
    | atom a =>
      have hslash : a ≠ .char '/' := by
        rintro rfl
        exact hname _ List.mem_cons_self rfl
      rw [outside_atom_of_ne (.inr hslash)]
      exact hrest h
    | bracket => exact hrest h
    | bar => exact hrest h
    | opening => exact hrest h
    | closing =>
      cases d with
      | zero => cases h
      | succ d => exact hrest h

theorem descends_segmentTokens? {s : Text} {ts : List Token} (h : segmentTokens? s = some ts) (hs : '/' ∉ s) :
    Descends (Closed s) 0 ts := by
  have hname : ∀ a, .atom a ∈ ts → a.InName := fun a => inName_of_segmentTokens? h hs
  refine ⟨?_, ?_, ?_⟩
  · rintro t ht a rfl
    exact .inr (hname a ht)
  · exact List.count_eq_zero.mpr fun hmem => hname _ hmem rfl
  · intro hclosed us
    obtain ⟨bs, o, hscan⟩ := (scan_or_unclosed s).resolve_right fun hopen => by
      rw [segmentTokens?_eq_none hopen] at h
      cases h
    obtain ⟨vs, hvs, hshows⟩ := hscan.exists_segmentTokens?
    obtain rfl := Option.some.inj (hvs.symm.trans h)
    have hnested : Nested True (if HasGroups s then o else []) := by
      split
      · next hgroups => exact hclosed hgroups bs o hscan
      · exact .nil
    rw [Nat.zero_add]
    apply outside_append hname
    rw [hshows.parentheses, openParentheses?_filter]
    exact (nested_iff _).mp hnested

theorem exists_of_pathTokens? {previous : Option Text} (hprevious : previous ≠ some globstar) {s : Text}
    (hs : s ≠ globstar) {rest : List Text} {ts : List Token} (h : pathTokens? previous (s :: rest) = some ts) :
    ∃ here there, segmentTokens? s = some here ∧ pathTokens? (some s) rest = some there ∧
      ts = (if previous = none then [] else [.atom (.char '/')]) ++ (here ++ there) := by
  cases hhere : segmentTokens? s with
  | none => cases previous <;> simp [pathTokens?, hs, hhere] at h
  | some here =>
    cases hthere : pathTokens? (some s) rest with
    | none => cases previous <;> simp [pathTokens?, hs, hhere, hthere] at h
    | some there =>
      refine ⟨here, there, rfl, rfl, ?_⟩
      cases previous with
      | none =>
        simp only [pathTokens?, if_neg hs, hhere, hthere, Option.some.injEq] at h
        exact h.symm
      | some p =>
        have hp : p ≠ globstar := fun hp => hprevious (congrArg some hp)
        simp only [pathTokens?, if_neg hs, if_neg hp, hhere, hthere, Option.some.injEq] at h
        rw [← h, List.append_assoc, if_neg (by simp)]

theorem descends_after {p : Text} (hp : p ≠ globstar) {segs : List Text}
    (hsegs : ∀ s ∈ segs, s ≠ globstar ∧ '/' ∉ s) {ts : List Token} (h : pathTokens? (some p) segs = some ts) :
    Descends (∀ s ∈ segs, Closed s) segs.length ts := by
  induction segs generalizing p ts with
  | nil =>
    obtain rfl := Option.some.inj h
    exact .nil
  | cons s rest ih =>
    obtain ⟨⟨hs, hslash⟩, hrest⟩ := List.forall_mem_cons.mp hsegs
    obtain ⟨here, there, hhere, hthere, rfl⟩ := exists_of_pathTokens? (by simpa using hp) hs h
    have hall := Descends.slash.append ((descends_segmentTokens? hhere hslash).cons (ih hs hrest hthere))
    rwa [Nat.add_comm] at hall

/-- Without globstars, the tokens of segments have a slash between any two of them. -/
theorem descends_pathTokens? {s : Text} {rest : List Text} (hsegs : ∀ t ∈ s :: rest, t ≠ globstar ∧ '/' ∉ t)
    {ts : List Token} (h : pathTokens? none (s :: rest) = some ts) :
    Descends (∀ t ∈ s :: rest, Closed t) rest.length ts := by
  obtain ⟨⟨hs, hslash⟩, hrest⟩ := List.forall_mem_cons.mp hsegs
  obtain ⟨here, there, hhere, hthere, rfl⟩ := exists_of_pathTokens? (by simp) hs h
  exact (descends_segmentTokens? hhere hslash).cons (descends_after hs hrest hthere)

theorem sum_most {ts : List Token} (h : ∀ t ∈ ts, t.IsLevel) :
    (ts.map Token.most).sum = ts.count (.atom (.char '/')) +
      (ts.filterMap Token.bracket?).countP fun x => Crosses x.1 x.2 := by
  induction ts with
  | nil => rfl
  | cons t ts ih =>
    have hrest := ih fun u hu => h u (List.mem_cons_of_mem t hu)
    rw [List.map_cons, List.sum_cons, hrest]
    cases t with
    | atom a =>
      have hbracket : (Token.atom a :: ts).filterMap Token.bracket? = ts.filterMap Token.bracket? := rfl
      rw [hbracket, Token.most]
      by_cases ha : a = .char '/'
      · rw [if_pos ha, ha, List.count_cons_self]
        omega
      · rw [if_neg ha, List.count_cons_of_ne (by simpa using ha), Nat.zero_add]
    | bracket negated members =>
      simp only [Token.most, Token.bracket?, List.filterMap_cons, List.countP_cons, decide_eq_true_eq]
      rw [List.count_cons_of_ne (by simp)]
      omega
    | _ =>
      simp only [Token.most, Token.bracket?, List.filterMap_cons]
      rw [List.count_cons_of_ne (by simp)]
      omega

theorem length_pieces (sep : Char) (t : Text) : (Text.pieces sep t).length = t.count sep + 1 := by
  induction t with
  | nil => rfl
  | cons c t ih =>
    rw [Text.pieces]
    split
    · next hc =>
      rw [List.length_cons, ih, hc, List.count_cons_self]
    · next hc =>
      rw [List.count_cons_of_ne hc, ← ih]
      cases hr : Text.pieces sep t with
      | nil => exact absurd hr (Text.pieces_ne_nil sep t)
      | cons p ps => rfl

section Free

variable {a : Text} (hglobstar : globstar ∉ parts (bare a))

include hglobstar

/-- The tokens of a glob without braces and globstars go down by its slashes. -/
theorem descends_tokens? {ts : List Token} (h : tokens? a = some ts) :
    Descends (∀ s ∈ parts (bare a), Closed s) ((bare a).count '/') ts ∧ Enclosed 0 ts := by
  have hsegments : segments a = parts (bare a) := by
    have hcollapse := collapse_append (fun s hs (heq : s = globstar) => hglobstar (heq ▸ hs)) []
    rw [List.append_nil] at hcollapse
    exact hcollapse.trans (List.append_nil _)
  have hlone : segments a ≠ [globstar] := by
    rw [hsegments]
    intro heq
    exact hglobstar (heq ▸ List.mem_singleton_self globstar)
  rw [tokens?, if_neg hlone, hsegments] at h
  have hparts : ∀ s ∈ parts (bare a), s ≠ globstar ∧ '/' ∉ s := fun s hs =>
    ⟨fun heq => hglobstar (heq ▸ hs), Path.not_slash_of_mem_parts hs⟩
  have hlength : (parts (bare a)).length = (bare a).count '/' + 1 := length_pieces '/' (bare a)
  refine ⟨?_, enclosed_of_pathTokens? h 0⟩
  cases heq : parts (bare a) with
  | nil => exact absurd heq (Text.pieces_ne_nil '/' (bare a))
  | cons s rest =>
    rw [heq] at h hparts hlength
    rw [← Nat.succ.inj hlength]
    exact descends_pathTokens? hparts h

/-- A glob without braces and globstars reads its own slashes, and those that its bracket expressions accept. -/
theorem depths_of_ofGlob {q : Pattern} (hq : Pattern.ofGlob a = .ok q) : ∃ bs o, Scans (parts (bare a)) bs o ∧
    q.AtMost ((bare a).count '/' + bs.countP fun b => Crosses b.negated b.body) ∧
    ((∀ s ∈ parts (bare a), Closed s) → q.AtLeast ((bare a).count '/')) := by
  rw [Pattern.ofGlob] at hq
  cases hts : tokens? a with
  | none => rw [hts] at hq; cases hq
  | some ts =>
    rw [hts] at hq
    obtain ⟨hdescends, henclosed⟩ := descends_tokens? hglobstar hts
    have hbonds := map_bonds_tokens? a
    rw [hts, Option.map_some] at hbonds
    have hclosed : ¬ ∃ s ∈ parts (bare a), Unclosed s := by
      rintro ⟨s, hs, hopen⟩
      rw [← Path.parts, pathBonds?_eq_none hs hopen] at hbonds
      cases hbonds
    obtain ⟨bs, o, hscans⟩ := (scans_or_unclosed (parts (bare a))).resolve_right hclosed
    obtain ⟨vs, hvs, hshows⟩ := hscans.exists_pathBonds?
    obtain rfl := Option.some.inj (hbonds.trans hvs)
    have hbrackets := (filterMap_bonds Token.bracket? (fun _ => rfl) ts).symm.trans hshows.brackets
    refine ⟨bs, o, hscans, ?_, ?_⟩
    · have hstart : List.Forall₂ (fun g b => g.whole.AtMost b) [Group.start 0] [0] :=
        .cons (fun n hn => Nat.le_of_eq hn) .nil
      refine (assemble_atMost hdescends.level hstart hq).mono ?_
      rw [sum_most hdescends.level, hdescends.slashes, hbrackets, List.countP_map]
      simp [Function.comp_def]
    · intro hclosed
      have hground : Grounded 0 [Group.start 0] := .ground rfl fun n _ => Nat.zero_le n
      have hleast := assemble_atLeast (show Enclosed ([] : List Group).length ts from henclosed) hground hq
      have houtside := hdescends.outside hclosed []
      rw [List.append_nil] at houtside
      rwa [List.length_nil, houtside, Nat.zero_add] at hleast

end Free

/-- A bracket expression without parentheses that accepts no slash. -/
structure WrittenBracket.Flat (b : WrittenBracket) : Prop where
  opening : '(' ∉ b.body
  closing : ')' ∉ b.body
  slash : ¬ Crosses b.negated b.body

/-- A path that is accepted is spelled like the glob, or an alternative of the glob accepts it. If no alternative
has a globstar, such a path has at most as many slashes more than the alternative as the alternative has bracket
expressions that accept a slash, and it has no fewer slashes unless a group goes on behind its segment. It has
as many of them if no bracket expression accepts a slash or holds a parenthesis. -/
theorem slashes_of_accepts {k : Casing} {g : Text} {m : Matcher} (hm : matcher k g = .ok m)
    (hglobstar : ∀ a ∈ expand g, globstar ∉ parts (bare a)) {p : Path} (hp : m.Accepts p) :
    p = bare g ∨ ∃ a ∈ expand g, ∃ bs o, Scans (parts (bare a)) bs o ∧
      p.count '/' ≤ (bare a).count '/' + bs.countP (fun b => Crosses b.negated b.body) ∧
      ((∀ s ∈ parts (bare a), Closed s) → (bare a).count '/' ≤ p.count '/') ∧
      ((∀ s ∈ parts (bare a), ∀ bs o, Scan s bs o → ∀ b ∈ bs, b.Flat) → p.count '/' = (bare a).count '/') := by
  rw [Matcher.accepts_iff_of_compile (matcher_eq_ok_iff.mp hm)] at hp
  refine hp.imp_right ?_
  rintro ⟨a, ha, q, hq, haccepts⟩
  obtain ⟨bs, o, hscans, hmost, hleast⟩ := depths_of_ofGlob (hglobstar a ha) hq
  have hdepths := Pattern.depths_of_accepts haccepts
  refine ⟨a, ha, bs, o, hscans, hmost _ hdepths, fun hclosed => hleast hclosed _ hdepths, fun hflat => ?_⟩
  have hclosed : ∀ s ∈ parts (bare a), Closed s := by
    intro s hs hgroups bs o hscan
    have hbs := hflat s hs bs o hscan
    exact hscan.nested (fun b hb => ⟨(hbs b hb).opening, (hbs b hb).closing⟩) hgroups
  have hnone : bs.countP (fun b => Crosses b.negated b.body) = 0 := by
    refine List.countP_eq_zero.mpr fun b hb => ?_
    obtain ⟨s, hs, bs', o', hscan, hmem⟩ := (hscans.mem_iff b).mp hb
    simpa using (hflat s hs bs' o' hscan b hmem).slash
  have hle := hmost _ hdepths
  rw [hnone] at hle
  exact le_antisymm hle (hleast hclosed _ hdepths)

/-- The span from the dot to the zero takes in the slash. -/
theorem slash_of_accepts_span :
    ∃ m, matcher .heeded ['a', '[', '.', '-', '0', ']', 'b'] = .ok m ∧
      (∀ a ∈ expand ['a', '[', '.', '-', '0', ']', 'b'], globstar ∉ parts (bare a)) ∧
      m.Accepts ['a', '/', 'b'] ∧
      (∀ a ∈ expand ['a', '[', '.', '-', '0', ']', 'b'], (bare a).count '/' < ['a', '/', 'b'].count '/') ∧
      ∃ a ∈ expand ['a', '[', '.', '-', '0', ']', 'b'], ∃ bs o, Scans (parts (bare a)) bs o ∧
        0 < bs.countP fun b => Crosses b.negated b.body := by
  have hexpand : expand ['a', '[', '.', '-', '0', ']', 'b'] = [['a', '[', '.', '-', '0', ']', 'b']] :=
    expand_of_none (by decide)
  have hglobstar : ∀ a ∈ expand ['a', '[', '.', '-', '0', ']', 'b'], globstar ∉ parts (bare a) := by
    rw [hexpand]
    decide
  have hcount : ∀ a ∈ expand ['a', '[', '.', '-', '0', ']', 'b'],
      (bare a).count '/' < ['a', '/', 'b'].count '/' := by
    rw [hexpand]
    decide
  let b : WrittenBracket := ⟨false, ['.', '-', '0'], by decide, by decide, by decide⟩
  have hread : readTokens? (decide (HasGroups ['a', '[', '.', '-', '0', ']', 'b'])) 0
      ('a' :: (b.text ++ ['b'])) = some [.atom (.char 'a'), .bracket false ['.', '-', '0'], .atom (.char 'b')] := by
    rw [readTokens?_char (by decide) (by decide) (by decide) (by decide) (by decide), readTokens?_bracket,
      readTokens?_char (by decide) (by decide) (by decide) (by decide) (by decide), readTokens?]
    rfl
  have htokens : tokens? ['a', '[', '.', '-', '0', ']', 'b'] =
      some [.atom (.char 'a'), .bracket false ['.', '-', '0'], .atom (.char 'b')] := by
    have hsegments : segments ['a', '[', '.', '-', '0', ']', 'b'] = [['a', '[', '.', '-', '0', ']', 'b']] := by
      decide
    have hsegment : segmentTokens? ['a', '[', '.', '-', '0', ']', 'b'] = _ := (if_neg (by decide)).trans hread
    rw [tokens?, hsegments, if_neg (by decide), pathTokens?, if_neg (by decide), hsegment]
    rfl
  have hpattern : Pattern.ofGlob ['a', '[', '.', '-', '0', ']', 'b'] =
      .ok (.seq (.seq (.seq .empty (.atom (.char 'a'))) (.bracket ⟨false, [.range '.' '0']⟩))
        (.atom (.char 'b'))) := by
    rw [Pattern.ofGlob, htokens]
    rfl
  obtain ⟨m, hm⟩ : ∃ m, matcher .heeded ['a', '[', '.', '-', '0', ']', 'b'] = .ok m :=
    ⟨_, (matcher_eq_ok_iff_of_expand hexpand).mpr ⟨_, hpattern, rfl⟩⟩
  have haccepts : m.Accepts ['a', '/', 'b'] := by
    obtain ⟨p, hp, rfl⟩ := (matcher_eq_ok_iff_of_expand hexpand).mp hm
    obtain rfl := Except.ok.inj (hpattern.symm.trans hp)
    refine .inr ⟨_, List.mem_singleton_self _, ?_⟩
    simp [Pattern.Accepts, Pattern.reads, Pattern.under, Atom.reads, readNext, Casing.kin, Bracket.Accepts,
      Bracket.Lists, Member.Holds]
  obtain ⟨a, ha, bs, o, hscans, hmost, -, -⟩ :=
    (slashes_of_accepts hm hglobstar haccepts).resolve_left (by decide)
  have hmore := hcount a ha
  exact ⟨m, hm, hglobstar, haccepts, hcount, a, ha, bs, o, hscans, by omega⟩

end TreeCensus.Glob
