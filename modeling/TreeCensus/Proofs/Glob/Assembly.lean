import Mathlib.Data.List.Induction
import TreeCensus.Proofs.Glob.Matching

/-!
# What comes before a glob

The tokens of a path stand outside of all groups, so what comes before them is read before them, and
nothing else changes: whether they can be put together does not depend on it (`assemble_behind`), and a
pattern that begins with the characters of a text reads that text and then what the rest reads
(`accepts_behind`).
-/

namespace TreeCensus.Glob

set_option autoImplicit false

/-- Every bar stands in a group, `depth` groups being open at the start. -/
def Enclosed : (depth : Nat) → List Token → Prop
  | _, [] => True
  | d, .bar :: r => d ≠ 0 ∧ Enclosed d r
  | d, .opening :: r => Enclosed (d + 1) r
  | d, .closing :: r => Enclosed (d - 1) r
  | d, .atom _ :: r => Enclosed d r
  | d, .bracket _ _ :: r => Enclosed d r

theorem Enclosed.append {d : Nat} {ts us : List Token} (ht : Enclosed d ts)
    (hu : ∀ d, Enclosed d us) : Enclosed d (ts ++ us) := by
  induction ts generalizing d with
  | nil => exact hu d
  | cons t ts ih =>
    cases t with
    | bar => exact ⟨ht.1, ih ht.2⟩
    | _ => exact ih ht

/-- A segment closes no group that it did not open, unless all groups are closed. -/
theorem enclosed_of_readTokens? {groups : Bool} {depth : Int} {t : Text} {ts : List Token}
    (h : readTokens? groups depth t = some ts) (d : Nat) (hd : depth ≤ d) : Enclosed d ts := by
  fun_induction readTokens? groups depth t generalizing d ts with
  | case1 =>
    obtain rfl := Option.some.inj h
    trivial
  | case2 depth r hnext ih => exact ih h d hd
  | case5 => cases h
  | case7 =>
    rename_i ih
    obtain ⟨us, hus, rfl⟩ := Option.map_eq_some_iff.mp h
    exact ih hus (d + 1) (by omega)
  | case8 =>
    rename_i ih
    obtain ⟨us, hus, rfl⟩ := Option.map_eq_some_iff.mp h
    exact ih hus (d - 1) (by omega)
  | case9 =>
    rename_i hbar ih
    obtain ⟨us, hus, rfl⟩ := Option.map_eq_some_iff.mp h
    exact ⟨by omega, ih hus d hd⟩
  | _ =>
    rename_i ih
    obtain ⟨us, hus, rfl⟩ := Option.map_eq_some_iff.mp h
    exact ih hus d hd

theorem enclosed_of_segmentTokens? {s : Text} {ts : List Token} (h : segmentTokens? s = some ts)
    (d : Nat) : Enclosed d ts := by
  unfold segmentTokens? at h
  split at h
  · obtain rfl := Option.some.inj h
    trivial
  · exact enclosed_of_readTokens? h d (by omega)

theorem enclosed_of_pathTokens? {previous : Option Text} {segs : List Text} {ts : List Token}
    (h : pathTokens? previous segs = some ts) (d : Nat) : Enclosed d ts := by
  induction segs generalizing previous ts d with
  | nil =>
    obtain rfl := Option.some.inj h
    trivial
  | cons s rest ih =>
    unfold pathTokens? at h
    split at h
    · obtain ⟨there, hthere, rfl⟩ := Option.map_eq_some_iff.mp h
      refine Enclosed.append ?_ fun d => ih hthere d
      split
      · trivial
      · split <;> trivial
      · trivial
    · have key : ∀ {slash here there : List Token}, (∀ d, Enclosed d slash) →
          segmentTokens? s = some here → pathTokens? (some s) rest = some there →
          Enclosed d (slash ++ here ++ there) := fun hslash hhere hthere =>
        ((hslash d).append fun d => enclosed_of_segmentTokens? hhere d).append fun d => ih hthere d
      cases hhere : segmentTokens? s with
      | none => simp [hhere] at h
      | some here =>
        cases hthere : pathTokens? (some s) rest with
        | none => simp [hhere, hthere] at h
        | some there =>
          simp only [hhere, hthere] at h
          obtain rfl := Option.some.inj h
          refine key ?_ hhere hthere
          intro d
          split
          · trivial
          · split <;> trivial

namespace Pattern

/-- One pattern after another, behind `c`. -/
def chain (c : Pattern) (ps : List Pattern) : Pattern := ps.foldl .seq c

theorem chain_append (c : Pattern) (ps qs : List Pattern) :
    chain c (ps ++ qs) = chain (chain c ps) qs := List.foldl_append

theorem reads_chain (k : Casing) (c : Pattern) (ps : List Pattern) (K : Text → Bool) :
    (chain c ps).reads k K = c.reads k ((sequence ps).reads k K) := by
  induction ps generalizing c with
  | nil => rfl
  | cons p ps ih =>
    change (chain (.seq c p) ps).reads k K = _
    rw [ih]
    rfl

/-- What a pattern comes to in a chain. -/
def links (k : Casing) (p : Pattern) : List Pattern :=
  match k with
  | .heeded => [p]
  | .ignored => gather (choices p)

theorem choices_chain (ps : List Pattern) :
    choices (chain .empty ps) = [ps.flatMap fun p => gather (choices p)] := by
  induction ps using List.reverseRecOn with
  | nil => rfl
  | append_singleton ps p ih =>
    rw [chain_append, List.flatMap_append]
    change [gather (choices (chain .empty ps)) ++ gather (choices p)] = _
    rw [ih]
    simp [gather]

theorem reads_under_chain (k : Casing) (ps : List Pattern) (K : Text → Bool) :
    ((chain .empty ps).under k).reads k K = (sequence (ps.flatMap (links k))).reads k K := by
  cases k with
  | heeded =>
    have hlinks : ps.flatMap (links .heeded) = ps := by
      induction ps with
      | nil => rfl
      | cons p ps ih => rw [List.flatMap_cons, ih]; rfl
    rw [hlinks]
    exact reads_chain .heeded .empty ps K
  | ignored =>
    change (condense (chain .empty ps)).reads .ignored K = _
    unfold condense
    rw [choices_chain]
    rfl

/-- The pattern that reads a text, character by character. -/
def spelled (u : Text) : List Pattern := u.map fun c => .atom (.char c)

theorem links_spelled (k : Casing) (u : Text) : (spelled u).flatMap (links k) = spelled u := by
  induction u with
  | nil => rfl
  | cons c u ih =>
    change links k (.atom (.char c)) ++ (spelled u).flatMap (links k) = _
    rw [ih]
    cases k <;> rfl

theorem reads_spelled (k : Casing) (u v : Text) (ps : List Pattern) (K : Text → Bool) :
    (sequence (spelled u ++ ps)).reads k K (u ++ v) = (sequence ps).reads k K v := by
  induction u with
  | nil => rfl
  | cons c u ih =>
    change readNext (fun d => c ∈ k.kin d) ((sequence (spelled u ++ ps)).reads k K) (c :: (u ++ v)) = _
    rw [readNext, ih, decide_eq_true (k.mem_kin_self c), Bool.true_and]

/-- Where case is heeded, nothing but the text itself is read for it. -/
theorem exists_of_reads_spelled {u t : Text} {ps : List Pattern} {K : Text → Bool}
    (h : (sequence (spelled u ++ ps)).reads .heeded K t = true) :
    ∃ v, t = u ++ v ∧ (sequence ps).reads .heeded K v = true := by
  induction u generalizing t with
  | nil => exact ⟨t, rfl, h⟩
  | cons c u ih =>
    change readNext (fun d => c ∈ Casing.heeded.kin d)
      ((sequence (spelled u ++ ps)).reads .heeded K) t = true at h
    cases t with
    | nil => cases h
    | cons d t =>
      obtain ⟨hd, ht⟩ := Bool.and_eq_true_iff.mp h
      obtain rfl : c = d := by simpa [Casing.kin] using hd
      obtain ⟨v, rfl, hv⟩ := ih ht
      exact ⟨v, rfl, hv⟩

theorem accepts_behind (k : Casing) (u v : Text) (ps : List Pattern) :
    ((chain .empty (spelled u ++ ps)).under k).Accepts k (u ++ v) ↔
      ((chain .empty ps).under k).Accepts k v := by
  unfold Accepts
  rw [reads_under_chain, reads_under_chain, List.flatMap_append, links_spelled, reads_spelled]

theorem exists_of_accepts_behind {u t : Text} {ps : List Pattern}
    (h : ((chain .empty (spelled u ++ ps)).under .heeded).Accepts .heeded t) :
    ∃ v, t = u ++ v ∧ ((chain .empty ps).under .heeded).Accepts .heeded v := by
  unfold Accepts at h
  rw [reads_under_chain, List.flatMap_append, links_spelled] at h
  obtain ⟨v, rfl, hv⟩ := exists_of_reads_spelled h
  refine ⟨v, rfl, ?_⟩
  unfold Accepts
  rwa [reads_under_chain]

end Pattern

open Pattern (chain spelled)

/-- Two groups that differ at most in where they were opened. -/
def Group.Same (g g' : Group) : Prop := g.choices = g'.choices ∧ g.current = g'.current

theorem Group.Same.whole {g g' : Group} (h : g.Same g') : g.whole = g'.whole := by
  unfold Group.whole
  rw [h.1, h.2]

/-- Stacks of groups, the innermost first, that differ only in what comes first in the outermost one. -/
inductive Abreast (c c' : Pattern) : List Group → List Group → Prop
  | outermost {g g' : Group} (ps : List Pattern) (choices : g.choices = none)
      (choices' : g'.choices = none) (current : g.current = chain c ps)
      (current' : g'.current = chain c' ps) : Abreast c c' [g] [g']
  | inside {g g' : Group} {outer outer' : List Group} (same : g.Same g')
      (around : Abreast c c' outer outer') : Abreast c c' (g :: outer) (g' :: outer')

section Assembly

variable {c c' : Pattern} {outer outer' : List Group} {inner inner' : Group}

theorem Abreast.push (h : Abreast c c' (inner :: outer) (inner' :: outer')) (p : Pattern) :
    Abreast c c' (inner.push p :: outer) (inner'.push p :: outer') := by
  cases h with
  | outermost ps choices choices' current current' =>
    refine .outermost (ps ++ [p]) choices choices' ?_ ?_
    · rw [Pattern.chain_append, ← current]
      rfl
    · rw [Pattern.chain_append, ← current']
      rfl
  | inside same around =>
    refine .inside ⟨same.1, ?_⟩ around
    change Pattern.seq inner.current p = Pattern.seq inner'.current p
    rw [same.2]

/-- The same tokens lead to the same behind whatever comes first, or to a flaw in either case. -/
theorem assemble_abreast (h : Abreast c c' (inner :: outer) (inner' :: outer')) {ts : List Token}
    (henclosed : Enclosed outer.length ts) (e e' : Text) (n n' : Nat) :
    (∃ f f', assemble e n outer inner ts = .error f ∧ assemble e' n' outer' inner' ts = .error f') ∨
    ∃ ps, assemble e n outer inner ts = .ok (chain c ps) ∧
      assemble e' n' outer' inner' ts = .ok (chain c' ps) := by
  induction ts generalizing n n' outer outer' inner inner' with
  | nil =>
    cases h with
    | outermost ps choices choices' current current' =>
      refine .inr ⟨ps, ?_, ?_⟩
      · rw [assemble, Group.whole, choices, current]
      · rw [assemble, Group.whole, choices', current']
    | inside same around =>
      cases around <;> exact .inl ⟨_, _, rfl, rfl⟩
  | cons t ts ih =>
    cases t with
    | atom a =>
      simp only [assemble]
      exact ih (h.push (.atom a)) henclosed _ _
    | bracket negated members =>
      simp only [assemble]
      cases readMembers [] (allMembers negated members) with
      | error r => exact .inl ⟨_, _, rfl, rfl⟩
      | ok ms => exact ih (h.push (.bracket ⟨negated, ms⟩)) henclosed _ _
    | opening =>
      simp only [assemble]
      have hsame : (Group.start n).Same (Group.start n') := ⟨rfl, rfl⟩
      exact ih (.inside hsame h) henclosed _ _
    | closing =>
      cases h with
      | outermost => exact .inl ⟨_, _, rfl, rfl⟩
      | inside same around =>
        cases around with
        | outermost ps choices choices' current current' =>
          have hpush := (Abreast.outermost ps choices choices' current current').push inner'.whole
          simp only [assemble, same.whole]
          exact ih hpush henclosed _ _
        | inside same₂ around =>
          have hpush := (Abreast.inside same₂ around).push inner'.whole
          simp only [assemble, same.whole]
          exact ih hpush henclosed _ _
    | bar =>
      cases h with
      | outermost => exact absurd rfl henclosed.1
      | inside same around =>
        simp only [assemble]
        have hsame : inner.split.Same inner'.split := ⟨congrArg some same.whole, rfl⟩
        exact ih (.inside hsame around) henclosed.2 _ _

end Assembly

/-- Tokens that are characters of a path. -/
def literal (u : Text) : List Token := u.map fun c => .atom (.char c)

theorem assemble_literal (e : Text) (u : Text) (ts : List Token) (n : Nat) {g : Group}
    (ps : List Pattern) (hchoices : g.choices = none) (hcurrent : g.current = chain .empty ps) :
    ∃ m g', assemble e n [] g (literal u ++ ts) = assemble e m [] g' ts ∧ g'.choices = none ∧
      g'.current = chain .empty (ps ++ spelled u) := by
  induction u generalizing n g ps with
  | nil => exact ⟨n, g, rfl, hchoices, by rw [hcurrent]; simp [spelled]⟩
  | cons c u ih =>
    obtain ⟨m, g', heq, hnone, hspelled⟩ := ih (n + (Atom.char c).written.length)
      (g := g.push (.atom (.char c))) (ps ++ [.atom (.char c)]) hchoices (by
        rw [Pattern.chain_append, ← hcurrent]
        rfl)
    refine ⟨m, g', heq, hnone, ?_⟩
    rw [hspelled, List.append_assoc]
    rfl

/-- Whether tokens can be put together does not depend on the characters before them, and what they come
to stands behind these characters. -/
theorem assemble_behind {ts : List Token} (henclosed : Enclosed 0 ts) (u e e' : Text) :
    (∃ f f', assemble e 0 [] (.start 0) (literal u ++ ts) = .error f ∧
      assemble e' 0 [] (.start 0) ts = .error f') ∨
    ∃ ps, assemble e 0 [] (.start 0) (literal u ++ ts) = .ok (chain .empty (spelled u ++ ps)) ∧
      assemble e' 0 [] (.start 0) ts = .ok (chain .empty ps) := by
  obtain ⟨m, g, heq, hchoices, hcurrent⟩ := assemble_literal e u ts 0 (g := .start 0) [] rfl rfl
  have habreast : Abreast (chain .empty (spelled u)) .empty [g] [.start 0] :=
    .outermost [] hchoices rfl hcurrent rfl
  rw [heq]
  rcases assemble_abreast habreast henclosed e e' m 0 with h | ⟨ps, hps, hps'⟩
  · exact .inl h
  · exact .inr ⟨ps, by rw [hps, Pattern.chain_append], hps'⟩

end TreeCensus.Glob
