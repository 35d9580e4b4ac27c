import TreeCensus.Proofs.Glob.Assembly

/-!
# What can keep a glob from compiling

Characters, stars and question marks go together with whatever stands beside them. Only brackets and the
parts of groups, here called bonds, can keep a glob from compiling, so only these are looked at: a glob
without braces compiles just if the bonds of its segments, one after another, fasten
(`exists_ofGlob_iff`). Segments without bonds, such as empty ones, do not matter.
-/

namespace TreeCensus.Glob

set_option autoImplicit false

def Token.isBond : Token → Bool
  | .atom _ => false
  | _ => true

def bonds (ts : List Token) : List Token := ts.filter Token.isBond

theorem bonds_append (ts us : List Token) : bonds (ts ++ us) = bonds ts ++ bonds us :=
  List.filter_append ts us

/-- Whether tokens can be put together, `depth` groups being open before them. -/
def Fastens : (depth : Nat) → List Token → Prop
  | d, [] => d = 0
  | d, .atom _ :: r => Fastens d r
  | d, .bracket negated members :: r =>
    (∃ ms, readMembers [] (allMembers negated members) = .ok ms) ∧ Fastens d r
  | d, .opening :: r => Fastens (d + 1) r
  | 0, .closing :: _ => False
  | d + 1, .closing :: r => Fastens d r
  | d, .bar :: r => Fastens d r

theorem fastens_bonds (d : Nat) (ts : List Token) : Fastens d (bonds ts) ↔ Fastens d ts := by
  induction ts generalizing d with
  | nil => exact Iff.rfl
  | cons t ts ih =>
    cases t with
    | atom a => exact ih d
    | bracket negated members => exact and_congr_right fun _ => ih d
    | opening => exact ih (d + 1)
    | closing =>
      cases d with
      | zero => exact Iff.rfl
      | succ d => exact ih d
    | bar => exact ih d

theorem exists_assemble_iff (e : Text) (n : Nat) (outer : List Group) (inner : Group)
    (ts : List Token) : (∃ p, assemble e n outer inner ts = .ok p) ↔ Fastens outer.length ts := by
  induction ts generalizing n outer inner with
  | nil => cases outer <;> simp [assemble, Fastens]
  | cons t ts ih =>
    cases t with
    | atom a =>
      simp only [assemble, Fastens]
      exact ih _ outer _
    | bracket negated members =>
      simp only [assemble, Fastens]
      cases h : readMembers [] (allMembers negated members) with
      | error r => simp
      | ok ms => simpa using ih _ outer _
    | opening =>
      simp only [assemble, Fastens]
      exact ih _ (inner :: outer) _
    | closing =>
      cases outer with
      | nil => simp [assemble, Fastens]
      | cons g outer =>
        simp only [assemble]
        exact ih _ outer _
    | bar =>
      simp only [assemble, Fastens]
      exact ih _ outer _

/-- The bonds of a segment; none if a bracket is not closed. -/
def segmentBonds? (s : Text) : Option (List Token) := (segmentTokens? s).map bonds

/-- The bonds of several segments, one after another. -/
def pathBonds? : List Text → Option (List Token)
  | [] => some []
  | s :: rest =>
    match segmentBonds? s, pathBonds? rest with
    | some here, some there => some (here ++ there)
    | _, _ => none

theorem pathBonds?_cons_of_loose {s : Text} (h : segmentBonds? s = some []) (rest : List Text) :
    pathBonds? (s :: rest) = pathBonds? rest := by
  rw [pathBonds?, h]
  cases pathBonds? rest <;> rfl

/-- Segments without bonds do not matter. -/
theorem pathBonds?_append_of_loose {ps : List Text} (h : ∀ s ∈ ps, segmentBonds? s = some [])
    (rest : List Text) : pathBonds? (ps ++ rest) = pathBonds? rest := by
  induction ps with
  | nil => rfl
  | cons s ps ih =>
    rw [List.cons_append, pathBonds?_cons_of_loose (h s List.mem_cons_self)]
    exact ih fun t ht => h t (List.mem_cons_of_mem s ht)

theorem pathBonds?_append_loose {ps : List Text} (h : ∀ s ∈ ps, segmentBonds? s = some [])
    (segs : List Text) : pathBonds? (segs ++ ps) = pathBonds? segs := by
  induction segs with
  | nil => simpa [pathBonds?] using pathBonds?_append_of_loose h []
  | cons s segs ih => rw [List.cons_append, pathBonds?, ih, ← pathBonds?]

theorem segmentBonds?_nil : segmentBonds? [] = some [] := by
  rw [segmentBonds?, segmentTokens?, if_neg (by simp), readTokens?]
  rfl

theorem segmentBonds?_dot : segmentBonds? ['.'] = some [] := by
  rw [segmentBonds?, segmentTokens?, if_neg (by decide)]
  simp [readTokens?, HasGroups, bonds, Token.isBond]

theorem segmentBonds?_globstar : segmentBonds? globstar = some [] := by
  rw [segmentBonds?, segmentTokens?, if_pos (by decide)]
  rfl

theorem pathBonds?_collapse (segs : List Text) : pathBonds? (collapse segs) = pathBonds? segs := by
  fun_induction collapse segs with
  | case1 s t r h ih => rw [ih, h.1, pathBonds?_cons_of_loose segmentBonds?_globstar]
  | case2 s t r _ ih => rw [pathBonds?, ih, ← pathBonds?]
  | case3 => rfl

theorem map_bonds_pathTokens? (previous : Option Text) (segs : List Text) :
    (pathTokens? previous segs).map bonds = pathBonds? segs := by
  induction segs generalizing previous with
  | nil => rfl
  | cons s rest ih =>
    have hrest := ih (some s)
    by_cases hs : s = globstar
    · have hhere : ∀ here : List Token, bonds here = [] →
          ((pathTokens? (some s) rest).map (here ++ ·)).map bonds = pathBonds? (s :: rest) := by
        intro here hhere
        rw [hs, pathBonds?_cons_of_loose segmentBonds?_globstar, ← hrest, hs, Option.map_map]
        congr 1
        funext ts
        rw [Function.comp_apply, bonds_append, hhere, List.nil_append]
      simp only [pathTokens?, if_pos hs]
      apply hhere
      split
      · rfl
      · split <;> rfl
      · rfl
    · have hslash : ∀ slash : List Token, bonds slash = [] →
          (match segmentTokens? s, pathTokens? (some s) rest with
            | some here, some there => some (slash ++ here ++ there)
            | _, _ => none).map bonds = pathBonds? (s :: rest) := by
        intro slash hslash
        rw [pathBonds?, segmentBonds?, ← hrest]
        cases segmentTokens? s with
        | none => rfl
        | some here =>
          cases pathTokens? (some s) rest with
          | none => rfl
          | some there => simp [bonds_append, hslash]
      simp only [pathTokens?, if_neg hs]
      apply hslash
      split
      · rfl
      · split <;> rfl

theorem map_bonds_tokens? (a : Text) :
    (tokens? a).map bonds = pathBonds? (Text.pieces '/' (bare a)) := by
  unfold tokens?
  split
  · next h =>
    rw [← pathBonds?_collapse]
    change _ = pathBonds? (segments a)
    rw [h, pathBonds?_cons_of_loose segmentBonds?_globstar]
    rfl
  · rw [map_bonds_pathTokens?, segments, pathBonds?_collapse]

/-- What leads a glob has no bonds. -/
theorem pathBonds?_bare (a : Text) :
    pathBonds? (Text.pieces '/' (bare a)) =
      pathBonds? (Text.pieces '/' (Text.replace '\\' '/' a)) := by
  unfold bare
  split
  · next r h =>
    rw [h, Text.pieces, if_pos rfl, pathBonds?_cons_of_loose segmentBonds?_nil]
  · next r h =>
    have hpieces : Text.pieces '/' ('.' :: '/' :: r) = ['.'] :: Text.pieces '/' r := by
      simp [Text.pieces]
    rw [h, hpieces, pathBonds?_cons_of_loose segmentBonds?_dot]
  · rfl

/-- A glob without braces compiles just if its brackets are closed and its bonds fasten. -/
theorem exists_ofGlob_iff (a : Text) :
    (∃ p, Pattern.ofGlob a = .ok p) ↔
      ∃ bs, pathBonds? (Text.pieces '/' (Text.replace '\\' '/' a)) = some bs ∧ Fastens 0 bs := by
  rw [← pathBonds?_bare, ← map_bonds_tokens?, Pattern.ofGlob]
  cases tokens? a with
  | none => simp
  | some ts =>
    simp only [Option.map_some, Option.some.injEq, exists_eq_left', fastens_bonds]
    exact exists_assemble_iff _ 0 [] (.start 0) ts

end TreeCensus.Glob
