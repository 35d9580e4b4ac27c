import TreeCensus.Proofs.Walk.Cursor

/-!
# The walk as a recursion

A plan says what a walk is to do when its handlers answer a question always alike. The recursion
comes to one item after the other and to what a directory holds before the directory itself. Each
visit yields the tally that it adds to the total of its level, if it adds one, and the marks that it
leaves: the identities that were met, the calls of the path handler, and the lines of the log.
-/

namespace TreeCensus.Walk

set_option autoImplicit false

inductive Mark
  | met (id : Text)
  | told (c : PathCall)
  | written (line : Text)
  deriving DecidableEq

structure Yield where
  share : Option Tally
  marks : List Mark
  deriving DecidableEq

namespace Yield

def nothing : Yield := ⟨none, []⟩

/-- The sum of what some visits add. -/
def total (ys : List Yield) : Tally := (ys.filterMap (·.share)).foldl Tally.add .zero

def trail (ys : List Yield) : List Mark := ys.flatMap (·.marks)

end Yield

structure Plan where
  files : FileSystem
  verdict : Path → Verdict
  /-- What the path handler answers, if there is one. -/
  answer : Option (PathCall → Except Fault Bool)
  log : Option LogRule

namespace Plan

variable (plan : Plan) (depth : Nat) (place : Path)

/-- The lines by which an item is logged. -/
def lines (tally : Tally) : List Mark :=
  match plan.log with
  | some rule => if rule.allows depth tally.size then [.written (logLine place tally)] else []
  | none => []

def accepted (tally : Tally) : Yield := ⟨some tally, plan.lines depth place tally⟩

/-- An item of which the path handler has been told; it counts only if the answer is yes. -/
def answered (info : FileInfo) (tally : Tally) : Yield :=
  match plan.answer with
  | none => plan.accepted depth place tally
  | some answer =>
    match answer ⟨place, depth, info, tally⟩ with
    | .ok true => plan.accepted depth place tally
    | _ => .nothing

def reported (info : FileInfo) (tally : Tally) : Yield :=
  match plan.answer with
  | none => plan.answered depth place info tally
  | some _ =>
    let y := plan.answered depth place info tally
    { y with marks := .told ⟨place, depth, info, tally⟩ :: y.marks }

/-- An item counts if the filter includes it or something below it was counted. -/
def counted (verdict : Verdict) (info : FileInfo) (tally : Tally) : Yield :=
  if verdict = .included ∨ 1 ≤ tally.items then
    plan.reported depth place info (tally.count info.kind)
  else .nothing

/-- Visits a path unless it is excluded. -/
def come? (visit? : Path → Verdict → Option Yield) (p : Path) : Option Yield :=
  let place := Path.resolve plan.files.cwd p
  if plan.verdict place = .excluded then some .nothing else visit? place (plan.verdict place)

/-- An item that was not met before, with what is below it. -/
def inside? (visit? : Path → Verdict → Option Yield) (verdict : Verdict) (info : FileInfo) :
    Option Yield :=
  if info.kind = .directory then
    match plan.files.entries place with
    | .error _ => some (plan.counted depth place verdict info .zero)
    | .ok names =>
      ((names.map (Path.under place)).mapM (plan.come? visit?)).map fun ys =>
        let y := plan.counted depth place verdict info (Yield.total ys)
        { y with marks := Yield.trail ys ++ y.marks }
  else some (plan.counted depth place verdict info info.tally)

/-- Visits an item; none if the tree below it is deeper than `fuel`. -/
def visit? : (fuel : Nat) → Nat → Path → Verdict → Option Yield
  | 0, _, _, _ => none
  | fuel + 1, depth, place, verdict =>
    match plan.files.info place with
    | .error _ => some .nothing
    | .ok info =>
      if info.kind = .file ∧ verdict ≠ .included then some .nothing
      else
        (plan.inside? depth place (visit? fuel (depth + 1)) verdict info).map fun y =>
          { y with marks := .met (info.identity place) :: y.marks }

/-- Visits the given paths one after the other. -/
def recursion? (fuel : Nat) (paths : List Path) : Option (List Yield) :=
  paths.mapM (plan.come? (plan.visit? fuel 0))

end Plan

/-- Two answers to what a directory holds that differ at most in the order of the names. -/
inductive SameNames : Except Fault (List Text) → Except Fault (List Text) → Prop
  | names {ns ns' : List Text} (perm : ns.Perm ns') : SameNames (.ok ns) (.ok ns')
  | faults (f g : Fault) : SameNames (.error f) (.error g)

/-- Two file systems that differ at most in the order in which directories are listed. -/
structure Rearranged (files files' : FileSystem) : Prop where
  cwd : files'.cwd = files.cwd
  info : ∀ p, files'.info p = files.info p
  entries : ∀ p, SameNames (files.entries p) (files'.entries p)

structure Yield.Alike (y y' : Yield) : Prop where
  share : y.share = y'.share
  marks : y.marks.Perm y'.marks

section Options
variable {α β : Type} {f : α → Option β}

theorem mapM_cons_eq_some {a : α} {l : List α} {ys : List β} :
    (a :: l).mapM f = some ys ↔ ∃ b bs, f a = some b ∧ l.mapM f = some bs ∧ ys = b :: bs := by
  rw [List.mapM_cons]
  cases f a with
  | none => simp
  | some b =>
    cases l.mapM f with
    | none => simp
    | some bs =>
      simp only [Option.pure_def, Option.bind_eq_bind, Option.bind_some, Option.some.injEq]
      constructor
      · rintro rfl
        exact ⟨b, bs, rfl, rfl, rfl⟩
      · rintro ⟨_, _, rfl, rfl, rfl⟩
        rfl

theorem mapM_perm {l l' : List α} (hperm : l.Perm l') :
    ∀ {ys : List β}, l.mapM f = some ys → ∃ ys', l'.mapM f = some ys' ∧ ys.Perm ys' := by
  induction hperm with
  | nil => exact fun h => ⟨_, h, .refl _⟩
  | cons a _ ih =>
    intro ys h
    obtain ⟨b, bs, hb, hbs, rfl⟩ := mapM_cons_eq_some.mp h
    obtain ⟨bs', hbs', hp⟩ := ih hbs
    exact ⟨b :: bs', mapM_cons_eq_some.mpr ⟨b, bs', hb, hbs', rfl⟩, hp.cons b⟩
  | swap a a' l =>
    intro ys h
    obtain ⟨b, _, hb, hrest, rfl⟩ := mapM_cons_eq_some.mp h
    obtain ⟨b', bs, hb', hbs, rfl⟩ := mapM_cons_eq_some.mp hrest
    refine ⟨b' :: b :: bs, ?_, .swap b' b bs⟩
    exact mapM_cons_eq_some.mpr ⟨b', _, hb', mapM_cons_eq_some.mpr ⟨b, bs, hb, hbs, rfl⟩, rfl⟩
  | trans _ _ ih ih' =>
    intro ys h
    obtain ⟨ys', h', hp⟩ := ih h
    obtain ⟨ys'', h'', hp'⟩ := ih' h'
    exact ⟨ys'', h'', hp.trans hp'⟩

theorem mapM_alike {f' : α → Option Yield} {f : α → Option Yield}
    (hf : ∀ a y, f a = some y → ∃ y', f' a = some y' ∧ y.Alike y') (l : List α) :
    ∀ {ys : List Yield}, l.mapM f = some ys →
      ∃ ys', l.mapM f' = some ys' ∧ List.Forall₂ Yield.Alike ys ys' := by
  induction l with
  | nil =>
    intro ys h
    obtain rfl : [] = ys := Option.some.inj h
    exact ⟨[], rfl, .nil⟩
  | cons a l ih =>
    intro ys h
    obtain ⟨y, rest, hy, hrest, rfl⟩ := mapM_cons_eq_some.mp h
    obtain ⟨y', hy', halike⟩ := hf a y hy
    obtain ⟨rest', hrest', hall⟩ := ih hrest
    exact ⟨y' :: rest', mapM_cons_eq_some.mpr ⟨y', rest', hy', hrest', rfl⟩, .cons halike hall⟩

end Options

instance : RightCommutative Tally.add where
  right_comm t u v := by rw [Tally.add_assoc, Tally.add_comm u v, Tally.add_assoc]

namespace Yield

variable {ys ys' : List Yield}

theorem total_perm (h : ys.Perm ys') : total ys = total ys' := by
  have hshares : (ys.filterMap (·.share)).Perm (ys'.filterMap (·.share)) := h.filterMap _
  exact hshares.foldl_eq Tally.zero

theorem trail_perm (h : ys.Perm ys') : (trail ys).Perm (trail ys') := h.flatMap_right _

theorem total_alike (h : List.Forall₂ Alike ys ys') : total ys = total ys' := by
  have hshares : ys.filterMap (·.share) = ys'.filterMap (·.share) := by
    induction h with
    | nil => rfl
    | cons hy _ ih => simp only [List.filterMap_cons, hy.share, ih]
  unfold total
  rw [hshares]

theorem trail_alike (h : List.Forall₂ Alike ys ys') : (trail ys).Perm (trail ys') := by
  induction h with
  | nil => exact .refl _
  | cons hy _ ih => exact hy.marks.append ih

end Yield

namespace Plan

variable {plan : Plan} {files : FileSystem}

theorem come?_alike (h : Rearranged plan.files files) {f f' : Path → Verdict → Option Yield}
    (hf : ∀ place v y, f place v = some y → ∃ y', f' place v = some y' ∧ y.Alike y') (p : Path) (y : Yield)
    (hy : plan.come? f p = some y) :
    ∃ y', { plan with files }.come? f' p = some y' ∧ y.Alike y' := by
  unfold come? at hy ⊢
  dsimp only at hy ⊢
  rw [h.cwd]
  split at hy
  · next hexcluded =>
    rw [if_pos hexcluded]
    exact ⟨y, hy, rfl, .refl _⟩
  · next hexcluded =>
    rw [if_neg hexcluded]
    exact hf _ _ y hy

theorem mapM_come?_alike (h : Rearranged plan.files files) {f f' : Path → Verdict → Option Yield}
    (hf : ∀ place v y, f place v = some y → ∃ y', f' place v = some y' ∧ y.Alike y')
    {ps ps' : List Path} (hperm : ps.Perm ps') {ys : List Yield}
    (hys : ps.mapM (plan.come? f) = some ys) :
    ∃ ys', ps'.mapM ({ plan with files }.come? f') = some ys' ∧
      Yield.total ys = Yield.total ys' ∧ (Yield.trail ys).Perm (Yield.trail ys') := by
  obtain ⟨zs, hzs, hall⟩ := mapM_alike (come?_alike h hf) ps hys
  obtain ⟨ys', hys', hp⟩ := mapM_perm hperm hzs
  refine ⟨ys', hys', ?_, ?_⟩
  · rw [Yield.total_alike hall, Yield.total_perm hp]
  · exact (Yield.trail_alike hall).trans (Yield.trail_perm hp)

theorem inside?_alike (h : Rearranged plan.files files) {f f' : Path → Verdict → Option Yield}
    (hf : ∀ place v y, f place v = some y → ∃ y', f' place v = some y' ∧ y.Alike y')
    (depth : Nat) (place : Path) (verdict : Verdict) (info : FileInfo) (y : Yield)
    (hy : plan.inside? depth place f verdict info = some y) :
    ∃ y', { plan with files }.inside? depth place f' verdict info = some y' ∧ y.Alike y' := by
  unfold inside? at hy ⊢
  split at hy
  · next hkind =>
    rw [if_pos hkind]
    have hentries := h.entries place
    cases hnames : plan.files.entries place with
    | error f =>
      rw [hnames] at hy hentries
      cases hentries' : files.entries place with
      | ok names => rw [hentries'] at hentries; cases hentries
      | error g => exact ⟨y, hy, rfl, .refl _⟩
    | ok names =>
      rw [hnames] at hy hentries
      cases hentries' : files.entries place with
      | error g => rw [hentries'] at hentries; cases hentries
      | ok names' =>
        rw [hentries'] at hentries
        cases hentries with
        | names perm =>
          obtain ⟨ys, hys, rfl⟩ := Option.map_eq_some_iff.mp hy
          obtain ⟨ys', hys', htotal, htrail⟩ := mapM_come?_alike h hf (perm.map (Path.under place)) hys
          refine ⟨_, Option.map_eq_some_iff.mpr ⟨ys', hys', rfl⟩, ?_, ?_⟩
          · rw [htotal]
            rfl
          · rw [htotal]
            exact htrail.append_right _
  · next hkind =>
    rw [if_neg hkind]
    exact ⟨y, hy, rfl, .refl _⟩

/-- The order in which directories are listed does not matter to what a visit yields. -/
theorem visit?_alike (h : Rearranged plan.files files) (fuel : Nat) :
    ∀ depth place verdict y, plan.visit? fuel depth place verdict = some y →
      ∃ y', { plan with files }.visit? fuel depth place verdict = some y' ∧ y.Alike y' := by
  induction fuel with
  | zero => exact fun _ _ _ _ hy => nomatch hy
  | succ fuel ih =>
    intro depth place verdict y hy
    unfold visit? at hy ⊢
    dsimp only
    rw [h.info place]
    cases hinfo : plan.files.info place with
    | error f =>
      rw [hinfo] at hy
      exact ⟨y, hy, rfl, .refl _⟩
    | ok info =>
      rw [hinfo] at hy
      dsimp only at hy ⊢
      split at hy
      · next hskip =>
        rw [if_pos hskip]
        exact ⟨y, hy, rfl, .refl _⟩
      · next hskip =>
        rw [if_neg hskip]
        obtain ⟨z, hz, rfl⟩ := Option.map_eq_some_iff.mp hy
        obtain ⟨z', hz', halike⟩ := inside?_alike h (ih (depth + 1)) depth place verdict info z hz
        exact ⟨_, Option.map_eq_some_iff.mpr ⟨z', hz', rfl⟩, halike.share, halike.marks.cons _⟩

theorem recursion?_alike (h : Rearranged plan.files files) {fuel : Nat} {paths : List Path}
    {ys : List Yield} (hys : plan.recursion? fuel paths = some ys) :
    ∃ ys', { plan with files }.recursion? fuel paths = some ys' ∧
      Yield.total ys = Yield.total ys' ∧ (Yield.trail ys).Perm (Yield.trail ys') :=
  mapM_come?_alike h (visit?_alike h fuel 0) (.refl paths) hys

end Plan

end TreeCensus.Walk
