import TreeCensus.Proofs.Walk.Calm

/-!
# What a level covers

What the recursion comes to in some paths is what the visits of a level that is opened for them have
ahead of them, and what is left within an item is what the recursion finds there.
-/

namespace TreeCensus.Walk

set_option autoImplicit false

variable {σ : Type} {plan : Plan} {fuel depth : Nat} {v : Visit}

namespace Visit

variable {info : FileInfo} {f : Fault}

theorem full_of_error (hinfo : plan.files.info v.place = .error f)
    (hsome : (plan.visit? fuel depth v.place v.verdict).isSome = true) :
    v.full plan fuel depth = .nothing := by
  unfold full
  cases fuel with
  | zero => cases hsome
  | succ fuel =>
    unfold Plan.visit?
    rw [hinfo]
    rfl

theorem full_of_skip (hinfo : plan.files.info v.place = .ok info)
    (hskip : info.kind = .file ∧ v.verdict ≠ .included)
    (hsome : (plan.visit? fuel depth v.place v.verdict).isSome = true) :
    v.full plan fuel depth = .nothing := by
  unfold full
  cases fuel with
  | zero => cases hsome
  | succ fuel =>
    unfold Plan.visit?
    rw [hinfo]
    dsimp only
    rw [if_pos hskip]
    rfl

theorem full_of_met (hinfo : plan.files.info v.place = .ok info)
    (hmeets : ¬ (info.kind = .file ∧ v.verdict ≠ .included))
    (hsome : (plan.visit? fuel depth v.place v.verdict).isSome = true) :
    0 < fuel ∧ (v.inside? plan fuel depth info).isSome = true ∧
      (v.full plan fuel depth).share = (v.inside plan fuel depth info).share ∧
      (v.full plan fuel depth).marks =
        .met (info.identity v.place) :: (v.inside plan fuel depth info).marks := by
  unfold full inside
  cases fuel with
  | zero => cases hsome
  | succ fuel =>
    unfold Plan.visit? at hsome ⊢
    rw [hinfo] at hsome ⊢
    dsimp only at hsome ⊢
    rw [if_neg hmeets] at hsome ⊢
    rw [Option.isSome_map] at hsome
    obtain ⟨y, hy⟩ := Option.isSome_iff_exists.mp hsome
    have hinside : v.inside? plan (fuel + 1) depth info = some y := hy
    rw [hinside, hy]
    exact ⟨Nat.succ_pos fuel, rfl, rfl, rfl⟩

theorem inside_of_item (hkind : info.kind ≠ .directory) :
    v.inside plan fuel depth info = v.counted plan depth info info.tally := by
  unfold inside inside? Plan.inside?
  rw [if_neg hkind]
  rfl

theorem inside_of_error (hkind : info.kind = .directory)
    (hentries : plan.files.entries v.place = .error f) :
    v.inside plan fuel depth info = v.counted plan depth info info.tally := by
  unfold inside inside? Plan.inside? FileInfo.tally
  rw [if_pos hkind, if_pos hkind, hentries]
  rfl

theorem inside_of_names {names : List Text} (hkind : info.kind = .directory)
    (hentries : plan.files.entries v.place = .ok names)
    (hsome : (v.inside? plan fuel depth info).isSome = true) :
    ∃ ys, (names.map (Path.under v.place)).mapM (plan.come? (plan.visit? (fuel - 1) (depth + 1))) =
        some ys ∧
      (v.inside plan fuel depth info).share = (v.counted plan depth info (Yield.total ys)).share ∧
      (v.inside plan fuel depth info).marks =
        Yield.trail ys ++ (v.counted plan depth info (Yield.total ys)).marks := by
  unfold inside
  unfold inside? Plan.inside? at hsome ⊢
  rw [if_pos hkind, hentries] at hsome ⊢
  dsimp only at hsome ⊢
  rw [Option.isSome_map] at hsome
  obtain ⟨ys, hys⟩ := Option.isSome_iff_exists.mp hsome
  refine ⟨ys, hys, ?_⟩
  rw [hys]
  exact ⟨rfl, rfl⟩

theorem inside_of_nil (hkind : info.kind = .directory)
    (hentries : plan.files.entries v.place = .ok []) :
    v.inside plan fuel depth info = v.counted plan depth info info.tally := by
  unfold inside inside? Plan.inside? FileInfo.tally
  rw [if_pos hkind, if_pos hkind, hentries]
  rfl

end Visit

theorem Plan.work_of_names {place : Path} {names : List Text}
    (hentries : plan.files.entries place = .ok names) :
    plan.work (fuel + 1) place = (names.map fun name =>
      9 + plan.work fuel (Path.resolve plan.files.cwd (Path.under place name))).sum + 1 := by
  rw [Plan.work, hentries]

/-- What is left when an item is settled. -/
theorem Cursor.left_settle (plan : Plan) (fuel depth : Nat) (v : Visit) (info : FileInfo) (tally : Tally) :
    ((follow (settle v.verdict [] info tally)).left plan fuel depth v).toYield =
        v.counted plan depth info tally ∧
      ((follow (settle v.verdict [] info tally)).left plan fuel depth v).work ≤ 3 := by
  unfold settle Visit.counted Plan.counted
  dsimp only
  split
  · exact ⟨rfl, Nat.le_refl 3⟩
  · exact ⟨rfl, Nat.zero_le 3⟩

/-- The visit of a path, given with its place among its siblings, unless it is excluded. -/
def Plan.approach? (plan : Plan) (e : Path × Nat) : Option Visit :=
  let place := Path.resolve plan.files.cwd e.1
  if plan.verdict place = .excluded then none else some ⟨place, place, e.2, plan.verdict place, []⟩

def Plan.visits (plan : Plan) (first : Nat) (paths : List Path) : List Visit :=
  (paths.zipIdx first).filterMap plan.approach?

theorem Plan.Guides.visits_eq {env : Environment σ} (hguides : plan.Guides env) (paths : List Path) :
    State.visits env paths = plan.visits 0 paths := by
  unfold State.visits Plan.visits
  congr 1
  funext e
  obtain ⟨p, index⟩ := e
  unfold Plan.approach?
  dsimp only
  rw [hguides.verdict, ← hguides.files]
  cases env.options.filter <;> rfl

/-- What the visits of a level have ahead of them. -/
def Plan.prospects (plan : Plan) (fuel depth first : Nat) (paths : List Path) : List Left :=
  (plan.visits first paths).map (·.ahead plan fuel depth)

structure Plan.Covers (plan : Plan) (fuel depth first : Nat) (paths : List Path) (ys : List Yield) :
    Prop where
  fits : ∀ v ∈ plan.visits first paths, v.outer = [] ∧ v.name = v.place ∧
    (plan.visit? fuel depth v.place v.verdict).isSome = true
  shares : (plan.prospects fuel depth first paths).filterMap (·.share) = ys.filterMap (·.share)
  marks : (plan.prospects fuel depth first paths).flatMap (·.marks) = Yield.trail ys
  work : ((plan.prospects fuel depth first paths).map (·.work)).sum ≤
    (paths.map fun p => 9 + plan.work fuel (Path.resolve plan.files.cwd p)).sum

theorem Plan.covers (fuel depth : Nat) (paths : List Path) :
    ∀ {ys : List Yield} (first : Nat), paths.mapM (plan.come? (plan.visit? fuel depth)) = some ys →
      plan.Covers fuel depth first paths ys := by
  induction paths with
  | nil =>
    intro ys first h
    obtain rfl : [] = ys := Option.some.inj h
    exact ⟨nofun, rfl, rfl, Nat.le_refl 0⟩
  | cons p paths ih =>
    intro ys first h
    obtain ⟨y, rest, hy, hrest, rfl⟩ := mapM_cons_eq_some.mp h
    have hcovers := ih (first + 1) hrest
    have hwork := hcovers.work
    unfold Plan.come? at hy
    dsimp only at hy
    by_cases hexcluded : plan.verdict (Path.resolve plan.files.cwd p) = .excluded
    · rw [if_pos hexcluded] at hy
      obtain rfl := Option.some.inj hy
      have hvisits : plan.visits first (p :: paths) = plan.visits (first + 1) paths := by
        unfold visits
        rw [List.zipIdx_cons, List.filterMap_cons_none]
        unfold approach?
        exact if_pos hexcluded
      have hprospects : plan.prospects fuel depth first (p :: paths) =
          plan.prospects fuel depth (first + 1) paths := by
        unfold prospects
        rw [hvisits]
      refine ⟨?_, ?_, ?_, ?_⟩
      · rw [hvisits]
        exact hcovers.fits
      · rw [hprospects]
        exact hcovers.shares
      · rw [hprospects]
        exact hcovers.marks
      · rw [hprospects, List.map_cons, List.sum_cons]
        omega
    · rw [if_neg hexcluded] at hy
      generalize hv : (⟨Path.resolve plan.files.cwd p, Path.resolve plan.files.cwd p, first,
        plan.verdict (Path.resolve plan.files.cwd p), []⟩ : Visit) = v at *
      have hvisits : plan.visits first (p :: paths) = v :: plan.visits (first + 1) paths := by
        unfold visits
        rw [List.zipIdx_cons, List.filterMap_cons_some]
        unfold approach?
        rw [← hv]
        exact if_neg hexcluded
      have hprospects : plan.prospects fuel depth first (p :: paths) =
          v.ahead plan fuel depth :: plan.prospects fuel depth (first + 1) paths := by
        unfold prospects
        rw [hvisits, List.map_cons]
      have hahead : v.ahead plan fuel depth =
          ⟨y, 9 + plan.work fuel (Path.resolve plan.files.cwd p)⟩ := by
        unfold Visit.ahead Visit.full
        rw [← hv, hy]
        rfl
      refine ⟨?_, ?_, ?_, ?_⟩
      · rw [hvisits]
        intro w hw
        rcases List.mem_cons.mp hw with rfl | hw
        · subst hv
          exact ⟨rfl, rfl, by rw [hy]; rfl⟩
        · exact hcovers.fits w hw
      · rw [hprospects, hahead, List.filterMap_cons, List.filterMap_cons, hcovers.shares]
      · rw [hprospects, hahead, List.flatMap_cons, hcovers.marks]
        rfl
      · rw [hprospects, hahead, List.map_cons, List.sum_cons, List.map_cons, List.sum_cons]
        exact Nat.add_le_add_left hwork _

end TreeCensus.Walk
