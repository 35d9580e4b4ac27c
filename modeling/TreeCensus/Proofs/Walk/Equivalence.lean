import TreeCensus.Proofs.Walk.Ending

/-!
# Walks and the recursion

If nothing is disturbed, a walk comes to what the recursion comes to: to the same total, to the same
calls of the path handler and to the same lines of the log, up to their order. That does not depend on
the order in which directories are listed, on the size of the pool, or on the order in which tasks and
levels make their steps. An identity that the recursion came to twice would be passed over by the
walk, so the recursion must not come to one twice.
-/

namespace TreeCensus.Walk

set_option autoImplicit false

variable {σ : Type}

namespace Mark

def call? : Mark → Option PathCall
  | told c => some c
  | _ => none

def line? : Mark → Option Text
  | written line => some line
  | _ => none

def identity? : Mark → Option Text
  | met id => some id
  | _ => none

end Mark

namespace Yield

variable (ys : List Yield)

def calls : List PathCall := (trail ys).filterMap Mark.call?

def lines : List Text := (trail ys).filterMap Mark.line?

/-- The identities that the recursion comes to. -/
def identities : List Text := (trail ys).filterMap Mark.identity?

theorem count_met_le {ys : List Yield} (h : (identities ys).Nodup) (id : Text) :
    (trail ys).count (.met id) ≤ 1 := by
  have hcount : ∀ marks : List Mark, marks.count (.met id) = (marks.filterMap Mark.identity?).count id := by
    intro marks
    induction marks with
    | nil => rfl
    | cons m marks ih => cases m <;> simp [Mark.identity?, List.filterMap_cons, List.count_cons, ih]
  rw [hcount]
  exact List.nodup_iff_count_le_one.mp h id

end Yield

/-- What is reported of a walk that did what the recursion came to. -/
structure Report.Realizes (r : Report σ) (ys : List Yield) : Prop where
  result : r.result = .ok (Yield.total ys)
  calls : r.calls.Perm (Yield.calls ys)
  lines : r.lines.Perm (Yield.lines ys)

/-- What a walk leaves behind if nobody makes a step any more. -/
def State.leaves (s : State σ) : Report σ :=
  ⟨s.result?.getD (.error .interrupted), s.trace.reverse, s.memory⟩

theorem State.perm_filterMap_marks {α : Type} (s : State σ) {f : Mark → Option α}
    (hmet : ∀ id, f (.met id) = none) :
    (s.trace.reverse.filterMap fun e => e.mark?.bind f).Perm (s.marks.filterMap f) := by
  have hvisited : (s.visited.map Mark.met).filterMap f = [] := by
    rw [List.filterMap_map, List.filterMap_eq_nil_iff]
    exact fun id _ => hmet id
  unfold marks
  rw [List.filterMap_append, hvisited, List.nil_append, List.filterMap_filterMap]
  exact (List.reverse_perm s.trace).filterMap _

theorem State.calls_leaves (s : State σ) : s.leaves.calls.Perm (s.marks.filterMap Mark.call?) := by
  have hcalls : s.leaves.calls = s.trace.reverse.filterMap fun e => e.mark?.bind Mark.call? := by
    apply List.filterMap_congr
    intro e _
    cases e <;> rfl
  rw [hcalls]
  exact s.perm_filterMap_marks fun _ => rfl

theorem State.lines_leaves (s : State σ) : s.leaves.lines.Perm (s.marks.filterMap Mark.line?) := by
  have hlines : s.leaves.lines = s.trace.reverse.filterMap fun e => e.mark?.bind Mark.line? := by
    apply List.filterMap_congr
    intro e _
    cases e <;> rfl
  rw [hlines]
  exact s.perm_filterMap_marks fun _ => rfl

/-- A walk that comes back with what the recursion comes to, however its steps follow one another. -/
structure State.Realizes (env : Environment σ) (s : State σ) (ys : List Yield) : Prop where
  bounded : ∃ bound, ∀ n s', Steps env n s s' → n ≤ bound
  returns : ∀ n s', Steps env n s s' → s'.Stuck env → s'.result?.isSome = true
  realizes : ∀ n s', Steps env n s s' → s'.result?.isSome = true → s'.leaves.Realizes ys

theorem walk_eq_leaves {files : FileSystem} {options : Options σ} {caller : Caller σ} {paths : List Path}
    (hpaths : options.paths = .several paths) (hvalid : options.issues = [])
    (hcaller : caller.cancelled = none) (sweeps : Nat) :
    walk files options caller sweeps =
      ((State.start ⟨files, options, fun _ => none⟩ caller paths).run
        ⟨files, options, fun _ => none⟩ sweeps).leaves := by
  unfold walk
  rw [hpaths]
  dsimp only
  rw [if_neg (not_not_intro hvalid), hcaller]
  cases caller.heeded <;> rfl

theorem realizes_recursion {plan : Plan} {files : FileSystem} {options : Options σ} {caller : Caller σ}
    {paths : List Path} {ys : List Yield} {fuel : Nat} {capacity : Int}
    (hfiles : Rearranged plan.files files)
    (hguides : { plan with files }.Guides ⟨files, options, fun _ => none⟩)
    (hpaths : options.paths = .several paths) (hvalid : options.issues = [])
    (hpool : Pool.create capacity = .ok caller.pool) (hcaller : caller.cancelled = none)
    (hys : plan.recursion? fuel paths = some ys) (hdistinct : (Yield.identities ys).Nodup) :
    State.Realizes ⟨files, options, fun _ => none⟩
        (State.start ⟨files, options, fun _ => none⟩ caller paths) ys ∧
      ∃ enough, ∀ sweeps, enough ≤ sweeps → (walk files options caller sweeps).Realizes ys := by
  obtain ⟨ys', hys', htotal, htrail⟩ := Plan.recursion?_alike hfiles hys
  obtain ⟨hsize, _⟩ := Pool.create_eq hpool
  have hgoal : ∀ id, (Yield.trail ys').count (.met id) ≤ 1 := by
    intro id
    rw [← htrail.count_eq]
    exact Yield.count_met_le hdistinct id
  obtain ⟨bound, hstart⟩ : ∃ bound, Undisturbed { plan with files } fuel capacity (Yield.total ys')
      (Yield.trail ys') bound (State.start ⟨files, options, fun _ => none⟩ caller paths) :=
    ⟨_, .start hguides hpool hys'⟩
  have hreport : ∀ n s', State.Steps ⟨files, options, fun _ => none⟩ n
      (State.start ⟨files, options, fun _ => none⟩ caller paths) s' → s'.result?.isSome = true →
        s'.leaves.Realizes ys := by
    intro n s' hsteps hresult
    obtain ⟨_, hlast⟩ := hstart.steps hguides hgoal hsize hsteps
    obtain ⟨hcomes, hmarks⟩ := hlast.comes hresult
    have hall := hmarks.trans htrail.symm
    refine ⟨?_, ?_, ?_⟩
    · unfold State.leaves
      rw [hcomes, htotal]
      rfl
    · exact s'.calls_leaves.trans (hall.filterMap _)
    · exact s'.lines_leaves.trans (hall.filterMap _)
  refine ⟨⟨⟨bound, ?_⟩, ?_, hreport⟩, bound, ?_⟩
  · intro n s' hsteps
    exact (Undisturbed.steps hguides hgoal hsize hsteps hstart).1
  · intro n s' hsteps hstuck
    exact (hstart.live.steps hsteps).result_of_stuck hsize hstuck
  · intro sweeps henough
    rw [walk_eq_leaves hpaths hvalid hcaller]
    obtain ⟨hresult, n, hsteps⟩ := hstart.live.run hsize sweeps fun n s' hsteps =>
      Nat.le_trans (hstart.steps hguides hgoal hsize hsteps).1 henough
    exact hreport n _ hsteps hresult

/-- The directory `/a` with the files `b` and `c`, and what the directory is listed as. -/
def twoFiles (names : List Text) : FileSystem where
  cwd := ['/']
  info p :=
    if p = ['/', 'a'] then .ok ⟨.directory, 0, 3, 1, 1⟩
    else if p = ['/', 'a', '/', 'b'] then .ok ⟨.file, 5, 7, 1, 2⟩
    else if p = ['/', 'a', '/', 'c'] then .ok ⟨.file, 2, 9, 1, 3⟩
    else .error (.system .noEntry none)
  target _ := .ok []
  entries _ := .ok names
  content _ := .ok []

theorem info_twoFiles {names : List Text} {p : Path} {info : FileInfo}
    (h : (twoFiles names).info p = .ok info) :
    p = ['/', 'a'] ∧ info = ⟨.directory, 0, 3, 1, 1⟩ ∨
      p = ['/', 'a', '/', 'b'] ∧ info = ⟨.file, 5, 7, 1, 2⟩ ∨
      p = ['/', 'a', '/', 'c'] ∧ info = ⟨.file, 2, 9, 1, 3⟩ := by
  unfold twoFiles at h
  dsimp only at h
  split at h
  · next hp => exact .inl ⟨hp, (Except.ok.inj h).symm⟩
  · split at h
    · next hp => exact .inr (.inl ⟨hp, (Except.ok.inj h).symm⟩)
    · split at h
      · next hp => exact .inr (.inr ⟨hp, (Except.ok.inj h).symm⟩)
      · cases h

theorem info_twoFiles_ne (names : List Text) (p : Path) :
    (twoFiles names).info p ≠ .error .interrupted := by
  unfold twoFiles
  dsimp only
  split
  · nofun
  · split
    · nofun
    · split <;> nofun

/-- No two paths have the same identity there. -/
theorem identity_twoFiles {names : List Text} {p q : Path} {a b : FileInfo}
    (hp : (twoFiles names).info p = .ok a) (hq : (twoFiles names).info q = .ok b)
    (heq : a.identity p = b.identity q) : p = q := by
  rcases info_twoFiles hp with ⟨rfl, rfl⟩ | ⟨rfl, rfl⟩ | ⟨rfl, rfl⟩ <;>
    rcases info_twoFiles hq with ⟨rfl, rfl⟩ | ⟨rfl, rfl⟩ | ⟨rfl, rfl⟩ <;>
    first | rfl | exact absurd heq (by decide)

/-- A walk of the directory with the file `b` in it, with the given path handler and log. -/
def oneFileWalk (paths : List Path) (onPath : Option (Handler Unit PathCall PathReply))
    (log : Option Logging) : Report Unit :=
  walk (twoFiles [['b']])
    ⟨.several paths, false, none, onPath, some ⟨false, fun _ _ => ((), .ok true)⟩, log, defaultPriority⟩
    ⟨⟨1, 0, [], [], 0⟩, true, none, ()⟩ 9

/-- A file that is given next to the directory in which it is found again is counted once, while the
recursion comes to it twice. A path handler that says that it was told to end ends the walk, and a
limit on the log that is negative is refused; the recursion takes no notice of either. -/
theorem walk_ne_recursion :
    (∀ p q a b, (twoFiles [['b']]).info p = .ok a → (twoFiles [['b']]).info q = .ok b →
      a.identity p = b.identity q → p = q) ∧
    (∃ ys, Plan.recursion? ⟨twoFiles [['b']], fun _ => .included, none, none⟩ 2
        [['/', 'a'], ['/', 'a', '/', 'b']] = some ys ∧
      ¬ (oneFileWalk [['/', 'a'], ['/', 'a', '/', 'b']] none none).Realizes ys) ∧
    (∃ ys, Plan.recursion? ⟨twoFiles [['b']], fun _ => .included, some fun _ => .error .interrupted, none⟩ 2
        [['/', 'a']] = some ys ∧
      ¬ (oneFileWalk [['/', 'a']] (some ⟨false, fun _ _ => ((), ⟨none, false, .error .interrupted⟩)⟩)
        none).Realizes ys) ∧
    (∃ ys, Plan.recursion? ⟨twoFiles [['b']], fun _ => .included, none, some ⟨some (-1), none⟩⟩ 2
        [['/', 'a']] = some ys ∧
      ¬ (oneFileWalk [['/', 'a']] none (some ⟨⟨some (-1), none⟩, false⟩)).Realizes ys) := by
  have hother : ∀ {recursion : Option (List Yield)} {r : Report Unit} (total : Tally),
      recursion.map Yield.total = some total → r.result ≠ .ok total →
        ∃ ys, recursion = some ys ∧ ¬ r.Realizes ys := by
    intro recursion r total hrecursion hresult
    obtain ⟨ys, hys, rfl⟩ := Option.map_eq_some_iff.mp hrecursion
    exact ⟨ys, hys, fun h => hresult h.result⟩
  refine ⟨fun _ _ _ _ => identity_twoFiles, hother ⟨10, 2, 1, 0, 7⟩ ?_ ?_,
    hother .zero ?_ ?_, hother ⟨5, 1, 1, 0, 7⟩ ?_ ?_⟩ <;> decide +kernel

/-- A walk with a pool of one permit, whose directory is listed in another order than the recursion
has it, and whose path handler fails for the file `c`. -/
theorem realizes_recursion_of_swapped : ∃ (plan : Plan) (options : Options Unit) (caller : Caller Unit)
    (ys : List Yield),
    plan.recursion? 2 [['/', 'a']] = some ys ∧ Yield.total ys = ⟨5, 1, 1, 0, 7⟩ ∧
    State.Realizes ⟨twoFiles [['c'], ['b']], options, fun _ => none⟩
        (State.start ⟨twoFiles [['c'], ['b']], options, fun _ => none⟩ caller [['/', 'a']]) ys ∧
      ∃ enough, ∀ sweeps, enough ≤ sweeps →
        (walk (twoFiles [['c'], ['b']]) options caller sweeps).Realizes ys := by
  let answer : PathCall → Except Fault Bool := fun c =>
    if c.info.inode = 3 then .error .undecodable else .ok true
  let plan : Plan := ⟨twoFiles [['b'], ['c']], fun _ => .included, some answer, some ⟨none, some 3⟩⟩
  let options : Options Unit := ⟨.several [['/', 'a']], false, none,
    some ⟨true, fun _ c => ((), ⟨none, true, answer c⟩)⟩, some ⟨true, fun _ _ => ((), .ok true)⟩,
    some ⟨⟨none, some 3⟩, false⟩, defaultPriority⟩
  let caller : Caller Unit := ⟨⟨1, 0, [], [], 0⟩, true, none, ()⟩
  have hfiles : Rearranged plan.files (twoFiles [['c'], ['b']]) :=
    ⟨rfl, fun _ => rfl, fun _ => .names (.swap _ _ _)⟩
  have hguides : { plan with files := twoFiles [['c'], ['b']] }.Guides
      ⟨twoFiles [['c'], ['b']], options, fun _ => none⟩ := by
    refine ⟨rfl, rfl, fun _ => rfl, nofun, ?_, ?_, ⟨_, rfl, fun _ _ => rfl⟩, rfl, fun _ => rfl,
      info_twoFiles_ne _, nofun⟩
    · intro act hact
      obtain rfl := Option.some.inj hact
      exact ⟨_, rfl, fun _ _ => ⟨rfl, rfl⟩⟩
    · intro act call f hact hfails
      obtain rfl := Option.some.inj hact
      by_cases hinode : call.info.inode = 3
      · obtain rfl : Fault.undecodable = f := by simpa [answer, hinode] using hfails
        exact ⟨rfl, nofun⟩
      · simp [answer, hinode] at hfails
  have hrecursion : (plan.recursion? 2 [['/', 'a']]).map (fun ys => (Yield.total ys, Yield.identities ys)) =
      some (⟨5, 1, 1, 0, 7⟩, ["1|1".toList, "1|2".toList, "1|3".toList]) := by decide +kernel
  obtain ⟨ys, hys, heq⟩ := Option.map_eq_some_iff.mp hrecursion
  obtain ⟨htotal, hidentities⟩ := Prod.mk.inj heq
  have hdistinct : (Yield.identities ys).Nodup := by
    rw [hidentities]
    decide
  have hpool : Pool.create 1 = .ok caller.pool := rfl
  exact ⟨plan, options, caller, ys, hys, htotal,
    realizes_recursion hfiles hguides rfl rfl hpool rfl hys hdistinct⟩

end TreeCensus.Walk
