import TreeCensus.Proofs.Walk.Completeness
import TreeCensus.Proofs.Walk.Growth

/-!
# The newest time

In a walk without faults that follows no links, each item that the path handler is told about has a branch, and
the handler is told the tally of the branch. Since a branch that has grown is never broken, it is there when the
walk comes to its total. So the newest time in the total, and in what is told of each directory, is that of the
newest item that was counted and is no directory; but no time is older than the beginning of time.
-/

namespace TreeCensus.Walk

set_option autoImplicit false

variable {σ : Type}

/-- The path handler was told this about the branch. -/
structure Branch.Told (env : Environment σ) (b : Branch) (c : PathCall) : Prop where
  place : b.place = c.path
  tally : b.tally = c.tally
  counts : b.Counts env

/-- There are branches of all that the path handler was told about. -/
structure Sketch.Recorded (env : Environment σ) (paths : List Path) (w : Sketch) (calls : List PathCall) :
    Prop where
  tiered : w.Tiered
  rooted : w.Rooted env
  grown : ∃ g, w.Grown env paths g ∧ ∀ c ∈ calls, ∃ b ∈ g.nodes, b.Told env c

namespace Sketch.Recorded

variable {env : Environment σ} {paths : List Path} {w w' : Sketch} {calls : List PathCall} {i k : Nat} {v : Visit}

theorem strokes {a : Actor} (h : w.Recorded env paths calls) (hwalks : env.options.walkLinks = false)
    (hstrokes : Sketch.Strokes env a w w') : w'.Recorded env paths calls := by
  obtain ⟨g, hgrown, hcalls⟩ := h.grown
  obtain ⟨htiered, hrooted, g', hgrown', hkept⟩ := hgrown.strokes h.tiered h.rooted hwalks hstrokes
  refine ⟨htiered, hrooted, g', hgrown', ?_⟩
  intro c hc
  obtain ⟨b, hb, htold⟩ := hcalls c hc
  exact ⟨b, hkept b hb, htold⟩

/-- A task tells the path handler about its item, whose branch it has. -/
theorem tell {c : PathCall} (h : w.Recorded env paths calls) (hi : w.tasks[i]? = some (k, v, .made c.tally))
    (hpath : c.path = v.name) : w.Recorded env paths (c :: calls) := by
  obtain ⟨g, hgrown, hcalls⟩ := h.grown
  obtain ⟨-, hname⟩ := hgrown.straight _ (List.mem_of_getElem? hi)
  obtain ⟨b, hheld, hplace, htally, hcounts⟩ := hgrown.tasks i v _ ⟨k, hi⟩
  have hb : b ∈ g.nodes := by
    refine List.mem_flatMap.mpr ⟨(.task i, b), g.mem_held.mp ?_, b.mem_nodes_self⟩
    rw [hheld]
    exact List.mem_cons_self
  refine ⟨h.tiered, h.rooted, g, hgrown, List.forall_mem_cons.mpr ⟨⟨b, hb, ?_⟩, hcalls⟩⟩
  exact ⟨hplace.trans (hpath.trans hname).symm, htally, hcounts b b.mem_nodes_self⟩

theorem start (env : Environment σ) (paths : List Path) :
    ((Sketch.mk [] [] []).openLevel (State.visits env paths)).Recorded env paths [] :=
  ⟨Sketch.tiered_start _, Sketch.rooted_start env paths, [], .start env paths, fun _ hc => absurd hc List.not_mem_nil⟩

end Sketch.Recorded

/-- A move tells the path handler of the tally that the task has made, or tells it nothing. -/
theorem Cursor.reported_move (env : Environment σ) (i : Nat) (t : Task) (c : Cursor) (s : State σ) :
    ∃ calls, (calls = [] ∨ ∃ info tally, c = .begin (.report info tally) ∧ calls = [s.pathCall t info tally]) ∧
      (c.move env i t s).Meets (fun _ _ s' => s'.view.reported = calls ++ s.view.reported)
        fun s' => s'.view.reported = calls ++ s.view.reported := by
  by_cases hbegins : ∃ job, c = .begin job
  · obtain ⟨job, rfl⟩ := hbegins
    cases job with
    | report info tally =>
      simp only [move]
      split
      · exact ⟨[], .inl rfl, rfl⟩
      · refine ⟨_, .inr ⟨info, tally, rfl, rfl⟩, ?_⟩
        split <;> rfl
    | _ => exact ⟨[], .inl rfl, rfl⟩
  · obtain ⟨new, hnotes, hmove⟩ := c.notes_move env i t s
    have hquiet : new.filterMap Event.reported? = [] := by
      cases hnotes with
      | begun => exact absurd ⟨_, rfl⟩ hbegins
      | _ => rfl
    have hsame : ∀ {s' : State σ}, s'.trace = new ++ s.trace → s'.view.reported = [] ++ s.view.reported := by
      intro s' htrace
      change s'.trace.filterMap Event.reported? = _
      rw [htrace, List.filterMap_append, hquiet]
      rfl
    refine ⟨[], .inl rfl, ?_⟩
    cases hcourse : c.move env i t s with
    | goOn u d s' =>
      rw [hcourse] at hmove
      exact hsame hmove
    | done s' =>
      rw [hcourse] at hmove
      exact hsame hmove

theorem Stance.exists_phase (stance : Stance) : ∃ phase : Phase, phase.stance = stance := by
  cases stance with
  | ahead => exact ⟨.fresh, rfl⟩
  | found i => exact ⟨.calling (.entries i), rfl⟩
  | awaits k i => exact ⟨.descending k i, rfl⟩
  | made t => exact ⟨.calling (.report ⟨.other, 0, 0, 0, 0⟩ t), rfl⟩
  | finished => exact ⟨.logging .zero, rfl⟩

section Steps

variable {env : Environment σ} {paths : List Path} {capacity : Int} {others : List Pool.Stake}
  {s₀ s s' : State σ} {i : Nat} {u : Task} {c : Cursor}

/-- The rest of a step is a step in its own right. -/
theorem Sketching.afresh (h : Sketching env s₀ i u c s) :
    ∃ s₁ : State σ, s₁.sketch = s.sketch.set i c.stance ∧ Sketching env s₁ i u c s := by
  obtain ⟨phase, hphase⟩ := c.stance.exists_phase
  have hsketch : (s.setPhase i phase).sketch = s.sketch.set i c.stance := by
    rw [State.sketch_setPhase, hphase]
  exact ⟨_, hsketch, h.own, h.others, hsketch ▸ .refl, h.grounded⟩

/-- There are branches of what a move tells the path handler. -/
theorem Sketching.recorded_move (h : Sketching env s₀ i u c s) (hsmooth : c.Smooth) (hup : ¬ c.Sinks)
    (hwalks : env.options.walkLinks = false)
    (hrecorded : (s.sketch.set i c.stance).Recorded env paths s.view.reported) :
    (c.move env i u s).Meets
      (fun v d s' => d.Smooth → ¬ d.Sinks → Sketching env s₀ i v d s' ∧
        (s'.sketch.set i d.stance).Recorded env paths s'.view.reported)
      fun s' => s'.sketch.Recorded env paths s'.view.reported := by
  obtain ⟨s₁, hs₁, hafresh⟩ := h.afresh
  obtain ⟨calls, hcalls, hreported⟩ := c.reported_move env i u s
  have htold : s₁.sketch.Recorded env paths (calls ++ s.view.reported) := by
    rw [hs₁]
    rcases hcalls with rfl | ⟨info, tally, rfl, rfl⟩
    · exact hrecorded
    · exact hrecorded.tell h.task rfl
  have hmove := h.move hsmooth hup
  have hrest := hafresh.move hsmooth hup
  cases hcourse : c.move env i u s with
  | goOn v d s' =>
    rw [hcourse] at hmove hrest hreported
    intro hd hdup
    refine ⟨hmove hd hdup, ?_⟩
    rw [show s'.view.reported = _ from hreported]
    exact htold.strokes hwalks (hrest hd hdup).strokes
  | done s' =>
    rw [hcourse] at hrest hreported
    change s'.sketch.Recorded env paths s'.view.reported
    rw [show s'.view.reported = _ from hreported]
    exact htold.strokes hwalks hrest.1

theorem Shared.recorded_step (h : Shared capacity others s) {a : Actor} (hstep : s.step? env a = some s')
    (hsmooth : ∀ i u c s₁, a = .task i → s.Amid env i u c s₁ → c.Smooth) (hfine : ¬ s'.Doomed)
    (hwalks : env.options.walkLinks = false) (hgrounded : s.Grounded env)
    (hrecorded : s.sketch.Recorded env paths s.view.reported) : s'.sketch.Recorded env paths s'.view.reported := by
  have hreported : ∀ {s₁ : State σ}, s₁.trace = s.trace → s₁.view.reported = s.view.reported :=
    fun htrace => congrArg (List.filterMap Event.reported?) htrace
  cases a with
  | level k =>
    have hstrokes := (h.sketched_step hstep hsmooth hfine hgrounded).1
    obtain ⟨l, hl, hstep⟩ := Option.bind_eq_some_iff.mp hstep
    rw [hreported (State.fate hstep).trace]
    exact hrecorded.strokes hwalks hstrokes
  | task i =>
    obtain ⟨t, ht, hstep⟩ := Option.bind_eq_some_iff.mp hstep
    refine (h.along_fine
      (P := fun u c s₁ => c.Smooth → Sketching env s i u c s₁ ∧
        (s₁.sketch.set i c.stance).Recorded env paths s₁.view.reported)
      (Q := fun s' => s'.sketch.Recorded env paths s'.view.reported) ht hstep hfine ?_ ?_).2
    · intro c s₁ hentry hup hc
      have hbegins := Sketching.enter ht hgrounded (State.enters hentry) hc hup
      refine ⟨hbegins, ?_⟩
      rw [hreported (State.enters hentry).trace]
      exact hrecorded.strokes hwalks hbegins.strokes
    · intro u c s₁ hamid hup hnow
      have hc := hsmooth i u c s₁ rfl hamid
      obtain ⟨hsketching, hnow⟩ := hnow hc
      have hnext := hsketching.recorded_move hc hup hwalks hnow
      cases hcourse : c.move env i u s₁ with
      | goOn v d s₂ =>
        rw [hcourse] at hnext
        exact fun hdup hd => hnext hd hdup
      | done s₂ =>
        rw [hcourse] at hnext
        exact hnext

theorem Shared.accounted_step (h : Shared capacity others s) {a : Actor} (hstep : s.step? env a = some s')
    (haccounted : s.Accounted env fun _ => True) : s'.Accounted env fun _ => True := by
  obtain ⟨own, hsound⟩ := h.sound
  exact hsound.accounted_move (.act hstep) h.forked haccounted

end Steps

/-- What a walk that follows no links has counted: branches, which make up its total. -/
structure State.Harvest (env : Environment σ) (paths : List Path) (s : State σ) (branches lost : List Branch)
    (total : Tally) : Prop where
  total : total = Tally.sum (branches.map Branch.tally)
  /-- Each object that was found is in one of the branches, or was lost. -/
  met : ((branches.flatMap Branch.nodes ++ lost).map Branch.id).Perm s.visited
  distinct : s.visited.Nodup
  genuine : ∀ b ∈ branches.flatMap Branch.nodes ++ lost, env.files.info b.place = .ok b.info
  tops : ∀ b ∈ branches, ∃ p ∈ paths, b.spot = env.spot p
  counts : ∀ b ∈ branches.flatMap Branch.nodes, b.Counts env
  excused : ∀ b ∈ lost, b.Lost env
  /-- Each item about which the path handler was told is one of those, and was told of with its tally. -/
  told : ∀ c ∈ s.view.reported, ∃ b ∈ branches.flatMap Branch.nodes ++ lost, b.info = c.info ∧ b.Told env c

namespace State

variable {env : Environment σ} {caller : Caller σ} {paths : List Path} {others₀ others : List Pool.Stake}
  {incidents : List Incident} {s : State σ} {total : Tally} {branches lost : List Branch}

theorem Passes.recorded (hwalks : env.options.walkLinks = false) (hpool : Pool.Serves caller.pool others₀)
    (h : (State.start env caller paths).Passes env Cursor.Smooth others₀ incidents s others)
    (hfine : ¬ s.Doomed) :
    s.sketch.Recorded env paths s.view.reported ∧ s.Accounted env fun _ => True := by
  suffices hall : s.Grounded env ∧ s.sketch.Recorded env paths s.view.reported ∧ s.Accounted env fun _ => True
    from hall.2
  refine h.induct_fine (P := fun _ s => s.Grounded env ∧ s.sketch.Recorded env paths s.view.reported ∧
    s.Accounted env fun _ => True) (.start env paths hpool) ⟨grounded_start env caller paths, ?_, ?_⟩ ?_
    (fun _ _ _ _ => id) hfine
  · rw [sketch_start]
    exact .start env paths
  · exact Scene.accounted_start env caller paths trivial
  · rintro incidents s others a s' before step hsmooth hfine ⟨hgrounded, hrecorded, haccounted⟩
    have hshared := before.shared (.start env paths hpool)
    exact ⟨(hshared.sketched_step step hsmooth hfine hgrounded).2,
      hshared.recorded_step step hsmooth hfine hwalks hgrounded hrecorded, hshared.accounted_step step haccounted⟩

theorem Passes.harvest (hwalks : env.options.walkLinks = false) (hpool : Pool.Serves caller.pool others₀)
    (h : (State.start env caller paths).Passes env Cursor.Smooth others₀ incidents s others)
    (hresult : s.result? = some (.ok total)) : ∃ branches lost, s.Harvest env paths branches lost total := by
  have hshared := h.shared (.start env paths hpool)
  obtain ⟨⟨htiered, -, g, hgrown, htold⟩, haccounted⟩ := h.recorded hwalks hpool (hshared.not_doomed hresult)
  obtain ⟨items, hcensus⟩ := haccounted.census
  obtain ⟨hmet, lost, hlost, hperm⟩ := hgrown.harvest (hshared.finished (by rw [hresult]; rfl))
  obtain ⟨sum, hlevel⟩ := level_of_result hresult
  have hgenuine : ∀ b ∈ g.nodes, env.files.info b.place = .ok b.info := hgrown.genuine
  refine ⟨g.held (.level 0), lost, ?_, (hperm.symm.map _).trans hmet, hcensus.distinct,
    fun b hb => hgenuine b (hperm.mem_iff.mpr hb), ?_, ?_, hlost, ?_⟩
  · rw [htiered.closed 0 sum total hlevel]
    exact hgrown.totals 0 (.inl rfl) _ hlevel
  · exact fun b hb => (hgrown.belongs 0 b hb).top rfl
  · intro d hd
    obtain ⟨b, hb, hd⟩ := List.mem_flatMap.mp hd
    exact hgrown.counts 0 b hb d hd
  · intro c hc
    obtain ⟨b, hb, hbc⟩ := htold c hc
    have hinfo := hgenuine b hb
    rw [hbc.place] at hinfo
    exact ⟨b, hperm.mem_iff.mp hb, Except.ok.inj (hinfo.symm.trans (hcensus.told c hc)), hbc⟩

/-- The newest time is right for the whole, and for each directory about which the path handler was told. -/
theorem Harvest.newest (h : s.Harvest env paths branches lost total) (hwalks : env.options.walkLinks = false) :
    Branch.Newest branches total.newest ∧
      ∀ c ∈ s.view.reported, c.info.kind = .directory → ∃ b ∈ branches.flatMap Branch.nodes, b.info = c.info ∧
        b.Told env c ∧ Branch.Newest b.inside c.tally.newest := by
  have hplain : ∀ b ∈ branches.flatMap Branch.nodes, b.Plain := fun b hb => (h.counts b hb).plain hwalks
  refine ⟨h.total ▸ Branch.newest_sum hplain, ?_⟩
  intro c hc hkind
  obtain ⟨b, hb, hinfo, htold⟩ := h.told c hc
  rw [← hinfo] at hkind
  have hkept : b ∈ branches.flatMap Branch.nodes := by
    refine (List.mem_append.mp hb).resolve_right fun hlost => ?_
    exact (h.excused b hlost).not_directory htold.counts hkind
  refine ⟨b, hkept, hinfo, htold, ?_⟩
  rw [← htold.tally, Branch.tally_eq, if_pos hkind, Branch.newest_count]
  exact Branch.newest_sum fun d hd => hplain d (Branch.mem_nodes_inside hkept hd)

/-- Whatever the order of its steps, a walk without faults that follows no links has for its newest time that of
the newest item that it has counted and that is no directory, and the same holds for each directory about which
the path handler was told and for what was counted below it. The newest time of nothing is the beginning of time,
so it is that as well where all items are older. -/
theorem Passes.newest_counted (hwalks : env.options.walkLinks = false) (hpool : Pool.Serves caller.pool others₀)
    (h : (State.start env caller paths).Passes env Cursor.Smooth others₀ incidents s others) :
    (1 ≤ caller.pool.capacity → s.Returns env others₀ incidents) ∧
    ∀ total, s.result? = some (.ok total) → ∃ branches lost, s.Harvest env paths branches lost total ∧
      Branch.Newest branches total.newest ∧
      ∀ c ∈ s.view.reported, c.info.kind = .directory → ∃ b ∈ branches.flatMap Branch.nodes, b.info = c.info ∧
        b.Told env c ∧ Branch.Newest b.inside c.tally.newest := by
  refine ⟨fun hsize => h.returns hpool hsize, ?_⟩
  intro total hresult
  obtain ⟨branches, lost, hharvest⟩ := h.harvest hwalks hpool hresult
  exact ⟨branches, lost, hharvest, hharvest.newest hwalks⟩

/-- Two files in a directory, both from before the beginning of time: neither of them is as new as the newest
time of the total, nor of the directory. -/
theorem Passes.newest_of_old_files : ∃ (env : Environment Unit) (caller : Caller Unit) (paths : List Path)
    (incidents : List Incident) (s : State Unit) (total : Tally) (branches lost : List Branch),
    env.options.walkLinks = false ∧ Pool.Serves caller.pool [] ∧
    (State.start env caller paths).Passes env Cursor.Smooth [] incidents s [] ∧
    s.result? = some (.ok total) ∧ total = ⟨7, 2, 1, 0, 0⟩ ∧
    (∀ p i, env.files.info p = .ok i → i.kind ≠ .directory → i.modified < 0) ∧
    s.view.reported.head? = some ⟨['/', 'd'], 0, ⟨.directory, 0, 0, 1, 1⟩, ⟨7, 2, 1, 0, 0⟩⟩ ∧
    s.Harvest env paths branches lost total ∧ Branch.Newest branches total.newest ∧
    ∀ c ∈ s.view.reported, c.info.kind = .directory → ∃ b ∈ branches.flatMap Branch.nodes, b.info = c.info ∧
      b.Told env c ∧ Branch.Newest b.inside c.tally.newest := by
  let files : FileSystem := ⟨['/'],
    fun p => if p = ['/', 'd'] then .ok ⟨.directory, 0, 0, 1, 1⟩
      else if p = ['/', 'd', '/', 'a'] then .ok ⟨.file, 3, -5, 1, 2⟩
      else .ok ⟨.file, 4, -9, 1, 3⟩,
    fun _ => .ok [], fun _ => .ok [['a'], ['b']], fun _ => .ok []⟩
  let options : Options Unit := ⟨.several [['/', 'd']], false, none,
    some ⟨true, fun _ _ => ((), ⟨none, false, .ok true⟩)⟩, none, none, defaultPriority⟩
  let env : Environment Unit := ⟨files, options, fun _ => none⟩
  let caller : Caller Unit := ⟨⟨2, 0, [], [], 0⟩, false, none, ()⟩
  have hplacid : env.Placid := by
    refine ⟨?_, ?_⟩
    · rintro f ⟨p, hf | hf | hf⟩
      · change (if _ then _ else if _ then _ else _) = _ at hf
        split at hf
        · cases hf
        · split at hf <;> cases hf
      · cases hf
      · cases hf
    · intro handler hhandler memory call
      obtain rfl := Option.some.inj hhandler
      exact ⟨rfl, rfl⟩
  have hold : ∀ p i, env.files.info p = .ok i → i.kind ≠ .directory → i.modified < 0 := by
    intro p i hi hkind
    change (if _ then _ else if _ then _ else _) = _ at hi
    split at hi
    · obtain rfl := Except.ok.inj hi
      exact absurd rfl hkind
    · split at hi <;> obtain rfl := Except.ok.inj hi <;> decide
  have hserves : Pool.Serves caller.pool [] := @Pool.serves_create 2 _ rfl
  obtain ⟨actors, hpasses⟩ := State.smooth_run hplacid caller [['/', 'd']] [] 20
  have hresult : ((State.start env caller [['/', 'd']]).run env 20).result? = some (.ok ⟨7, 2, 1, 0, 0⟩) := by
    decide +kernel
  have hlast : ((State.start env caller [['/', 'd']]).run env 20).view.reported.head? =
      some ⟨['/', 'd'], 0, ⟨.directory, 0, 0, 1, 1⟩, ⟨7, 2, 1, 0, 0⟩⟩ := by
    decide +kernel
  obtain ⟨branches, lost, hharvest, htotal, hcalls⟩ := (State.Passes.newest_counted rfl hserves hpasses).2 _ hresult
  exact ⟨env, caller, _, _, _, _, branches, lost, rfl, hserves, hpasses, hresult, rfl, hold, hlast, hharvest,
    htotal, hcalls⟩

end State

end TreeCensus.Walk
