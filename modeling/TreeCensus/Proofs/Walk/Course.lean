import TreeCensus.Proofs.Walk.Coverage

/-!
# Moves of an undisturbed walk

Whatever a task does next, what has been done and what is left still come to the same afterwards.
-/

namespace TreeCensus.Walk

set_option autoImplicit false

open Pool (Serves Stake)

variable {σ : Type} {plan : Plan} {fuel : Nat}

namespace Task

variable {depths : List Nat} {sums : List Tally} {t : Task}

theorem depth_append (hplaced : t.level < depths.length) (more : List Nat) :
    t.depth (depths ++ more) = t.depth depths := by
  unfold depth
  rw [List.getD_eq_getElem?_getD, List.getD_eq_getElem?_getD, List.getElem?_append_left hplaced]

/-- What is left when a fault has been taken. -/
theorem left_forgone (plan : Plan) (fuel d : Nat) (houter : t.visit.outer = []) {job : Job}
    (hcall : job.IsCall) : (job.forgone t).Fits plan fuel d t.visit ∧
      ((job.forgone t).left plan fuel d t.visit).toYield = (job.leftOver plan d t.visit).toYield ∧
      ((job.forgone t).left plan fuel d t.visit).work ≤ (job.leftOver plan d t.visit).work - 1 := by
  cases job with
  | info =>
    unfold Job.forgone
    rw [houter]
    exact ⟨trivial, rfl, Nat.le_refl 0⟩
  | target found => exact hcall.elim
  | entries found =>
    unfold Job.forgone
    rw [houter]
    exact ⟨trivial, Cursor.left_settle plan fuel d t.visit found found.tally⟩
  | report found tally => exact ⟨⟨some tally, rfl⟩, rfl, Nat.le_refl 0⟩

/-- A new level makes no difference to the tasks that there were before. -/
theorem Fits.append (h : t.Fits plan fuel depths) (hplaced : t.level < depths.length)
    (more : List Nat) : t.Fits plan fuel (depths ++ more) := by
  refine ⟨h.undisturbed, h.outer, h.name, ?_, ?_⟩
  · rw [depth_append hplaced]
    exact h.phase
  · intro k info hphase
    obtain ⟨hlt, hknown⟩ := h.below k info hphase
    rw [List.length_append]
    exact ⟨hlt, Nat.lt_of_lt_of_le hknown (Nat.le_add_right _ _)⟩

theorem Fits.left_append (h : t.Fits plan fuel depths) (hplaced : t.level < depths.length)
    (hlength : depths.length = sums.length) (more : List Nat) (more' : List Tally) :
    t.left plan fuel (depths ++ more) (sums ++ more') = t.left plan fuel depths sums := by
  unfold left
  rw [depth_append hplaced]
  cases hphase : t.phase with
  | descending k info =>
    have hknown := (h.below k info hphase).2
    have hsum : (sums ++ more').getD k .zero = sums.getD k .zero := by
      rw [List.getD_eq_getElem?_getD, List.getD_eq_getElem?_getD,
        List.getElem?_append_left (by omega)]
    simp only [Phase.left, hsum]
  | calling job => cases job <;> rfl
  | _ => rfl

end Task

/-- The tasks of a new level. -/
def Plan.newcomers (plan : Plan) (k : Nat) (paths : List Path) : List Task :=
  (plan.visits 0 paths).map fun v => ⟨k, v, .fresh, false⟩

section Newcomers
variable {k d : Nat} {paths : List Path} {depths : List Nat}

theorem Plan.depth_newcomer (hk : k = depths.length) (d : Nat) {t : Task}
    (ht : t ∈ plan.newcomers k paths) : t.depth (depths ++ [d]) = d := by
  obtain ⟨v, _, rfl⟩ := List.mem_map.mp ht
  subst hk
  unfold Task.depth
  rw [List.getD_eq_getElem?_getD, List.getElem?_concat_length]
  rfl

theorem Plan.fits_newcomer (hk : k = depths.length) {ys : List Yield}
    (hcovers : plan.Covers (fuel - d) d 0 paths ys) {t : Task} (ht : t ∈ plan.newcomers k paths) :
    t.Fits plan fuel (depths ++ [d]) := by
  have hdepth := plan.depth_newcomer hk d ht
  obtain ⟨v, hv, rfl⟩ := List.mem_map.mp ht
  obtain ⟨houter, hname, hsome⟩ := hcovers.fits v hv
  refine ⟨rfl, houter, hname, ?_, by simp⟩
  rw [hdepth]
  exact hsome

theorem Plan.lefts_newcomers (hk : k = depths.length) (d : Nat) (sums : List Tally) :
    ((plan.newcomers k paths).map fun t => (t.level, t.left plan fuel (depths ++ [d]) sums)) =
      (plan.prospects (fuel - d) d 0 paths).map fun y => (k, y) := by
  have hdepth : ∀ t ∈ plan.newcomers k paths, t.depth (depths ++ [d]) = d :=
    fun t ht => plan.depth_newcomer hk d ht
  unfold newcomers at hdepth ⊢
  unfold prospects
  rw [List.map_map, List.map_map]
  apply List.map_congr_left
  intro v hv
  dsimp only [Function.comp_apply]
  unfold Task.left
  rw [hdepth _ (List.mem_map_of_mem hv)]
  rfl

end Newcomers

/-- What a move of the task `u` leads to. -/
def Leads (plan : Plan) (fuel : Nat) (sums : List Tally) (goal : List Mark) (bound : Nat)
    (s₀ : State σ) (i : Nat) (u : Task) : Course σ → Prop :=
  Course.Meets (Midst plan fuel sums goal bound s₀ i u) fun s' =>
    ∃ more, Placid plan fuel (sums ++ more) goal bound s'

namespace Midst

variable {env : Environment σ} {bound i : Nat} {sums : List Tally} {goal : List Mark}
  {s₀ s : State σ} {u t : Task}

theorem leads_conclude {result : Except Fault (Option Tally)}
    (h : Midst plan fuel sums goal bound s₀ i u t (.conclude result) s)
    (hbegins : Begins plan fuel s₀ i u) :
    Leads plan fuel sums goal bound s₀ i u ((Cursor.conclude result).move env i t s) := by
  obtain ⟨tally, rfl⟩ := h.fits
  refine ⟨[], ?_⟩
  rw [List.append_nil]
  exact h.rest hbegins trivial (by simp) rfl rfl h.calm h.balanced

theorem depth_eq {c : Cursor} (h : Midst plan fuel sums goal bound s₀ i u t c s) :
    (s.level u.level).depth = u.depth s₀.depths := by
  rw [State.depth_level, h.depths]
  rfl

theorem leads_log {tally : Tally} (hguides : plan.Guides env)
    (h : Midst plan fuel sums goal bound s₀ i u t (.log tally) s) (hbegins : Begins plan fuel s₀ i u) :
    Leads plan fuel sums goal bound s₀ i u ((Cursor.log tally).move env i t s) := by
  obtain rfl := h.same
  have hplan := hguides.log
  simp only [Cursor.move]
  cases hlog : env.options.log with
  | none =>
    rw [hlog] at hplan
    have hlines : plan.lines (t.depth s₀.depths) t.visit.place tally = [] := by
      unfold Plan.lines
      rw [hplan]
      rfl
    refine h.next ⟨_, rfl⟩ ?_ (Nat.zero_le 1) rfl rfl rfl h.calm
    change Yield.nothing = ⟨none, _⟩
    rw [hlines]
    rfl
  | some logging =>
    rw [hlog] at hplan
    have hlines : plan.lines (t.depth s₀.depths) t.visit.place tally =
        if logging.rule.allows (t.depth s₀.depths) tally.size then
          [.written (logLine t.visit.place tally)]
        else [] := by
      unfold Plan.lines
      rw [hplan]
      rfl
    dsimp only
    rw [h.depth_eq]
    split
    · next hallows =>
      rw [if_pos hallows] at hlines
      have hname := (hbegins.tasks t (List.mem_of_getElem? hbegins.task)).name
      have hdone : (s.note (.logged (logLine t.visit.name tally))).marks.Perm
          (.written (logLine t.visit.place tally) :: s.marks) := by
        rw [hname]
        exact s.perm_marks_note rfl
      split
      · refine ⟨[], ?_⟩
        rw [List.append_nil]
        exact h.rest hbegins trivial (by simp) rfl rfl h.calm (h.balanced.mark hdone rfl hlines (Nat.le_refl 1))
      · refine h.mark ?_ rfl hlines (Nat.zero_le 1) rfl rfl hdone h.calm
        refine ⟨some tally, ?_⟩
        unfold Environment.logged
        rw [hguides.takes]
    · next hallows =>
      rw [if_neg hallows] at hlines
      refine h.next ⟨_, rfl⟩ ?_ (Nat.zero_le 1) rfl rfl rfl h.calm
      change Yield.nothing = ⟨none, _⟩
      rw [hlines]
      rfl

theorem leads_accept {tally : Tally}
    (h : Midst plan fuel sums goal bound s₀ i u t (.accept tally) s)
    (hopen : (s.level u.level).stage = .running) :
    Leads plan fuel sums goal bound s₀ i u ((Cursor.accept tally).move env i t s) := by
  obtain rfl := h.same
  have htotals := s.totals_updateLevel t.level
    (f := fun l => { l with total := l.total.add tally }) (g := (·.add tally)) fun _ => rfl
  have hdepths := s.depths_updateLevel t.level
    (f := fun l => { l with total := l.total.add tally }) fun _ => rfl
  have hopened : (s.updateLevel t.level fun l => { l with total := l.total.add tally }).opened =
      s.opened := by
    have hstages := s.stages_updateLevel t.level
      (f := fun l => { l with total := l.total.add tally }) fun _ => ⟨rfl, rfl⟩
    rw [State.opened_eq, State.opened_eq, hstages]
  refine ⟨rfl, h.tasks, hdepths.trans h.depths, h.calm, ?_, trivial, ?_⟩
  · intro l hl
    rcases mem_modify hl with hl | ⟨a, ha, rfl⟩
    · exact h.levels l hl
    · have hcalm := h.levels a (List.mem_of_getElem? ha)
      have hrunning : a.stage = .running := by
        unfold State.level at hopen
        rw [ha] at hopen
        exact hopen
      exact ⟨hcalm.failure, hcalm.undisturbed, .inl hrunning⟩
  · rw [htotals, hopened]
    exact h.balanced.credit rfl rfl rfl (Nat.le_refl 1)

theorem leads_seek {job : Job} (h : Midst plan fuel sums goal bound s₀ i u t (.seek job) s)
    (hbegins : Begins plan fuel s₀ i u) (hsize : 1 ≤ s.admission.pool.capacity) :
    Leads plan fuel sums goal bound s₀ i u ((Cursor.seek job).move env i t s) := by
  obtain rfl := h.same
  obtain ⟨b, ticket, hask, hcalm⟩ := h.calm.ask hsize
    (job.priority (s.level t.level).priority t.visit.index) (s.level t.level).source
  simp only [Cursor.move]
  rw [hask]
  cases ticket with
  | none => exact h.next h.fits rfl (Nat.le_succ _) rfl rfl rfl hcalm
  | some ticket =>
    refine ⟨[], ?_⟩
    rw [List.append_nil]
    exact h.rest hbegins h.fits (by simp) rfl rfl hcalm h.balanced

theorem leads_follow {o : Outcome} (hguides : plan.Guides env)
    (h : Midst plan fuel sums goal bound s₀ i u t (.follow o) s) :
    Leads plan fuel sums goal bound s₀ i u ((Cursor.follow o).move env i t s) := by
  obtain rfl := h.same
  cases o with
  | «over» result => exact h.next ⟨result, rfl⟩ rfl (Nat.le_refl 0) rfl rfl rfl h.calm
  | counted info tally =>
    simp only [Cursor.move]
    cases hanswer : plan.answer with
    | none =>
      rw [hguides.silent hanswer]
      refine h.next trivial ?_ (show 1 ≤ 3 by decide) rfl rfl rfl h.calm
      change plan.accepted _ _ _ = plan.reported _ _ _ _
      unfold Plan.reported Plan.answered
      rw [hanswer]
    | some answer =>
      obtain ⟨handler, hhandler, _⟩ := hguides.answers answer hanswer
      rw [hhandler]
      exact h.next trivial rfl (Nat.le_refl 3) rfl rfl rfl h.calm

theorem leads_enter {info : FileInfo} (hguides : plan.Guides env)
    (h : Midst plan fuel sums goal bound s₀ i u t (.enter info) s) (hbegins : Begins plan fuel s₀ i u) :
    Leads plan fuel sums goal bound s₀ i u ((Cursor.enter info).move env i t s) := by
  obtain rfl := h.same
  have houter := (hbegins.tasks t (List.mem_of_getElem? hbegins.task)).outer
  have hsettle : info.kind ≠ .directory → Leads plan fuel sums goal bound s₀ i t
      (.goOn t (.follow (settle t.visit.verdict t.visit.outer info info.tally)) s) := by
    intro hkind
    obtain ⟨hyield, hwork⟩ := Cursor.left_settle plan (fuel - t.depth s₀.depths)
      (t.depth s₀.depths) t.visit info info.tally
    rw [houter]
    refine h.next trivial ?_ ?_ rfl rfl rfl h.calm
    · rw [hyield]
      exact (Visit.inside_of_item hkind).symm
    · refine Nat.le_trans hwork ?_
      change 3 ≤ 6 + _
      omega
  simp only [Cursor.move]
  cases hkind : info.kind with
  | link =>
    dsimp only
    rw [hguides.links, if_neg Bool.false_ne_true]
    exact hsettle (by simp [hkind])
  | directory =>
    refine h.next ⟨hkind, h.fits⟩ rfl ?_ rfl rfl rfl h.calm
    change 5 + _ + 1 ≤ 6 + _
    omega
  | file => exact hsettle (by simp [hkind])
  | other => exact hsettle (by simp [hkind])

/-- An identity that is still to be met has not been met. -/
theorem not_mem_visited {c : Cursor} (h : Midst plan fuel sums goal bound s₀ i u t c s)
    (hgoal : ∀ id, goal.count (.met id) ≤ 1) {id : Text}
    (hid : .met id ∈ (c.left plan (fuel - u.depth s₀.depths) (u.depth s₀.depths) u.visit).marks) :
    id ∉ s.visited := by
  intro hmem
  have hdone : Mark.met id ∈ s.marks := List.mem_append_left _ (List.mem_map_of_mem hmem)
  have hcount := h.balanced.marks.count_eq (.met id)
  have hbefore := List.one_le_count_iff.mpr hdone
  have hleft : 1 ≤ List.count (Mark.met id)
      (List.flatMap (fun l => l.2.marks)
        ((u.level, c.left plan (fuel - u.depth s₀.depths) (u.depth s₀.depths) u.visit) ::
          s₀.leftsBut plan fuel sums i)) := by
    apply List.one_le_count_iff.mpr
    rw [List.flatMap_cons]
    exact List.mem_append_left _ hid
  have := hgoal id
  rw [List.count_append] at hcount
  omega

/-- No object is passed over because it was met before. -/
theorem not_met {info : FileInfo} (h : Midst plan fuel sums goal bound s₀ i u t (.onInfo info) s)
    (hgoal : ∀ id, goal.count (.met id) ≤ 1)
    (hmeets : ¬ (info.kind = .file ∧ u.visit.verdict ≠ .included)) :
    info.identity u.visit.place ∉ s.visited := by
  obtain ⟨hinfo, hsome⟩ := h.fits
  obtain ⟨_, _, _, hmarks⟩ := Visit.full_of_met hinfo hmeets hsome
  refine h.not_mem_visited hgoal ?_
  change _ ∈ (u.visit.full plan _ _).marks
  rw [hmarks]
  exact List.mem_cons_self

theorem leads_onInfo {info : FileInfo}
    (h : Midst plan fuel sums goal bound s₀ i u t (.onInfo info) s) (hbegins : Begins plan fuel s₀ i u)
    (hgoal : ∀ id, goal.count (.met id) ≤ 1) :
    Leads plan fuel sums goal bound s₀ i u ((Cursor.onInfo info).move env i t s) := by
  obtain rfl := h.same
  obtain ⟨hinfo, hsome⟩ := h.fits
  simp only [Cursor.move]
  split
  · next hskip =>
    rw [(hbegins.tasks t (List.mem_of_getElem? hbegins.task)).outer]
    refine h.next trivial ?_ (Nat.zero_le _) rfl rfl rfl h.calm
    exact (Visit.full_of_skip hinfo hskip hsome).symm
  · next hmeets =>
    obtain ⟨hpos, hinside, hshare, hmarks⟩ := Visit.full_of_met hinfo hmeets hsome
    rw [if_neg (h.not_met hgoal hmeets)]
    exact h.mark ⟨hpos, hinside⟩ hshare.symm hmarks (Nat.le_refl _) rfl rfl (.refl _) h.calm

theorem leads_giveBack {next : Cursor}
    (h : Midst plan fuel sums goal bound s₀ i u t (.giveBack next) s) {others : List Stake}
    (hserves : Serves s.admission.pool (.hold 1 :: others)) :
    Leads plan fuel sums goal bound s₀ i u ((Cursor.giveBack next).move env i t s) := by
  obtain rfl := h.same
  have hfine : (s.admission.release 1).2 = none := hserves.release.1
  have hcalm := h.calm.release hfine
  simp only [Cursor.move]
  split
  · next admission heq =>
    rw [heq] at hcalm
    exact h.next h.fits rfl (Nat.le_refl _) rfl rfl rfl hcalm
  · next admission f heq =>
    rw [heq] at hfine
    cases hfine

theorem length_sums {c : Cursor} (h : Midst plan fuel sums goal bound s₀ i u t c s) :
    s.levels.length = sums.length := by
  rw [← h.balanced.shares, length_pay]
  exact (List.length_map ..).symm

theorem length_depths {c : Cursor} (h : Midst plan fuel sums goal bound s₀ i u t c s) :
    s₀.depths.length = sums.length := by
  rw [← h.length_sums, ← h.depths]
  exact List.length_map ..

section Descent
variable {info : FileInfo} {names : List Text}

theorem tasks_descend {c : Cursor} (hguides : plan.Guides env)
    (h : Midst plan fuel sums goal bound s₀ i u t c s) (hbegins : Begins plan fuel s₀ i u)
    (links : List Nat) (depth : Nat) (priority : Priority) (names : List Text) (info : FileInfo) :
    ((s.openLevel env links depth priority (names.map (Path.under u.visit.name))).setPhase i
        (.descending s.levels.length info)).tasks =
      (s₀.tasks.modify i fun t => { t with phase := .descending sums.length info }) ++
        plan.newcomers sums.length (names.map (Path.under u.visit.place)) := by
  have hu := List.mem_of_getElem? hbegins.task
  change (s.tasks ++ _).modify i _ = _
  rw [h.tasks, modify_append (List.getElem?_eq_some_iff.mp hbegins.task).1, hguides.visits_eq,
    (hbegins.tasks u hu).name, h.length_sums]
  rfl

theorem depths_descend {c : Cursor} (h : Midst plan fuel sums goal bound s₀ i u t c s)
    (env : Environment σ) (links : List Nat) (priority : Priority) (paths : List Path) (info : FileInfo) :
    ((s.openLevel env links ((s.level u.level).depth + 1) priority paths).setPhase i
        (.descending s.levels.length info)).depths = s₀.depths ++ [u.depth s₀.depths + 1] := by
  have hdepth := h.depth_eq
  rw [← h.depths] at hdepth ⊢
  rw [← hdepth]
  exact List.map_append

theorem lefts_old (hbegins : Begins plan fuel s₀ i u) (hlength : s₀.depths.length = sums.length)
    (more : List Nat) (more' : List Tally) :
    ((s₀.tasks.eraseIdx i).map fun t =>
        (t.level, t.left plan fuel (s₀.depths ++ more) (sums ++ more'))) =
      s₀.leftsBut plan fuel sums i := by
  apply List.map_congr_left
  intro t ht
  have hmem := List.mem_of_mem_eraseIdx ht
  rw [(hbegins.tasks t hmem).left_append (hbegins.placed t hmem) hlength]

/-- What is left of a directory is shared between its task and those of its new level. -/
theorem balanced_descend {ys : List Yield}
    (h : Midst plan fuel sums goal bound s₀ i u t (.onEntries info names) s)
    (hbegins : Begins plan fuel s₀ i u)
    (hcovers : plan.Covers (fuel - (u.depth s₀.depths + 1)) (u.depth s₀.depths + 1) 0
      (names.map (Path.under u.visit.place)) ys)
    (hshare : (u.visit.inside plan (fuel - u.depth s₀.depths) (u.depth s₀.depths) info).share =
      (u.visit.counted plan (u.depth s₀.depths) info (Yield.total ys)).share)
    (hmarks : (u.visit.inside plan (fuel - u.depth s₀.depths) (u.depth s₀.depths) info).marks =
      Yield.trail ys ++ (u.visit.counted plan (u.depth s₀.depths) info (Yield.total ys)).marks) :
    Balanced (s.totals ++ [.zero]) s.marks
      ((u.level, ⟨u.visit.counted plan (u.depth s₀.depths) info (Yield.total ys), 4⟩) ::
        s₀.leftsBut plan fuel sums i ++
        (plan.prospects (fuel - (u.depth s₀.depths + 1)) (u.depth s₀.depths + 1) 0
          (names.map (Path.under u.visit.place))).map fun y => (sums.length, y))
      (s.opened + 1) (sums ++ [Yield.total ys]) goal bound := by
  have htotals : s.totals.length = sums.length := by
    rw [← h.length_sums]
    exact List.length_map ..
  have hplaced : ∀ v ∈ s₀.tasks, v.level < s.totals.length := by
    intro v hv
    rw [htotals, ← h.length_depths]
    exact hbegins.placed v hv
  have hsum := congrArg (List.foldl Tally.add .zero) hcovers.shares
  rw [← htotals, Yield.total, ← hsum]
  rw [Yield.total, ← hsum] at hshare hmarks
  refine h.balanced.descend (hplaced u (List.mem_of_getElem? hbegins.task)) ?_ hshare.symm ?_ ?_
  · intro m hm
    obtain ⟨v, hv, rfl⟩ := List.mem_map.mp hm
    exact hplaced v (List.mem_of_mem_eraseIdx hv)
  · rw [hcovers.marks]
    exact hmarks
  · obtain ⟨hentries, _, hpos, _⟩ := h.fits
    obtain ⟨m, hm⟩ := Nat.exists_eq_add_of_lt hpos
    have hfuel : fuel - (u.depth s₀.depths + 1) = m := by omega
    have hbelow : plan.work (fuel - u.depth s₀.depths) u.visit.place = (names.map fun name =>
        9 + plan.work m (Path.resolve plan.files.cwd (Path.under u.visit.place name))).sum + 1 := by
      rw [hm, Nat.zero_add]
      exact Plan.work_of_names hentries
    have hle := hcovers.work
    rw [List.map_map, hfuel] at hle
    rw [hfuel]
    change 4 + _ + 1 ≤ 4 + plan.work (fuel - u.depth s₀.depths) u.visit.place
    rw [hbelow]
    exact Nat.add_le_add_left (Nat.succ_le_succ hle) 4

theorem placid_descend (hguides : plan.Guides env)
    (h : Midst plan fuel sums goal bound s₀ i u t (.onEntries info names) s)
    (hbegins : Begins plan fuel s₀ i u) (links : List Nat) (priority : Priority) :
    ∃ more, Placid plan fuel (sums ++ more) goal bound
      ((s.openLevel env links ((s.level u.level).depth + 1) priority
        (names.map (Path.under u.visit.name))).setPhase i (.descending s.levels.length info)) := by
  obtain ⟨hentries, hkind, _, hsome⟩ := h.fits
  obtain ⟨ys, hys, hshare, hmarks⟩ := Visit.inside_of_names hkind hentries hsome
  rw [Nat.sub_sub] at hys
  have hcovers := plan.covers _ _ _ 0 hys
  have hbalanced := h.balanced_descend hbegins hcovers hshare hmarks
  have htasks := h.tasks_descend hguides hbegins links ((s.level u.level).depth + 1) priority names info
  have hdepths := h.depths_descend env links priority (names.map (Path.under u.visit.name)) info
  have hlength := h.length_depths
  have hu := hbegins.tasks u (List.mem_of_getElem? hbegins.task)
  have hplaced := hbegins.placed u (List.mem_of_getElem? hbegins.task)
  have hperm := perm_modify hbegins.task fun t => { t with phase := .descending sums.length info }
  refine ⟨[Yield.total ys], ?_, ⟨h.calm.fair, h.calm.quiet.addSource links⟩, ?_, ?_⟩
  · intro v hv
    rw [hdepths]
    rw [htasks] at hv
    rcases List.mem_append.mp hv with hv | hv
    · rcases List.mem_cons.mp (hperm.mem_iff.mp hv) with rfl | hv
      · refine ⟨hu.undisturbed, hu.outer, hu.name, trivial, ?_⟩
        intro k found hphase
        obtain ⟨rfl, rfl⟩ := Phase.descending.inj hphase
        rw [List.length_append, hlength]
        rw [hlength] at hplaced
        exact ⟨hplaced, Nat.lt_succ_self _⟩
      · have hmem := List.mem_of_mem_eraseIdx hv
        exact (hbegins.tasks v hmem).append (hbegins.placed v hmem) _
    · exact plan.fits_newcomer hlength.symm hcovers hv
  · intro l hl
    rcases List.mem_append.mp hl with hl | hl
    · exact h.levels l hl
    · obtain rfl := List.mem_singleton.mp hl
      exact ⟨rfl, rfl, .inl rfl⟩
  · have hown : Task.left plan fuel (s₀.depths ++ [u.depth s₀.depths + 1]) (sums ++ [Yield.total ys])
        { u with phase := .descending sums.length info } =
          ⟨u.visit.counted plan (u.depth s₀.depths) info (Yield.total ys), 4⟩ := by
      have hdepth := Task.depth_append (t := { u with phase := .descending sums.length info }) hplaced
        [u.depth s₀.depths + 1]
      unfold Task.left
      rw [hdepth]
      simp only [Phase.left, List.getD_eq_getElem?_getD, List.getElem?_concat_length,
        Option.getD_some]
      rfl
    have hlefts := (hperm.map fun t => (t.level, t.left plan fuel
      (s₀.depths ++ [u.depth s₀.depths + 1]) (sums ++ [Yield.total ys]))).append_right
        ((plan.newcomers sums.length (names.map (Path.under u.visit.place))).map fun t =>
          (t.level, t.left plan fuel (s₀.depths ++ [u.depth s₀.depths + 1]) (sums ++ [Yield.total ys])))
    rw [List.map_cons, lefts_old hbegins hlength, plan.lefts_newcomers hlength.symm, hown] at hlefts
    unfold State.lefts
    rw [hdepths, htasks, List.map_append, plan.lefts_newcomers hlength.symm]
    refine Balanced.perm ?_ hlefts.symm
    have htotals : ((s.openLevel env links ((s.level u.level).depth + 1) priority
        (names.map (Path.under u.visit.name))).setPhase i
          (.descending s.levels.length info)).totals = s.totals ++ [.zero] := List.map_append
    have hopened : ((s.openLevel env links ((s.level u.level).depth + 1) priority
        (names.map (Path.under u.visit.name))).setPhase i
          (.descending s.levels.length info)).opened = s.opened + 1 := List.countP_append
    rw [htotals, hopened]
    exact hbalanced

end Descent

theorem leads_onEntries {info : FileInfo} {names : List Text} (hguides : plan.Guides env)
    (h : Midst plan fuel sums goal bound s₀ i u t (.onEntries info names) s)
    (hbegins : Begins plan fuel s₀ i u) :
    Leads plan fuel sums goal bound s₀ i u ((Cursor.onEntries info names).move env i t s) := by
  obtain rfl := h.same
  obtain ⟨hentries, hkind, _⟩ := h.fits
  simp only [Cursor.move]
  split
  · next hnone =>
    subst hnone
    obtain ⟨hyield, hwork⟩ := Cursor.left_settle plan (fuel - t.depth s₀.depths)
      (t.depth s₀.depths) t.visit info info.tally
    rw [(hbegins.tasks t (List.mem_of_getElem? hbegins.task)).outer]
    refine h.next trivial ?_ ?_ rfl rfl rfl h.calm
    · rw [hyield]
      exact (Visit.inside_of_nil hkind hentries).symm
    · refine Nat.le_trans hwork ?_
      change 3 ≤ 4 + _
      omega
  · exact h.placid_descend hguides hbegins _ _

theorem leads_onAnswer {job : Job} {f : Fault} {response : Except Fault Bool}
    (h : Midst plan fuel sums goal bound s₀ i u t (.onAnswer job f response) s)
    (hbegins : Begins plan fuel s₀ i u) :
    Leads plan fuel sums goal bound s₀ i u ((Cursor.onAnswer job f response).move env i t s) := by
  obtain rfl := h.same
  obtain ⟨hcall, rfl⟩ := h.fits
  have houter := (hbegins.tasks t (List.mem_of_getElem? hbegins.task)).outer
  obtain ⟨hfits, hyield, hwork⟩ :=
    t.left_forgone plan (fuel - t.depth s₀.depths) (t.depth s₀.depths) houter hcall
  exact h.next hfits hyield hwork rfl rfl rfl h.calm

theorem leads_consult {job : Job} {f : Fault} (hguides : plan.Guides env)
    (h : Midst plan fuel sums goal bound s₀ i u t (.consult job f) s) :
    Leads plan fuel sums goal bound s₀ i u ((Cursor.consult job f).move env i t s) := by
  obtain rfl := h.same
  obtain ⟨handler, hhandler, htakes⟩ := hguides.swallows
  simp only [Cursor.move]
  rw [hhandler]
  exact h.next ⟨h.fits, htakes s.memory f⟩ rfl (Nat.le_refl _) rfl rfl rfl h.calm

theorem leads_offer {job : Job} {f : Fault} (hguides : plan.Guides env)
    (h : Midst plan fuel sums goal bound s₀ i u t (.offer job f) s) (hbegins : Begins plan fuel s₀ i u) :
    Leads plan fuel sums goal bound s₀ i u ((Cursor.offer job f).move env i t s) := by
  obtain rfl := h.same
  obtain ⟨hcall, hother⟩ := h.fits
  obtain ⟨handler, hhandler, _⟩ := hguides.swallows
  have hmarks : (s.note (.offered f)).marks = s.marks := s.marks_note_of_none rfl
  simp only [Cursor.move]
  rw [if_neg hother, hhandler]
  dsimp only
  split
  · refine ⟨[], ?_⟩
    rw [List.append_nil]
    refine h.rest hbegins hcall (by simp) rfl rfl h.calm ?_
    rw [hmarks]
    exact h.balanced
  · exact h.next hcall rfl (Nat.sub_le _ 1) rfl rfl hmarks h.calm

theorem leads_onReply {info : FileInfo} {tally : Tally} {response : Except Fault Bool}
    (h : Midst plan fuel sums goal bound s₀ i u t (.onReply info tally response) s) :
    Leads plan fuel sums goal bound s₀ i u ((Cursor.onReply info tally response).move env i t s) := by
  obtain rfl := h.same
  have hharmless := h.fits
  rcases response with f | _ | _
  · obtain ⟨hgoesOn, hother⟩ := hharmless f rfl
    simp only [Cursor.move]
    rw [hgoesOn, if_neg Bool.false_ne_true]
    exact h.next ⟨trivial, hother⟩ rfl (Nat.le_refl 1) rfl rfl rfl h.calm
  · exact h.next ⟨some tally, rfl⟩ rfl (Nat.zero_le 1) rfl rfl rfl h.calm
  · exact h.next trivial rfl (Nat.le_refl 1) rfl rfl rfl h.calm

theorem leads_stop {info : FileInfo} {tally : Tally} {reply : PathReply}
    (h : Midst plan fuel sums goal bound s₀ i u t (.stop info tally reply) s) :
    Leads plan fuel sums goal bound s₀ i u ((Cursor.stop info tally reply).move env i t s) := by
  obtain rfl := h.same
  obtain ⟨hstop, hharmless⟩ := h.fits
  have hleft : (Cursor.onReply info tally reply.answer).left plan (fuel - t.depth s₀.depths)
      (t.depth s₀.depths) t.visit = (Cursor.stop info tally reply).left plan (fuel - t.depth s₀.depths)
        (t.depth s₀.depths) t.visit := by
    unfold Cursor.left
    rcases reply.answer with f | _ | _ <;> rfl
  simp only [Cursor.move]
  rw [hstop]
  dsimp only
  rw [h.calm.called?, ite_self]
  refine h.next hharmless ?_ ?_ rfl rfl rfl h.calm
  · rw [hleft]
  · rw [hleft]

theorem pathCall_eq {c : Cursor} (h : Midst plan fuel sums goal bound s₀ i u t c s)
    (hbegins : Begins plan fuel s₀ i u) (info : FileInfo) (tally : Tally) :
    s.pathCall u info tally = ⟨u.visit.place, u.depth s₀.depths, info, tally⟩ := by
  unfold State.pathCall
  rw [h.depth_eq, (hbegins.tasks u (List.mem_of_getElem? hbegins.task)).name]

theorem leads_report {info : FileInfo} {tally : Tally} (hguides : plan.Guides env)
    (h : Midst plan fuel sums goal bound s₀ i u t (.report info tally) s)
    (hbegins : Begins plan fuel s₀ i u) :
    Leads plan fuel sums goal bound s₀ i u ((Cursor.report info tally).move env i t s) := by
  obtain rfl := h.same
  simp only [Cursor.move]
  cases hanswer : plan.answer with
  | none =>
    rw [hguides.silent hanswer]
    refine h.next (by simp [Cursor.Fits, Harmless]) ?_ (Nat.le_refl 1) rfl rfl rfl h.calm
    change plan.accepted _ _ _ = plan.answered _ _ _ _
    unfold Plan.answered
    rw [hanswer]
  | some answer =>
    obtain ⟨handler, hhandler, hacts⟩ := hguides.answers answer hanswer
    obtain ⟨hstop, hreply⟩ := hacts s.memory (s.pathCall t info tally)
    have hharmless := hguides.harmless answer (s.pathCall t info tally)
    rw [hhandler]
    have hleft : (Cursor.stop info tally (handler.act s.memory (s.pathCall t info tally)).2).left plan
        (fuel - t.depth s₀.depths) (t.depth s₀.depths) t.visit =
          ⟨plan.answered (t.depth s₀.depths) t.visit.place info tally, 1⟩ := by
      unfold Plan.answered
      rw [hanswer]
      dsimp only
      rw [← h.pathCall_eq hbegins, ← hreply]
      unfold Cursor.left
      rcases (handler.act s.memory (s.pathCall t info tally)).2.answer with f | _ | _ <;> rfl
    refine h.next ⟨hstop, ?_⟩ ?_ ?_ rfl rfl rfl h.calm
    · intro f hf
      exact hharmless f hanswer (hreply.symm.trans hf)
    · rw [hleft]
      rfl
    · rw [hleft]
      exact Nat.le_refl 1

theorem leads_begin {job : Job} (hguides : plan.Guides env)
    (h : Midst plan fuel sums goal bound s₀ i u t (.begin job) s) (hbegins : Begins plan fuel s₀ i u) :
    Leads plan fuel sums goal bound s₀ i u ((Cursor.begin job).move env i t s) := by
  obtain rfl := h.same
  have hcall : ∀ e : Event, e.mark? = none → (∀ info tally, job ≠ .report info tally) →
      Placid plan fuel sums goal bound ((s.note e).setPhase i (.calling job)) := by
    intro e he hother
    refine h.rest hbegins h.fits (by simp) rfl rfl h.calm ?_
    rw [s.marks_note_of_none he]
    cases job with
    | report info tally => exact absurd rfl (hother info tally)
    | _ => exact h.balanced
  cases job with
  | info => exact ⟨[], by rw [List.append_nil]; exact hcall (.stated t.visit.place) rfl (by simp)⟩
  | target info => exact h.fits.elim
  | entries info => exact ⟨[], by rw [List.append_nil]; exact hcall (.listed t.visit.place) rfl (by simp)⟩
  | report info tally =>
    simp only [Cursor.move]
    cases hanswer : plan.answer with
    | none =>
      rw [hguides.silent hanswer]
      refine h.next trivial ?_ (Nat.le_succ 1) rfl rfl rfl h.calm
      change plan.answered _ _ _ _ = plan.reported _ _ _ _
      unfold Plan.reported
      rw [hanswer]
    | some answer =>
      obtain ⟨handler, hhandler, _⟩ := hguides.answers answer hanswer
      have hreported : plan.reported (t.depth s₀.depths) t.visit.place info tally =
          { plan.answered (t.depth s₀.depths) t.visit.place info tally with
            marks := .told ⟨t.visit.place, t.depth s₀.depths, info, tally⟩ ::
              (plan.answered (t.depth s₀.depths) t.visit.place info tally).marks } := by
        unfold Plan.reported
        rw [hanswer]
      have hdone : (s.note (.reported (s.pathCall t info tally))).marks.Perm
          (.told ⟨t.visit.place, t.depth s₀.depths, info, tally⟩ :: s.marks) := by
        rw [h.pathCall_eq hbegins]
        exact s.perm_marks_note rfl
      have hshare := congrArg Yield.share hreported
      have hmarks := congrArg Yield.marks hreported
      rw [hhandler]
      dsimp only
      split
      · refine ⟨[], ?_⟩
        rw [List.append_nil]
        refine h.rest hbegins trivial (by simp) rfl rfl h.calm ?_
        exact h.balanced.mark hdone hshare.symm hmarks (Nat.le_refl 2)
      · exact h.mark trivial hshare.symm hmarks (Nat.le_succ 1) rfl rfl hdone h.calm

theorem leads_answer {job : Job} (hguides : plan.Guides env)
    (h : Midst plan fuel sums goal bound s₀ i u t (.answer job) s) :
    Leads plan fuel sums goal bound s₀ i u ((Cursor.answer job).move env i t s) := by
  obtain rfl := h.same
  cases job with
  | info =>
    simp only [Cursor.move]
    rw [hguides.files]
    have hsome := h.fits
    cases hinfo : plan.files.info t.visit.place with
    | ok info => exact h.next ⟨hinfo, hsome⟩ rfl (Nat.le_of_eq (by change 6 + _ = 7 + _ - 1; omega)) rfl rfl rfl h.calm
    | error f =>
      refine h.next ⟨trivial, ?_⟩ ?_ ?_ rfl rfl rfl h.calm
      · rintro rfl
        exact hguides.info t.visit.place hinfo
      · exact (Visit.full_of_error hinfo hsome).symm
      · change 1 ≤ 7 + _ - 1
        omega
  | target info => exact h.fits.elim
  | entries info =>
    simp only [Cursor.move]
    rw [hguides.files]
    obtain ⟨hkind, hpos, hsome⟩ := h.fits
    cases hentries : plan.files.entries t.visit.place with
    | ok names => exact h.next ⟨hentries, hkind, hpos, hsome⟩ rfl (Nat.le_of_eq (by change 4 + _ = 5 + _ - 1; omega)) rfl rfl rfl h.calm
    | error f =>
      refine h.next ⟨trivial, ?_⟩ ?_ ?_ rfl rfl rfl h.calm
      · rintro rfl
        exact hguides.entries t.visit.place hentries
      · exact (Visit.inside_of_error hkind hentries).symm
      · change 4 ≤ 5 + _ - 1
        omega
  | report info tally => exact h.next trivial rfl (Nat.le_refl 1) rfl rfl rfl h.calm

end Midst

end TreeCensus.Walk
