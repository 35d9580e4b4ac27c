import TreeCensus.Proofs.FileSystem.Finiteness
import TreeCensus.Proofs.Walk.Progress

/-!
# The measure of a walk

Whoever lists a directory or follows a link has come to an object that was not visited before. So the
levels that are opened and the links that are followed are no more than the objects visited, and if
there are only finitely many identities and names to come to, a walk makes boundedly many steps.
-/

namespace TreeCensus

set_option autoImplicit false

namespace Walk

variable {σ : Type}

/-- Whether the task may still recurse on account of the object that it came to last. -/
def Job.credit : Job → Nat
  | .target _ | .entries _ => 1
  | _ => 0

def Phase.credit : Phase → Nat
  | queued _ job | calling job | consulting job _ => job.credit
  | _ => 0

def Cursor.credit : Cursor → Nat
  | enter _ | onTarget _ _ | onEntries _ _ => 1
  | seek job | begin job | answer job | onAnswer job _ _ | consult job _ | offer job _ => job.credit
  | giveBack next => next.credit
  | _ => 0

section Weight

variable (width : Nat)

/-- A bound on the steps that a task makes when the call for a job is in progress, with those of the
level that it may open, but without what objects that are not visited yet allow for. -/
def Job.weight : Job → Nat
  | .info => 12
  | .target _ => 15
  | .entries _ => 14 * width + 10
  | .report _ _ => 3

/-- The same when the call has failed. -/
def Job.remainder : Job → Nat
  | .report _ _ => 2
  | _ => 5

def Phase.weight : Phase → Nat
  | fresh => 14
  | queued _ job => job.weight width + 1
  | calling job => job.weight width
  | consulting job _ => job.remainder
  | logging _ => 1
  | descending _ _ => 5
  | ended _ => 0

def Cursor.weight : Cursor → Nat
  | conclude _ | follow (.over _) => 0
  | log _ | accept _ => 1
  | follow (.counted _ _) => 4
  | seek job => job.weight width + 1
  | begin job => job.weight width
  | answer job => job.weight width - 1
  | enter _ => 14 * width + 16
  | onInfo _ => 11
  | onTarget _ _ => 14
  | onEntries _ _ => 14 * width + 9
  | giveBack next => next.weight
  | onAnswer job _ _ | consult job _ => job.remainder - 1
  | offer job _ => job.remainder
  | onReply _ _ _ | stop _ _ _ | report _ _ => 2

def Stage.weight : Stage → Nat
  | running => 2
  | draining _ => 1
  | closed _ => 0

/-- What each object that is not visited yet allows for. -/
def spare (ids : Finset Text) (visited : List Text) : Nat :=
  (14 * width + 16) * (ids \ visited.toFinset).card

end Weight

theorem Phase.weight_pos (width : Nat) (phase : Phase) (h : phase.isEnded = false) : 0 < phase.weight width := by
  cases phase with
  | calling job => cases job <;> simp [weight, Job.weight]
  | consulting job f => cases job <;> exact Nat.succ_pos _
  | ended => cases h
  | _ => exact Nat.succ_pos _

theorem spare_cons (width : Nat) {ids : Finset Text} {visited : List Text} {id : Text} (hid : id ∈ ids)
    (hnew : id ∉ visited) :
    spare width ids (id :: visited) + (14 * width + 16) = spare width ids visited := by
  have hmem : id ∈ ids \ visited.toFinset := by simp [hid, hnew]
  have hcard : (ids \ (id :: visited).toFinset).card + 1 = (ids \ visited.toFinset).card := by
    rw [List.toFinset_cons, Finset.sdiff_insert]
    exact Finset.card_erase_add_one hmem
  unfold spare
  rw [← hcard, Nat.mul_add, Nat.mul_one]

theorem Job.credit_forgone (t : Task) (job : Job) : (job.forgone t).credit = 0 := by
  cases job <;> rfl

theorem Cursor.weight_follow (width : Nat) (o : Outcome) : (Cursor.follow o).weight width ≤ 4 := by
  cases o with
  | «over» => exact Nat.zero_le _
  | counted => exact Nat.le_refl _

theorem Job.weight_forgone (width : Nat) (t : Task) (job : Job) :
    (job.forgone t).weight width ≤ job.remainder - 1 := by
  cases job with
  | report => exact Nat.zero_le _
  | _ => exact Cursor.weight_follow width _

theorem sum_map_modify {α : Type} {l : List α} {i : Nat} {a : α} (ha : l[i]? = some a) (f : α → α)
    (g : α → Nat) : ((l.modify i f).map g).sum = g (f a) + ((l.eraseIdx i).map g).sum := by
  have hperm := (perm_modify ha f).map g
  rw [hperm.sum_eq, List.map_cons, List.sum_cons]

theorem sum_map_eraseIdx {α : Type} {l : List α} {i : Nat} {a : α} (ha : l[i]? = some a) (g : α → Nat) :
    (l.map g).sum = g a + ((l.eraseIdx i).map g).sum := by
  have := sum_map_modify ha id g
  rwa [List.modify_id] at this

/-- What the file system said is what the task goes by. -/
def Cursor.Reads (env : Environment σ) (v : Visit) : Cursor → Prop
  | onInfo info => env.files.info v.place = .ok info
  | onEntries _ names => env.files.entries v.place = .ok names
  | giveBack next => next.Reads env v
  | _ => True

theorem Job.reads_forgone (env : Environment σ) (t : Task) (job : Job) :
    (job.forgone t).Reads env t.visit := by
  cases job <;> trivial

/-- The levels that were opened and the links that are followed on the way to where the tasks are. -/
def State.recursions (s : State σ) : Nat :=
  s.levels.length + (s.tasks.map (·.visit.outer.length)).sum

def Environment.Settled (env : Environment σ) (place : Path) : Prop :=
  ∃ p, place = Path.resolve env.files.cwd p

/-- A walk that can make no more steps than a budget allows. -/
structure Measured (env : Environment σ) (ids : Finset Text) (width budget : Nat) (s : State σ) :
    Prop where
  places : ∀ t ∈ s.tasks, env.Settled t.visit.place
  known : ∀ id ∈ s.visited, id ∈ ids
  distinct : s.visited.Nodup
  recursions : s.recursions + (s.posts.map (·.2.credit)).sum ≤ s.visited.length + 1
  work : (s.posts.map (·.2.weight width)).sum + (s.stages.map (·.2.weight)).sum +
    spare width ids s.visited ≤ budget

/-- The same in the midst of a step of the task `t`. -/
structure Measuring (env : Environment σ) (ids : Finset Text) (width budget i : Nat) (t : Task)
    (c : Cursor) (s : State σ) : Prop where
  task : ∃ phase, s.posts[i]? = some (t.level, phase)
  visit : s.tasks[i]?.map (·.visit) = some t.visit
  places : ∀ u ∈ s.tasks, env.Settled u.visit.place
  reads : c.Reads env t.visit
  known : ∀ id ∈ s.visited, id ∈ ids
  distinct : s.visited.Nodup
  recursions : s.recursions + ((s.posts.eraseIdx i).map (·.2.credit)).sum + c.credit ≤
    s.visited.length + 1
  work : ((s.posts.eraseIdx i).map (·.2.weight width)).sum + c.weight width +
    (s.stages.map (·.2.weight)).sum + spare width ids s.visited ≤ budget

namespace Measuring

variable {env : Environment σ} {ids : Finset Text} {width budget i : Nat} {t : Task} {c d : Cursor}
  {s s' : State σ} {info : FileInfo} {target : Text} {names : List Text}

theorem placed (h : Measuring env ids width budget i t c s) : env.Settled t.visit.place := by
  obtain ⟨u, hu, hvisit⟩ := Option.map_eq_some_iff.mp h.visit
  rw [← hvisit]
  exact h.places u (List.mem_of_getElem? hu)

theorem still (h : Measuring env ids width budget i t c s) (htasks : s'.tasks = s.tasks)
    (hstages : s'.stages = s.stages) (hvisited : s'.visited = s.visited)
    (hreads : c.Reads env t.visit → d.Reads env t.visit) (hcredit : d.credit ≤ c.credit)
    (hweight : d.weight width ≤ c.weight width) : Measuring env ids width budget i t d s' := by
  have hposts : s'.posts = s.posts := by
    unfold State.posts
    rw [htasks]
  have hrecursions : s'.recursions = s.recursions := by
    have := congrArg List.length hstages
    unfold State.stages at this
    rw [List.length_map, List.length_map] at this
    unfold State.recursions
    rw [htasks, this]
  refine ⟨?_, ?_, ?_, hreads h.reads, ?_, ?_, ?_, ?_⟩
  · rw [hposts]
    exact h.task
  · rw [htasks]
    exact h.visit
  · rw [htasks]
    exact h.places
  · rw [hvisited]
    exact h.known
  · rw [hvisited]
    exact h.distinct
  · have := h.recursions
    rw [hrecursions, hposts, hvisited]
    omega
  · have := h.work
    rw [hposts, hstages, hvisited]
    omega

theorem rest (h : Measuring env ids width budget i t c s) (htasks : s'.tasks = s.tasks)
    (hstages : s'.stages = s.stages) (hvisited : s'.visited = s.visited) (phase : Phase)
    (hcredit : phase.credit ≤ c.credit) (hweight : phase.weight width ≤ c.weight width) :
    Measured env ids width budget (s'.setPhase i phase) := by
  obtain ⟨before, htask⟩ := h.task
  have hposts : (s'.setPhase i phase).posts = s.posts.modify i fun p => (p.1, phase) := by
    rw [State.posts_setPhase]
    unfold State.posts
    rw [htasks]
  have hrecursions : (s'.setPhase i phase).recursions = s.recursions := by
    have hlevels := congrArg List.length hstages
    unfold State.stages at hlevels
    rw [List.length_map, List.length_map] at hlevels
    have houter : (s'.setPhase i phase).tasks.map (·.visit.outer.length) =
        s'.tasks.map (·.visit.outer.length) :=
      map_modify_of_eq (f := fun t : Task => { t with phase }) (fun _ => rfl) s'.tasks i
    unfold State.recursions
    rw [houter, htasks]
    exact congrArg (· + _) hlevels
  refine ⟨?_, ?_, ?_, ?_, ?_⟩
  · intro u hu
    rcases mem_modify hu with hu | ⟨a, ha, rfl⟩
    · exact h.places u (htasks ▸ hu)
    · exact h.places a (htasks ▸ List.mem_of_getElem? ha)
  · change ∀ id ∈ s'.visited, id ∈ ids
    rw [hvisited]
    exact h.known
  · change s'.visited.Nodup
    rw [hvisited]
    exact h.distinct
  · have := h.recursions
    rw [hrecursions, hposts, sum_map_modify htask]
    change _ ≤ s'.visited.length + 1
    rw [hvisited]
    dsimp only
    omega
  · have := h.work
    rw [hposts, sum_map_modify htask]
    change _ + (s'.stages.map (·.2.weight)).sum + spare width ids s'.visited ≤ budget
    rw [hstages, hvisited]
    dsimp only
    omega

theorem conclude (h : Measuring env ids width budget i t c s) (result : Except Fault (Option Tally)) :
    Measured env ids width budget (s.conclude i t result) := by
  have hrest : Measured env ids width budget (s.setPhase i (.ended result)) :=
    h.rest rfl rfl rfl _ (Nat.zero_le _) (Nat.zero_le _)
  cases result with
  | ok => exact hrest
  | error f =>
    have hstages := State.stages_updateLevel (s.setPhase i (.ended (.error f))) t.level
      (f := fun l => { l with failure := l.failure.or (some f) }) fun _ => ⟨rfl, rfl⟩
    refine ⟨hrest.places, hrest.known, hrest.distinct, ?_, ?_⟩
    · have := hrest.recursions
      unfold State.recursions at this ⊢
      rwa [show (s.conclude i t (.error f)).levels.length = s.levels.length from List.length_modify _ _ _]
    · have := hrest.work
      rwa [← hstages] at this

/-- An object that was not visited before is worth all that may come of it. -/
theorem meet (h : Measuring env ids width budget i t (.onInfo info) s)
    (hbounded : env.files.Bounded ids width) (hnew : info.identity t.visit.place ∉ s.visited) :
    Measuring env ids width budget i t (.enter info)
      { s with visited := info.identity t.visit.place :: s.visited } := by
  obtain ⟨p, hp⟩ := h.placed
  have hid : info.identity t.visit.place ∈ ids := by
    have hinfo : env.files.info t.visit.place = .ok info := h.reads
    rw [hp] at hinfo ⊢
    exact hbounded.identities p info hinfo
  refine ⟨h.task, h.visit, h.places, trivial, ?_, List.nodup_cons.mpr ⟨hnew, h.distinct⟩, ?_, ?_⟩
  · intro id hmem
    rcases List.mem_cons.mp hmem with rfl | hmem
    · exact hid
    · exact h.known id hmem
  · exact Nat.succ_le_succ h.recursions
  · have hwork := h.work
    have hspare := spare_cons width hid hnew
    simp only [Cursor.weight] at hwork ⊢
    change _ + _ + (s.stages.map (·.2.weight)).sum + _ ≤ budget
    change ((s.posts.eraseIdx i).map (·.2.weight width)).sum + _ + _ + _ ≤ budget
    omega

/-- A link is followed on account of the object that it is. -/
theorem follows (h : Measuring env ids width budget i t (.onTarget info target) s) {place : Path}
    (hplace : env.Settled place) :
    Measuring env ids width budget i
      { t with visit := { t.visit with place, outer := info :: t.visit.outer } } (.seek .info)
      (s.updateTask i fun u =>
        { u with visit := { t.visit with place, outer := info :: t.visit.outer } }) := by
  obtain ⟨u, hu, hvisit⟩ := Option.map_eq_some_iff.mp h.visit
  have hposts := s.posts_updateTask i (f := fun u : Task =>
    { u with visit := { t.visit with place, outer := info :: t.visit.outer } }) fun _ => ⟨rfl, rfl⟩
  refine ⟨?_, ?_, ?_, trivial, h.known, h.distinct, ?_, ?_⟩
  · rw [hposts]
    exact h.task
  · unfold State.updateTask
    dsimp only
    rw [List.getElem?_modify_eq, hu]
    rfl
  · intro w hw
    rcases mem_modify hw with hw | ⟨a, _, rfl⟩
    · exact h.places w hw
    · exact hplace
  · have hrecursions := h.recursions
    rw [hposts]
    unfold State.recursions State.updateTask at *
    dsimp only
    rw [sum_map_modify hu]
    rw [sum_map_eraseIdx hu, hvisit] at hrecursions
    simp only [Cursor.credit, Job.credit, List.length_cons] at hrecursions ⊢
    omega
  · have hwork := h.work
    rw [hposts]
    change _ + _ + (s.stages.map (·.2.weight)).sum + spare width ids s.visited ≤ budget
    simp only [Cursor.weight, Job.weight] at hwork ⊢
    omega

/-- A level is opened on account of the directory that it is for. -/
theorem descend (h : Measuring env ids width budget i t (.onEntries info names) s)
    (hbounded : env.files.Bounded ids width) (links : List Nat) (depth : Nat) (priority : Priority)
    (paths : List Path) (hpaths : paths.length ≤ names.length) :
    Measured env ids width budget ((s.openLevel env links depth priority paths).setPhase i
      (.descending s.levels.length info)) := by
  obtain ⟨before, htask⟩ := h.task
  obtain ⟨u, hu, hvisit⟩ := Option.map_eq_some_iff.mp h.visit
  obtain ⟨p, hp⟩ := h.placed
  have hnames : names.length ≤ width := hbounded.width t.visit.place names h.reads
  have hcount : (State.visits env paths).length ≤ width :=
    Nat.le_trans (State.length_visits_le env paths) (Nat.le_trans hpaths hnames)
  have hlt := (List.getElem?_eq_some_iff.mp htask).1
  have hposts : ((s.openLevel env links depth priority paths).setPhase i
      (.descending s.levels.length info)).posts =
        (s.posts.modify i fun p => (p.1, .descending s.levels.length info)) ++
          List.replicate (State.visits env paths).length (s.stages.length, .fresh) := by
    rw [State.posts_setPhase, State.posts_openLevel, modify_append hlt]
  refine ⟨?_, h.known, h.distinct, ?_, ?_⟩
  · intro w hw
    have hall : ∀ a ∈ (s.openLevel env links depth priority paths).tasks,
        env.Settled a.visit.place := by
      intro a ha
      rcases List.mem_append.mp ha with ha | ha
      · exact h.places a ha
      · obtain ⟨v, hv, rfl⟩ := List.mem_map.mp ha
        obtain ⟨_, _, q, _, hq⟩ := State.mem_visits hv
        exact ⟨q, hq⟩
    rcases mem_modify hw with hw | ⟨a, ha, rfl⟩
    · exact hall w hw
    · exact hall a (List.mem_of_getElem? ha)
  · have hrecursions := h.recursions
    have houter : (((s.openLevel env links depth priority paths).setPhase i
        (.descending s.levels.length info)).tasks.map (·.visit.outer.length)).sum =
          (s.tasks.map (·.visit.outer.length)).sum := by
      have hnew : (((State.visits env paths).map fun v : Visit =>
          (⟨s.levels.length, v, .fresh, false⟩ : Task)).map (·.visit.outer.length)).sum = 0 := by
        apply List.sum_eq_zero
        intro n hn
        obtain ⟨a, ha, rfl⟩ := List.mem_map.mp hn
        obtain ⟨v, hv, rfl⟩ := List.mem_map.mp ha
        rw [(State.mem_visits hv).1]
        rfl
      have hsame := map_modify_of_eq (f := fun t : Task => { t with phase := .descending s.levels.length info })
        (g := (·.visit.outer.length)) (fun _ => rfl) (s.openLevel env links depth priority paths).tasks i
      change (((s.openLevel env links depth priority paths).tasks.modify i _).map _).sum = _
      rw [hsame]
      unfold State.openLevel
      dsimp only
      rw [List.map_append, List.sum_append, hnew, Nat.add_zero]
    have hlevels : ((s.openLevel env links depth priority paths).setPhase i
        (.descending s.levels.length info)).levels.length = s.levels.length + 1 := by
      change (s.levels ++ [_]).length = _
      rw [List.length_append, List.length_singleton]
    rw [hposts]
    unfold State.recursions at *
    rw [houter, hlevels, List.map_append, List.sum_append, sum_map_modify htask, List.map_replicate,
      List.sum_replicate]
    change _ ≤ s.visited.length + 1
    simp only [Cursor.credit, Phase.credit, smul_eq_mul, Nat.mul_zero] at hrecursions ⊢
    omega
  · have hwork := h.work
    rw [hposts, State.stages_setPhase, State.stages_openLevel, List.map_append, List.sum_append,
      List.map_append, List.sum_append, sum_map_modify htask, List.map_replicate, List.sum_replicate]
    change _ + _ + spare width ids s.visited ≤ budget
    simp only [Cursor.weight, Phase.weight, Stage.weight, smul_eq_mul, List.map_cons, List.map_nil,
      List.sum_cons, List.sum_nil] at hwork ⊢
    omega

/-- No move costs anything that was not accounted for. -/
theorem move (h : Measuring env ids width budget i t c s) (hbounded : env.files.Bounded ids width) :
    (c.move env i t s).Meets (fun t c s => Measuring env ids width budget i t c s)
      fun s => Measured env ids width budget s := by
  have hfollow : ∀ {c : Cursor} {s : State σ} (o : Outcome), Measuring env ids width budget i t c s →
      4 ≤ c.weight width → Measuring env ids width budget i t (.follow o) s := fun o h hc =>
    h.still rfl rfl rfl (fun _ => trivial) (Nat.zero_le _)
      (Nat.le_trans (Cursor.weight_follow width o) hc)
  cases c with
  | conclude result => exact h.conclude result
  | log tally =>
    simp only [Cursor.move]
    split
    · exact h.still rfl rfl rfl (fun _ => trivial) (Nat.zero_le _) (Nat.zero_le _)
    · split
      · split
        · refine h.rest ?_ ?_ ?_ (.logging tally) (Nat.zero_le _) (Nat.le_refl _) <;> rfl
        · exact h.still rfl rfl rfl (fun _ => trivial) (Nat.zero_le _) (Nat.zero_le _)
      · exact h.still rfl rfl rfl (fun _ => trivial) (Nat.zero_le _) (Nat.zero_le _)
  | accept tally =>
    have hstages := s.stages_updateLevel t.level
      (f := fun l => { l with total := l.total.add tally }) fun _ => ⟨rfl, rfl⟩
    exact h.still rfl hstages rfl (fun _ => trivial) (Nat.zero_le _) (Nat.le_refl _)
  | seek job =>
    simp only [Cursor.move]
    split
    · exact h.still rfl rfl rfl (fun _ => trivial) (Nat.zero_le _) (Nat.zero_le _)
    · exact h.still rfl rfl rfl (fun _ => trivial) (Nat.le_refl _) (Nat.le_succ _)
    · refine h.rest ?_ ?_ ?_ (.queued _ job) (Nat.le_refl _) (Nat.le_refl _) <;> rfl
  | follow o =>
    cases o with
    | «over» result => exact h.still rfl rfl rfl (fun _ => trivial) (Nat.le_refl _) (Nat.le_refl _)
    | counted info tally =>
      simp only [Cursor.move]
      split
      · exact h.still rfl rfl rfl (fun _ => trivial) (Nat.le_refl _) (by simp [Cursor.weight])
      · exact h.still rfl rfl rfl (fun _ => trivial) (Nat.le_refl _) (by simp [Cursor.weight, Job.weight])
  | enter info =>
    have hsettle := hfollow (settle t.visit.verdict t.visit.outer info info.tally) h
      (by simp only [Cursor.weight]; omega)
    simp only [Cursor.move]
    split
    · split
      · exact h.still rfl rfl rfl (fun _ => trivial) (Nat.le_refl _)
          (by simp only [Cursor.weight, Job.weight]; omega)
      · exact hsettle
    · exact h.still rfl rfl rfl (fun _ => trivial) (Nat.le_refl _)
        (by simp only [Cursor.weight, Job.weight]; omega)
    · exact hsettle
    · exact hsettle
  | onInfo info =>
    have hskip := hfollow (unwind t.visit.verdict none t.visit.outer) h (by simp [Cursor.weight])
    simp only [Cursor.move]
    split
    · exact hskip
    · split
      · exact hskip
      · next hnew => exact h.meet hbounded hnew
  | onTarget info target =>
    simp only [Cursor.move]
    split
    · exact hfollow _ h (by simp [Cursor.weight])
    · exact h.follows ⟨_, rfl⟩
  | onEntries info names =>
    simp only [Cursor.move]
    split
    · exact hfollow _ h (by simp only [Cursor.weight]; omega)
    · exact h.descend hbounded _ _ _ _ (Nat.le_of_eq (List.length_map _))
  | giveBack next =>
    simp only [Cursor.move]
    split
    · exact h.still rfl rfl rfl id (Nat.le_refl _) (Nat.le_refl _)
    · exact h.still rfl rfl rfl (fun _ => trivial) (Nat.zero_le _) (Nat.zero_le _)
  | onAnswer job f answer =>
    cases answer with
    | error g => exact h.still rfl rfl rfl (fun _ => trivial) (Nat.zero_le _) (Nat.zero_le _)
    | ok taken =>
      simp only [Cursor.move]
      split
      · exact h.still rfl rfl rfl (fun _ => job.reads_forgone env t)
          (Nat.le_trans (Nat.le_of_eq (job.credit_forgone t)) (Nat.zero_le _))
          (job.weight_forgone width t)
      · exact h.still rfl rfl rfl (fun _ => trivial) (Nat.zero_le _) (Nat.zero_le _)
  | consult job f =>
    simp only [Cursor.move]
    split <;> exact h.still rfl rfl rfl (fun _ => trivial) (Nat.le_refl _) (Nat.le_refl _)
  | offer job f =>
    simp only [Cursor.move]
    split
    · exact h.still rfl rfl rfl (fun _ => trivial) (Nat.zero_le _) (Nat.zero_le _)
    · split
      · exact h.still rfl rfl rfl (fun _ => trivial) (Nat.le_refl _) (Nat.sub_le _ _)
      · split
        · refine h.rest ?_ ?_ ?_ (.consulting job f) (Nat.le_refl _) (Nat.le_refl _) <;> rfl
        · exact h.still rfl rfl rfl (fun _ => trivial) (Nat.le_refl _) (Nat.sub_le _ _)
  | onReply info tally answer =>
    rcases answer with f | _ | _
    · simp only [Cursor.move]
      split
      · exact h.still rfl rfl rfl (fun _ => trivial) (Nat.zero_le _) (Nat.zero_le _)
      · exact h.still rfl rfl rfl (fun _ => trivial) (Nat.le_refl _) (Nat.le_refl _)
    · exact h.still rfl rfl rfl (fun _ => trivial) (Nat.zero_le _) (Nat.zero_le _)
    · exact h.still rfl rfl rfl (fun _ => trivial) (Nat.le_refl _) (Nat.le_succ _)
  | stop info tally reply =>
    cases hstop : reply.stop <;> simp only [Cursor.move, hstop] <;>
      exact h.still rfl rfl rfl (fun _ => trivial) (Nat.le_refl _) (Nat.le_refl _)
  | report info tally =>
    simp only [Cursor.move]
    split <;> exact h.still rfl rfl rfl (fun _ => trivial) (Nat.le_refl _) (Nat.le_refl _)
  | begin job =>
    cases job with
    | report info tally =>
      simp only [Cursor.move]
      split
      · exact h.still rfl rfl rfl (fun _ => trivial) (Nat.le_refl _) (Nat.le_succ _)
      · split
        · refine h.rest ?_ ?_ ?_ (.calling (.report info tally)) (Nat.le_refl _) (Nat.le_refl _) <;> rfl
        · exact h.still rfl rfl rfl (fun _ => trivial) (Nat.le_refl _) (Nat.le_succ _)
    | info => refine h.rest ?_ ?_ ?_ (.calling .info) (Nat.le_refl _) (Nat.le_refl _) <;> rfl
    | target info =>
      refine h.rest ?_ ?_ ?_ (.calling (.target info)) (Nat.le_refl _) (Nat.le_refl _) <;> rfl
    | entries info =>
      refine h.rest ?_ ?_ ?_ (.calling (.entries info)) (Nat.le_refl _) (Nat.le_refl _) <;> rfl
  | answer job =>
    cases job with
    | report info tally =>
      exact h.still rfl rfl rfl (fun _ => trivial) (Nat.le_refl _) (Nat.le_refl _)
    | info =>
      simp only [Cursor.move]
      split
      · next hread => exact h.still rfl rfl rfl (fun _ => hread) (Nat.le_refl _) (Nat.le_refl _)
      · exact h.still rfl rfl rfl (fun _ => trivial) (Nat.le_refl _)
          (by simp [Cursor.weight, Job.weight, Job.remainder])
    | target info =>
      simp only [Cursor.move]
      split
      · exact h.still rfl rfl rfl (fun _ => trivial) (Nat.le_refl _) (Nat.le_refl _)
      · exact h.still rfl rfl rfl (fun _ => trivial) (Nat.le_refl _)
          (by simp [Cursor.weight, Job.weight, Job.remainder])
    | entries info =>
      simp only [Cursor.move]
      split
      · next hread => exact h.still rfl rfl rfl (fun _ => hread) (Nat.le_refl _) (Nat.le_refl _)
      · exact h.still rfl rfl rfl (fun _ => trivial) (Nat.le_refl _)
          (by simp only [Cursor.weight, Job.weight, Job.remainder]; omega)

end Measuring

namespace Measured

variable {env : Environment σ} {ids : Finset Text} {width budget i : Nat} {t : Task} {c : Cursor}
  {s s' : State σ}

/-- The first thing that a step does costs something. -/
theorem enter (h : Measured env ids width budget s) (ht : s.tasks[i]? = some t)
    (hentry : s.entry? env t = some (c, s')) :
    0 < budget ∧ Measuring env ids width (budget - 1) i t c s' := by
  have hpost := State.posts_of_task ht
  have hrecursions := h.recursions
  have hwork := h.work
  rw [sum_map_eraseIdx hpost] at hrecursions hwork
  -- Whatever a step begins with is worth less than the phase in which the task was.
  have hbegin : ∀ {d : Cursor} {s₁ : State σ}, s₁.tasks = s.tasks → s₁.levels = s.levels →
      s₁.visited = s.visited → d.Reads env t.visit → d.credit ≤ t.phase.credit →
        d.weight width < t.phase.weight width →
          0 < budget ∧ Measuring env ids width (budget - 1) i t d s₁ := by
    intro d s₁ htasks hlevels hvisited hreads hcredit hweight
    have hposts : s₁.posts = s.posts := by
      unfold State.posts
      rw [htasks]
    have hstages : s₁.stages = s.stages := by
      unfold State.stages
      rw [hlevels]
    have hsame : s₁.recursions = s.recursions := by
      unfold State.recursions
      rw [htasks, hlevels]
    refine ⟨by dsimp only at hwork; omega, ?_, ?_, ?_, hreads, ?_, ?_, ?_, ?_⟩
    · rw [hposts]
      exact ⟨_, hpost⟩
    · rw [htasks, ht]
      rfl
    · rw [htasks]
      exact h.places
    · rw [hvisited]
      exact h.known
    · rw [hvisited]
      exact h.distinct
    · rw [hsame, hposts, hvisited]
      dsimp only at hrecursions
      omega
    · rw [hposts, hstages, hvisited]
      dsimp only at hwork
      omega
  have hpos : 0 < t.phase.weight width := t.phase.weight_pos width (State.advances_entry i hentry).1.1
  cases State.enters hentry with
  | ends | drops | refused | called | logged | failed =>
    exact hbegin rfl rfl rfl trivial (Nat.zero_le _) hpos
  | starts phase =>
    rw [phase] at hbegin
    exact hbegin rfl rfl rfl trivial (Nat.zero_le _) (Nat.lt_succ_self 13)
  | admitted phase =>
    rw [phase] at hbegin
    exact hbegin rfl rfl rfl trivial (Nat.le_refl _) (Nat.lt_succ_self _)
  | answers phase | consults phase =>
    rw [phase] at hbegin hpos
    exact hbegin rfl rfl rfl trivial (Nat.le_refl _) (Nat.sub_lt hpos Nat.one_pos)
  | resumes phase =>
    rw [phase] at hbegin
    exact hbegin rfl rfl rfl trivial (Nat.zero_le _) (Nat.lt_succ_of_le (Cursor.weight_follow width _))

theorem task (h : Measured env ids width budget s) (hbounded : env.files.Bounded ids width)
    (ht : s.tasks[i]? = some t) (hstep : s.stepTask? env i t = some s') :
    0 < budget ∧ Measured env ids width (budget - 1) s' := by
  obtain ⟨c, s₁, hentry, rfl⟩ := State.exists_entry hstep
  obtain ⟨hpos, hbegun⟩ := h.enter ht hentry
  exact ⟨hpos, Cursor.run_of_moves (fun _ _ _ hnow => hnow.move hbounded) t c s₁ hbegun⟩

theorem level {k : Nat} {l : Level} (h : Measured env ids width budget s) (hl : s.levels[k]? = some l)
    (hstep : s.stepLevel? k l = some s') : 0 < budget ∧ Measured env ids width (budget - 1) s' := by
  have hstage := State.stages_of_level hl
  -- Whatever else a level does, it goes on to a later stage.
  have hnext : ∀ stage : Stage, s'.posts = s.posts → s'.stages = s.stages.modify k (fun l => (l.1, stage)) →
      stage.weight < l.stage.weight → s'.visited = s.visited →
      s'.tasks.map (·.visit) = s.tasks.map (·.visit) →
        0 < budget ∧ Measured env ids width (budget - 1) s' := by
    intro stage hposts hstages hless hvisited hvisits
    have hwork := h.work
    rw [sum_map_eraseIdx hstage] at hwork
    have hrecursions : s'.recursions = s.recursions := by
      have hlevels : s'.levels.length = s.levels.length := by
        simpa [State.stages] using congrArg List.length hstages
      have houter := congrArg (List.map fun v : Visit => v.outer.length) hvisits
      rw [List.map_map, List.map_map] at houter
      unfold State.recursions
      rw [hlevels]
      exact congrArg (fun ns : List Nat => s.levels.length + ns.sum) houter
    refine ⟨by dsimp only at hwork; omega, ?_, ?_, ?_, ?_, ?_⟩
    · intro u hu
      have hmem := List.mem_map_of_mem (f := (·.visit)) hu
      rw [hvisits] at hmem
      obtain ⟨v, hv, heq⟩ := List.mem_map.mp hmem
      rw [← heq]
      exact h.places v hv
    · rw [hvisited]
      exact h.known
    · rw [hvisited]
      exact h.distinct
    · rw [hrecursions, hposts, hvisited]
      exact h.recursions
    · rw [hposts, hstages, hvisited, sum_map_modify hstage]
      dsimp only at hwork ⊢
      omega
  have hclose : ∀ result, 0 < l.stage.weight → s' = s.close k result →
      0 < budget ∧ Measured env ids width (budget - 1) s' := by
    intro result hpos hs'
    subst hs'
    exact hnext (.closed result) rfl (State.stages_updateLevel_stage _ k fun _ => ⟨rfl, rfl⟩) hpos rfl rfl
  unfold State.stepLevel? at hstep
  cases hrun : l.stage with
  | closed result => simp [hrun] at hstep
  | draining f =>
    simp only [hrun] at hstep hclose
    split at hstep
    · exact hclose _ Nat.one_pos (Option.some.inj hstep).symm
    · cases hstep
  | running =>
    simp only [hrun] at hstep hclose hnext
    split at hstep
    · next f _ =>
      obtain rfl := Option.some.inj hstep
      refine hnext (.draining f) (State.posts_interrupt _ k) ?_ (Nat.lt_succ_self _) rfl ?_
      · have hsame := State.stages_interrupt { s with admission := s.admission.cancel l.source (.fault f) } k
        rw [show s.stages = _ from hsame.symm]
        exact State.stages_updateLevel_stage _ k fun _ => ⟨rfl, rfl⟩
      · exact State.visits_interrupt _ k
    · split at hstep
      · split at hstep
        · exact hclose _ Nat.two_pos (Option.some.inj hstep).symm
        · exact hclose _ Nat.two_pos (Option.some.inj hstep).symm
      · cases hstep

theorem step (h : Measured env ids width budget s) (hbounded : env.files.Bounded ids width) {a : Actor}
    (hstep : s.step? env a = some s') : 0 < budget ∧ Measured env ids width (budget - 1) s' := by
  cases a with
  | task i =>
    obtain ⟨t, ht, hstep⟩ := Option.bind_eq_some_iff.mp hstep
    exact h.task hbounded ht hstep
  | level k =>
    obtain ⟨l, hl, hstep⟩ := Option.bind_eq_some_iff.mp hstep
    exact h.level hl hstep

theorem steps (hbounded : env.files.Bounded ids width) {n : Nat} (hsteps : State.Steps env n s s') :
    ∀ {budget : Nat}, Measured env ids width budget s →
      n ≤ budget ∧ Measured env ids width (budget - n) s' := by
  induction hsteps with
  | refl => exact fun h => ⟨Nat.zero_le _, h⟩
  | cons hstep _ ih =>
    intro budget h
    obtain ⟨hpos, hnext⟩ := h.step hbounded hstep
    obtain ⟨hle, hlast⟩ := ih hnext
    refine ⟨by omega, ?_⟩
    rwa [Nat.sub_sub, Nat.add_comm] at hlast

/-- What a walk of some paths may cost. -/
theorem start (env : Environment σ) (caller : Caller σ) (paths : List Path) (ids : Finset Text)
    (width : Nat) :
    Measured env ids width (14 * paths.length + 2 + (14 * width + 16) * ids.card)
      (State.start env caller paths) := by
  have hposts := State.posts_start env caller paths
  have hstages := State.stages_start env caller paths
  have hcount := State.length_visits_le env paths
  refine ⟨?_, nofun, List.nodup_nil, ?_, ?_⟩
  · intro t ht
    obtain ⟨v, hv, rfl⟩ := List.mem_map.mp ht
    obtain ⟨_, _, p, _, hp⟩ := State.mem_visits hv
    exact ⟨p, hp⟩
  · have houter : ((State.start env caller paths).tasks.map (·.visit.outer.length)).sum = 0 := by
      apply List.sum_eq_zero
      intro n hn
      obtain ⟨t, ht, rfl⟩ := List.mem_map.mp hn
      obtain ⟨v, hv, rfl⟩ := List.mem_map.mp ht
      rw [(State.mem_visits hv).1]
      rfl
    unfold State.recursions
    rw [houter, hposts, List.map_replicate, List.sum_replicate]
    exact Nat.le_refl 1
  · have hspare : spare width ids ([] : List Text) = (14 * width + 16) * ids.card := by
      unfold spare
      rw [List.toFinset_nil, Finset.sdiff_empty]
    rw [hposts, hstages, List.map_replicate, List.sum_replicate]
    change _ + _ + spare width ids [] ≤ _
    rw [hspare]
    simp only [Phase.weight, Stage.weight, smul_eq_mul, List.map_cons, List.map_nil, List.sum_cons,
      List.sum_nil]
    omega

end Measured

end Walk

end TreeCensus
