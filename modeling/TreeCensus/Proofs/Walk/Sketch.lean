import TreeCensus.Proofs.Walk.CallingOff
import TreeCensus.Proofs.Walk.Identity

/-!
# Sketches of a walk

In a run in which no call fails and nobody is called off, all that matters of a task is where it is and
what it is up to: whether it has looked at its place, what it has found there, for which level it waits,
or which tally it is about to add. A sketch keeps this, the totals of the levels and what was visited; the
pool, the sources, the handlers and the log are left out of it. Each step of such a run makes a few
strokes on the sketch, so what every stroke keeps holds in every such run.
-/

namespace TreeCensus.Walk

set_option autoImplicit false

variable {σ : Type}

/-- What a task is up to. -/
inductive Stance
  /-- The place of the visit has not been looked at. -/
  | ahead
  /-- This was found there, and it is new. -/
  | found (i : FileInfo)
  /-- The same, and a level below is waited for. -/
  | awaits (level : Nat) (i : FileInfo)
  /-- The item has come to a tally, which is to be added to the total of its level. -/
  | made (t : Tally)
  | finished

def Job.stance : Job → Stance
  | info => .ahead
  | target i | entries i => .found i
  | report _ t => .made t

def Phase.stance : Phase → Stance
  | fresh => .ahead
  | queued _ job | calling job | consulting job _ => job.stance
  | logging _ | ended _ => .finished
  | descending k i => .awaits k i

def Outcome.stance : Outcome → Stance
  | «over» _ => .finished
  | counted _ t => .made t

def Cursor.stance : Cursor → Stance
  | conclude _ | log _ => .finished
  | accept t | onReply _ t _ | stop _ t _ | report _ t => .made t
  | seek job | begin job | answer job | onAnswer job _ _ | consult job _ | offer job _ => job.stance
  | follow o => o.stance
  | enter i | onTarget i _ | onEntries i _ => .found i
  | onInfo _ => .ahead
  | giveBack next => next.stance

structure Sketch where
  visited : List Text
  /-- The total and the stage of each level. -/
  levels : List (Tally × Stage)
  /-- The level and the visit of each task, and what it is up to. -/
  tasks : List (Nat × Visit × Stance)

namespace Sketch

variable (w : Sketch)

def set (i : Nat) (stance : Stance) : Sketch :=
  { w with tasks := w.tasks.modify i fun t => (t.1, t.2.1, stance) }

/-- A task goes on to visit another place. -/
def move (i : Nat) (visit : Visit) : Sketch :=
  { w with tasks := w.tasks.modify i fun t => (t.1, visit, t.2.2) }

def meet (id : Text) : Sketch := { w with visited := id :: w.visited }

/-- A level for some visits is opened. -/
def openLevel (visits : List Visit) : Sketch :=
  { w with
    levels := w.levels ++ [(.zero, .running)]
    tasks := w.tasks ++ visits.map fun v => (w.levels.length, v, .ahead) }

def addTotal (k : Nat) (t : Tally) : Sketch :=
  { w with levels := w.levels.modify k fun l => (l.1.add t, l.2) }

def close (k : Nat) : Sketch :=
  { w with levels := w.levels.modify k fun l => (l.1, .closed (.ok l.1)) }

@[simp] theorem set_set (i : Nat) (a b : Stance) : (w.set i a).set i b = w.set i b := by
  unfold set
  dsimp only
  rw [List.modify_modify_eq]
  rfl

theorem set_meet (i : Nat) (id : Text) (a b : Stance) :
    ((w.set i a).meet id).set i b = (w.meet id).set i b := set_set (w.meet id) i a b

theorem set_addTotal (i k : Nat) (t : Tally) (a b : Stance) :
    ((w.set i a).addTotal k t).set i b = (w.addTotal k t).set i b := set_set (w.addTotal k t) i a b

theorem set_move (i : Nat) (visit : Visit) (a b : Stance) :
    ((w.set i a).move i visit).set i b = (w.move i visit).set i b := by
  unfold move set
  dsimp only
  rw [List.modify_modify_eq, List.modify_modify_eq, List.modify_modify_eq]
  rfl

theorem set_openLevel {i : Nat} (h : i < w.tasks.length) (visits : List Visit) (a b : Stance) :
    ((w.set i a).openLevel visits).set i b = (w.openLevel visits).set i b := by
  unfold openLevel set
  dsimp only
  rw [modify_append (by rwa [List.length_modify]), List.modify_modify_eq, modify_append h]
  rfl

@[simp] theorem length_tasks_set (i : Nat) (stance : Stance) : (w.set i stance).tasks.length = w.tasks.length :=
  List.length_modify ..

@[simp] theorem length_tasks_move (i : Nat) (visit : Visit) : (w.move i visit).tasks.length = w.tasks.length :=
  List.length_modify ..

@[simp] theorem length_tasks_openLevel (visits : List Visit) :
    (w.openLevel visits).tasks.length = w.tasks.length + visits.length := by
  unfold openLevel
  rw [List.length_append, List.length_map]

@[simp] theorem length_levels_openLevel (visits : List Visit) :
    (w.openLevel visits).levels.length = w.levels.length + 1 := List.length_append

@[simp] theorem length_levels_addTotal (k : Nat) (t : Tally) :
    (w.addTotal k t).levels.length = w.levels.length := List.length_modify ..

@[simp] theorem length_levels_close (k : Nat) : (w.close k).levels.length = w.levels.length :=
  List.length_modify ..

/-- A level was there before, or it is the one that is opened. -/
theorem level_openLevel {w : Sketch} (visits : List Visit) {j : Nat} {l : Tally × Stage}
    (h : (w.openLevel visits).levels[j]? = some l) :
    w.levels[j]? = some l ∨ j = w.levels.length ∧ l = (.zero, .running) :=
  getElem?_concat_cases h

/-- Nothing changes if the task is up to this anyway. -/
theorem set_self {w : Sketch} {i k : Nat} {v : Visit} {stance : Stance}
    (h : w.tasks[i]? = some (k, v, stance)) : w.set i stance = w := by
  unfold set
  rw [modify_of_eq_self h rfl]

theorem getElem?_set {w : Sketch} {i k : Nat} {v : Visit} {stance : Stance}
    (h : w.tasks[i]? = some (k, v, stance)) (stance' : Stance) :
    (w.set i stance').tasks[i]? = some (k, v, stance') := by
  unfold set
  dsimp only
  rw [List.getElem?_modify_eq, h]
  rfl

end Sketch

def View.sketch (v : View) : Sketch :=
  ⟨v.visited, v.levels, v.tasks.map fun t => (t.1, t.2.1, t.2.2.stance)⟩

def State.sketch (s : State σ) : Sketch := s.view.sketch

namespace State

variable (s : State σ)

theorem sketch_of_view {s s' : State σ} (h : s'.view = s.view) : s'.sketch = s.sketch :=
  congrArg View.sketch h

theorem sketch_setPhase (i : Nat) (phase : Phase) :
    (s.setPhase i phase).sketch = s.sketch.set i phase.stance := by
  unfold sketch
  rw [view_setPhase]
  unfold View.setPhase View.sketch Sketch.set
  dsimp only
  congr 1
  exact map_modify (h := fun t : Nat × Visit × Stance => (t.1, t.2.1, phase.stance)) (fun _ => rfl) _ i

theorem sketch_move (i : Nat) (visit : Visit) :
    (s.updateTask i fun t => { t with visit }).sketch = s.sketch.move i visit := by
  unfold sketch
  rw [view_move]
  unfold View.sketch Sketch.move
  dsimp only
  congr 1
  exact map_modify (h := fun t : Nat × Visit × Stance => (t.1, visit, t.2.2)) (fun _ => rfl) _ i

theorem sketch_addTotal (k : Nat) (t : Tally) :
    (s.updateLevel k fun l => { l with total := l.total.add t }).sketch = s.sketch.addTotal k t := by
  unfold sketch
  rw [view_addTotal]
  rfl

theorem sketch_openLevel (env : Environment σ) (links : List Nat) (depth : Nat) (priority : Priority)
    (paths : List Path) :
    (s.openLevel env links depth priority paths).sketch = s.sketch.openLevel (visits env paths) := by
  unfold sketch
  rw [view_openLevel]
  unfold View.sketch Sketch.openLevel
  dsimp only
  rw [List.map_append, List.map_map]
  rfl

theorem getElem?_sketch {s : State σ} {i : Nat} {t : Task} (h : s.tasks[i]? = some t) :
    s.sketch.tasks[i]? = some (t.level, t.visit, t.phase.stance) := by
  unfold sketch view View.sketch
  dsimp only
  rw [List.getElem?_map, List.getElem?_map, h]
  rfl

theorem exists_of_sketch {s : State σ} {i : Nat} {x : Nat × Visit × Stance}
    (h : s.sketch.tasks[i]? = some x) :
    ∃ t, s.tasks[i]? = some t ∧ x = (t.level, t.visit, t.phase.stance) := by
  unfold sketch view View.sketch at h
  dsimp only at h
  rw [List.getElem?_map, List.getElem?_map, Option.map_map] at h
  obtain ⟨t, ht, rfl⟩ := Option.map_eq_some_iff.mp h
  exact ⟨t, ht, rfl⟩

theorem level_sketch {s : State σ} {k : Nat} {l : Level} (h : s.levels[k]? = some l) :
    s.sketch.levels[k]? = some (l.total, l.stage) := by
  unfold sketch view View.sketch
  dsimp only
  rw [List.getElem?_map, h]
  rfl

end State

/-- The place to which a link at a place leads. -/
def Environment.behind (env : Environment σ) (p : Path) (target : Text) : Path :=
  Path.resolve env.files.cwd (Path.under (Path.directory p) target)

/-- What was found at a place leads no further. -/
inductive Environment.Ends (env : Environment σ) (p : Path) (i : FileInfo) : Prop
  | plain (kind : i.kind = .file ∨ i.kind = .other)
  | link (kind : i.kind = .link) (nowhere : env.options.walkLinks = true → env.files.target p = .ok [])
  | directory (kind : i.kind = .directory) (empty : env.files.entries p = .ok [])

/-- What a task or a level does to the sketch. -/
inductive Sketch.Stroke (env : Environment σ) (w : Sketch) : Actor → Sketch → Prop
  | skip {i k : Nat} {v : Visit} {found : FileInfo} (task : w.tasks[i]? = some (k, v, .ahead))
      (info : env.files.info v.place = .ok found)
      (known : found.kind = .file ∧ v.verdict ≠ .included ∨ found.identity v.place ∈ w.visited) :
      Stroke env w (.task i) (w.set i (unwind v.verdict none v.outer).stance)
  | meet {i k : Nat} {v : Visit} {found : FileInfo} (task : w.tasks[i]? = some (k, v, .ahead))
      (info : env.files.info v.place = .ok found)
      (counts : ¬ (found.kind = .file ∧ v.verdict ≠ .included))
      (new : found.identity v.place ∉ w.visited) :
      Stroke env w (.task i) ((w.meet (found.identity v.place)).set i (.found found))
  | settle {i k : Nat} {v : Visit} {found : FileInfo} (task : w.tasks[i]? = some (k, v, .found found))
      (ends : env.Ends v.place found) :
      Stroke env w (.task i) (w.set i (Walk.settle v.verdict v.outer found found.tally).stance)
  | follow {i k : Nat} {v : Visit} {found : FileInfo} {target : Text}
      (task : w.tasks[i]? = some (k, v, .found found)) (kind : found.kind = .link)
      (walks : env.options.walkLinks = true) (reads : env.files.target v.place = .ok target)
      (leads : target ≠ []) :
      Stroke env w (.task i)
        ((w.move i { v with place := env.behind v.place target, outer := found :: v.outer }).set i .ahead)
  | descend {i k : Nat} {v : Visit} {found : FileInfo} {names : List Text}
      (task : w.tasks[i]? = some (k, v, .found found)) (kind : found.kind = .directory)
      (entries : env.files.entries v.place = .ok names) (some : names ≠ []) :
      Stroke env w (.task i) ((w.openLevel (State.visits env (names.map (Path.under v.name)))).set i
        (.awaits w.levels.length found))
  | resume {i k j : Nat} {v : Visit} {found : FileInfo} {sum total : Tally}
      (task : w.tasks[i]? = some (k, v, .awaits j found))
      (closed : w.levels[j]? = some (sum, .closed (.ok total))) :
      Stroke env w (.task i) (w.set i (Walk.settle v.verdict v.outer found total).stance)
  | accept {i k : Nat} {v : Visit} {t : Tally} (task : w.tasks[i]? = some (k, v, .made t)) :
      Stroke env w (.task i) ((w.addTotal k t).set i .finished)
  | close {k : Nat} {total : Tally} (level : w.levels[k]? = some (total, .running))
      (ended : ∀ t ∈ w.tasks, t.1 = k → t.2.2 = .finished) : Stroke env w (.level k) (w.close k)

def Sketch.Strokes (env : Environment σ) (a : Actor) : Sketch → Sketch → Prop :=
  Relation.ReflTransGen fun w w' => Sketch.Stroke env w a w'

/-- No fault comes up here, and the path handler accepts what it is told. -/
def Cursor.Smooth : Cursor → Prop
  | onAnswer _ _ _ | consult _ _ | offer _ _ => False
  | onReply _ _ response => response = .ok true
  | _ => True

/-- The path handler has given an answer of some kind. -/
def Cursor.Replies (fit : PathReply → Prop) : Cursor → Prop
  | stop _ _ reply => fit reply
  | giveBack next => next.Replies fit
  | _ => True

theorem Cursor.replies_forgone (fit : PathReply → Prop) (t : Task) (job : Job) : (job.forgone t).Replies fit := by
  cases job <;> trivial

theorem Cursor.replies_move {env : Environment σ} {fit : PathReply → Prop}
    (hfit : ∀ handler, env.options.onPath = some handler → ∀ memory call, fit (handler.act memory call).2)
    {i : Nat} {t : Task} {c : Cursor} (hc : c.Replies fit) (s : State σ) :
    (c.move env i t s).Meets (fun _ d _ => d.Replies fit) fun _ => True := by
  cases c with
  | giveBack next =>
    simp only [move]
    split
    · exact hc
    · trivial
  | report info tally =>
    simp only [move]
    cases hhandler : env.options.onPath with
    | none => trivial
    | some handler => exact hfit handler hhandler _ _
  | onAnswer job f answer =>
    cases answer with
    | error g => trivial
    | ok taken =>
      simp only [move]
      split
      · exact replies_forgone fit t job
      · trivial
  | onReply info tally answer => rcases answer with f | _ | _ <;> simp only [move] <;> (try split) <;> trivial
  | begin job => cases job <;> simp only [move] <;> (repeat' split) <;> trivial
  | answer job => cases job <;> simp only [move] <;> (repeat' split) <;> trivial
  | follow o => cases o <;> simp only [move] <;> (repeat' split) <;> trivial
  | _ =>
    simp only [move]
    (repeat' split) <;> trivial

/-- All answers that the path handler can give are of some kind if it has given one. -/
theorem State.Amid.replies {env : Environment σ} {s s₁ : State σ} {i : Nat} {u : Task} {c : Cursor}
    {fit : PathReply → Prop}
    (hfit : ∀ handler, env.options.onPath = some handler → ∀ memory call, fit (handler.act memory call).2)
    (h : s.Amid env i u c s₁) : c.Replies fit := by
  obtain ⟨t, ht⟩ := h.task
  refine (State.along_step (P := fun _ c _ => c.Replies fit) (Q := fun _ => True) ht ?_ ?_).1 u c s₁ h
  · intro c s₁ henters
    cases henters <;> trivial
  · exact fun u c s₁ _ hc => Cursor.replies_move hfit hc s₁

section Grounds

variable (env : Environment σ) (p : Path)

/-- What a job is about has been found where it is. -/
def Job.Grounded : Job → Prop
  | target i => i.kind = .link ∧ env.options.walkLinks = true
  | entries i => i.kind = .directory
  | _ => True

def Phase.Grounded : Phase → Prop
  | queued _ job | calling job => job.Grounded env
  | _ => True

def Cursor.Grounded : Cursor → Prop
  | seek job | begin job | answer job => job.Grounded env
  | onInfo i => env.files.info p = .ok i
  | onTarget i target => i.kind = .link ∧ env.options.walkLinks = true ∧ env.files.target p = .ok target
  | onEntries i names => i.kind = .directory ∧ env.files.entries p = .ok names
  | giveBack next => next.Grounded
  | _ => True

end Grounds

def State.Grounded (env : Environment σ) (s : State σ) : Prop := ∀ t ∈ s.tasks, t.phase.Grounded env

/-- The sketch in the midst of a step of the task `u`. -/
structure Sketching (env : Environment σ) (s₀ : State σ) (i : Nat) (u : Task) (c : Cursor) (s : State σ) :
    Prop where
  own : s.tasks[i]?.map (fun t => (t.level, t.visit)) = some (u.level, u.visit)
  others : ∀ j t, j ≠ i → s.tasks[j]? = some t → t.phase.Grounded env
  strokes : Sketch.Strokes env (.task i) s₀.sketch (s.sketch.set i c.stance)
  grounded : c.Grounded env u.visit.place

/-- The end of such a step. -/
def Sketched (env : Environment σ) (s₀ : State σ) (a : Actor) (s : State σ) : Prop :=
  Sketch.Strokes env a s₀.sketch s.sketch ∧ s.Grounded env

namespace Sketching

variable {env : Environment σ} {s₀ s s' : State σ} {i : Nat} {u : Task} {c d : Cursor}

theorem task (h : Sketching env s₀ i u c s) :
    (s.sketch.set i c.stance).tasks[i]? = some (u.level, u.visit, c.stance) := by
  obtain ⟨t, ht, heq⟩ := Option.map_eq_some_iff.mp h.own
  obtain ⟨hlevel, hvisit⟩ := Prod.mk.inj heq
  rw [← hlevel, ← hvisit]
  exact Sketch.getElem?_set (State.getElem?_sketch ht) _

/-- The task goes on with a stroke or without one, and nothing else happens to the tasks. -/
theorem next (h : Sketching env s₀ i u c s) (htasks : s'.tasks = s.tasks)
    (hstroke : Sketch.Strokes env (.task i) (s.sketch.set i c.stance) (s'.sketch.set i d.stance))
    (hd : d.Grounded env u.visit.place) : Sketching env s₀ i u d s' := by
  refine ⟨?_, ?_, h.strokes.trans hstroke, hd⟩
  · rw [htasks]
    exact h.own
  · rw [htasks]
    exact h.others

theorem still (h : Sketching env s₀ i u c s) (hview : s'.view = s.view) (htasks : s'.tasks = s.tasks)
    (hstance : d.stance = c.stance) (hd : d.Grounded env u.visit.place) : Sketching env s₀ i u d s' := by
  refine h.next htasks ?_ hd
  rw [State.sketch_of_view hview, hstance]
  exact .refl

/-- The task goes on with the outcome of a stroke. -/
theorem stroke (h : Sketching env s₀ i u c s) (hd : d.Grounded env u.visit.place)
    (hstroke : Sketch.Stroke env (s.sketch.set i c.stance) (.task i)
      ((s.sketch.set i c.stance).set i d.stance)) : Sketching env s₀ i u d s := by
  rw [Sketch.set_set] at hstroke
  exact h.next rfl (.single hstroke) hd

theorem rest (h : Sketching env s₀ i u c s) (htasks : s'.tasks = s.tasks) (hsketch : s'.sketch = s.sketch)
    {phase : Phase} (hstance : phase.stance = c.stance) (hphase : phase.Grounded env) :
    Sketched env s₀ (.task i) (s'.setPhase i phase) := by
  refine ⟨?_, ?_⟩
  · rw [State.sketch_setPhase, hsketch, hstance]
    exact h.strokes
  · intro t ht
    change t ∈ s'.tasks.modify i _ at ht
    rw [htasks] at ht
    obtain ⟨j, hj⟩ := List.getElem?_of_mem ht
    rcases modify_cases hj with ⟨hne, hj⟩ | ⟨_, a, _, rfl⟩
    · exact h.others j t hne hj
    · exact hphase

/-- What was found leads no further. -/
theorem settle (h : Sketching env s₀ i u c s) {found : FileInfo} (hstance : c.stance = .found found)
    (hends : env.Ends u.visit.place found) :
    Sketching env s₀ i u (.follow (Walk.settle u.visit.verdict u.visit.outer found found.tally)) s := by
  have htask := h.task
  refine h.stroke trivial ?_
  rw [hstance] at htask ⊢
  exact .settle htask hends

theorem meet {found : FileInfo} (h : Sketching env s₀ i u (.onInfo found) s)
    (hcounts : ¬ (found.kind = .file ∧ u.visit.verdict ≠ .included))
    (hnew : found.identity u.visit.place ∉ s.visited) :
    Sketching env s₀ i u (.enter found) { s with visited := found.identity u.visit.place :: s.visited } := by
  refine h.next rfl (.single ?_) trivial
  have hstroke : Sketch.Stroke env _ _ _ := .meet h.task h.grounded hcounts hnew
  rw [Sketch.set_meet] at hstroke
  exact hstroke

theorem accept {t : Tally} (h : Sketching env s₀ i u (.accept t) s) :
    Sketching env s₀ i u (.log t) (s.updateLevel u.level fun l => { l with total := l.total.add t }) := by
  refine h.next rfl (.single ?_) trivial
  have hstroke : Sketch.Stroke env _ _ _ := .accept h.task
  rw [Sketch.set_addTotal, ← State.sketch_addTotal] at hstroke
  exact hstroke

theorem goOn {found : FileInfo} {target : Text} (h : Sketching env s₀ i u (.onTarget found target) s)
    (hleads : target ≠ []) {visit : Visit}
    (hvisit : visit = { u.visit with place := env.behind u.visit.place target, outer := found :: u.visit.outer }) :
    Sketching env s₀ i { u with visit } (.seek .info) (s.updateTask i fun t => { t with visit }) := by
  obtain ⟨hkind, hwalks, htarget⟩ := h.grounded
  refine ⟨?_, ?_, h.strokes.tail ?_, trivial⟩
  · obtain ⟨t, ht, heq⟩ := Option.map_eq_some_iff.mp h.own
    change (s.tasks.modify i _)[i]?.map _ = _
    rw [List.getElem?_modify_eq, ht]
    exact congrArg some (Prod.ext (Prod.mk.inj heq).1 rfl)
  · intro j t hj ht
    change (s.tasks.modify i _)[j]? = some t at ht
    rw [List.getElem?_modify_ne _ _ (Ne.symm hj)] at ht
    exact h.others j t hj ht
  · have hstroke : Sketch.Stroke env _ _ _ := .follow h.task hkind hwalks htarget hleads
    rw [Sketch.set_move, ← hvisit, ← State.sketch_move] at hstroke
    exact hstroke

/-- The task waits for a level of what is in its directory. -/
theorem descend {found : FileInfo} {names : List Text} (h : Sketching env s₀ i u (.onEntries found names) s)
    (hsome : names ≠ []) (links : List Nat) (depth : Nat) (priority : Priority) :
    Sketched env s₀ (.task i) ((s.openLevel env links depth priority (names.map (Path.under u.visit.name))).setPhase
      i (.descending s.levels.length found)) := by
  obtain ⟨hkind, hentries⟩ := h.grounded
  refine ⟨h.strokes.tail ?_, ?_⟩
  · have hlt : i < s.sketch.tasks.length := by
      obtain ⟨t, ht, _⟩ := Option.map_eq_some_iff.mp h.own
      exact (List.getElem?_eq_some_iff.mp (State.getElem?_sketch ht)).1
    have hlength : s.levels.length = s.sketch.levels.length := (List.length_map _).symm
    have hstroke : Sketch.Stroke env _ _ _ := .descend h.task hkind hentries hsome
    rw [Sketch.set_openLevel _ hlt] at hstroke
    rw [State.sketch_setPhase, State.sketch_openLevel, hlength]
    exact hstroke
  · intro t ht
    change t ∈ (s.tasks ++ _).modify i _ at ht
    obtain ⟨j, hj⟩ := List.getElem?_of_mem ht
    rcases modify_cases hj with ⟨hne, hj⟩ | ⟨_, a, _, rfl⟩
    · rcases getElem?_append_cases hj with hj | ⟨_, hnew⟩
      · exact h.others j t hne hj
      · obtain ⟨v, _, rfl⟩ := List.mem_map.mp hnew
        trivial
    · trivial

/-- Every move of a task that meets no fault and does not end with one is a stroke or none. -/
theorem move (h : Sketching env s₀ i u c s) (hsmooth : c.Smooth) (hfine : ¬ c.Sinks) :
    (c.move env i u s).Meets (fun v d s' => d.Smooth → ¬ d.Sinks → Sketching env s₀ i v d s')
      (Sketched env s₀ (.task i)) := by
  cases c with
  | conclude result =>
    cases result with
    | error f => exact absurd trivial hfine
    | ok share => exact h.rest rfl rfl rfl trivial
  | log tally =>
    simp only [Cursor.move]
    split
    · exact fun _ _ => h.still rfl rfl rfl trivial
    · split
      · split
        · exact h.rest rfl rfl rfl trivial
        · exact fun _ _ => h.still (State.view_note _ rfl rfl) rfl rfl trivial
      · exact fun _ _ => h.still rfl rfl rfl trivial
  | accept tally => exact fun _ _ => h.accept
  | seek job =>
    simp only [Cursor.move]
    split
    · exact fun _ hsinks => absurd trivial hsinks
    · exact fun _ _ => h.still rfl rfl rfl h.grounded
    · exact h.rest rfl rfl rfl h.grounded
  | follow o =>
    cases o with
    | «over» result => exact fun _ _ => h.still rfl rfl rfl trivial
    | counted info tally =>
      simp only [Cursor.move]
      split <;> exact fun _ _ => h.still rfl rfl rfl trivial
  | enter found =>
    simp only [Cursor.move]
    split
    · next hkind =>
      split
      · next hwalks => exact fun _ _ => h.still rfl rfl rfl ⟨hkind, hwalks⟩
      · next hstays => exact fun _ _ => h.settle rfl (.link hkind fun hwalks => absurd hwalks hstays)
    · next hkind => exact fun _ _ => h.still rfl rfl rfl hkind
    · next hkind => exact fun _ _ => h.settle rfl (.plain (.inl hkind))
    · next hkind => exact fun _ _ => h.settle rfl (.plain (.inr hkind))
  | onInfo found =>
    have hinfo : env.files.info u.visit.place = .ok found := h.grounded
    simp only [Cursor.move]
    split
    · next hexcluded => exact fun _ _ => h.stroke trivial (.skip h.task hinfo (.inl hexcluded))
    · next hcounts =>
      split
      · next hknown => exact fun _ _ => h.stroke trivial (.skip h.task hinfo (.inr hknown))
      · next hnew => exact fun _ _ => h.meet hcounts hnew
  | onTarget found target =>
    obtain ⟨hkind, hwalks, htarget⟩ := h.grounded
    simp only [Cursor.move]
    split
    · next hnowhere =>
      rw [hnowhere] at htarget
      exact fun _ _ => h.settle rfl (.link hkind fun _ => htarget)
    · next hleads => exact fun _ _ => h.goOn hleads rfl
  | onEntries found names =>
    obtain ⟨hkind, hentries⟩ := h.grounded
    simp only [Cursor.move]
    split
    · next hempty =>
      rw [hempty] at hentries
      exact fun _ _ => h.settle rfl (.directory hkind hentries)
    · next hsome => exact h.descend hsome _ _ _
  | giveBack next =>
    simp only [Cursor.move]
    split
    · exact fun _ _ => h.still rfl rfl rfl h.grounded
    · exact fun _ hsinks => absurd trivial hsinks
  | onAnswer job f response => exact hsmooth.elim
  | consult job f => exact hsmooth.elim
  | offer job f => exact hsmooth.elim
  | onReply info tally response =>
    obtain rfl : response = .ok true := hsmooth
    exact fun _ _ => h.still rfl rfl rfl trivial
  | stop info tally reply =>
    intro _ _
    exact h.still (by split <;> rfl) (by split <;> rfl) rfl trivial
  | report info tally =>
    simp only [Cursor.move]
    split <;> exact fun _ _ => h.still rfl rfl rfl trivial
  | begin job =>
    cases job with
    | report info tally =>
      simp only [Cursor.move]
      split
      · exact fun _ _ => h.still rfl rfl rfl trivial
      · split
        · exact h.rest rfl rfl rfl trivial
        · intro _ _
          exact h.next rfl .refl trivial
    | _ => exact h.rest rfl rfl rfl h.grounded
  | answer job =>
    cases job with
    | info =>
      simp only [Cursor.move]
      split
      · next hinfo => exact fun _ _ => h.still rfl rfl rfl hinfo
      · exact fun hoffers => hoffers.elim
    | target found =>
      simp only [Cursor.move]
      split
      · next htarget => exact fun _ _ => h.still rfl rfl rfl ⟨h.grounded.1, h.grounded.2, htarget⟩
      · exact fun hoffers => hoffers.elim
    | entries found =>
      simp only [Cursor.move]
      split
      · next hentries => exact fun _ _ => h.still rfl rfl rfl ⟨h.grounded, hentries⟩
      · exact fun hoffers => hoffers.elim
    | report info tally => exact fun _ _ => h.still rfl rfl rfl trivial

/-- Where a step begins that is not bound to fail, nothing but the end of a level has come about. -/
theorem enter (ht : s₀.tasks[i]? = some u) (hgrounded : s₀.Grounded env) (henters : s₀.Enters env u c s)
    (hsmooth : c.Smooth) (hfine : ¬ c.Sinks) : Sketching env s₀ i u c s := by
  have hphase := hgrounded u (List.mem_of_getElem? ht)
  have hbegins : ∀ {d : Cursor} {s₁ : State σ}, s₁.view = s₀.view → s₁.tasks = s₀.tasks →
      Sketch.Strokes env (.task i) s₀.sketch (s₀.sketch.set i d.stance) → d.Grounded env u.visit.place →
      Sketching env s₀ i u d s₁ := by
    intro d s₁ hview htasks hstrokes hd
    refine ⟨?_, ?_, ?_, hd⟩
    · rw [htasks, ht]
      rfl
    · rw [htasks]
      exact fun j t _ hj => hgrounded t (List.mem_of_getElem? hj)
    · rw [State.sketch_of_view hview]
      exact hstrokes
  have hsame : ∀ {stance : Stance}, stance = u.phase.stance →
      Sketch.Strokes env (.task i) s₀.sketch (s₀.sketch.set i stance) := by
    rintro stance rfl
    rw [Sketch.set_self (State.getElem?_sketch ht)]
    exact .refl
  cases henters with
  | ends => exact absurd trivial hfine
  | drops => exact absurd trivial hfine
  | starts phase =>
    rw [phase] at hsame
    exact hbegins rfl rfl (hsame rfl) trivial
  | refused => exact absurd trivial hfine
  | called => exact absurd trivial hfine
  | admitted phase _ _ =>
    rw [phase] at hsame hphase
    exact hbegins rfl rfl (hsame rfl) hphase
  | answers phase _ =>
    rw [phase] at hsame hphase
    exact hbegins rfl rfl (hsame rfl) hphase
  | consults => exact hsmooth.elim
  | logged phase _ =>
    rw [phase] at hsame
    exact hbegins rfl rfl (hsame rfl) trivial
  | failed => exact absurd trivial hfine
  | @resumes k found total phase closed =>
    refine hbegins rfl rfl (.single ?_) trivial
    have htask := State.getElem?_sketch ht
    rw [phase] at htask
    cases hlevel : s₀.levels[k]? with
    | none =>
      unfold State.level at closed
      rw [hlevel] at closed
      cases closed
    | some l =>
      rw [s₀.level_of_getElem? hlevel] at closed
      refine @Sketch.Stroke.resume _ _ _ _ _ _ _ _ l.total _ htask ?_
      rw [State.level_sketch hlevel, closed]

end Sketching

section Runs

variable {env : Environment σ} {capacity : Int} {others others₀ : List Pool.Stake} {s s' s₀ : State σ}
  {i k : Nat} {t : Task} {l : Level} {incidents : List Incident}

/-- A walk in which a level has come to a fault is bound to fail. -/
theorem Shared.doomed_close (h : Shared capacity others s) (hl : s.levels[k]? = some l)
    (hopen : l.stage.isClosed = false) (f : Fault) : (s.close k (.error f)).Doomed := by
  have hranks : (s.close k (.error f)).ranks =
      s.ranks.modify k fun r => { r with stage := .closed (.error f) } :=
    map_modify (h := fun r : Rank => { r with stage := .closed (.error f) }) (fun _ => rfl) s.levels k
  have hrank : (s.close k (.error f)).ranks[k]? = some { l.rank with stage := .closed (.error f) } := by
    rw [hranks, List.getElem?_modify_eq, s.rank_of_level k hl]
    rfl
  rcases Nat.eq_zero_or_pos k with rfl | hk
  · exact .top hrank (.inr ⟨f, rfl⟩)
  · obtain ⟨p, hp, _, hawaits⟩ := h.nested.awaited k l.source l.stage hk (State.stages_of_level hl) hopen
    obtain ⟨i, hi⟩ := List.getElem?_of_mem hp
    exact .level hrank (.inr ⟨f, rfl⟩) trivial hi hawaits

/-- A level of a walk that is not bound to fail closes with its total. -/
theorem Shared.closes (h : Shared capacity others s) (hl : s.levels[k]? = some l)
    (hstep : s.stepLevel? k l = some s') (hfine : ¬ s'.Doomed) :
    s' = s.close k (.ok l.total) ∧ l.stage = .running ∧ s.allEnded k = true := by
  have hfate := State.fate hstep
  cases hfate with
  | @fails f runs failure =>
    have hnested := h.nested
    rw [State.posts_eq, State.stages_eq] at hnested
    rw [← State.posts_eq] at hnested
    have hdoomed := Doomed.of_failure hnested (s.rank_of_level k hl)
      (by rw [show l.rank.stage = _ from runs]; rfl)
      (by rw [show l.rank.failure = _ from failure]; nofun) s.admission
    refine absurd (State.Fate.doomed hl (.fails runs failure) ?_) hfine
    exact hdoomed.stays (fun _ r hr hf => ⟨r, hr, hf⟩) (fun _ _ _ hp => ⟨trivial, hp⟩)
      fun _ _ _ _ _ _ _ _ => id
  | @closes result goesOn ended comes =>
    cases comes with
    | told => exact absurd (h.doomed_close hl goesOn _) hfine
    | fault => exact absurd (h.doomed_close hl goesOn _) hfine
    | total runs _ _ => exact ⟨rfl, runs, ended⟩

theorem Shared.sketched_level (h : Shared capacity others s) (hl : s.levels[k]? = some l)
    (hstep : s.stepLevel? k l = some s') (hfine : ¬ s'.Doomed) (hgrounded : s.Grounded env) :
    Sketched env s (.level k) s' := by
  obtain ⟨rfl, runs, ended⟩ := h.closes hl hstep hfine
  refine ⟨.single ?_, hgrounded⟩
  have hclose : (s.close k (.ok l.total)).sketch = s.sketch.close k := by
    change Sketch.mk _ ((s.levels.modify k _).map _) _ = Sketch.mk _ (s.sketch.levels.modify k _) _
    congr 1
    exact map_modify_at hl rfl
  rw [hclose]
  refine @Sketch.Stroke.close _ _ _ _ l.total ?_ ?_
  · rw [State.level_sketch hl, runs]
  · intro x hx hlevel
    obtain ⟨j, hj⟩ := List.getElem?_of_mem hx
    obtain ⟨t, ht, rfl⟩ := State.exists_of_sketch hj
    have hended := List.all_eq_true.mp ended t (List.mem_of_getElem? ht)
    have : t.phase.isEnded = true := by simpa [show t.level = k from hlevel] using hended
    cases hphase : t.phase with
    | ended => rfl
    | _ => simp [hphase, Phase.isEnded] at this

/-- No task of a walk that is not bound to fail ends its step with a fault. -/
theorem Shared.not_sinks (h : Shared capacity others s) (ht : s.tasks[i]? = some t)
    (hstep : s.stepTask? env i t = some s') (hfine : ¬ s'.Doomed) {u : Task} {c : Cursor} {s₁ : State σ}
    (hamid : s.Amid env i u c s₁) : ¬ c.Sinks := by
  intro hsinks
  have hdoomed := h.doomed_run ht hamid (.inr hsinks)
  rw [hamid.run_eq ht hstep] at hdoomed
  exact hfine hdoomed

/-- What every move keeps unless it ends with a fault holds all along a step of a walk that is not bound to
fail. -/
theorem Shared.along_fine {P : Task → Cursor → State σ → Prop} {Q : State σ → Prop} (h : Shared capacity others s)
    (ht : s.tasks[i]? = some t) (hstep : s.stepTask? env i t = some s') (hfine : ¬ s'.Doomed)
    (henter : ∀ c s₁, s.entry? env t = some (c, s₁) → ¬ c.Sinks → P t c s₁)
    (hmove : ∀ u c s₁, s.Amid env i u c s₁ → ¬ c.Sinks → P u c s₁ →
      (c.move env i u s₁).Meets (fun v d s₂ => ¬ d.Sinks → P v d s₂) Q) :
    (∀ u c s₁, s.Amid env i u c s₁ → P u c s₁) ∧ Q s' := by
  have hup := fun {u : Task} {c : Cursor} {s₁ : State σ} (hamid : s.Amid env i u c s₁) =>
    h.not_sinks ht hstep hfine hamid
  obtain ⟨halong, hend⟩ := State.along_entry (P := fun u c s₁ => ¬ c.Sinks → P u c s₁) ht henter
    fun u c s₁ hamid hnow => hmove u c s₁ hamid (hup hamid) (hnow (hup hamid))
  exact ⟨fun u c s₁ hamid => halong u c s₁ hamid (hup hamid), hend s' hstep⟩

/-- What every step keeps of a walk that is not bound to fail is kept by many. -/
theorem State.Steps.induct_fine {P : State σ → Prop} {n : Nat} (hsteps : State.Steps env n s s')
    (hshared : Shared capacity others s) (hstep : ∀ a s s', Shared capacity others s →
      s.step? env a = some s' → ¬ s'.Doomed → P s → P s') (hs : P s) (hfine : ¬ s'.Doomed) : P s' := by
  refine (hsteps.induct_shared (P := fun s => ¬ s.Doomed → P s) hshared ?_ fun _ => hs).2 hfine
  intro a s s' hshared hs' hbefore hfine
  exact hstep a s s' hshared hs' hfine (hbefore fun hdoomed => hfine (hshared.doomed_step hs' hdoomed))

/-- A step without faults of a walk that is not bound to fail is made up of strokes. -/
theorem Shared.sketched_step (h : Shared capacity others s) {a : Actor} (hstep : s.step? env a = some s')
    (hsmooth : ∀ i u c s₁, a = .task i → s.Amid env i u c s₁ → c.Smooth) (hfine : ¬ s'.Doomed)
    (hgrounded : s.Grounded env) : Sketched env s a s' := by
  cases a with
  | level k =>
    obtain ⟨l, hl, hstep⟩ := Option.bind_eq_some_iff.mp hstep
    exact h.sketched_level hl hstep hfine hgrounded
  | task i =>
    obtain ⟨t, ht, hstep⟩ := Option.bind_eq_some_iff.mp hstep
    exact (State.along_step
      (P := fun u c s₁ => c.Smooth → ¬ c.Sinks → Sketching env s i u c s₁) ht
      (fun c s₁ henters => Sketching.enter ht hgrounded henters)
      fun u c s₁ hamid hnow =>
        (hnow (hsmooth i u c s₁ rfl hamid) (h.not_sinks ht hstep hfine hamid)).move
          (hsmooth i u c s₁ rfl hamid) (h.not_sinks ht hstep hfine hamid)).2 s' hstep

theorem State.Passes.shared {allowed : Cursor → Prop} (hshared : Shared capacity others₀ s₀)
    (h : s₀.Passes env allowed others₀ incidents s others) : Shared capacity others s := by
  induction h with
  | refl => exact hshared
  | act _ step _ ih => exact ih.step step
  | cancel _ r ih => exact ih.cancel r
  | share _ sharing ih => exact ih.share sharing

/-- What each step keeps of a walk that is not bound to fail holds in each such run, if it does not depend on the
pool and the sources. -/
theorem State.Passes.induct_fine {allowed : Cursor → Prop} {P : List Incident → State σ → Prop}
    (hshared : Shared capacity others₀ s₀) (hstart : P [] s₀)
    (hact : ∀ incidents s others a s', s₀.Passes env allowed others₀ incidents s others →
      s.step? env a = some s' → (∀ i u c s₁, a = .task i → s.Amid env i u c s₁ → allowed c) → ¬ s'.Doomed →
        P incidents s → P (.act a :: incidents) s')
    (hidle : ∀ x incidents s admission, P incidents s → P (x :: incidents) { s with admission })
    (h : s₀.Passes env allowed others₀ incidents s others) (hfine : ¬ s.Doomed) : P incidents s := by
  induction h with
  | refl => exact hstart
  | act before step fine ih =>
    exact hact _ _ _ _ _ before step fine hfine
      (ih fun hdoomed => hfine ((before.shared hshared).doomed_step step hdoomed))
  | cancel _ r ih => exact hidle _ _ _ _ (ih fun hdoomed => hfine (hdoomed.cancel callerToken r))
  | share before sharing ih =>
    exact hidle _ _ _ _ (ih fun hdoomed => hfine ((before.shared hshared).doomed_share hdoomed sharing))

/-- What strokes keep holds in each run without faults that is not bound to fail. -/
theorem State.Passes.induct_sketch {P : List Incident → State σ → Prop} (hshared : Shared capacity others₀ s₀)
    (hgrounded : s₀.Grounded env) (hstart : P [] s₀)
    (hact : ∀ incidents s others a s', s₀.Passes env Cursor.Smooth others₀ incidents s others →
      s.step? env a = some s' → Sketch.Strokes env a s.sketch s'.sketch → P incidents s →
        P (.act a :: incidents) s')
    (hidle : ∀ x incidents s s', s'.sketch = s.sketch → P incidents s → P (x :: incidents) s')
    (h : s₀.Passes env Cursor.Smooth others₀ incidents s others) (hfine : ¬ s.Doomed) : P incidents s := by
  suffices hall : s.Grounded env ∧ P incidents s from hall.2
  refine h.induct_fine (P := fun incidents s => s.Grounded env ∧ P incidents s) hshared ⟨hgrounded, hstart⟩ ?_ ?_
    hfine
  · rintro incidents s others a s' before step fine hfine ⟨hground, hP⟩
    obtain ⟨hstrokes, hground'⟩ := (before.shared hshared).sketched_step step fine hfine hground
    exact ⟨hground', hact _ _ _ _ _ before step hstrokes hP⟩
  · rintro x incidents s admission ⟨hground, hP⟩
    exact ⟨hground, hidle x incidents s _ rfl hP⟩

theorem State.sketch_start (env : Environment σ) (caller : Caller σ) (paths : List Path) :
    (State.start env caller paths).sketch = (Sketch.mk [] [] []).openLevel (visits env paths) := by
  unfold State.start
  rw [sketch_openLevel]
  rfl

theorem State.grounded_start (env : Environment σ) (caller : Caller σ) (paths : List Path) :
    (State.start env caller paths).Grounded env := by
  intro t ht
  obtain ⟨v, _, rfl⟩ := List.mem_map.mp (show t ∈ (visits env paths).map _ from ht)
  trivial

/-- All tasks of a walk that has come back have nothing more to do. -/
theorem Shared.finished (h : Shared capacity others s) (hresult : s.result?.isSome = true) :
    ∀ x ∈ s.sketch.tasks, x.2.2 = .finished := by
  intro x hx
  obtain ⟨j, hj⟩ := List.getElem?_of_mem hx
  obtain ⟨t, ht, rfl⟩ := State.exists_of_sketch hj
  have hended := State.ended_of_result h.nested hresult (List.mem_of_getElem? (State.posts_of_task ht))
  cases hphase : t.phase with
  | ended => rfl
  | _ => simp [hphase, Phase.isEnded] at hended

theorem State.level_of_result {total : Tally} (hresult : s.result? = some (.ok total)) :
    ∃ sum, s.sketch.levels[0]? = some (sum, .closed (.ok total)) := by
  obtain ⟨l, hl, hstage⟩ := topmost_of_result hresult
  exact ⟨l.total, by rw [level_sketch hl, hstage]⟩

/-- A walk in which no fault comes up and which its caller does not cancel, in the path handler or elsewhere,
does not fail. -/
theorem State.Passes.not_fails {caller : Caller σ} {paths : List Path}
    (hpool : Pool.Serves caller.pool others₀) (hsize : 1 ≤ caller.pool.capacity)
    (hlog : ∀ line, env.refusal line = none) (hcancels : ∀ r, .cancel r ∉ incidents)
    (hstops : ∀ handler, env.options.onPath = some handler → ∀ memory call,
      (handler.act memory call).2.stop = none)
    (h : (State.start env caller paths).Passes env Cursor.Smooth others₀ incidents s others) (f : Fault) :
    s.result? ≠ some (.error f) := by
  suffices hall : Plugged caller.pool.capacity others s ∧
      Honest (fun _ => False) s.standings s.ranks s.admission from fun hresult => hall.2.result hresult
  have hproper : ∀ {i : Nat} {u : Task} {c : Cursor} {s s₁ : State σ}, s.Amid env i u c s₁ → c.Smooth →
      c.Proper (fun _ => False) s₁ := by
    intro i u c s s₁ hamid hsmooth
    cases c with
    | onAnswer => exact hsmooth.elim
    | offer => exact hsmooth.elim
    | onReply info tally response =>
      obtain rfl : response = .ok true := hsmooth
      trivial
    | stop info tally reply =>
      intro r hr
      have hreply : (Cursor.stop info tally reply).Replies fun reply => reply.stop = none := hamid.replies hstops
      cases hreply.symm.trans hr
    | _ => trivial
  induction h with
  | refl => exact ⟨.start env paths hpool, .start _ env caller paths⟩
  | act _ step fine ih =>
    obtain ⟨hplugged, hhonest⟩ := ih fun r hr => hcancels r (List.mem_cons_of_mem _ hr)
    refine ⟨hplugged.step step, hhonest.step hplugged hsize ?_ ?_ step⟩
    · intro line f hf
      rw [hlog] at hf
      cases hf
    · exact fun i u c s₁ ha hamid => hproper hamid (fine i u c s₁ ha hamid)
  | cancel _ r _ => exact absurd List.mem_cons_self (hcancels r)
  | share _ sharing ih =>
    obtain ⟨hplugged, hhonest⟩ := ih fun r hr => hcancels r (List.mem_cons_of_mem _ hr)
    exact ⟨hplugged.share sharing, hhonest.share hplugged.toShared sharing⟩

end Runs

end TreeCensus.Walk
