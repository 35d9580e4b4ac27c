import TreeCensus.Proofs.Walk.Equivalence
import TreeCensus.Proofs.Walk.Termination
import TreeCensus.Proofs.Walk.Tolerance

/-!
# What a full traversal meets

A walk that is not disturbed asks about every place that it comes to, and it lists every directory among
them. So in whatever order its tasks make their steps, it makes the same calls and meets the same faults.
-/

namespace TreeCensus.Walk

set_option autoImplicit false

variable {σ : Type}

section Places

variable (plan : Plan) (paths : List Path)

/-- The places that a walk comes to: those that are given and those that directories hold, unless they
are excluded. -/
inductive Plan.Comes : Path → Prop
  | top {v : Visit} (given : v ∈ plan.visits 0 paths) : Comes v.place
  | inside {place : Path} {found : FileInfo} {names : List Text} {v : Visit} (comes : Comes place)
      (info : plan.files.info place = .ok found) (directory : found.kind = .directory)
      (entries : plan.files.entries place = .ok names)
      (holds : v ∈ plan.visits 0 (names.map (Path.under place))) : Comes v.place

/-- The calls that are made in a full traversal, of which `ys` is what comes out. -/
inductive Plan.Call (ys : List Yield) : Event → Prop
  | stated {place : Path} (comes : plan.Comes paths place) : Call ys (.stated place)
  | listed {place : Path} {found : FileInfo} (comes : plan.Comes paths place)
      (info : plan.files.info place = .ok found) (directory : found.kind = .directory) : Call ys (.listed place)
  | reported {c : PathCall} (call : c ∈ Yield.calls ys) : Call ys (.reported c)

/-- What is noted in a walk is such a call as far as the file system is concerned. -/
def Event.Expected : Event → Prop
  | stated place => plan.Comes paths place
  | linkRead _ => False
  | listed place => plan.Comes paths place ∧
    ∃ found, plan.files.info place = .ok found ∧ found.kind = .directory
  | _ => True

end Places

section Search

variable (plan : Plan) (trace : List Event) (places : List Path) (place : Path)

/-- It is known what there is at the place. -/
structure Plan.Seen (found : FileInfo) : Prop where
  stated : .stated place ∈ trace
  info : plan.files.info place = .ok found

/-- The place has been asked about, and what it holds if it is a directory has been listed and is
visited. -/
structure Plan.Searched : Prop where
  stated : .stated place ∈ trace
  listed : ∀ found, plan.files.info place = .ok found → found.kind = .directory → .listed place ∈ trace
  held : ∀ found names, plan.files.info place = .ok found → found.kind = .directory →
    plan.files.entries place = .ok names → ∀ v ∈ plan.visits 0 (names.map (Path.under place)), v.place ∈ places

/-- What is known of a place when a job on it is to be done. -/
def Job.Ready : Job → Prop
  | info => True
  | target _ => False
  | entries found => plan.Seen trace place found ∧ found.kind = .directory
  | report _ _ => plan.Searched trace places place

/-- The same when the call of the job has begun. -/
def Job.Underway : Job → Prop
  | info => .stated place ∈ trace
  | target _ => False
  | entries found => plan.Seen trace place found ∧ found.kind = .directory ∧ .listed place ∈ trace
  | report _ _ => plan.Searched trace places place

def Phase.Known : Phase → Prop
  | fresh => True
  | queued _ job => job.Ready plan trace places place
  | calling job => job.Underway plan trace places place
  | _ => plan.Searched trace places place

def Cursor.Known : Cursor → Prop
  | seek job | begin job => job.Ready plan trace places place
  | answer job => job.Underway plan trace places place
  | enter found | onInfo found => plan.Seen trace place found
  | onTarget _ _ => False
  | onEntries found names => plan.Seen trace place found ∧ found.kind = .directory ∧
    .listed place ∈ trace ∧ plan.files.entries place = .ok names
  | giveBack next => next.Known
  | _ => plan.Searched trace places place

end Search

section Search

variable {plan : Plan} {trace trace' : List Event} {places places' : List Path} {place : Path}
  {found : FileInfo} {f : Fault}

theorem Plan.Seen.mono (h : plan.Seen trace place found) (htrace : trace ⊆ trace') :
    plan.Seen trace' place found := ⟨htrace h.stated, h.info⟩

theorem Plan.Searched.mono (h : plan.Searched trace places place) (htrace : trace ⊆ trace')
    (hplaces : places ⊆ places') : plan.Searched trace' places' place :=
  ⟨htrace h.stated, fun found hinfo hkind => htrace (h.listed found hinfo hkind),
    fun found names hinfo hkind hnames v hv => hplaces (h.held found names hinfo hkind hnames v hv)⟩

theorem Job.Ready.mono {job : Job} (h : job.Ready plan trace places place) (htrace : trace ⊆ trace')
    (hplaces : places ⊆ places') : job.Ready plan trace' places' place := by
  cases job with
  | info => trivial
  | target => exact h
  | entries => exact ⟨h.1.mono htrace, h.2⟩
  | report => exact Plan.Searched.mono h htrace hplaces

theorem Phase.Known.mono {phase : Phase} (h : phase.Known plan trace places place)
    (htrace : trace ⊆ trace') (hplaces : places ⊆ places') : phase.Known plan trace' places' place := by
  cases phase with
  | fresh => trivial
  | queued ticket job => exact Job.Ready.mono h htrace hplaces
  | calling job =>
    cases job with
    | info => exact htrace h
    | target => exact h
    | entries => exact ⟨h.1.mono htrace, h.2.1, htrace h.2.2⟩
    | report => exact Plan.Searched.mono h htrace hplaces
  | _ => exact Plan.Searched.mono h htrace hplaces

/-- What is no directory has been searched once it has been asked about. -/
theorem Plan.Seen.searched (h : plan.Seen trace place found) (hkind : found.kind ≠ .directory) :
    plan.Searched trace places place := by
  have hother : ∀ other, plan.files.info place = .ok other → other.kind = .directory → False := by
    intro other hother hdirectory
    obtain rfl := Except.ok.inj (h.info.symm.trans hother)
    exact hkind hdirectory
  exact ⟨h.stated, fun other hinfo hdirectory => (hother other hinfo hdirectory).elim,
    fun other _ hinfo hdirectory => (hother other hinfo hdirectory).elim⟩

theorem Plan.searched_of_info (hstated : .stated place ∈ trace) (hfails : plan.files.info place = .error f) :
    plan.Searched trace places place := by
  refine ⟨hstated, fun _ hinfo => ?_, fun _ _ hinfo => ?_⟩ <;>
  · rw [hfails] at hinfo
    cases hinfo

theorem Plan.searched_of_entries (hstated : .stated place ∈ trace) (hlisted : .listed place ∈ trace)
    (hfails : plan.files.entries place = .error f) : plan.Searched trace places place := by
  refine ⟨hstated, fun _ _ _ => hlisted, fun _ _ _ _ hnames => ?_⟩
  rw [hfails] at hnames
  cases hnames

/-- A directory has been searched when what it holds is visited. -/
theorem Plan.searched_of_names {names : List Text} (hstated : .stated place ∈ trace)
    (hlisted : .listed place ∈ trace) (hnames : plan.files.entries place = .ok names)
    (hvisited : ∀ v ∈ plan.visits 0 (names.map (Path.under place)), v.place ∈ places) :
    plan.Searched trace places place := by
  refine ⟨hstated, fun _ _ _ => hlisted, fun _ names' _ _ hnames' => ?_⟩
  obtain rfl := Except.ok.inj (hnames.symm.trans hnames')
  exact hvisited

theorem Job.known_forgone (t : Task) {job : Job} (h : plan.Searched trace places place) :
    (job.forgone t).Known plan trace places place := by
  cases job <;> exact h

end Search

def State.places (s : State σ) : List Path := s.tasks.map (·.visit.place)

/-- What is known at each moment of an undisturbed walk of the places that it comes to. -/
structure Searches (plan : Plan) (paths : List Path) (s : State σ) : Prop where
  comes : ∀ t ∈ s.tasks, plan.Comes paths t.visit.place
  known : ∀ t ∈ s.tasks, t.phase.Known plan s.trace s.places t.visit.place
  given : ∀ v ∈ plan.visits 0 paths, v.place ∈ s.places
  calls : ∀ e ∈ s.trace, e.Expected plan paths

/-- The same in the midst of a step that the task `u` has begun in `s₀`. -/
structure Searching (plan : Plan) (paths : List Path) (s₀ : State σ) (u : Task) (c : Cursor) (s : State σ) :
    Prop where
  tasks : s.tasks = s₀.tasks
  known : c.Known plan s.trace s₀.places u.visit.place
  more : s₀.trace ⊆ s.trace
  calls : ∀ e ∈ s.trace, e.Expected plan paths

section Moves

variable {plan : Plan} {env : Environment σ} {paths : List Path} {fuel bound i : Nat} {sums : List Tally}
  {goal : List Mark} {s₀ s s' : State σ} {u : Task} {c d : Cursor}

namespace Searching

theorem still (h : Searching plan paths s₀ u c s) (htasks : s'.tasks = s.tasks) (htrace : s'.trace = s.trace)
    (hknown : d.Known plan s.trace s₀.places u.visit.place) : Searching plan paths s₀ u d s' := by
  refine ⟨htasks.trans h.tasks, ?_, ?_, ?_⟩
  · rwa [htrace]
  · rw [htrace]
    exact h.more
  · rw [htrace]
    exact h.calls

theorem noted (h : Searching plan paths s₀ u c s) {e : Event} (he : e.Expected plan paths)
    (hknown : d.Known plan (e :: s.trace) s₀.places u.visit.place) :
    Searching plan paths s₀ u d (s.note e) := by
  refine ⟨h.tasks, hknown, List.subset_cons_of_subset _ h.more, ?_⟩
  intro e' he'
  rcases List.mem_cons.mp he' with rfl | hold
  · exact he
  · exact h.calls e' hold

theorem rest (h : Searching plan paths s₀ u c s) (hs : Searches plan paths s₀) (hu : s₀.tasks[i]? = some u)
    (phase : Phase) (new : List Task)
    (htasks : s'.tasks = (s₀.tasks.modify i fun t => { t with phase }) ++ new) (htrace : s'.trace = s.trace)
    (hphase : phase.Known plan s.trace (s₀.places ++ new.map (·.visit.place)) u.visit.place)
    (hfresh : ∀ t ∈ new, plan.Comes paths t.visit.place ∧ t.phase = .fresh) : Searches plan paths s' := by
  have hplaces : s'.places = s₀.places ++ new.map (·.visit.place) := by
    unfold State.places
    rw [htasks, List.map_append, map_modify_of_eq (f := fun t : Task => { t with phase }) fun _ => rfl]
  have hcases : ∀ t ∈ s'.tasks, t ∈ s₀.tasks ∨ t = { u with phase } ∨ t ∈ new := by
    intro t ht
    rw [htasks] at ht
    rcases List.mem_append.mp ht with ht | ht
    · rcases mem_modify ht with ht | ⟨a, ha, rfl⟩
      · exact .inl ht
      · obtain rfl := Option.some.inj (hu.symm.trans ha)
        exact .inr (.inl rfl)
    · exact .inr (.inr ht)
  refine ⟨?_, ?_, ?_, ?_⟩
  · intro t ht
    rcases hcases t ht with hold | rfl | hnew
    · exact hs.comes t hold
    · exact hs.comes u (List.mem_of_getElem? hu)
    · exact (hfresh t hnew).1
  · intro t ht
    rw [hplaces, htrace]
    rcases hcases t ht with hold | rfl | hnew
    · exact (hs.known t hold).mono h.more (List.subset_append_left _ _)
    · exact hphase
    · rw [(hfresh t hnew).2]
      trivial
  · intro v hv
    rw [hplaces]
    exact List.mem_append_left _ (hs.given v hv)
  · rw [htrace]
    exact h.calls

theorem wait (h : Searching plan paths s₀ u c s) (hs : Searches plan paths s₀) (hu : s₀.tasks[i]? = some u)
    {phase : Phase} (htasks : s'.tasks = s.tasks) (htrace : s'.trace = s.trace)
    (hphase : phase.Known plan s.trace s₀.places u.visit.place) : Searches plan paths (s'.setPhase i phase) := by
  refine h.rest hs hu phase [] ?_ htrace ?_ (by simp)
  · change s'.tasks.modify i _ = _
    rw [htasks, h.tasks, List.append_nil]
  · rw [List.map_nil, List.append_nil]
    exact hphase

theorem move (h : Searching plan paths s₀ u c s) (hs : Searches plan paths s₀) (hguides : plan.Guides env)
    (hgoal : ∀ id, goal.count (.met id) ≤ 1) (hu : s₀.tasks[i]? = some u)
    (hmidst : Midst plan fuel sums goal bound s₀ i u u c s)
    (hleads : Leads plan fuel sums goal bound s₀ i u (c.move env i u s)) (hname : u.visit.name = u.visit.place) :
    (c.move env i u s).Meets (fun _ d s' => Searching plan paths s₀ u d s') (Searches plan paths) := by
  have hcomes := hs.comes u (List.mem_of_getElem? hu)
  have hknown := h.known
  have hfine : ∀ {f : Fault} {s' : State σ}, c.move env i u s ≠ .goOn u (.conclude (.error f)) s' := by
    intro f s' hmove
    rw [hmove] at hleads
    obtain ⟨_, hresult⟩ := hleads.fits
    cases hresult
  cases c with
  | conclude result =>
    have hrest : Searches plan paths (s.setPhase i (.ended result)) := h.wait hs hu rfl rfl hknown
    cases result with
    | ok => exact hrest
    | error f => exact ⟨hrest.comes, hrest.known, hrest.given, hrest.calls⟩
  | log tally =>
    simp only [Cursor.move]
    split
    · exact h.still rfl rfl hknown
    · split
      · have hnoted := h.noted (e := .logged (logLine u.visit.name tally)) (d := .log tally) trivial
          (Plan.Searched.mono hknown (List.subset_cons_self _ _) (List.Subset.refl _))
        split
        · exact hnoted.wait hs hu rfl rfl hnoted.known
        · exact hnoted.still rfl rfl hnoted.known
      · exact h.still rfl rfl hknown
  | accept tally => exact h.still rfl rfl hknown
  | seek job =>
    simp only [Cursor.move] at hfine ⊢
    split
    · next hask =>
      rw [hask] at hfine
      exact absurd rfl hfine
    · exact h.still rfl rfl hknown
    · exact h.wait hs hu rfl rfl hknown
  | follow o =>
    cases o with
    | «over» result => exact h.still rfl rfl hknown
    | counted info tally =>
      simp only [Cursor.move]
      split <;> exact h.still rfl rfl hknown
  | enter found =>
    simp only [Cursor.move]
    split
    · next hkind =>
      rw [hguides.links, if_neg Bool.false_ne_true]
      exact h.still rfl rfl (hknown.searched (by simp [hkind]))
    · next hkind => exact h.still rfl rfl ⟨hknown, hkind⟩
    · next hkind => exact h.still rfl rfl (hknown.searched (by simp [hkind]))
    · next hkind => exact h.still rfl rfl (hknown.searched (by simp [hkind]))
  | onInfo found =>
    simp only [Cursor.move]
    split
    · next hskip => exact h.still rfl rfl (hknown.searched (by simp [hskip.1]))
    · next hmeets =>
      rw [if_neg (hmidst.not_met hgoal hmeets)]
      exact h.still rfl rfl hknown
  | onTarget found target => exact hknown.elim
  | onEntries found names =>
    obtain ⟨hseen, hkind, hlisted, hnames⟩ := hknown
    simp only [Cursor.move]
    split
    · next hnone =>
      subst hnone
      exact h.still rfl rfl (Plan.searched_of_names hseen.stated hlisted hnames fun _ => False.elim ∘ List.not_mem_nil)
    · refine h.rest hs hu (.descending s.levels.length found)
        ((State.visits env (names.map (Path.under u.visit.name))).map
          fun v => ⟨s.levels.length, v, .fresh, false⟩) ?_ rfl ?_ ?_
      · change (s.tasks ++ _).modify i _ = _
        rw [h.tasks, modify_append (List.getElem?_eq_some_iff.mp hu).1]
      · refine Plan.searched_of_names hseen.stated hlisted hnames ?_
        intro v hv
        rw [hguides.visits_eq, hname, List.map_map]
        exact List.mem_append_right _ (List.mem_map_of_mem hv)
      · intro t ht
        rw [hguides.visits_eq, hname] at ht
        obtain ⟨v, hv, rfl⟩ := List.mem_map.mp ht
        exact ⟨.inside hcomes hseen.info hkind hnames hv, rfl⟩
  | giveBack next =>
    simp only [Cursor.move] at hfine ⊢
    split
    · exact h.still rfl rfl hknown
    · next hreleased =>
      rw [hreleased] at hfine
      exact absurd rfl hfine
  | onAnswer job f response =>
    obtain ⟨-, rfl⟩ := hmidst.fits
    exact h.still rfl rfl (job.known_forgone u hknown)
  | consult job f =>
    simp only [Cursor.move]
    split <;> exact h.still rfl rfl hknown
  | offer job f =>
    simp only [Cursor.move]
    split
    · exact h.still rfl rfl hknown
    · split
      · exact h.still rfl rfl hknown
      · have hnoted := h.noted (e := .offered f) (d := .consult job f) trivial
          (Plan.Searched.mono hknown (List.subset_cons_self _ _) (List.Subset.refl _))
        split
        · exact hnoted.wait hs hu rfl rfl hnoted.known
        · exact hnoted
  | onReply info tally response =>
    rcases response with f | _ | _
    · simp only [Cursor.move]
      split <;> exact h.still rfl rfl hknown
    · exact h.still rfl rfl hknown
    · exact h.still rfl rfl hknown
  | stop info tally reply => 
    simp only [Cursor.move]
    (repeat' split) <;> exact h.still rfl rfl hknown
  | report info tally =>
    simp only [Cursor.move]
    split <;> exact h.still rfl rfl hknown
  | begin job =>
    cases job with
    | info =>
      have hnoted := h.noted (e := .stated u.visit.place) (d := .answer .info) hcomes List.mem_cons_self
      exact hnoted.wait hs hu rfl rfl hnoted.known
    | target => exact hknown.elim
    | entries found =>
      obtain ⟨hseen, hkind⟩ := hknown
      have hnoted := h.noted (e := .listed u.visit.place) (d := .answer (.entries found))
        ⟨hcomes, found, hseen.info, hkind⟩
        ⟨hseen.mono (List.subset_cons_self _ _), hkind, List.mem_cons_self⟩
      exact hnoted.wait hs hu rfl rfl hnoted.known
    | report info tally =>
      simp only [Cursor.move]
      split
      · exact h.still rfl rfl hknown
      · have hnoted := h.noted (e := .reported (s.pathCall u info tally)) (d := .report info tally) trivial
          (Plan.Searched.mono hknown (List.subset_cons_self _ _) (List.Subset.refl _))
        split
        · exact hnoted.wait hs hu rfl rfl hnoted.known
        · exact hnoted
  | answer job =>
    cases job with
    | info =>
      simp only [Cursor.move]
      split
      · next found hinfo => exact h.still rfl rfl ⟨hknown, by rw [← hguides.files]; exact hinfo⟩
      · next f hfails =>
        exact h.still rfl rfl (Plan.searched_of_info hknown (by rw [← hguides.files]; exact hfails))
    | target => exact hknown.elim
    | entries found =>
      obtain ⟨hseen, hkind, hlisted⟩ := hknown
      simp only [Cursor.move]
      split
      · next names hnames =>
        exact h.still rfl rfl ⟨hseen, hkind, hlisted, by rw [← hguides.files]; exact hnames⟩
      · next f hfails =>
        exact h.still rfl rfl (Plan.searched_of_entries hseen.stated hlisted (by rw [← hguides.files]; exact hfails))
    | report info tally => exact h.still rfl rfl hknown

/-- Where a task of an undisturbed walk goes on, no more is known than when it waited. -/
theorem enter (hs : Searches plan paths s₀) (hu : s₀.tasks[i]? = some u) (henters : s₀.Enters env u c s)
    (hmidst : Midst plan fuel sums goal bound s₀ i u u c s) : Searching plan paths s₀ u c s := by
  have hphase := hs.known u (List.mem_of_getElem? hu)
  suffices hknown : s.tasks = s₀.tasks ∧ s.trace = s₀.trace ∧ c.Known plan s₀.trace s₀.places u.visit.place by
    obtain ⟨htasks, htrace, hknown⟩ := hknown
    refine ⟨htasks, ?_, ?_, ?_⟩
    · rwa [htrace]
    · rw [htrace]
      exact List.Subset.refl _
    · rw [htrace]
      exact hs.calls
  have hfits := hmidst.fits
  cases henters with
  | ends | refused | failed =>
    obtain ⟨_, hresult⟩ := hfits
    cases hresult
  | drops | called =>
    obtain ⟨_, hresult⟩ : ∃ tally, (Except.error _ : Except Fault (Option Tally)) = .ok tally := hfits
    cases hresult
  | starts => exact ⟨rfl, rfl, trivial⟩
  | admitted phase _ _ | answers phase _ | consults phase _ | logged phase _ | resumes phase _ =>
    rw [phase] at hphase
    exact ⟨rfl, rfl, hphase⟩

end Searching

end Moves

section Steps

variable {plan : Plan} {env : Environment σ} {paths : List Path} {ys : List Yield} {fuel bound n : Nat}
  {capacity : Int} {total : Tally} {goal : List Mark} {s s' : State σ}

namespace Searches

theorem step (hguides : plan.Guides env) (hgoal : ∀ id, goal.count (.met id) ≤ 1) (hsize : 1 ≤ capacity)
    (h : Searches plan paths s) (hs : Undisturbed plan fuel capacity total goal bound s) {a : Actor}
    (hstep : s.step? env a = some s') : Searches plan paths s' := by
  obtain ⟨⟨more, hplacid⟩, hlive⟩ := hs
  cases a with
  | task i =>
    obtain ⟨u, hu, hstep⟩ := Option.bind_eq_some_iff.mp hstep
    obtain ⟨own, hsound⟩ := hlive.sound
    have hfits := hplacid.tasks u (List.mem_of_getElem? hu)
    obtain ⟨c, s₁, hentry, rfl⟩ := State.exists_entry hstep
    have hmidst := fun {t : Task} {c : Cursor} {s₂ : State σ} (hamid : s.Amid env i t c s₂) =>
      (hplacid.midst hguides hgoal hsound hsize hu hamid).2
    refine Cursor.run_of_moves (P := fun t c s₂ => s.Amid env i t c s₂ ∧ Searching plan paths s u c s₂)
      (Q := Searches plan paths) ?_ u c s₁
      ⟨.enter hu hentry, .enter h hu (State.enters hentry) (hmidst (.enter hu hentry)).1⟩
    rintro t d s₂ ⟨hamid, hnow⟩
    obtain ⟨hmid, hleads⟩ := hmidst hamid
    obtain rfl := hmid.same
    have hnext := hnow.move h hguides hgoal hu hmid hleads hfits.name
    cases hcourse : d.move env i t s₂ with
    | goOn v e s₃ =>
      rw [hcourse] at hnext
      exact ⟨.next hamid hcourse, hnext⟩
    | done s₃ =>
      rw [hcourse] at hnext
      exact hnext
  | level k =>
    obtain ⟨l, hl, hstep⟩ := Option.bind_eq_some_iff.mp hstep
    cases State.fate hstep with
    | fails _ failure =>
      rw [(hplacid.levels l (List.mem_of_getElem? hl)).failure] at failure
      cases failure
    | closes => exact ⟨h.comes, h.known, h.given, h.calls⟩

theorem steps (hguides : plan.Guides env) (hgoal : ∀ id, goal.count (.met id) ≤ 1) (hsize : 1 ≤ capacity)
    (hsteps : State.Steps env n s s') : ∀ {bound : Nat}, Searches plan paths s →
      Undisturbed plan fuel capacity total goal bound s → Searches plan paths s' := by
  induction hsteps with
  | refl => exact fun h _ => h
  | cons hstep _ ih =>
    exact fun h hs => ih (h.step hguides hgoal hsize hs hstep) (hs.step hguides hgoal hsize hstep).2

theorem start (hguides : plan.Guides env) (caller : Caller σ) :
    Searches plan paths (State.start env caller paths) := by
  have htasks : (State.start env caller paths).tasks = plan.newcomers 0 paths := by
    unfold Plan.newcomers
    rw [← hguides.visits_eq]
    rfl
  have hcases : ∀ t ∈ (State.start env caller paths).tasks, ∃ v ∈ plan.visits 0 paths, t = ⟨0, v, .fresh, false⟩ := by
    intro t ht
    rw [htasks] at ht
    obtain ⟨v, hv, rfl⟩ := List.mem_map.mp ht
    exact ⟨v, hv, rfl⟩
  refine ⟨?_, ?_, ?_, fun _ he => nomatch he⟩
  · intro t ht
    obtain ⟨v, hv, rfl⟩ := hcases t ht
    exact .top hv
  · intro t ht
    obtain ⟨v, _, rfl⟩ := hcases t ht
    trivial
  · intro v hv
    unfold State.places
    rw [htasks]
    unfold Plan.newcomers
    rw [List.map_map]
    exact List.mem_map_of_mem hv

/-- When all tasks have ended, every place that a walk comes to has been searched. -/
theorem searched (h : Searches plan paths s) (hended : ∀ t ∈ s.tasks, t.phase.isEnded = true) {place : Path}
    (hcomes : plan.Comes paths place) : plan.Searched s.trace s.places place := by
  have hall : ∀ place ∈ s.places, plan.Searched s.trace s.places place := by
    intro place hplace
    obtain ⟨t, ht, rfl⟩ := List.mem_map.mp hplace
    have hover := hended t ht
    have hknown := h.known t ht
    cases hphase : t.phase with
    | ended result =>
      rw [hphase] at hknown
      exact hknown
    | _ => simp [hphase, Phase.isEnded] at hover
  refine hall place ?_
  induction hcomes with
  | top given => exact h.given _ given
  | inside _ info directory entries holds ih => exact (hall _ ih).held _ _ info directory entries _ holds

end Searches

end Steps

/-- The plan of a walk whose handlers answer always alike and take every fault. -/
def Environment.plan (env : Environment σ) (answer : PathCall → Except Fault Bool) : Plan where
  files := env.files
  verdict p := (env.options.filter.map fun f => f p).getD .included
  answer := env.options.onPath.map fun _ => answer
  log := env.options.log.map (·.rule)

section Lenient

variable {env : Environment σ} {accepts : Fault → Bool} {answer : PathCall → Except Fault Bool}
  {caller : Caller σ} {paths : List Path} {ys : List Yield} {fuel n : Nat} {s s' : State σ}

theorem Environment.Candid.guides (henv : env.Candid accepts answer) (hlinks : env.options.walkLinks = false) :
    (env.plan answer).Guides env.lenient := by
  obtain ⟨handler, hhandler, -⟩ := henv.onFault
  have hraises : ∀ {f : Fault}, env.files.Raises f → f ≠ .interrupted := by
    rintro f hf rfl
    exact henv.files _ hf rfl
  refine ⟨rfl, hlinks, fun _ => rfl, ?_, ?_, ?_, ⟨_, lenient_onFault hhandler, fun _ _ => rfl⟩, rfl, henv.refusal, ?_, ?_⟩
  · exact fun hnone => Option.map_eq_none_iff.mp hnone
  · intro answer' hanswer
    obtain ⟨onPath, honPath, rfl⟩ := Option.map_eq_some_iff.mp hanswer
    refine ⟨onPath, honPath, fun memory call => ?_⟩
    rw [henv.onPath onPath honPath]
    exact ⟨rfl, rfl⟩
  · intro answer' call f hanswer hfails
    obtain ⟨_, _, rfl⟩ := Option.map_eq_some_iff.mp hanswer
    obtain ⟨hkind, hfresh⟩ := henv.answers call f hfails
    refine ⟨hfresh, ?_⟩
    rintro rfl
    exact hkind rfl
  · exact fun p hp => hraises ⟨p, .inl hp⟩ rfl
  · exact fun p hp => hraises ⟨p, .inr (.inr hp)⟩ rfl

/-- A walk with a fault handler that takes everything comes back with a total, and all that failed was
offered. -/
theorem offered_of_lenient (henv : env.Candid accepts answer) (hpool : Pool.Serves caller.pool [])
    (hsize : 1 ≤ caller.pool.capacity) (hsteps : State.Steps env.lenient n (State.start env caller paths) s)
    (hresult : s.result?.isSome = true) : s.offered.Perm (s.starts.filterMap (env.failure? answer)) := by
  obtain ⟨lost, htour⟩ := State.Tour.of_steps hsteps .refl
  rw [List.append_nil] at htour
  have htolerant := (Tolerant.start env.lenient (fun _ => true) answer paths hpool).of_tour henv.lenient hsize htour
  obtain ⟨result, hresult'⟩ := Option.isSome_iff_exists.mp hresult
  have hwhole : lost = [] := by
    cases result with
    | ok total => exact (htolerant.along hresult').whole
    | error f => exact absurd rfl (htolerant.parted hresult').1.2
  have honce := htolerant.reckoned.once
  rw [htolerant.inProgress_eq_nil hresult, hwhole, List.append_nil, List.filterMap_nil, List.append_nil] at honce
  exact honce

/-- A walk can go on until it comes back. -/
theorem Live.exists_end {capacity : Int} {bound : Nat} (hlive : Live capacity s) (hsize : 1 ≤ capacity)
    (hbound : ∀ n s', State.Steps env n s s' → n ≤ bound) (hsteps : State.Steps env n s s') :
    ∃ m s'', State.Steps env m s' s'' ∧ s''.result?.isSome = true := by
  obtain ⟨hresult, m, hrest⟩ := (hlive.steps hsteps).run hsize bound fun m s'' hm =>
    Nat.le_trans (Nat.le_add_left m n) (hbound _ s'' (hsteps.trans hm))
  exact ⟨m, _, hrest, hresult⟩

end Lenient

section Survival

variable {files : FileSystem} {options : Options σ} {caller : Caller σ} {paths : List Path}
  {accepts : Fault → Bool} {answer : PathCall → Except Fault Bool} {ids : Finset Text} {width : Nat}
  {capacity : Int}

end Survival

end TreeCensus.Walk
