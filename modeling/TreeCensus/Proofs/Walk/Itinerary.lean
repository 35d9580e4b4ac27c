import TreeCensus.Proofs.Walk.Sketch
import TreeCensus.Proofs.Walk.Traversal

/-!
# The calls of a whole walk

A walk asks about a place once for each path that leads there, but it lists a directory only once. As long as
no task is called off, it can be told from how far the tasks have got which calls are still to come. So in the
end they are those of a full traversal, in whatever order they were made.
-/

namespace TreeCensus.Walk

set_option autoImplicit false

variable {σ : Type}

section Plans

variable (plan : Plan) (paths : List Path)

/-- A walk comes to a directory. -/
structure Plan.Reaches (place : Path) (found : FileInfo) : Prop where
  comes : plan.Comes paths place
  info : plan.files.info place = .ok found
  directory : found.kind = .directory

/-- What a walk comes to at different places is never the same object. -/
def Plan.Distinct : Prop :=
  ∀ p q f g, plan.Comes paths p → plan.Comes paths q → plan.files.info p = .ok f → plan.files.info q = .ok g →
    f.identity p = g.identity q → p = q

/-- The visits of what a directory holds, if it can be listed. -/
def Plan.visitsIn (place : Path) : List Visit :=
  match plan.files.entries place with
  | .ok names => plan.visits 0 (names.map (Path.under place))
  | .error _ => []

/-- The directories that a walk comes to, each once. -/
structure Plan.Traverses (dirs : List Path) : Prop where
  nodup : dirs.Nodup
  mem_iff : ∀ place, place ∈ dirs ↔ ∃ found, plan.Reaches paths place found

/-- The calls of a full traversal that lists these directories: what is given and what they hold is asked
about. -/
def Plan.traversal (dirs : List Path) : List Event :=
  (plan.visits 0 paths ++ dirs.flatMap plan.visitsIn).map (Event.stated ·.place) ++ dirs.map Event.listed

end Plans

section Plans

variable {plan : Plan} {paths : List Path} {place : Path} {found : FileInfo} {v : Visit}

theorem Plan.name_of_mem_visits {first : Nat} (hv : v ∈ plan.visits first paths) : v.name = v.place := by
  obtain ⟨e, -, he⟩ := List.mem_filterMap.mp hv
  unfold Plan.approach? at he
  dsimp only at he
  rw [Option.ite_none_left_eq_some] at he
  obtain rfl := Option.some.inj he.2
  rfl

theorem Plan.mem_visitsIn : v ∈ plan.visitsIn place ↔
    ∃ names, plan.files.entries place = .ok names ∧ v ∈ plan.visits 0 (names.map (Path.under place)) := by
  unfold visitsIn
  cases hentries : plan.files.entries place with
  | ok names =>
    refine ⟨fun hv => ⟨names, rfl, hv⟩, ?_⟩
    rintro ⟨_, heq, hv⟩
    obtain rfl := Except.ok.inj heq
    exact hv
  | error f => exact iff_of_false List.not_mem_nil fun ⟨_, heq, _⟩ => nomatch heq

theorem Plan.Reaches.comes_inside (h : plan.Reaches paths place found) (hv : v ∈ plan.visitsIn place) :
    plan.Comes paths v.place := by
  obtain ⟨names, hnames, hv⟩ := Plan.mem_visitsIn.mp hv
  exact .inside h.comes h.info h.directory hnames hv

end Plans

/-- How far a task has got with its place. -/
inductive Stop
  /-- It has yet to ask about it. -/
  | ahead
  /-- It has asked about it. -/
  | asked
  /-- It has yet to list the directory that it has found there. -/
  | found
  /-- It has asked what the directory holds. -/
  | listing
  /-- It has no more to ask about. -/
  | through
  /-- It has left the place. -/
  | astray
  deriving DecidableEq

structure Leg where
  visit : Visit
  stop : Stop

/-- The places of the tasks that have got this far. -/
def stopping (stop : Stop) (legs : List Leg) : List Path :=
  (legs.filter (·.stop = stop)).map (·.visit.place)

theorem stopping_cons (stop : Stop) (x : Leg) (legs : List Leg) :
    stopping stop (x :: legs) = (if x.stop = stop then [x.visit.place] else []) ++ stopping stop legs := by
  unfold stopping
  by_cases hx : x.stop = stop <;> simp [hx]

theorem stopping_append (stop : Stop) (xs ys : List Leg) :
    stopping stop (xs ++ ys) = stopping stop xs ++ stopping stop ys := by
  unfold stopping
  rw [List.filter_append, List.map_append]

theorem stopping_perm (stop : Stop) {xs ys : List Leg} (h : xs.Perm ys) :
    (stopping stop xs).Perm (stopping stop ys) := (h.filter _).map _

theorem stopping_ahead (stop : Stop) (visits : List Visit) :
    stopping stop (visits.map (⟨·, .ahead⟩)) = if stop = .ahead then visits.map (·.place) else [] := by
  induction visits with
  | nil => cases stop <;> rfl
  | cons v visits ih =>
    rw [List.map_cons, stopping_cons, ih]
    cases stop <;> rfl

/-- What is known of the calls of a walk from how far its tasks have got and which directories it has
listed. -/
structure Itinerary (plan : Plan) (paths : List Path) (visited : List Text) (legs : List Leg)
    (calls : List Event) (listed : List Path) : Prop where
  /-- Every task asks about its place. -/
  calls : (calls ++ (stopping .ahead legs).map Event.stated).Perm
    (legs.map (Event.stated ·.visit.place) ++ listed.map Event.listed)
  /-- There is a task for all that a directory holds, as soon as that has been said. -/
  tasks : (legs.map (·.visit) ++ (stopping .listing legs).flatMap plan.visitsIn).Perm
    (plan.visits 0 paths ++ listed.flatMap plan.visitsIn)
  once : (stopping .found legs ++ listed).Nodup
  known : ∀ place, place ∈ stopping .found legs ++ listed ↔
    ∃ found, plan.Reaches paths place found ∧ found.identity place ∈ visited
  listing : stopping .listing legs ⊆ listed
  met : ∀ x ∈ legs, x.stop = .through → ∀ found, plan.Reaches paths x.visit.place found →
    found.identity x.visit.place ∈ visited
  stays : ∀ x ∈ legs, x.stop ≠ .astray ∧ x.visit.name = x.visit.place ∧ plan.Comes paths x.visit.place

namespace Itinerary

variable {plan : Plan} {paths listed : List Path} {visited : List Text} {legs legs' : List Leg}
  {calls : List Event} {v : Visit} {info : FileInfo}

theorem perm (h : Itinerary plan paths visited legs calls listed) (hlegs : legs'.Perm legs) :
    Itinerary plan paths visited legs' calls listed := by
  have hstops := fun stop => stopping_perm stop hlegs
  refine ⟨?_, ?_, ?_, ?_, ?_, fun x hx => h.met x (hlegs.subset hx), fun x hx => h.stays x (hlegs.subset hx)⟩
  · exact (((hstops _).map _).append_left _).trans (h.calls.trans ((hlegs.symm.map _).append_right _))
  · exact ((hlegs.map _).append ((hstops _).flatMap_right _)).trans h.tasks
  · exact ((hstops _).append_right _).nodup_iff.mpr h.once
  · exact fun place => ((hstops _).append_right _).mem_iff.trans (h.known place)
  · exact List.Subset.trans (hstops _).subset h.listing

/-- What is known of the tasks goes for one that gets further. -/
theorem turn {stop stop' : Stop} (h : ∀ x ∈ ⟨v, stop⟩ :: legs,
      x.stop ≠ .astray ∧ x.visit.name = x.visit.place ∧ plan.Comes paths x.visit.place)
    (hstop : stop' ≠ .astray) : ∀ x ∈ ⟨v, stop'⟩ :: legs,
      x.stop ≠ .astray ∧ x.visit.name = x.visit.place ∧ plan.Comes paths x.visit.place := by
  rw [List.forall_mem_cons] at h ⊢
  exact ⟨⟨hstop, h.1.2⟩, h.2⟩

theorem ask (h : Itinerary plan paths visited (⟨v, .ahead⟩ :: legs) calls listed) :
    Itinerary plan paths visited (⟨v, .asked⟩ :: legs) (.stated v.place :: calls) listed := by
  obtain ⟨hcalls, htasks, honce, hknown, hlisting, hmet, hstays⟩ := h
  rw [List.forall_mem_cons] at hmet
  refine ⟨?_, htasks, honce, hknown, hlisting, List.forall_mem_cons.mpr ⟨nofun, hmet.2⟩, turn hstays nofun⟩
  exact List.perm_middle.symm.trans hcalls

/-- There is no directory at the place of a task, or it was met before. -/
theorem pass (h : Itinerary plan paths visited (⟨v, .asked⟩ :: legs) calls listed)
    (hmet : ∀ found, plan.Reaches paths v.place found → found.identity v.place ∈ visited) :
    Itinerary plan paths visited (⟨v, .through⟩ :: legs) calls listed := by
  refine ⟨h.calls, h.tasks, h.once, h.known, h.listing, ?_, turn h.stays nofun⟩
  exact List.forall_mem_cons.mpr ⟨fun _ => hmet, (List.forall_mem_cons.mp h.met).2⟩

/-- Something new is met at the place of a task. -/
theorem meet (h : Itinerary plan paths visited (⟨v, .asked⟩ :: legs) calls listed)
    (hdistinct : plan.Distinct paths) (hinfo : plan.files.info v.place = .ok info)
    (hnew : info.identity v.place ∉ visited) :
    Itinerary plan paths (info.identity v.place :: visited)
      (⟨v, if info.kind = .directory then .found else .through⟩ :: legs) calls listed := by
  have hcomes := (h.stays _ List.mem_cons_self).2.2
  have hold := (List.forall_mem_cons.mp h.met).2
  -- whoever comes to a directory with this identity is at the same place
  have hsame : ∀ {place : Path} {found : FileInfo}, plan.Reaches paths place found →
      found.identity place = info.identity v.place → place = v.place ∧ found = info := by
    intro place found hreaches hid
    obtain rfl := hdistinct _ _ _ _ hreaches.comes hcomes hreaches.info hinfo hid
    exact ⟨rfl, Except.ok.inj (hreaches.info.symm.trans hinfo)⟩
  have hunknown : v.place ∉ stopping .found legs ++ listed := by
    intro hmem
    obtain ⟨found, hreaches, hid⟩ := (h.known _).mp hmem
    rw [Except.ok.inj (hreaches.info.symm.trans hinfo)] at hid
    exact hnew hid
  by_cases hkind : info.kind = .directory
  · rw [if_pos hkind]
    refine ⟨h.calls, h.tasks, ?_, ?_, h.listing, ?_, turn h.stays nofun⟩
    · exact List.nodup_cons.mpr ⟨hunknown, h.once⟩
    · intro place
      change place ∈ v.place :: (stopping .found legs ++ listed) ↔ _
      rw [List.mem_cons]
      constructor
      · rintro (rfl | hmem)
        · exact ⟨info, ⟨hcomes, hinfo, hkind⟩, List.mem_cons_self⟩
        · obtain ⟨found, hreaches, hid⟩ := (h.known _).mp hmem
          exact ⟨found, hreaches, List.mem_cons_of_mem _ hid⟩
      · rintro ⟨found, hreaches, hid⟩
        rcases List.mem_cons.mp hid with hid | hid
        · exact .inl (hsame hreaches hid).1
        · exact .inr ((h.known _).mpr ⟨found, hreaches, hid⟩)
    · refine List.forall_mem_cons.mpr ⟨nofun, fun x hx hthrough found hreaches => ?_⟩
      exact List.mem_cons_of_mem _ (hold x hx hthrough found hreaches)
  · rw [if_neg hkind]
    refine ⟨h.calls, h.tasks, h.once, ?_, h.listing, ?_, turn h.stays nofun⟩
    · intro place
      refine (h.known place).trans (exists_congr fun found => and_congr_right fun hreaches => ?_)
      rw [List.mem_cons]
      refine ⟨.inr, fun hid => hid.resolve_left fun hid => ?_⟩
      rw [← (hsame hreaches hid).2] at hkind
      exact hkind hreaches.directory
    · refine List.forall_mem_cons.mpr ⟨fun _ found hreaches => ?_, fun x hx hthrough found hreaches => ?_⟩
      · rw [Except.ok.inj (hreaches.info.symm.trans hinfo)]
        exact List.mem_cons_self
      · exact List.mem_cons_of_mem _ (hold x hx hthrough found hreaches)

theorem list (h : Itinerary plan paths visited (⟨v, .found⟩ :: legs) calls listed) :
    Itinerary plan paths visited (⟨v, .listing⟩ :: legs) (.listed v.place :: calls) (v.place :: listed) := by
  have hfound : (v.place :: (stopping .found legs ++ listed)).Perm (stopping .found legs ++ v.place :: listed) :=
    List.perm_middle.symm
  refine ⟨?_, ?_, hfound.nodup_iff.mp h.once, fun place => hfound.mem_iff.symm.trans (h.known place), ?_, ?_,
    turn h.stays nofun⟩
  · exact (h.calls.cons _).trans List.perm_middle.symm
  · have htasks := h.tasks.append_left (plan.visitsIn v.place)
    change (_ ++ (plan.visitsIn v.place ++ _)).Perm (_ ++ (plan.visitsIn v.place ++ _))
    exact List.perm_append_comm_assoc _ _ _ |>.trans (htasks.trans (List.perm_append_comm_assoc _ _ _))
  · exact List.cons_subset_cons _ h.listing
  · exact List.forall_mem_cons.mpr ⟨nofun, (List.forall_mem_cons.mp h.met).2⟩

/-- What a directory holds is visited. -/
theorem leave (h : Itinerary plan paths visited (⟨v, .listing⟩ :: legs) calls listed) :
    Itinerary plan paths visited (⟨v, .through⟩ :: (legs ++ (plan.visitsIn v.place).map (⟨·, .ahead⟩))) calls
      listed := by
  obtain ⟨info, hreaches, hid⟩ := (h.known _).mp (List.mem_append_right _ (h.listing List.mem_cons_self))
  have hstops : ∀ stop : Stop, stop ≠ .ahead →
      stopping stop (legs ++ (plan.visitsIn v.place).map (⟨·, .ahead⟩)) = stopping stop legs := by
    intro stop hstop
    rw [stopping_append, stopping_ahead, if_neg hstop, List.append_nil]
  have hnew : ∀ {P : Leg → Prop}, (∀ x ∈ legs, P x) → (∀ w ∈ plan.visitsIn v.place, P ⟨w, .ahead⟩) →
      ∀ x ∈ legs ++ (plan.visitsIn v.place).map (⟨·, .ahead⟩), P x := by
    intro P hlegs hvisits
    rw [List.forall_mem_append]
    refine ⟨hlegs, fun x hx => ?_⟩
    obtain ⟨w, hw, rfl⟩ := List.mem_map.mp hx
    exact hvisits w hw
  refine ⟨?_, ?_, ?_, ?_, ?_, ?_, ?_⟩
  · have hcalls := h.calls.append_right ((plan.visitsIn v.place).map (Event.stated ·.place))
    change (calls ++ (stopping .ahead (legs ++ _)).map Event.stated).Perm
      (Event.stated v.place :: (legs ++ _).map (Event.stated ·.visit.place) ++ _)
    rw [stopping_append, stopping_ahead, if_pos rfl, List.map_append, List.map_append, List.map_map, List.map_map,
      ← List.append_assoc]
    refine hcalls.trans ?_
    rw [List.append_assoc, ← List.cons_append, List.append_assoc]
    exact List.Perm.append_left _ List.perm_append_comm
  · change (v :: (legs ++ _).map (·.visit) ++ (stopping .listing (legs ++ _)).flatMap plan.visitsIn).Perm _
    rw [hstops .listing nofun, List.map_append, List.map_map, ← List.cons_append, List.append_assoc]
    have hvisits : (plan.visitsIn v.place).map ((·.visit) ∘ (⟨·, .ahead⟩ : Visit → Leg)) = plan.visitsIn v.place :=
      List.map_id _
    rw [hvisits]
    exact h.tasks
  · change (stopping .found (legs ++ _) ++ listed).Nodup
    rw [hstops .found nofun]
    exact h.once
  · change ∀ place, place ∈ stopping .found (legs ++ _) ++ listed ↔ _
    rw [hstops .found nofun]
    exact h.known
  · change stopping .listing (legs ++ _) ⊆ listed
    rw [hstops .listing nofun]
    exact List.Subset.trans (List.subset_cons_self _ _) h.listing
  · have hmet := List.forall_mem_cons.mp h.met
    refine List.forall_mem_cons.mpr ⟨fun _ found hfound => ?_, hnew hmet.2 nofun⟩
    rw [Except.ok.inj (hfound.info.symm.trans hreaches.info)]
    exact hid
  · have hstays := List.forall_mem_cons.mp (turn h.stays (show Stop.through ≠ .astray from nofun))
    refine List.forall_mem_cons.mpr ⟨hstays.1, hnew hstays.2 fun w hw => ⟨nofun, ?_, hreaches.comes_inside hw⟩⟩
    obtain ⟨names, -, hvisits⟩ := Plan.mem_visitsIn.mp hw
    exact Plan.name_of_mem_visits hvisits

/-- Nothing is in the directory, or nobody can say what is. -/
theorem leave_nil (h : Itinerary plan paths visited (⟨v, .listing⟩ :: legs) calls listed)
    (hnone : plan.visitsIn v.place = []) : Itinerary plan paths visited (⟨v, .through⟩ :: legs) calls listed := by
  have hleft := h.leave
  rw [hnone, List.map_nil, List.append_nil] at hleft
  exact hleft

theorem start (plan : Plan) (paths : List Path) :
    Itinerary plan paths [] ((plan.visits 0 paths).map (⟨·, .ahead⟩)) [] [] := by
  refine ⟨?_, ?_, ?_, ?_, ?_, ?_, ?_⟩
  · rw [stopping_ahead, if_pos rfl, List.map_map, List.map_map, List.nil_append, List.map_nil, List.append_nil]
    exact .refl _
  · rw [stopping_ahead, if_neg nofun, List.map_map]
    exact .of_eq (congrArg (· ++ []) (List.map_id _))
  · rw [stopping_ahead, if_neg nofun]
    exact .nil
  · rw [stopping_ahead, if_neg nofun]
    exact fun place => iff_of_false List.not_mem_nil fun ⟨_, _, hid⟩ => List.not_mem_nil hid
  · rw [stopping_ahead, if_neg nofun]
    exact List.Subset.refl _
  · intro x hx
    obtain ⟨w, _, rfl⟩ := List.mem_map.mp hx
    nofun
  · intro x hx
    obtain ⟨w, hw, rfl⟩ := List.mem_map.mp hx
    exact ⟨nofun, Plan.name_of_mem_visits hw, .top hw⟩

/-- When all tasks are through, the calls are those of a full traversal. -/
theorem through (h : Itinerary plan paths visited legs calls listed) (hthrough : ∀ x ∈ legs, x.stop = .through) :
    plan.Traverses paths listed ∧ calls.Perm (plan.traversal paths listed) := by
  have hnone : ∀ stop : Stop, stop ≠ .through → stopping stop legs = [] := by
    intro stop hstop
    unfold stopping
    rw [List.filter_eq_nil_iff.mpr, List.map_nil]
    intro x hx heq
    exact hstop ((of_decide_eq_true heq).symm.trans (hthrough x hx))
  obtain ⟨hcalls, htasks, honce, hknown, -, hmet, -⟩ := h
  rw [hnone .ahead nofun, List.map_nil, List.append_nil] at hcalls
  rw [hnone .listing nofun, List.flatMap_nil, List.append_nil] at htasks
  rw [hnone .found nofun, List.nil_append] at honce
  simp only [hnone .found nofun, List.nil_append] at hknown
  have hreached : ∀ place, plan.Comes paths place → ∃ x ∈ legs, x.visit.place = place := by
    have htask : ∀ v ∈ plan.visits 0 paths ++ listed.flatMap plan.visitsIn, ∃ x ∈ legs, x.visit.place = v.place := by
      intro v hv
      obtain ⟨x, hx, rfl⟩ := List.mem_map.mp (htasks.symm.subset hv)
      exact ⟨x, hx, rfl⟩
    intro place hcomes
    induction hcomes with
    | top given => exact htask _ (List.mem_append_left _ given)
    | @inside place found names v comes info directory entries holds ih =>
      obtain ⟨x, hx, rfl⟩ := ih
      have hreaches : plan.Reaches paths x.visit.place found := ⟨comes, info, directory⟩
      have hlisted := (hknown _).mpr ⟨found, hreaches, hmet x hx (hthrough x hx) found hreaches⟩
      exact htask v (List.mem_append_right _ (List.mem_flatMap.mpr
        ⟨_, hlisted, Plan.mem_visitsIn.mpr ⟨names, entries, holds⟩⟩))
  refine ⟨⟨honce, fun place => (hknown place).trans (exists_congr fun found => ?_)⟩, ?_⟩
  · refine and_iff_left_of_imp fun hreaches => ?_
    obtain ⟨x, hx, rfl⟩ := hreached place hreaches.comes
    exact hmet x hx (hthrough x hx) found hreaches
  · refine hcalls.trans (List.Perm.append_right _ ?_)
    have hstated := htasks.map (Event.stated ·.place)
    rw [List.map_map] at hstated
    exact hstated

end Itinerary

/-- How far a task has got that has yet to begin a job. -/
def Job.stop : Job → Stop
  | info => .ahead
  | target _ => .astray
  | entries _ => .found
  | report _ _ => .through

/-- The same when the call of the job has begun. -/
def Job.calling : Job → Stop
  | info => .asked
  | target _ => .astray
  | entries _ => .listing
  | report _ _ => .through

def Phase.stop : Phase → Stop
  | fresh => .ahead
  | queued _ job => job.stop
  | calling job => job.calling
  | _ => .through

def Task.leg (t : Task) : Leg := ⟨t.visit, t.phase.stop⟩

namespace Cursor

def leg : Cursor → Stop
  | seek job | begin job => job.stop
  | answer job => job.calling
  | onInfo _ => .asked
  | enter found => if found.kind = .directory then .found else .through
  | onTarget _ _ => .astray
  | onEntries _ _ => .listing
  | giveBack next => next.leg
  | _ => .through

/-- What a task goes on with is what the file system has said. -/
def Backed (plan : Plan) (place : Path) : Cursor → Prop
  | onInfo found => plan.files.info place = .ok found
  | onEntries _ names => plan.files.entries place = .ok names
  | giveBack next => next.Backed plan place
  | _ => True

end Cursor

theorem Job.leg_forgone (t : Task) (job : Job) : (job.forgone t).leg = .through := by
  cases job <;> rfl

theorem Job.backed_forgone (plan : Plan) (place : Path) (t : Task) (job : Job) :
    (job.forgone t).Backed plan place := by
  cases job <;> trivial

def State.legs (s : State σ) : List Leg := s.tasks.map Task.leg

/-- It is known which calls are still to come. -/
def State.OnTour (plan : Plan) (paths : List Path) (s : State σ) : Prop :=
  ∃ listed, Itinerary plan paths s.visited s.legs s.starts listed

/-- The same in the midst of a step of the task `u`. -/
structure Touring (plan : Plan) (paths : List Path) (i : Nat) (u : Task) (c : Cursor) (s : State σ) : Prop where
  own : s.tasks[i]?.map (·.visit) = some u.visit
  backed : c.Backed plan u.visit.place
  tour : ∃ listed, Itinerary plan paths s.visited (⟨u.visit, c.leg⟩ :: (s.tasks.eraseIdx i).map Task.leg) s.starts
    listed

section Moves

variable {plan : Plan} {env : Environment σ} {paths : List Path} {i : Nat} {u : Task} {c d : Cursor}
  {s s' s₁ : State σ}

namespace Touring

theorem goOn (h : Touring plan paths i u c s) (htasks : s'.tasks = s.tasks) (hd : d.Backed plan u.visit.place)
    (htour : ∀ legs listed, Itinerary plan paths s.visited (⟨u.visit, c.leg⟩ :: legs) s.starts listed →
      ∃ listed', Itinerary plan paths s'.visited (⟨u.visit, d.leg⟩ :: legs) s'.starts listed') :
    Touring plan paths i u d s' := by
  obtain ⟨listed, hlisted⟩ := h.tour
  refine ⟨?_, hd, ?_⟩
  · rw [htasks]
    exact h.own
  · rw [htasks]
    exact htour _ _ hlisted

theorem still (h : Touring plan paths i u c s) (htasks : s'.tasks = s.tasks) (hvisited : s'.visited = s.visited)
    (hstarts : s'.starts = s.starts) (hleg : d.leg = c.leg) (hd : d.Backed plan u.visit.place) :
    Touring plan paths i u d s' := by
  refine h.goOn htasks hd fun _ listed hlisted => ⟨listed, ?_⟩
  rw [hvisited, hstarts, hleg]
  exact hlisted

theorem rest (h : Touring plan paths i u c s) (s' : State σ) {phase : Phase} (new : List Task)
    (htasks : s'.tasks = s.tasks ++ new)
    (htour : ∀ legs listed, Itinerary plan paths s.visited (⟨u.visit, c.leg⟩ :: legs) s.starts listed →
      ∃ listed', Itinerary plan paths s'.visited (⟨u.visit, phase.stop⟩ :: (legs ++ new.map Task.leg)) s'.starts
        listed') : (s'.setPhase i phase).OnTour plan paths := by
  obtain ⟨listed, hlisted⟩ := h.tour
  obtain ⟨listed', hlisted'⟩ := htour _ _ hlisted
  obtain ⟨a, ha, hvisit⟩ := Option.map_eq_some_iff.mp h.own
  have hlt := (List.getElem?_eq_some_iff.mp ha).1
  refine ⟨listed', hlisted'.perm ?_⟩
  have hperm := (perm_modify (getElem?_append_of_some ha new) fun t : Task => { t with phase }).map Task.leg
  rw [List.eraseIdx_append_of_lt_length hlt, List.map_cons, List.map_append] at hperm
  unfold State.legs
  change ((s'.tasks.modify i _).map _).Perm _
  rw [htasks, ← hvisit]
  exact hperm

theorem wait (h : Touring plan paths i u c s) (s' : State σ) {phase : Phase} (htasks : s'.tasks = s.tasks)
    (hvisited : s'.visited = s.visited) (hstarts : s'.starts = s.starts) (hleg : phase.stop = c.leg) :
    (s'.setPhase i phase).OnTour plan paths := by
  refine h.rest s' [] (htasks.trans (List.append_nil _).symm) fun _ listed hlisted => ⟨listed, ?_⟩
  rw [hvisited, hstarts, hleg, List.map_nil, List.append_nil]
  exact hlisted

theorem not_astray (h : Touring plan paths i u c s) : c.leg ≠ .astray := by
  obtain ⟨listed, hlisted⟩ := h.tour
  exact (hlisted.stays _ List.mem_cons_self).1

theorem move (h : Touring plan paths i u c s) (hguides : plan.Guides env) (hsilent : env.options.onPath = none)
    (hdistinct : plan.Distinct paths) (hfine : ¬ c.Sinks) :
    (c.move env i u s).Meets (fun v d s' => ¬ d.Sinks → Touring plan paths i v d s')
      (State.OnTour plan paths) := by
  have hbacked := h.backed
  cases c with
  | conclude result =>
    cases result with
    | ok share => exact h.wait s rfl rfl rfl rfl
    | error f => exact absurd trivial hfine
  | log tally =>
    simp only [Cursor.move]
    split
    · exact fun _ => h.still rfl rfl rfl rfl trivial
    · split
      · split
        · exact h.wait (s.note _) rfl rfl rfl rfl
        · exact fun _ => h.still rfl rfl rfl rfl trivial
      · exact fun _ => h.still rfl rfl rfl rfl trivial
  | accept tally => exact fun _ => h.still rfl rfl rfl rfl trivial
  | seek job =>
    simp only [Cursor.move]
    split
    · exact fun hsinks => absurd trivial hsinks
    · exact fun _ => h.still rfl rfl rfl rfl trivial
    · next admission ticket _ => exact h.wait { s with admission } rfl rfl rfl rfl
  | follow o =>
    cases o with
    | «over» result => exact fun _ => h.still rfl rfl rfl rfl trivial
    | counted info tally =>
      simp only [Cursor.move, hsilent]
      exact fun _ => h.still rfl rfl rfl rfl trivial
  | enter found =>
    simp only [Cursor.move]
    split
    · next hkind =>
      rw [hguides.links, if_neg Bool.false_ne_true]
      exact fun _ => h.still rfl rfl rfl (by simp [Cursor.leg, hkind]) trivial
    all_goals
      next hkind => exact fun _ => h.still rfl rfl rfl (by simp [Cursor.leg, hkind, Job.stop]) trivial
  | onInfo found =>
    have hinfo : plan.files.info u.visit.place = .ok found := hbacked
    have hsame : ∀ {found' : FileInfo}, plan.Reaches paths u.visit.place found' → found' = found :=
      fun hreaches => Except.ok.inj (hreaches.info.symm.trans hinfo)
    simp only [Cursor.move]
    split
    · next hskip =>
      refine fun _ => h.goOn rfl trivial fun _ _ hlisted => ⟨_, hlisted.pass fun found' hreaches => ?_⟩
      have hkind := hreaches.directory
      rw [hsame hreaches, hskip.1] at hkind
      cases hkind
    · split
      · next hmet =>
        refine fun _ => h.goOn rfl trivial fun _ _ hlisted => ⟨_, hlisted.pass fun found' hreaches => ?_⟩
        rw [hsame hreaches]
        exact hmet
      · next hnew => exact fun _ => h.goOn rfl trivial fun _ _ hlisted => ⟨_, hlisted.meet hdistinct hinfo hnew⟩
  | onTarget found target => exact absurd rfl h.not_astray
  | onEntries found names =>
    have hentries : plan.files.entries u.visit.place = .ok names := hbacked
    obtain ⟨listed, hlisted⟩ := h.tour
    have hname := (hlisted.stays _ List.mem_cons_self).2.1
    have hvisits : plan.visitsIn u.visit.place = State.visits env (names.map (Path.under u.visit.name)) := by
      unfold Plan.visitsIn
      rw [hguides.visits_eq, hentries, show u.visit.name = u.visit.place from hname]
    simp only [Cursor.move]
    split
    · next hnone =>
      subst hnone
      exact fun _ => h.goOn rfl trivial fun _ _ hlisted => ⟨_, hlisted.leave_nil hvisits⟩
    · refine h.rest (s.openLevel _ _ _ _ _) ((State.visits env (names.map (Path.under u.visit.name))).map
        fun v => ⟨s.levels.length, v, .fresh, false⟩) rfl fun _ listed hlisted => ⟨listed, ?_⟩
      have hleft := hlisted.leave
      rw [hvisits] at hleft
      rw [List.map_map]
      exact hleft
  | giveBack next =>
    simp only [Cursor.move]
    split
    · exact fun _ => h.still rfl rfl rfl rfl hbacked
    · exact fun hsinks => absurd trivial hsinks
  | onAnswer job f response =>
    cases response with
    | error g => exact fun hsinks => absurd trivial hsinks
    | ok taken =>
      simp only [Cursor.move]
      split
      · exact fun _ => h.still rfl rfl rfl (job.leg_forgone u) (job.backed_forgone plan _ u)
      · exact fun hsinks => absurd trivial hsinks
  | consult job f =>
    simp only [Cursor.move]
    split <;> exact fun _ => h.still rfl rfl rfl rfl trivial
  | offer job f =>
    simp only [Cursor.move]
    split
    · exact fun hsinks => absurd trivial hsinks
    · split
      · exact fun _ => h.still rfl rfl rfl rfl trivial
      · split
        · exact h.wait (s.note (.offered f)) rfl rfl rfl rfl
        · exact fun _ => h.still rfl rfl rfl rfl trivial
  | onReply info tally response =>
    rcases response with f | _ | _
    · simp only [Cursor.move]
      split <;> exact fun _ => h.still rfl rfl rfl rfl trivial
    · exact fun _ => h.still rfl rfl rfl rfl trivial
    · exact fun _ => h.still rfl rfl rfl rfl trivial
  | stop info tally reply =>
    simp only [Cursor.move]
    refine fun _ => h.still ?_ ?_ ?_ rfl trivial <;> split <;> rfl
  | report info tally =>
    simp only [Cursor.move, hsilent]
    exact fun _ => h.still rfl rfl rfl rfl trivial
  | begin job =>
    cases job with
    | info =>
      refine h.rest (s.note (.stated u.visit.place)) [] (List.append_nil _).symm fun _ listed hlisted => ⟨listed, ?_⟩
      rw [List.map_nil, List.append_nil]
      exact hlisted.ask
    | target => exact absurd rfl h.not_astray
    | entries found =>
      refine h.rest (s.note (.listed u.visit.place)) [] (List.append_nil _).symm fun _ listed hlisted =>
        ⟨u.visit.place :: listed, ?_⟩
      rw [List.map_nil, List.append_nil]
      exact hlisted.list
    | report info tally =>
      simp only [Cursor.move, hsilent]
      exact fun _ => h.still rfl rfl rfl rfl trivial
  | answer job =>
    cases job with
    | info =>
      simp only [Cursor.move, hguides.files]
      split
      · next hinfo => exact fun _ => h.still rfl rfl rfl rfl hinfo
      · next f hfails =>
        refine fun _ => h.goOn rfl trivial fun _ _ hlisted => ⟨_, hlisted.pass fun found hreaches => ?_⟩
        cases hfails.symm.trans hreaches.info
    | target => exact absurd rfl h.not_astray
    | entries found =>
      simp only [Cursor.move, hguides.files]
      split
      · next hentries => exact fun _ => h.still rfl rfl rfl rfl hentries
      · next f hfails =>
        refine fun _ => h.goOn rfl trivial fun _ _ hlisted => ⟨_, hlisted.leave_nil ?_⟩
        unfold Plan.visitsIn
        rw [hfails]
    | report info tally => exact fun _ => h.still rfl rfl rfl rfl trivial

/-- Where a step begins that is not bound to fail, the task is where it waited. -/
theorem enter (h : s.OnTour plan paths) (hu : s.tasks[i]? = some u) (henters : s.Enters env u c s₁)
    (hfine : ¬ c.Sinks) : Touring plan paths i u c s₁ := by
  obtain ⟨listed, hlisted⟩ := h
  have hperm := (perm_eraseIdx hu).map Task.leg
  have hnow : ∀ {d : Cursor} {s₂ : State σ}, s₂.tasks = s.tasks → s₂.visited = s.visited → s₂.starts = s.starts →
      d.leg = u.phase.stop → d.Backed plan u.visit.place → Touring plan paths i u d s₂ := by
    intro d s₂ htasks hvisited hstarts hleg hd
    refine ⟨?_, hd, listed, ?_⟩
    · rw [htasks, hu]
      rfl
    · rw [htasks, hvisited, hstarts, hleg]
      exact hlisted.perm hperm.symm
  cases henters with
  | ends | drops | refused | called | failed => exact absurd trivial hfine
  | starts phase | admitted phase _ _ | answers phase _ | consults phase _ | logged phase _ | resumes phase _ =>
    exact hnow rfl rfl rfl (by rw [phase]; rfl) trivial

end Touring

end Moves

section Runs

variable {plan : Plan} {env : Environment σ} {paths : List Path} {capacity : Int} {others : List Pool.Stake}
  {n : Nat} {s s' : State σ}

/-- A step of a walk that is not bound to fail. -/
theorem Shared.onTour_step (h : Shared capacity others s) (hguides : plan.Guides env)
    (hsilent : env.options.onPath = none) (hdistinct : plan.Distinct paths) {a : Actor}
    (hstep : s.step? env a = some s') (hfine : ¬ s'.Doomed) (htour : s.OnTour plan paths) :
    s'.OnTour plan paths := by
  cases a with
  | task i =>
    obtain ⟨t, ht, hstep⟩ := Option.bind_eq_some_iff.mp hstep
    refine (h.along_fine (P := Touring plan paths i) (Q := State.OnTour plan paths) ht hstep hfine ?_ ?_).2
    · exact fun c s₁ hentry => Touring.enter htour ht (State.enters hentry)
    · exact fun u c s₁ _ hup hnow => hnow.move hguides hsilent hdistinct hup
  | level k =>
    obtain ⟨l, hl, hstep⟩ := Option.bind_eq_some_iff.mp hstep
    obtain ⟨rfl, -, -⟩ := h.closes hl hstep hfine
    exact htour

theorem State.onTour_start (hguides : plan.Guides env) (caller : Caller σ) :
    (State.start env caller paths).OnTour plan paths := by
  have htasks : (State.start env caller paths).tasks = (plan.visits 0 paths).map fun v => ⟨0, v, .fresh, false⟩ := by
    rw [← hguides.visits_eq]
    rfl
  refine ⟨[], ?_⟩
  unfold State.legs
  rw [htasks, List.map_map]
  exact .start plan paths

theorem State.Steps.onTour (hsteps : State.Steps env n s s') (hshared : Shared capacity others s)
    (hguides : plan.Guides env) (hsilent : env.options.onPath = none) (hdistinct : plan.Distinct paths)
    (htour : s.OnTour plan paths) (hfine : ¬ s'.Doomed) : s'.OnTour plan paths :=
  hsteps.induct_fine hshared
    (fun _ _ _ hshared hstep hfine => hshared.onTour_step hguides hsilent hdistinct hstep hfine) htour hfine

/-- However the tasks take turns, the calls of a walk that is not bound to fail and has come back are those of a
full traversal. -/
theorem State.OnTour.traverses (h : s.OnTour plan paths) (hended : ∀ t ∈ s.tasks, t.phase.isEnded = true) :
    ∃ dirs, plan.Traverses paths dirs ∧ s.starts.Perm (plan.traversal paths dirs) := by
  obtain ⟨listed, hlisted⟩ := h
  refine ⟨listed, hlisted.through fun x hx => ?_⟩
  obtain ⟨t, ht, rfl⟩ := List.mem_map.mp hx
  have hover := hended t ht
  cases hphase : t.phase with
  | ended result => simp [Task.leg, hphase, Phase.stop]
  | _ => simp [hphase, Phase.isEnded] at hover

end Runs

end TreeCensus.Walk
