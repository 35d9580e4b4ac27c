import TreeCensus.Proofs.Walk.Chapters

/-!
# What is reported above an accepted item

When the path handler has accepted an item below the topmost level, it is told about the directory or link
above it as well, later, with a tally that takes the item in. The one exception is a directory that the
filter does not include and in which nothing but items without a counter was accepted: it is passed over.
That holds for every walk that comes back with a total, whatever faults were taken and whatever else was
going on.
-/

namespace TreeCensus.Walk

set_option autoImplicit false

variable {σ : Type}

/-- The path handler lets the item count. -/
def PathReply.accepts (reply : PathReply) : Bool :=
  match reply.answer with
  | .ok counts => counts
  | .error _ => false

namespace State

variable (s : State σ)

def register : Register where
  tiers := s.levels.map fun l => ⟨l.depth, l.total, l.stage⟩
  tasks := s.tasks.map fun t => (t.level, t.visit, t.phase.role)
  calls := s.trace.filterMap Event.reported?

/-- The accepted calls fall into chapters. -/
def Chaptered (env : Environment σ) (reply : PathCall → PathReply) : Prop :=
  ∃ chs, s.register.Kept env (fun c => (reply c).accepts) chs

variable {s} {i k : Nat} {l : Level} {v : Visit}

theorem register_setPhase (hv : s.tasks[i]?.map (·.visit) = some v) (phase : Phase) :
    (s.setPhase i phase).register = s.register.put i v phase.role := by
  obtain ⟨t, ht, rfl⟩ := Option.map_eq_some_iff.mp hv
  unfold register Register.put
  congr 1
  exact map_modify_at (g := fun t : Task => (t.level, t.visit, t.phase.role))
    (h := fun x => (x.1, t.visit, phase.role)) ht rfl

/-- A task that is given another visit is put there. -/
theorem register_move (s : State σ) (i : Nat) (visit : Visit) (role : Role) :
    (s.updateTask i fun t => { t with visit }).register.put i visit role = s.register.put i visit role := by
  unfold register Register.put updateTask
  dsimp only
  rw [map_modify (h := fun x : Nat × Visit × Role => (x.1, visit, x.2.2)) (fun _ => rfl),
    List.modify_modify_eq]
  rfl

theorem register_addTotal (s : State σ) (k : Nat) (t : Tally) :
    (s.updateLevel k fun l => { l with total := l.total.add t }).register = s.register.addTotal k t := by
  unfold register Register.addTotal updateLevel
  congr 1
  exact map_modify (h := fun l : Tier => { l with total := l.total.add t }) (fun _ => rfl) s.levels k

theorem register_openLevel (s : State σ) (env : Environment σ) (links : List Nat) (depth : Nat)
    (priority : Priority) (paths : List Path) :
    (s.openLevel env links depth priority paths).register =
      s.register.openLevel depth (visits env paths) := by
  unfold register Register.openLevel openLevel
  dsimp only
  rw [List.map_append, List.map_append, List.map_map, List.length_map]
  rfl

theorem register_close (hl : s.levels[k]? = some l) :
    (s.close k (.ok l.total)).register = s.register.close k := by
  unfold register Register.close
  congr 1
  exact map_modify_at (g := fun l : Level => Tier.mk l.depth l.total l.stage)
    (h := fun l : Tier => { l with stage := .closed (.ok l.total) }) hl rfl

theorem register_note {e : Event} (he : e.reported? = none) : (s.note e).register = s.register := by
  unfold register note
  dsimp only
  rw [List.filterMap_cons_none he]

theorem depths_register (s : State σ) (k : Nat) : s.register.depths[k]?.getD 0 = (s.level k).depth := by
  unfold Register.depths register level
  rw [List.getElem?_map, List.getElem?_map, Option.map_map]
  cases s.levels[k]? <;> rfl

theorem call_register (s : State σ) (u : Task) (info : FileInfo) (t : Tally) :
    s.register.call u.level u.visit info t = s.pathCall u info t := by
  unfold Register.call pathCall
  rw [depths_register]

theorem tier_register (hl : s.levels[k]? = some l) : s.register.tiers[k]? = some ⟨l.depth, l.total, l.stage⟩ := by
  unfold register
  rw [List.getElem?_map, hl]
  rfl

end State

/-- The role of a task at a cursor. -/
def Cursor.Plays (env : Environment σ) (reply : PathCall → PathReply) (v : Visit)
    (call : FileInfo → Tally → PathCall) : Cursor → Role → Prop
  | conclude _, role | log _, role => role = .finished
  | accept t, role | onReply _ t (.ok true), role => ∃ i, role = .told i t ∧ (reply (call i t)).accepts = true
  | seek job, role | begin job, role => role = job.role
  | follow o, role => role = o.role
  | enter _, role | onInfo _, role => role = .ahead
  | onTarget i _, role => role = .found i
  | onEntries i names, role => role = .found i ∧ env.files.entries v.place = .ok names
  | giveBack next, role => next.Plays env reply v call role
  | onAnswer job _ _, role | consult job _, role | offer job _, role => role = job.failed
  | onReply _ _ (.ok false), role => role = .finished
  | onReply _ _ (.error f), role => f.isCancellation = true ∨ role = .finished
  | stop i t response, role => role = .told i t ∧ response = reply (call i t)
  | report i t, role => role = .told i t
  | answer job, role => role = job.begun

/-- The register in the midst of a step of the task `u` in some role. -/
structure Ascending (env : Environment σ) (reply : PathCall → PathReply) (i : Nat) (u : Task) (role : Role)
    (s : State σ) : Prop where
  own : s.tasks[i]?.map (fun t => (t.level, t.visit)) = some (u.level, u.visit)
  kept : ∃ chs, (s.register.put i u.visit role).Kept env (fun c => (reply c).accepts) chs

/-- The same at a cursor. -/
def Cursor.Ascends (env : Environment σ) (reply : PathCall → PathReply) (i : Nat) (u : Task) (c : Cursor)
    (s : State σ) : Prop :=
  ∃ role, c.Plays env reply u.visit (s.register.call u.level u.visit) role ∧ Ascending env reply i u role s

/-- A role that nobody relies on. -/
def Role.Idle : Role → Prop
  | ahead | found _ => True
  | _ => False

/-- A role that a task can take on by itself. -/
def Role.Plain : Role → Prop
  | found i => i.Opens
  | owes i t => Counts i t
  | ahead | finished => True
  | _ => False

theorem plain_settle {verdict : Verdict} {outer : List FileInfo} {i : FileInfo} {t : Tally} (ht : t.Proper) :
    (settle verdict outer i t).role.Plain := by
  cases h : settle verdict outer i t with
  | «over» share => trivial
  | counted j u => exact counts_settle ht h

theorem plain_unwind {verdict : Verdict} {outer : List FileInfo} : (unwind verdict none outer).role.Plain := by
  cases h : unwind verdict none outer with
  | «over» share => trivial
  | counted j u => exact counts_unwind h

namespace Ascending

variable {env : Environment σ} {reply : PathCall → PathReply} {i : Nat} {u : Task} {old role : Role}
  {s s' : State σ} {f : FileInfo} {t : Tally}

theorem task (h : Ascending env reply i u role s) (role' : Role) :
    (s.register.put i u.visit role').tasks[i]? = some (u.level, u.visit, role') := by
  obtain ⟨t, ht, heq⟩ := Option.map_eq_some_iff.mp h.own
  obtain ⟨hlevel, hvisit⟩ := Prod.mk.inj heq
  rw [← hlevel]
  have htask : s.register.tasks[i]? = some (t.level, t.visit, t.phase.role) := by
    unfold State.register
    rw [List.getElem?_map, ht]
    rfl
  exact Register.getElem?_put htask _ _

theorem still (h : Ascending env reply i u role s) (htasks : s'.tasks = s.tasks)
    (hregister : s'.register = s.register) : Ascending env reply i u role s' :=
  ⟨htasks ▸ h.own, hregister ▸ h.kept⟩

theorem noted (h : Ascending env reply i u role s) {e : Event} (he : e.reported? = none) :
    Ascending env reply i u role (s.note e) :=
  h.still rfl (State.register_note he)

/-- The task takes on another role, and nothing else happens. -/
theorem turn (h : Ascending env reply i u old s) (hold : old.Idle) (hrole : role.Plain) :
    Ascending env reply i u role s := by
  obtain ⟨chs, hkept⟩ := h.kept
  have hseat := hkept.tasks i _ _ _ (h.task old)
  have hfits : ∀ depths parents, role.Fits depths parents u.level u.visit.name := by
    intro depths parents
    cases role with
    | awaits | told => exact hrole.elim
    | _ => exact hrole
  have hnone : (s.register.put i u.visit old).outstanding (fun c => (reply c).accepts)
      (u.level, u.visit, old) = [] := by
    cases old <;> first | rfl | exact hold.elim
  have hnone' : (s.register.put i u.visit old).outstanding (fun c => (reply c).accepts)
      (u.level, u.visit, role) = [] := by
    cases role <;> first | rfl | exact hrole.elim
  have hfree : ∀ k, ¬ old.Bears k := by
    intro k
    cases old <;> first | exact not_false | exact hold.elim
  have hturn := hkept.turn (h.task old) (hseat.turn (hfits _ _)) hnone hnone' hfree
  rw [Register.put_put] at hturn
  exact ⟨h.own, chs, hturn⟩

/-- The path handler has not accepted the item. -/
theorem dismiss (h : Ascending env reply i u (.told f t) s)
    (hnot : (reply (s.register.call u.level u.visit f t)).accepts = false) :
    Ascending env reply i u .finished s := by
  obtain ⟨chs, hkept⟩ := h.kept
  have hseat := hkept.tasks i _ _ _ (h.task _)
  have hnone : (s.register.put i u.visit (.told f t)).outstanding (fun c => (reply c).accepts)
      (u.level, u.visit, .told f t) = [] :=
    List.filter_cons_of_neg (p := fun c => (reply c).accepts) (ne_true_of_eq_false hnot)
  have hseat' : Seated env s.register.depths (chs.map (·.parent)) u.level u.visit .finished := hseat.turn trivial
  have hturn := hkept.turn (h.task _) hseat' hnone rfl fun _ => not_false
  rw [Register.put_put] at hturn
  exact ⟨h.own, chs, hturn⟩

theorem rest (h : Ascending env reply i u role s) (phase : Phase) (hphase : phase.role = role) :
    (s.setPhase i phase).Chaptered env reply := by
  have hvisit : s.tasks[i]?.map (·.visit) = some u.visit := by
    obtain ⟨t, ht, heq⟩ := Option.map_eq_some_iff.mp h.own
    rw [ht, ← (Prod.mk.inj heq).2]
    rfl
  unfold State.Chaptered
  rw [State.register_setPhase hvisit, hphase]
  exact h.kept

theorem tell (h : Ascending env reply i u (.owes f t) s) :
    Ascending env reply i u (.told f t) (s.note (.reported (s.pathCall u f t))) := by
  obtain ⟨chs, hkept⟩ := h.kept
  have htold := hkept.tell (h.task _)
  rw [Register.tell_put, Register.put_put, Register.call_put, s.call_register] at htold
  exact ⟨h.own, chs, htold⟩

/-- The tally of the item is added to the total of its level. -/
theorem accept (h : Ascending env reply i u (.told f t) s)
    (haccepted : (reply (s.register.call u.level u.visit f t)).accepts = true) {l : Level}
    (hl : s.levels[u.level]? = some l) (hopen : l.stage.isClosed = false) :
    Ascending env reply i u .finished (s.updateLevel u.level fun l => { l with total := l.total.add t }) := by
  obtain ⟨chs, hkept⟩ := h.kept
  have hadded := hkept.accept (h.task _) haccepted (State.tier_register hl) hopen
  rw [Register.addTotal_put, Register.put_put, ← State.register_addTotal] at hadded
  exact ⟨h.own, _, hadded⟩

theorem descend (h : Ascending env reply i u (.found f) s) {names : List Text}
    (hentries : env.files.entries u.visit.place = .ok names) (links : List Nat) (priority : Priority) :
    ((s.openLevel env links ((s.level u.level).depth + 1) priority
      (names.map (Path.under u.visit.name))).setPhase i (.descending s.levels.length f)).Chaptered env reply := by
  obtain ⟨chs, hkept⟩ := h.kept
  obtain ⟨t, ht, heq⟩ := Option.map_eq_some_iff.mp h.own
  have hdepth : s.register.depths[u.level]? = some (s.level u.level).depth := by
    have htier : u.level < s.register.depths.length := (hkept.tasks i _ _ _ (h.task _)).tier
    rw [← s.depths_register, List.getElem?_eq_getElem htier]
    rfl
  have hvisits : ∀ w ∈ State.visits env (names.map (Path.under u.visit.name)),
      w.outer = [] ∧ w.verdict = env.verdict w.name ∧ env.Holds u.visit.name w.name := by
    intro w hw
    obtain ⟨p, hp, hspot, hverdict⟩ := Environment.visit_spot hw
    obtain ⟨name, hname, rfl⟩ := List.mem_map.mp hp
    exact ⟨(State.mem_visits hw).1, hverdict, _, names, name, hentries, hname, congrArg Spot.name hspot⟩
  have hdescend := hkept.descend (h.task _) hdepth hvisits
  have hlt : i < s.register.tasks.length := by
    unfold State.register
    rw [List.length_map]
    exact (List.getElem?_eq_some_iff.mp ht).1
  have hlength : s.levels.length = (s.register.put i u.visit (.found f)).tiers.length := (List.length_map _).symm
  have hvisit : (s.openLevel env links ((s.level u.level).depth + 1) priority
      (names.map (Path.under u.visit.name))).tasks[i]?.map (·.visit) = some u.visit := by
    rw [← (Prod.mk.inj heq).2]
    exact congrArg (Option.map _) (getElem?_append_of_some ht _)
  rw [Register.openLevel_put _ _ hlt, Register.put_put, ← hlength, ← s.register_openLevel env links _ priority]
    at hdescend
  unfold State.Chaptered
  rw [State.register_setPhase hvisit]
  exact ⟨_, hdescend⟩

theorem goOn (h : Ascending env reply i u (.found f) s) (place : Path) :
    let visit := { u.visit with place, outer := f :: u.visit.outer }
    Ascending env reply i { u with visit } .ahead (s.updateTask i fun t => { t with visit }) := by
  intro visit
  obtain ⟨chs, hkept⟩ := h.kept
  obtain ⟨t, ht, heq⟩ := Option.map_eq_some_iff.mp h.own
  have hseat := hkept.tasks i _ _ _ (h.task _)
  have houter : ∀ g ∈ visit.outer, g.Opens := by
    intro g hg
    rcases List.mem_cons.mp hg with rfl | hg
    · exact hseat.fits
    · exact hseat.outer g hg
  have hseat' : Seated env s.register.depths (chs.map (·.parent)) u.level visit .ahead :=
    ⟨hseat.tier, hseat.verdict, houter, hseat.held, trivial⟩
  have hturn := hkept.turn (h.task _) hseat' rfl rfl fun _ => not_false
  rw [Register.put_put, ← State.register_move] at hturn
  refine ⟨?_, chs, hturn⟩
  change (s.tasks.modify i _)[i]?.map _ = _
  rw [List.getElem?_modify_eq, ht]
  exact congrArg some (Prod.ext (Prod.mk.inj heq).1 rfl)

/-- A job whose fault was taken. -/
theorem forgo {job : Job} (h : Ascending env reply i u job.failed s) :
    (job.forgone u).Ascends env reply i u s := by
  cases job with
  | info => exact ⟨_, rfl, h.turn trivial plain_unwind⟩
  | target found | entries found => exact ⟨_, rfl, h.turn trivial (plain_settle found.proper_tally)⟩
  | report found tally => exact ⟨_, rfl, h⟩

theorem answer (h : Ascending env reply i u (.told f t) s) {response : Except Fault Bool}
    (hresponse : response = (reply (s.register.call u.level u.visit f t)).answer ∨
      ∃ g, response = .error g ∧ g.isCancellation = true) :
    (Cursor.onReply f t response).Ascends env reply i u s := by
  rcases hresponse with hanswer | ⟨g, rfl, hcancels⟩
  · have haccepts : ∀ {counts : Bool}, (response = .ok counts ∨ counts = false ∧ ∃ g, response = .error g) →
        (reply (s.register.call u.level u.visit f t)).accepts = counts := by
      rintro counts (heq | ⟨rfl, g, heq⟩) <;> simp only [PathReply.accepts, ← hanswer, heq]
    rcases response with g | _ | _
    · exact ⟨.finished, .inr rfl, h.dismiss (haccepts (.inr ⟨rfl, g, rfl⟩))⟩
    · exact ⟨.finished, rfl, h.dismiss (haccepts (.inl rfl))⟩
    · exact ⟨_, ⟨f, rfl, haccepts (.inl rfl)⟩, h⟩
  · exact ⟨_, .inl hcancels, h⟩

/-- The path handler may fail because the walk has been stopped. -/
theorem checked (h : Ascending env reply i u (.told f t) s) {response : PathReply}
    (hresponse : response = reply (s.register.call u.level u.visit f t)) (token : Option Nat) :
    (Cursor.onReply f t (if response.check then
      match s.admission.called? token with
      | some g => .error g
      | none => response.answer
      else response.answer)).Ascends env reply i u s := by
  apply h.answer
  rw [← hresponse]
  split
  · cases hcalled : s.admission.called? token with
    | none => exact .inl rfl
    | some g =>
      obtain ⟨_, _, hreason⟩ := Option.bind_eq_some_iff.mp hcalled
      obtain ⟨r, _, rfl⟩ := Option.map_eq_some_iff.mp hreason
      exact .inr ⟨_, rfl, Fault.isCancellation_ofReason r⟩
  · exact .inl rfl

end Ascending

namespace Cursor

variable {env : Environment σ} {reply : PathCall → PathReply} {i : Nat} {u : Task} {c : Cursor} {s : State σ}
  {handler : Handler σ PathCall PathReply}

/-- Every move of a task that does not end with a fault keeps the chapters. -/
theorem Ascends.move (h : c.Ascends env reply i u s) (hhandler : env.options.onPath = some handler)
    (hpure : ∀ memory call, (handler.act memory call).2 = reply call)
    (hopen : ∃ l, s.levels[u.level]? = some l ∧ l.stage.isClosed = false) (hfine : ¬ c.Sinks) :
    (c.move env i u s).Meets (fun v d s' => ¬ d.Sinks → d.Ascends env reply i v s')
      (fun s' => s'.Chaptered env reply) := by
  obtain ⟨role, hplays, hnow⟩ := h
  cases c with
  | conclude result =>
    cases result with
    | error f => exact absurd trivial hfine
    | ok share => exact hnow.rest (.ended (.ok share)) hplays.symm
  | log tally =>
    obtain rfl : role = .finished := hplays
    simp only [Cursor.move]
    split
    · exact fun _ => ⟨_, rfl, hnow⟩
    · split
      · have hnoted := hnow.noted (e := .logged (logLine u.visit.name tally)) rfl
        split
        · exact hnoted.rest (.logging tally) rfl
        · exact fun _ => ⟨_, rfl, hnoted⟩
      · exact fun _ => ⟨_, rfl, hnow⟩
  | accept tally =>
    obtain ⟨f, rfl, haccepted⟩ := hplays
    obtain ⟨l, hl, hopen⟩ := hopen
    exact fun _ => ⟨_, rfl, hnow.accept haccepted hl hopen⟩
  | seek job =>
    obtain rfl : role = job.role := hplays
    simp only [Cursor.move]
    split
    · exact fun hsinks => absurd trivial hsinks
    · exact fun _ => ⟨_, rfl, hnow.still rfl rfl⟩
    · next admission ticket _ =>
      have hasked : Ascending env reply i u job.role { s with admission } := hnow.still rfl rfl
      exact hasked.rest (.queued ticket job) rfl
  | follow o =>
    obtain rfl : role = o.role := hplays
    cases o with
    | «over» result => exact fun _ => ⟨_, rfl, hnow⟩
    | counted info tally =>
      simp only [Cursor.move, hhandler]
      exact fun _ => ⟨_, rfl, hnow⟩
  | enter info =>
    obtain rfl : role = .ahead := hplays
    have hsettled : (settle u.visit.verdict u.visit.outer info info.tally).role.Plain :=
      plain_settle info.proper_tally
    simp only [Cursor.move]
    split
    · next hkind =>
      split
      · exact fun _ => ⟨.found info, rfl, hnow.turn trivial (.inr hkind)⟩
      · exact fun _ => ⟨_, rfl, hnow.turn trivial hsettled⟩
    · next hkind => exact fun _ => ⟨.found info, rfl, hnow.turn trivial (.inl hkind)⟩
    · exact fun _ => ⟨_, rfl, hnow.turn trivial hsettled⟩
    · exact fun _ => ⟨_, rfl, hnow.turn trivial hsettled⟩
  | onInfo info =>
    obtain rfl : role = .ahead := hplays
    simp only [Cursor.move]
    split
    · exact fun _ => ⟨_, rfl, hnow.turn trivial plain_unwind⟩
    · split
      · exact fun _ => ⟨_, rfl, hnow.turn trivial plain_unwind⟩
      · exact fun _ => ⟨_, rfl, hnow.still rfl rfl⟩
  | onTarget info target =>
    obtain rfl : role = .found info := hplays
    simp only [Cursor.move]
    split
    · exact fun _ => ⟨_, rfl, hnow.turn trivial (plain_settle info.proper_tally)⟩
    · exact fun _ => ⟨_, rfl, hnow.goOn _⟩
  | onEntries info names =>
    obtain ⟨rfl, hentries⟩ := hplays
    simp only [Cursor.move]
    split
    · exact fun _ => ⟨_, rfl, hnow.turn trivial (plain_settle info.proper_tally)⟩
    · exact hnow.descend hentries _ _
  | giveBack next =>
    simp only [Cursor.move]
    split
    · exact fun _ => ⟨role, hplays, hnow.still rfl rfl⟩
    · exact fun hsinks => absurd trivial hsinks
  | onAnswer job f response =>
    obtain rfl : role = job.failed := hplays
    cases response with
    | error g => exact fun hsinks => absurd trivial hsinks
    | ok taken =>
      simp only [Cursor.move]
      split
      · exact fun _ => hnow.forgo
      · exact fun hsinks => absurd trivial hsinks
  | consult job f =>
    obtain rfl : role = job.failed := hplays
    simp only [Cursor.move]
    split
    · exact fun _ => ⟨_, rfl, hnow⟩
    · exact fun _ => ⟨_, rfl, hnow.still rfl rfl⟩
  | offer job f =>
    obtain rfl : role = job.failed := hplays
    simp only [Cursor.move]
    split
    · exact fun hsinks => absurd trivial hsinks
    · split
      · exact fun _ => ⟨_, rfl, hnow⟩
      · have hnoted := hnow.noted (e := .offered f) rfl
        split
        · exact hnoted.rest (.consulting job f) rfl
        · exact fun _ => ⟨_, rfl, hnoted⟩
  | onReply info tally response =>
    rcases response with f | _ | _
    · simp only [Cursor.move]
      rcases hplays with hcancels | rfl
      · rw [if_pos hcancels]
        exact fun hsinks => absurd trivial hsinks
      · split
        · exact fun hsinks => absurd trivial hsinks
        · exact fun _ => ⟨_, rfl, hnow⟩
    · obtain rfl : role = .finished := hplays
      exact fun _ => ⟨_, rfl, hnow⟩
    · exact fun _ => ⟨role, hplays, hnow⟩
  | stop info tally response =>
    obtain ⟨rfl, hresponse⟩ := hplays
    cases hstop : response.stop with
    | none =>
      simp only [Cursor.move, hstop]
      exact fun _ => hnow.checked hresponse _
    | some r =>
      have hstopped : Ascending env reply i u (.told info tally)
          { s with admission := s.admission.cancel callerToken r } := hnow.still rfl rfl
      simp only [Cursor.move, hstop]
      exact fun _ => hstopped.checked hresponse _
  | report info tally =>
    obtain rfl : role = .told info tally := hplays
    simp only [Cursor.move, hhandler]
    refine fun _ => ⟨_, ⟨rfl, ?_⟩, hnow.still rfl rfl⟩
    rw [hpure, ← s.call_register]
    rfl
  | begin job =>
    obtain rfl : role = job.role := hplays
    cases job with
    | report info tally =>
      simp only [Cursor.move, hhandler]
      split
      · exact hnow.tell.rest (.calling (.report info tally)) rfl
      · exact fun _ => ⟨_, rfl, hnow.tell⟩
    | info =>
      have hnoted := hnow.noted (e := .stated u.visit.place) rfl
      exact hnoted.rest (.calling .info) rfl
    | target found =>
      have hnoted := hnow.noted (e := .linkRead u.visit.place) rfl
      exact hnoted.rest (.calling (.target found)) rfl
    | entries found =>
      have hnoted := hnow.noted (e := .listed u.visit.place) rfl
      exact hnoted.rest (.calling (.entries found)) rfl
  | answer job =>
    obtain rfl : role = job.begun := hplays
    cases job with
    | info | target found =>
      simp only [Cursor.move]
      split <;> exact fun _ => ⟨_, rfl, hnow⟩
    | entries found =>
      simp only [Cursor.move]
      split
      · next hentries => exact fun _ => ⟨_, ⟨rfl, hentries⟩, hnow⟩
      · exact fun _ => ⟨_, rfl, hnow⟩
    | report info tally => exact fun _ => ⟨_, rfl, hnow⟩

end Cursor

section Steps

variable {env : Environment σ} {reply : PathCall → PathReply} {capacity : Int} {others others₀ : List Pool.Stake}
  {i : Nat} {t u : Task} {c : Cursor} {s s' s₀ s₁ : State σ} {handler : Handler σ PathCall PathReply}
  {incidents : List Incident}

theorem State.Chaptered.enter (h : s.Chaptered env reply) (ht : s.tasks[i]? = some t)
    (henters : s.Enters env t c s₁) (hfine : ¬ c.Sinks) : c.Ascends env reply i t s₁ := by
  obtain ⟨chs, hkept⟩ := h
  have hown : s.tasks[i]?.map (fun t => (t.level, t.visit)) = some (t.level, t.visit) := by rw [ht]; rfl
  have htask : s.register.tasks[i]? = some (t.level, t.visit, t.phase.role) := by
    unfold State.register
    rw [List.getElem?_map, ht]
    rfl
  have hnow : ∀ {role : Role}, role = t.phase.role → Ascending env reply i t role s := by
    rintro role rfl
    refine ⟨hown, chs, ?_⟩
    rw [Register.put_self htask]
    exact hkept
  cases henters with
  | ends => exact absurd trivial hfine
  | drops => exact absurd trivial hfine
  | starts phase => exact ⟨_, rfl, hnow (by rw [phase]; rfl)⟩
  | refused => exact absurd trivial hfine
  | called => exact absurd trivial hfine
  | admitted phase _ _ =>
    exact ⟨_, rfl, (hnow (by rw [phase]; rfl)).still rfl rfl⟩
  | answers phase _ => exact ⟨_, rfl, hnow (by rw [phase]; rfl)⟩
  | consults phase _ => exact ⟨_, rfl, hnow (by rw [phase]; rfl)⟩
  | logged phase _ => exact ⟨_, rfl, hnow (by rw [phase]; rfl)⟩
  | failed => exact absurd trivial hfine
  | @resumes k found total phase closed =>
    cases hlevel : s.levels[k]? with
    | none =>
      unfold State.level at closed
      rw [hlevel] at closed
      cases closed
    | some l =>
      rw [s.level_of_getElem? hlevel] at closed
      rw [phase] at htask
      exact ⟨_, rfl, hown, chs, hkept.resume htask (State.tier_register hlevel) closed⟩

/-- In the midst of its step the level of a task is open. -/
theorem Shared.level_open_amid (h : Shared capacity others s) (ht : s.tasks[i]? = some t)
    (hamid : s.Amid env i u c s₁) : ∃ l, s₁.levels[u.level]? = some l ∧ l.stage.isClosed = false := by
  obtain ⟨hlevel, -, hranks⟩ := hamid.unmoved ht
  obtain ⟨l, hl, hopen⟩ := h.level_open ht (h.advances ht hamid).1.1
  have hrank := s.rank_of_level t.level hl
  rw [← hranks] at hrank
  obtain ⟨l', hl', heq⟩ := State.level_of_rank _ hrank
  refine ⟨l', hlevel ▸ hl', ?_⟩
  rw [show l'.stage = l.stage from congrArg Rank.stage heq]
  exact hopen

/-- When a walk has come back, all tasks are through. -/
theorem Shared.registered (h : Shared capacity others s) (hresult : s.result?.isSome = true) :
    ∀ x ∈ s.register.tasks, x.2.2 = .finished := by
  intro x hx
  obtain ⟨t, ht, rfl⟩ := List.mem_map.mp hx
  have hended := State.ended_of_result h.nested hresult
    (List.mem_map_of_mem (f := fun t : Task => (t.level, t.phase)) ht)
  cases hphase : t.phase with
  | ended => rfl
  | _ => simp [hphase, Phase.isEnded] at hended

/-- A step of a task that is not bound to fail keeps the chapters, and so do its moves. -/
theorem Shared.ascends_task (h : Shared capacity others s) (hhandler : env.options.onPath = some handler)
    (hpure : ∀ memory call, (handler.act memory call).2 = reply call) (ht : s.tasks[i]? = some t)
    (hstep : s.stepTask? env i t = some s') (hfine : ¬ s'.Doomed) (hchaptered : s.Chaptered env reply) :
    (∀ u c s₁, s.Amid env i u c s₁ → c.Ascends env reply i u s₁) ∧ s'.Chaptered env reply := by
  refine h.along_fine (Q := fun s' => s'.Chaptered env reply) ht hstep hfine
    (fun c s₁ hentry => hchaptered.enter ht (State.enters hentry)) ?_
  intro u c s₁ hamid hup hnow
  exact hnow.move hhandler hpure (h.level_open_amid ht hamid) hup

theorem Shared.chaptered_step (h : Shared capacity others s) (hhandler : env.options.onPath = some handler)
    (hpure : ∀ memory call, (handler.act memory call).2 = reply call) {a : Actor}
    (hstep : s.step? env a = some s') (hfine : ¬ s'.Doomed) (hchaptered : s.Chaptered env reply) :
    s'.Chaptered env reply := by
  cases a with
  | task i =>
    obtain ⟨t, ht, hstep⟩ := Option.bind_eq_some_iff.mp hstep
    exact (h.ascends_task hhandler hpure ht hstep hfine hchaptered).2
  | level k =>
    obtain ⟨l, hl, hstep⟩ := Option.bind_eq_some_iff.mp hstep
    obtain ⟨rfl, -, -⟩ := h.closes hl hstep hfine
    obtain ⟨chs, hkept⟩ := hchaptered
    unfold State.Chaptered
    rw [State.register_close hl]
    exact ⟨chs, hkept.close k⟩

theorem State.Passes.chaptered (hshared : Shared capacity others₀ s₀)
    (hhandler : env.options.onPath = some handler)
    (hpure : ∀ memory call, (handler.act memory call).2 = reply call) (hstart : s₀.Chaptered env reply)
    (h : s₀.Passes env (fun _ => True) others₀ incidents s others) (hfine : ¬ s.Doomed) :
    s.Chaptered env reply :=
  h.induct_fine (P := fun _ s => s.Chaptered env reply) hshared hstart
    (fun _ _ _ _ _ before step _ hfine => (before.shared hshared).chaptered_step hhandler hpure step hfine)
    (fun _ _ _ _ => id) hfine

theorem State.chaptered_start (env : Environment σ) (reply : PathCall → PathReply) (caller : Caller σ)
    (paths : List Path) : (State.start env caller paths).Chaptered env reply := by
  refine ⟨[⟨[], []⟩], ?_⟩
  unfold State.start
  rw [State.register_openLevel]
  refine Register.kept_start _ fun w hw => ?_
  obtain ⟨_, _, _, hverdict⟩ := Environment.visit_spot hw
  exact ⟨(State.mem_visits hw).1, hverdict⟩

end Steps

/-- The calls of the path handler about items that it let count, the latest first. -/
def State.accepted (s : State σ) (reply : PathCall → PathReply) : List PathCall :=
  (s.trace.filterMap Event.reported?).filter fun c => (reply c).accepts

/-- The accepted calls below the topmost level fall into chapters, one for each directory. After all calls of a
chapter the path handler is told about the directory, or about the outermost link that led to it, one level
above, with a tally that takes the chapter in; or the filter does not include the directory, and the chapter
is about items that have no counter. -/
structure State.Ascends (env : Environment σ) (reply : PathCall → PathReply) (s : State σ)
    (chapters : List Chapter) : Prop where
  calls : ((s.accepted reply).filter (0 < ·.level)).Perm (chapters.flatMap (·.calls))
  held : ∀ ch ∈ chapters, ∀ c ∈ ch.calls, env.Holds ch.parent c.path ∧ Counts c.info c.tally
  told : ∀ ch ∈ chapters, ch.Told (s.trace.filterMap Event.reported?) ∨ ch.Dropped env

/-- What the path handler accepts, it is told about the parent of as well, whatever the file system is like and
however the tasks take turns, if the handler always answers the same to the same call. -/
theorem State.Passes.ascends {env : Environment σ} {handler : Handler σ PathCall PathReply}
    {reply : PathCall → PathReply} (hhandler : env.options.onPath = some handler)
    (hpure : ∀ memory call, (handler.act memory call).2 = reply call) {caller : Caller σ} {paths : List Path}
    {others₀ others : List Pool.Stake} {incidents : List Incident} {s : State σ} {total : Tally}
    (hpool : Pool.Serves caller.pool others₀)
    (h : (State.start env caller paths).Passes env (fun _ => True) others₀ incidents s others)
    (hresult : s.result? = some (.ok total)) : ∃ chapters, s.Ascends env reply chapters := by
  have hshared := Shared.start env paths hpool
  have hfine := (h.shared hshared).not_doomed hresult
  obtain ⟨chs, hkept⟩ := h.chaptered hshared hhandler hpure (State.chaptered_start env reply caller paths) hfine
  obtain ⟨hcalls, hchapters⟩ := hkept.through ((h.shared hshared).registered (by rw [hresult]; rfl))
  exact ⟨chs.tail, hcalls, fun ch hch => (hchapters ch hch).1, fun ch hch => (hchapters ch hch).2⟩

/-- Two directories that the filter does not include: `b` holds a fifo and `c` a file. Both of these are
reported and accepted, and then `c` is reported above the file, but nothing is above the fifo. -/
theorem State.Passes.ascends_beside_fifo : ∃ (env : Environment Unit) (handler : Handler Unit PathCall PathReply)
    (reply : PathCall → PathReply) (caller : Caller Unit) (paths : List Path) (incidents : List Incident)
    (s : State Unit) (total : Tally),
    env.options.onPath = some handler ∧ (∀ memory call, (handler.act memory call).2 = reply call) ∧
    Pool.Serves caller.pool [] ∧
    (State.start env caller paths).Passes env (fun _ => True) [] incidents s [] ∧
    s.result? = some (.ok total) ∧
    (s.accepted reply).map (fun c => (c.path, c.level)) =
      [(['/', 'c'], 0), (['/', 'c', '/', 'f'], 1), (['/', 'b', '/', 'p'], 1)] ∧
    ∃ chapters, s.Ascends env reply chapters := by
  let files : FileSystem := {
    cwd := ['/']
    info := fun p =>
      if p = ['/', 'b'] then .ok ⟨.directory, 0, 3, 1, 1⟩
      else if p = ['/', 'c'] then .ok ⟨.directory, 0, 3, 1, 2⟩
      else if p = ['/', 'b', '/', 'p'] then .ok ⟨.other, 0, 7, 1, 3⟩
      else .ok ⟨.file, 5, 9, 1, 4⟩
    target := fun _ => .ok []
    entries := fun p => .ok (if p = ['/', 'b'] then [['p']] else [['f']])
    content := fun _ => .ok [] }
  let verdict : Path → Verdict := fun p => if p = ['/', 'b'] ∨ p = ['/', 'c'] then .unmatched else .included
  let reply : PathCall → PathReply := fun _ => ⟨none, false, .ok true⟩
  let handler : Handler Unit PathCall PathReply := ⟨false, fun _ c => ((), reply c)⟩
  let paths : List Path := [['/', 'b'], ['/', 'c']]
  let caller : Caller Unit := ⟨⟨1, 0, [], [], 0⟩, true, none, ()⟩
  let options : Options Unit := ⟨.several paths, false, some verdict, some handler, none, none, defaultPriority⟩
  let env : Environment Unit := ⟨files, options, fun _ => none⟩
  have hserves : Pool.Serves caller.pool [] := by
    refine ⟨⟨?_, ?_, ?_, ?_, ?_, ?_, ?_, ?_⟩, ?_⟩ <;> decide
  have hstart : (State.start env caller paths).Passes env (fun _ => True) [] []
      (State.start env caller paths) [] := .refl
  obtain ⟨n, hrun⟩ := State.steps_run env 16 (State.start env caller paths)
  obtain ⟨actors, hpasses⟩ := hstart.onward hrun
  have hresult : ((State.start env caller paths).run env 16).result? =
      some (.ok ⟨5, 1, 1, 0, 9⟩) := by cbv
  refine ⟨env, handler, reply, caller, paths, _, _, _, rfl, fun _ _ => rfl, hserves, hpasses, hresult, ?_,
    hpasses.ascends rfl (fun _ _ => rfl) hserves hresult⟩
  cbv

end TreeCensus.Walk
