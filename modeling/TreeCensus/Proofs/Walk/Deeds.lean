import TreeCensus.Proofs.Walk.Permits

/-!
# What steps do

What a task means to the others is its level, its phase and whether it has been told to end; what a
level means to the others is its source, its stage, its failure and whether it has been told to end.
`Enters`, `Deed` and `Fate` say what the beginning of a step, a move and the step of a level do to
these and to the admission, and nothing else does anything to them.
-/

namespace TreeCensus.Walk

set_option autoImplicit false

variable {σ : Type}

/-- What a task means to the others. -/
structure Standing where
  level : Nat
  phase : Phase
  interrupted : Bool

/-- What a level means to the others. -/
structure Rank where
  source : Nat
  stage : Stage
  failure : Option Fault
  interrupted : Bool

def Task.standing (t : Task) : Standing := ⟨t.level, t.phase, t.interrupted⟩

def Level.rank (l : Level) : Rank := ⟨l.source, l.stage, l.failure, l.interrupted⟩

namespace State

variable (s : State σ) (i k : Nat)

def standings : List Standing := s.tasks.map Task.standing

def ranks : List Rank := s.levels.map Level.rank

theorem posts_eq : s.posts = s.standings.map fun x => (x.level, x.phase) := by
  unfold posts standings
  rw [List.map_map]
  rfl

theorem stages_eq : s.stages = s.ranks.map fun r => (r.source, r.stage) := by
  unfold stages ranks
  rw [List.map_map]
  rfl

variable {s i k} in
theorem posts_of_standings {s' : State σ} {phase : Phase}
    (h : s'.standings = s.standings.modify i fun x => { x with phase }) :
    s'.posts = s.posts.modify i fun p => (p.1, phase) := by
  rw [posts_eq, posts_eq, h]
  exact map_modify (g := fun x : Standing => (x.level, x.phase)) (h := fun p => (p.1, phase))
    (fun _ => rfl) s.standings i

variable {s} in
theorem stages_of_ranks {s' : State σ} (h : s'.ranks = s.ranks) : s'.stages = s.stages := by
  rw [stages_eq, stages_eq, h]

theorem standings_setPhase (phase : Phase) :
    (s.setPhase i phase).standings = s.standings.modify i fun x => { x with phase } :=
  map_modify (h := fun x : Standing => { x with phase }) (fun _ => rfl) s.tasks i

theorem standings_updateTask {f : Task → Task} (hf : ∀ t, (f t).standing = t.standing) :
    (s.updateTask i f).standings = s.standings := map_modify_of_eq hf s.tasks i

theorem ranks_updateLevel {f : Level → Level} (hf : ∀ l, (f l).rank = l.rank) :
    (s.updateLevel k f).ranks = s.ranks := map_modify_of_eq hf s.levels k

theorem ranks_drain (f : Fault) :
    (s.updateLevel k fun l => { l with stage := .draining f, interrupted := false }).ranks =
      s.ranks.modify k fun r => { r with stage := .draining f, interrupted := false } :=
  map_modify (h := fun r : Rank => { r with stage := .draining f, interrupted := false })
    (fun _ => rfl) s.levels k

theorem ranks_close (result : Except Fault Tally) :
    (s.close k result).ranks = s.ranks.modify k fun r => { r with stage := .closed result } :=
  map_modify (h := fun r : Rank => { r with stage := .closed result }) (fun _ => rfl) s.levels k

theorem standings_conclude (t : Task) (result : Except Fault (Option Tally)) :
    (s.conclude i t result).standings = s.standings.modify i fun x => { x with phase := .ended result } := by
  rw [← standings_setPhase]
  cases result <;> rfl

theorem ranks_conclude_ok (t : Task) (share : Option Tally) :
    (s.conclude i t (.ok share)).ranks = s.ranks := rfl

theorem ranks_conclude_error (t : Task) (f : Fault) : (s.conclude i t (.error f)).ranks =
    s.ranks.modify t.level fun r => { r with failure := r.failure.or (some f) } :=
  map_modify (h := fun r : Rank => { r with failure := r.failure.or (some f) }) (fun _ => rfl)
    s.levels t.level

theorem standings_openLevel (env : Environment σ) (links : List Nat) (depth : Nat) (priority : Priority)
    (paths : List Path) : (s.openLevel env links depth priority paths).standings =
      s.standings ++ (visits env paths).map fun _ => ⟨s.levels.length, .fresh, false⟩ := by
  unfold openLevel standings
  rw [List.map_append, List.map_map]
  rfl

theorem ranks_openLevel (env : Environment σ) (links : List Nat) (depth : Nat) (priority : Priority)
    (paths : List Path) : (s.openLevel env links depth priority paths).ranks =
      s.ranks ++ [⟨s.admission.network.tokens.length, .running, none, false⟩] := by
  unfold openLevel ranks
  rw [List.map_append]
  rfl

theorem length_ranks : s.ranks.length = s.levels.length := List.length_map ..

theorem standing_of_task {t : Task} (ht : s.tasks[i]? = some t) :
    s.standings[i]? = some t.standing := by
  unfold standings
  rw [List.getElem?_map, ht]
  rfl

theorem rank_of_level {l : Level} (hl : s.levels[k]? = some l) : s.ranks[k]? = some l.rank := by
  unfold ranks
  rw [List.getElem?_map, hl]
  rfl

theorem level_of_rank {k : Nat} {r : Rank} (hr : s.ranks[k]? = some r) :
    ∃ l, s.levels[k]? = some l ∧ l.rank = r := by
  unfold ranks at hr
  rw [List.getElem?_map] at hr
  exact Option.map_eq_some_iff.mp hr

theorem level_of_getElem? {k : Nat} {l : Level} (hl : s.levels[k]? = some l) : s.level k = l := by
  unfold level
  rw [hl]
  rfl

end State

/-- Where a task goes on at the beginning of its step. -/
inductive State.Enters (env : Environment σ) (s : State σ) (t : Task) : Cursor → State σ → Prop
  | ends (told : t.interrupted = true) (idle : t.phase.holdsPermit = false)
      (settled : ∀ ticket job, t.phase ≠ .queued ticket job) :
      Enters env s t (.conclude (.error .interrupted)) s
  | drops (told : t.interrupted = true) (busy : t.phase.holdsPermit = true) :
      Enters env s t (.giveBack (.conclude (.error .interrupted))) s
  | starts (phase : t.phase = .fresh) : Enters env s t (.seek .info) s
  | refused {ticket : Nat} {job : Job} {b : Admission} {f : Fault} (phase : t.phase = .queued ticket job)
      (collected : s.admission.collect? ticket 1 (some (s.level t.level).source) t.interrupted =
        some (b, some f)) : Enters env s t (.conclude (.error f)) { s with admission := b }
  | called {ticket : Nat} {job : Job} {b : Admission} {f : Fault} (phase : t.phase = .queued ticket job)
      (collected : s.admission.collect? ticket 1 (some (s.level t.level).source) t.interrupted =
        some (b, none)) (off : b.called? (some (s.level t.level).source) = some f) :
      Enters env s t (.giveBack (.conclude (.error f))) { s with admission := b }
  | admitted {ticket : Nat} {job : Job} {b : Admission} (phase : t.phase = .queued ticket job)
      (collected : s.admission.collect? ticket 1 (some (s.level t.level).source) t.interrupted =
        some (b, none)) (on : b.called? (some (s.level t.level).source) = none) :
      Enters env s t (.begin job) { s with admission := b }
  | answers {job : Job} (phase : t.phase = .calling job) (free : t.interrupted = false) :
      Enters env s t (.answer job) s
  | consults {job : Job} {f : Fault} (phase : t.phase = .consulting job f)
      (free : t.interrupted = false) : Enters env s t (.consult job f) s
  | logged {tally : Tally} (phase : t.phase = .logging tally) (free : t.interrupted = false) :
      Enters env s t (.conclude (env.logged t.visit.name tally)) s
  | failed {k : Nat} {info : FileInfo} {f : Fault} (phase : t.phase = .descending k info)
      (closed : (s.level k).stage = .closed (.error f)) : Enters env s t (.conclude (.error f)) s
  | resumes {k : Nat} {info : FileInfo} {total : Tally} (phase : t.phase = .descending k info)
      (closed : (s.level k).stage = .closed (.ok total)) :
      Enters env s t (.follow (Walk.settle t.visit.verdict t.visit.outer info total)) s

theorem State.enters {env : Environment σ} {s s' : State σ} {t : Task} {c : Cursor}
    (h : s.entry? env t = some (c, s')) : s.Enters env t c s' := by
  unfold entry? at h
  cases hphase : t.phase with
  | queued ticket job =>
    simp only [hphase] at h
    obtain ⟨⟨b, failure⟩, hcollect, heq⟩ := Option.map_eq_some_iff.mp h
    obtain ⟨rfl, rfl⟩ := Prod.mk.inj heq
    cases failure with
    | some f => exact .refused hphase hcollect
    | none =>
      dsimp only
      cases hcalled : b.called? (some (s.level t.level).source) with
      | some f => exact .called hphase hcollect hcalled
      | none => exact .admitted hphase hcollect hcalled
  | descending k info =>
    simp only [hphase] at h
    rcases hstage : (s.level k).stage with _ | _ | (f | total) <;> simp only [hstage] at h
    · cases h
    · cases h
    · obtain ⟨rfl, rfl⟩ := Prod.mk.inj (Option.some.inj h)
      cases htold : t.interrupted with
      | true => exact .ends htold (by rw [hphase]; rfl) (by simp [hphase])
      | false => exact .failed hphase hstage
    · obtain ⟨rfl, rfl⟩ := Prod.mk.inj (Option.some.inj h)
      cases htold : t.interrupted with
      | true => exact .ends htold (by rw [hphase]; rfl) (by simp [hphase])
      | false => exact .resumes hphase hstage
  | ended result => simp [hphase] at h
  | fresh =>
    simp only [hphase] at h
    obtain ⟨rfl, rfl⟩ := Prod.mk.inj (Option.some.inj h)
    cases htold : t.interrupted with
    | true => exact .ends htold (by rw [hphase]; rfl) (by simp [hphase])
    | false => exact .starts hphase
  | calling job =>
    simp only [hphase] at h
    obtain ⟨rfl, rfl⟩ := Prod.mk.inj (Option.some.inj h)
    cases htold : t.interrupted with
    | true => exact .drops htold (by rw [hphase]; rfl)
    | false => exact .answers hphase htold
  | consulting job f =>
    simp only [hphase] at h
    obtain ⟨rfl, rfl⟩ := Prod.mk.inj (Option.some.inj h)
    cases htold : t.interrupted with
    | true => exact .drops htold (by rw [hphase]; rfl)
    | false => exact .consults hphase htold
  | logging tally =>
    simp only [hphase] at h
    obtain ⟨rfl, rfl⟩ := Prod.mk.inj (Option.some.inj h)
    cases htold : t.interrupted with
    | true => exact .ends htold (by rw [hphase]; rfl) (by simp [hphase])
    | false => exact .logged hphase htold

/-- What a move that goes on does to the admission. -/
inductive Cursor.Deals (t : Task) (s : State σ) : Cursor → Admission → Prop
  | nothing (c : Cursor) : Deals t s c s.admission
  | grant {job : Job} {b : Admission}
      (asked : s.admission.ask (job.priority (s.level t.level).priority t.visit.index) 1
        (some (s.level t.level).source) = .ok (b, none)) : Deals t s (.seek job) b
  | release (next : Cursor) : Deals t s (.giveBack next) (s.admission.release 1).1
  | cancel {info : FileInfo} {tally : Tally} {reply : PathReply} {r : Reason}
      (stops : reply.stop = some r) :
      Deals t s (.stop info tally reply) (s.admission.cancel callerToken r)

/-- Whether the task is at work, and does not wait for anything. -/
def Phase.isAtWork : Phase → Bool
  | calling _ | consulting _ _ | logging _ => true
  | _ => false

/-- What a move does. -/
inductive Deed (env : Environment σ) (i : Nat) (t : Task) (s : State σ) : Cursor → Course σ → Prop
  | onward {c d : Cursor} {u : Task} {s' : State σ} (level : u.level = t.level)
      (standings : s'.standings = s.standings) (ranks : s'.ranks = s.ranks)
      (deals : c.Deals t s s'.admission) : Deed env i t s c (.goOn u d s')
  | conclude (result : Except Fault (Option Tally)) :
      Deed env i t s (.conclude result) (.done (s.conclude i t result))
  | queue {job : Job} {b : Admission} {ticket : Nat}
      (asked : s.admission.ask (job.priority (s.level t.level).priority t.visit.index) 1
        (some (s.level t.level).source) = .ok (b, some ticket)) :
      Deed env i t s (.seek job) (.done ({ s with admission := b }.setPhase i (.queued ticket job)))
  | rest {c : Cursor} {s' : State σ} (phase : Phase) (work : phase.isAtWork = true)
      (standings : s'.standings = s.standings.modify i fun x => { x with phase })
      (ranks : s'.ranks = s.ranks) (admission : s'.admission = s.admission)
      (offered : ∀ job f, phase = .consulting job f → c = .offer job f) : Deed env i t s c (.done s')
  | descend (info : FileInfo) (names : List Text) (depth : Nat) (priority : Priority) :
      Deed env i t s (.onEntries info names)
        (.done ((s.openLevel env [(s.level t.level).source] depth priority
          (names.map (Path.under t.visit.name))).setPhase i (.descending s.levels.length info)))

namespace Deed

variable {env : Environment σ} {i : Nat} {t : Task} {s s' : State σ} {c : Cursor}

theorem still {d : Cursor} (hstandings : s'.standings = s.standings) (hranks : s'.ranks = s.ranks)
    (hadmission : s'.admission = s.admission) : Deed env i t s c (.goOn t d s') := by
  refine .onward rfl hstandings hranks ?_
  rw [hadmission]
  exact .nothing c

theorem paused (phase : Phase) (work : phase.isAtWork = true) (hranks : s'.ranks = s.ranks)
    (htasks : s'.tasks = s.tasks) (hadmission : s'.admission = s.admission)
    (hoffered : ∀ job f, phase = .consulting job f → c = .offer job f) :
    Deed env i t s c (.done (s'.setPhase i phase)) := by
  refine .rest phase work ?_ hranks hadmission hoffered
  rw [State.standings_setPhase]
  unfold State.standings
  rw [htasks]

end Deed

theorem Cursor.deed_move (env : Environment σ) (i : Nat) (t : Task) (c : Cursor) (s : State σ) :
    Deed env i t s c (c.move env i t s) := by
  cases c with
  | conclude result => exact .conclude result
  | log tally =>
    simp only [move]
    split
    · exact .still rfl rfl rfl
    · split
      · split
        · exact .paused (.logging tally) rfl rfl rfl rfl (by simp)
        · exact .still rfl rfl rfl
      · exact .still rfl rfl rfl
  | accept tally => exact .still rfl (s.ranks_updateLevel _ fun _ => rfl) rfl
  | seek job =>
    simp only [move]
    split
    · exact .still rfl rfl rfl
    · next hask => exact .onward rfl rfl rfl (.grant hask)
    · next hask => exact .queue hask
  | follow o =>
    cases o with
    | «over» result => exact .still rfl rfl rfl
    | counted info tally =>
      simp only [move]
      split <;> exact .still rfl rfl rfl
  | enter info =>
    simp only [move]
    (repeat' split) <;> exact .still rfl rfl rfl
  | onInfo info =>
    simp only [move]
    (repeat' split) <;> exact .still rfl rfl rfl
  | onTarget info target =>
    simp only [move]
    split
    · exact .still rfl rfl rfl
    · exact .onward rfl (s.standings_updateTask i fun _ => rfl) rfl (.nothing _)
  | onEntries info names =>
    simp only [move]
    split
    · exact .still rfl rfl rfl
    · exact .descend info names _ _
  | giveBack next =>
    have hrelease := Deals.release (t := t) (s := s) next
    simp only [move]
    split
    · next hfine =>
      rw [hfine] at hrelease
      exact .onward rfl rfl rfl hrelease
    · next hfails =>
      rw [hfails] at hrelease
      exact .onward rfl rfl rfl hrelease
  | onAnswer job f answer =>
    cases answer with
    | error g => exact .still rfl rfl rfl
    | ok taken =>
      simp only [move]
      split <;> exact .still rfl rfl rfl
  | consult job f =>
    simp only [move]
    split <;> exact .still rfl rfl rfl
  | offer job f =>
    simp only [move]
    split
    · exact .still rfl rfl rfl
    · split
      · exact .still rfl rfl rfl
      · split
        · exact .paused (.consulting job f) rfl rfl rfl rfl (by simp)
        · exact .still rfl rfl rfl
  | onReply info tally answer =>
    rcases answer with f | _ | _
    · simp only [move]
      split <;> exact .still rfl rfl rfl
    · exact .still rfl rfl rfl
    · exact .still rfl rfl rfl
  | stop info tally reply =>
    cases hstop : reply.stop with
    | none =>
      simp only [move, hstop]
      exact .still rfl rfl rfl
    | some r =>
      simp only [move, hstop]
      exact .onward rfl rfl rfl (.cancel hstop)
  | report info tally =>
    simp only [move]
    split <;> exact .still rfl rfl rfl
  | begin job =>
    cases job with
    | report info tally =>
      simp only [move]
      split
      · exact .still rfl rfl rfl
      · split
        · exact .paused (.calling _) rfl rfl rfl rfl (by simp)
        · exact .still rfl rfl rfl
    | _ => exact .paused (.calling _) rfl rfl rfl rfl (by simp)
  | answer job =>
    cases job with
    | report info tally => exact .still rfl rfl rfl
    | _ =>
      simp only [move]
      split <;> exact .still rfl rfl rfl

/-- What a level comes to when its tasks have ended. -/
inductive Level.Comes (l : Level) : Except Fault Tally → Prop
  | told (told : l.interrupted = true) : Comes l (.error .interrupted)
  | total (runs : l.stage = .running) (fine : l.failure = .none) (free : l.interrupted = false) :
      Comes l (.ok l.total)
  | fault {f : Fault} (drains : l.stage = .draining f) (free : l.interrupted = false) :
      Comes l (.error f)

/-- What the step of a level does. -/
inductive State.Fate (s : State σ) (k : Nat) (l : Level) : State σ → Prop
  | fails {f : Fault} (runs : l.stage = .running) (failure : l.failure = some f) :
      Fate s k l (({ s with admission := s.admission.cancel l.source (.fault f) }.interrupt k).updateLevel
        k fun l => { l with stage := .draining f, interrupted := false })
  | closes {result : Except Fault Tally} (goesOn : l.stage.isClosed = false)
      (ended : s.allEnded k = true) (comes : l.Comes result) : Fate s k l (s.close k result)

theorem State.fate {s s' : State σ} {k : Nat} {l : Level} (h : s.stepLevel? k l = some s') :
    s.Fate k l s' := by
  unfold stepLevel? at h
  cases hstage : l.stage with
  | closed result => simp [hstage] at h
  | draining f =>
    simp only [hstage] at h
    split at h
    · next hended =>
      obtain rfl := Option.some.inj h
      refine .closes (by rw [hstage]; rfl) hended ?_
      cases htold : l.interrupted with
      | true => exact .told htold
      | false => exact .fault hstage htold
    · cases h
  | running =>
    simp only [hstage] at h
    cases hfailure : l.failure with
    | some f =>
      simp only [hfailure] at h
      obtain rfl := Option.some.inj h
      exact .fails hstage hfailure
    | none =>
      simp only [hfailure] at h
      split at h
      · next hended =>
        split at h
        · next htold =>
          obtain rfl := Option.some.inj h
          exact .closes (by rw [hstage]; rfl) hended (.told htold)
        · next hfree =>
          obtain rfl := Option.some.inj h
          exact .closes (by rw [hstage]; rfl) hended (.total hstage hfailure (Bool.eq_false_iff.mpr hfree))
      · cases h

/-- The levels below a level, and the level itself. -/
inductive Beneath (standings : List Standing) (k : Nat) : Nat → Prop
  | self : Beneath standings k k
  | under {x : Standing} {j : Nat} {info : FileInfo} (mem : x ∈ standings)
      (awaits : x.phase = .descending j info) (above : Beneath standings k x.level) :
      Beneath standings k j

namespace State

variable {s : State σ} {k : Nat}

theorem beneath_of_mem_subtree {j : Nat} (hj : j ∈ s.subtree k) : Beneath s.standings k j := by
  unfold subtree at hj
  refine List.foldlRecOn (motive := fun ks => ∀ j ∈ ks, Beneath s.standings k j) s.tasks _ ?_ ?_ j hj
  · intro j hj
    rw [List.mem_singleton.mp hj]
    exact .self
  · intro ks hks t ht
    cases hopen : s.openBelow? t with
    | none => exact hks
    | some m =>
      dsimp only
      by_cases hmem : t.level ∈ ks
      · rw [if_pos hmem]
        intro j hj
        rcases List.mem_cons.mp hj with rfl | hj
        · unfold openBelow? at hopen
          cases hphase : t.phase with
          | descending m' info =>
            simp only [hphase] at hopen
            split at hopen
            · cases hopen
            · obtain rfl := Option.some.inj hopen
              exact .under (x := t.standing) (List.mem_map_of_mem ht) hphase (hks _ hmem)
          | _ => simp [hphase] at hopen
        · exact hks j hj
      · rw [if_neg hmem]
        exact hks

theorem standing_interrupt {i : Nat} {x : Standing} (hx : (s.interrupt k).standings[i]? = some x) :
    ∃ y, s.standings[i]? = some y ∧ x.level = y.level ∧ x.phase = y.phase ∧
      (x.interrupted = y.interrupted ∨ Beneath s.standings k y.level) := by
  unfold standings interrupt at hx
  dsimp only at hx
  rw [List.map_map, List.getElem?_map] at hx
  obtain ⟨t, ht, rfl⟩ := Option.map_eq_some_iff.mp hx
  refine ⟨t.standing, s.standing_of_task i ht, ?_⟩
  dsimp only [Function.comp_apply]
  split
  · next hbelow => exact ⟨rfl, rfl, .inr (beneath_of_mem_subtree hbelow.1)⟩
  · exact ⟨rfl, rfl, .inl rfl⟩

theorem rank_interrupt {j : Nat} {r : Rank} (hr : (s.interrupt k).ranks[j]? = some r) :
    ∃ q, s.ranks[j]? = some q ∧ r.source = q.source ∧ r.stage = q.stage ∧ r.failure = q.failure ∧
      (r.interrupted = q.interrupted ∨ Beneath s.standings k j ∧ j ≠ k) := by
  obtain ⟨l', hl', rfl⟩ := level_of_rank _ hr
  have hlevel : (s.levels.mapIdx fun j l =>
      if j ∈ s.subtree k ∧ j ≠ k then { l with interrupted := true } else l)[j]? = some l' := hl'
  rw [List.getElem?_mapIdx] at hlevel
  obtain ⟨l, hl, rfl⟩ := Option.map_eq_some_iff.mp hlevel
  refine ⟨l.rank, s.rank_of_level j hl, ?_⟩
  split
  · next hbelow => exact ⟨rfl, rfl, rfl, .inr ⟨beneath_of_mem_subtree hbelow.1, hbelow.2⟩⟩
  · exact ⟨rfl, rfl, rfl, .inl rfl⟩

theorem rank_of_interrupt {j : Nat} {q : Rank} (hq : s.ranks[j]? = some q) :
    ∃ r, (s.interrupt k).ranks[j]? = some r ∧ r.stage = q.stage ∧ r.failure = q.failure := by
  obtain ⟨l, hl, rfl⟩ := level_of_rank _ hq
  have hlevel : (s.interrupt k).levels[j]? = some (if j ∈ s.subtree k ∧ j ≠ k then
      { l with interrupted := true } else l) := by
    unfold interrupt
    rw [List.getElem?_mapIdx, hl]
    rfl
  refine ⟨_, rank_of_level _ j hlevel, ?_⟩
  split <;> exact ⟨rfl, rfl⟩

end State

end TreeCensus.Walk
