import TreeCensus.Proofs.Walk.Wiring

/-!
# Silence after a cancellation

A level that is open hears a token that is not cancelled, unless it is cancelled itself: the token of
the level above it, or that of the caller. So once the caller has cancelled its source, all levels that
are open are cancelled, and no task begins a call any more.
-/

namespace TreeCensus.Walk

set_option autoImplicit false

open Cancellation (Network)

variable {σ : Type} {env : Environment σ} {s s' : State σ} {i : Nat} {t : Task} {c : Cursor}

section Reasons

variable {n : Nat} {q : Reason}

theorem reason?_cancel {a : Admission} (hq : a.network.reason? n = some q) (source : Nat) (r : Reason) :
    (a.cancel source r).network.reason? n = some q := by
  rw [← hq]
  exact Network.reason?_spread_of_ne_none _ (by rw [hq]; nofun)

theorem Cursor.Deals.reason? {b : Admission} (h : c.Deals t s b)
    (hq : s.admission.network.reason? n = some q) : b.network.reason? n = some q := by
  cases h with
  | nothing => exact hq
  | grant asked =>
    have hsame : b.network = s.admission.network := (Admission.ask_cases asked).2.2.2
    rw [hsame]
    exact hq
  | release => exact hq
  | cancel _ => exact reason?_cancel hq callerToken _

/-- What is cancelled stays cancelled, for the same reason. -/
theorem Deed.reason? {course : Course σ} (h : Deed env i t s c course)
    (hq : s.admission.network.reason? n = some q) :
    course.Meets (fun _ _ s' => s'.admission.network.reason? n = some q)
      fun s' => s'.admission.network.reason? n = some q := by
  cases h with
  | onward _ _ _ deals => exact deals.reason? hq
  | conclude result =>
    change (s.conclude i t result).admission.network.reason? n = some q
    rw [State.admission_conclude]
    exact hq
  | @queue job b ticket asked =>
    have hsub : b.network = s.admission.network.subscribe (s.level t.level).source (.client ticket) :=
      (Admission.ask_cases asked).2.2.2
    change b.network.reason? n = some q
    rw [hsub, Network.reason?_subscribe]
    exact hq
  | @rest _ s' _ _ _ _ admission =>
    change s'.admission.network.reason? n = some q
    rw [admission]
    exact hq
  | descend info names depth priority =>
    have hlt : n ≠ s.admission.network.tokens.length := by
      rintro rfl
      unfold Network.reason? at hq
      rw [List.getElem?_eq_none (Nat.le_refl _)] at hq
      cases hq
    change (s.admission.network.addSource [(s.level t.level).source]).reason? n = some q
    cases s.admission.network.joins (s.level t.level).source with
    | late _ _ _ reasons _ _ => exact (reasons n hlt).trans hq
    | early _ reasons _ => exact (reasons n).trans hq

theorem Cursor.reason?_run (c : Cursor) (t : Task) (hq : s.admission.network.reason? n = some q) :
    (c.run env i t s).admission.network.reason? n = some q :=
  Cursor.run_of_moves (P := fun _ _ s => s.admission.network.reason? n = some q)
    (Q := fun s => s.admission.network.reason? n = some q)
    (fun t c s hq => (c.deed_move env i t s).reason? hq) t c s hq

theorem State.Enters.reason? (h : s.Enters env t c s') :
    s'.admission.network.reason? n = s.admission.network.reason? n := by
  have hcollect : ∀ {ticket : Nat} {b : Admission} {failure : Option Fault},
      s.admission.collect? ticket 1 (some (s.level t.level).source) t.interrupted = some (b, failure) →
        b.network.reason? n = s.admission.network.reason? n := by
    intro ticket b failure hcollect
    have hsame : b.network = s.admission.network.unsubscribe (s.level t.level).source (.client ticket) :=
      (Admission.collect?_cases hcollect).2
    rw [hsame, Network.reason?_unsubscribe]
  cases h with
  | refused _ collected => exact hcollect collected
  | called _ collected _ => exact hcollect collected
  | admitted _ collected _ => exact hcollect collected
  | _ => rfl

theorem State.Fate.reason? {k : Nat} {l : Level} (h : s.Fate k l s')
    (hq : s.admission.network.reason? n = some q) : s'.admission.network.reason? n = some q := by
  cases h with
  | @fails f _ _ =>
    change (State.admission (State.interrupt _ k)).network.reason? n = some q
    unfold State.interrupt
    rw [Admission.network_foldl_abandon]
    exact reason?_cancel hq l.source (.fault f)
  | @closes result _ _ _ =>
    change (s.admission.network.detach _).reason? n = some q
    rw [Network.reason?_detach]
    exact hq

theorem State.reason?_step {a : Actor} (hstep : s.step? env a = some s')
    (hq : s.admission.network.reason? n = some q) : s'.admission.network.reason? n = some q := by
  cases a with
  | task i =>
    obtain ⟨t, ht, hstep⟩ := Option.bind_eq_some_iff.mp hstep
    exact (along_step (P := fun _ _ s => s.admission.network.reason? n = some q)
      (Q := fun s => s.admission.network.reason? n = some q) ht (fun _ _ h => h.reason?.trans hq)
      fun u c s₁ _ hq => (c.deed_move env i u s₁).reason? hq).2 s' hstep
  | level k =>
    obtain ⟨l, _, hstep⟩ := Option.bind_eq_some_iff.mp hstep
    exact (fate hstep).reason? hq

end Reasons

/-- A level that is open and not cancelled hears a token that is not cancelled either. -/
def Attached (stages : List (Nat × Stage)) (net : Network Nat) : Prop :=
  ∀ (k source : Nat) (stage : Stage), stages[k]? = some (source, stage) → stage.isClosed = false →
    net.reason? source = none → ∃ t, net.reason? t = none ∧ net.Hears t (.source source)

namespace Attached

variable {stages : List (Nat × Stage)} {net net' : Network Nat}

theorem keeps (h : Attached stages net)
    (hkeeps : ∀ (k source : Nat) (stage : Stage), stages[k]? = some (source, stage) →
      stage.isClosed = false → net.Keeps net' source) : Attached stages net' := by
  intro k source stage hstage hopen hquiet
  have hkeep := hkeeps k source stage hstage hopen
  have hbefore : net.reason? source = none := by
    apply Classical.byContradiction
    exact fun hstruck => hkeep.struck hstruck hquiet
  obtain ⟨t, ht, hears⟩ := h k source stage hstage hopen hbefore
  exact ⟨t, hkeep.hears t ht hears hquiet⟩

theorem stage (h : Attached stages net) {k : Nat} {l : Nat × Stage} (hl : stages[k]? = some l)
    (hopen : l.2.isClosed = false) (stage : Stage) :
    Attached (stages.modify k fun l => (l.1, stage)) net := by
  intro j source stage' hj hopen' hquiet
  rcases modify_cases hj with ⟨_, hj⟩ | ⟨rfl, m, hm, heq⟩
  · exact h j source stage' hj hopen' hquiet
  · obtain rfl := Option.some.inj (hl.symm.trans hm)
    obtain ⟨rfl, rfl⟩ := Prod.mk.inj heq
    exact h j l.1 l.2 hl hopen hquiet

/-- A new level hears the level above it. -/
theorem descend (h : Attached stages net) (hknown : ∀ l ∈ stages, l.1 < net.tokens.length) (t : Nat)
    (ht : t < net.tokens.length) :
    Attached (stages ++ [(net.tokens.length, .running)]) (net.addSource [t]) := by
  intro k source stage hk hopen hquiet
  rcases getElem?_concat_cases hk with hk | ⟨rfl, heq⟩
  · refine h.keeps (fun k source stage hstage _ => ?_) k source stage hk hopen hquiet
    exact .addSource net t (hknown _ (List.mem_of_getElem? hstage))
  · obtain ⟨rfl, rfl⟩ := Prod.mk.inj heq
    cases net.joins t with
    | late r _ own _ _ _ =>
      rw [own] at hquiet
      cases hquiet
    | early quiet reasons hears =>
      exact ⟨t, (reasons t).trans quiet, (hears t _).mpr (.inr ⟨⟨rfl, Nat.lt_succ_of_lt ht⟩, rfl⟩)⟩

end Attached

/-- Whoever has not closed yet hears of a cancellation by the caller. -/
theorem Attached.struck {posts : List (Nat × Phase)} {stages : List (Nat × Stage)} {net : Network Nat}
    {others : List Pool.Stake} {a : Admission} (h : Attached stages a.network) (hnested : Nested posts stages net)
    (hforked : Forked posts stages.length) (hwired : Wired posts (stages.map (·.1)) others a)
    (hcaller : a.network.reason? callerToken ≠ none) (k : Nat) :
    ∀ source stage, stages[k]? = some (source, stage) → stage.isClosed = false →
      a.network.reason? source ≠ none := by
  have hsource : ∀ {k source : Nat} {stage : Stage}, stages[k]? = some (source, stage) →
      (stages.map (·.1))[k]? = some source := by
    intro k source stage hk
    rw [List.getElem?_map, hk]
    rfl
  induction k using Nat.strongRecOn with
  | ind k ih =>
    intro source stage hk hopen hquiet
    obtain ⟨t, ht, hears⟩ := h k source stage hk hopen hquiet
    rcases hwired.source t source hears with ⟨rfl, _⟩ | ⟨p, hp, m, ⟨info, hphase⟩, habove, hbelow⟩
    · exact hcaller ht
    · obtain rfl := hwired.index (hsource hk) hbelow
      obtain ⟨i, hi⟩ := List.getElem?_of_mem hp
      have hlt := (hforked.below i p k hi ⟨info, hphase⟩).1
      rw [List.getElem?_map] at habove
      obtain ⟨⟨_, above⟩, hstage, rfl⟩ := Option.map_eq_some_iff.mp habove
      refine ih p.1 hlt _ above hstage ?_ ht
      cases above with
      | closed result =>
        have hended := hnested.ended p.1 _ result hstage p hp rfl
        rw [hphase] at hended
        cases hended
      | _ => rfl

section Steps

variable {capacity : Int} {others : List Pool.Stake} {s₁ s₂ : State σ} {u : Task} {d : Cursor}

theorem State.known_of_wired {a : Admission} (hwired : Wired s.posts s.sources others a) :
    ∀ l ∈ s.stages, l.1 < a.network.tokens.length := by
  intro l hl
  refine (hwired.known l.1 ?_).2
  rw [State.sources_eq]
  exact List.mem_map_of_mem hl

/-- Whatever a move does to the network, the levels that are open still hear what they should. -/
theorem Plugged.attached_move (h : Plugged capacity others s) (ht : s.tasks[i]? = some t)
    (hamid : s.Amid env i u d s₂) (hattached : Attached s.stages s₂.admission.network) :
    (d.move env i u s₂).Meets (fun _ _ s₃ => Attached s.stages s₃.admission.network)
      fun s' => Attached s'.stages s'.admission.network := by
  obtain ⟨hplace, -, hranks⟩ := hamid.unmoved ht
  have hknown := State.known_of_wired (h.wired_amid hamid)
  have hstages := State.stages_of_ranks hranks
  have hdeed := d.deed_move env i u s₂
  generalize d.move env i u s₂ = course at hdeed
  cases hdeed with
  | @onward _ d' u' s₃ _ _ _ deals =>
    change Attached s.stages s₃.admission.network
    generalize s₃.admission = b at deals ⊢
    cases deals with
    | nothing => exact hattached
    | grant asked =>
      have hsame : b.network = s₂.admission.network := (Admission.ask_cases asked).2.2.2
      rw [hsame]
      exact hattached
    | release next => exact hattached
    | cancel _ =>
      exact hattached.keeps fun k source stage hstage _ =>
        .cancel _ (hknown _ (List.mem_of_getElem? hstage)) _ _
  | conclude result =>
    change Attached (s₂.conclude i u result).stages (s₂.conclude i u result).admission.network
    rw [State.stages_conclude, State.admission_conclude, hstages]
    exact hattached
  | @queue job b ticket asked =>
    have hsub : b.network = s₂.admission.network.subscribe (s₂.level u.level).source (.client ticket) :=
      (Admission.ask_cases asked).2.2.2
    change Attached s₂.stages b.network
    rw [hstages, hsub]
    exact hattached.keeps fun _ _ _ _ _ => .subscribe _ _ _ _
  | @rest _ s₃ _ _ _ ranks admission =>
    change Attached s₃.stages s₃.admission.network
    rw [State.stages_of_ranks ranks, admission, hstages]
    exact hattached
  | descend info names depth priority =>
    change Attached (State.stages _) _
    rw [State.stages_setPhase, State.stages_openLevel, hstages]
    have hmem : ((s₂.level u.level).source, (s₂.level u.level).stage) ∈ s.stages := by
      have hplaced := h.nested.placed _ (List.mem_of_getElem? (State.posts_of_task ht))
      rw [State.level_source_eq, State.level_stage_eq, hstages, hplace, List.getElem?_eq_getElem hplaced]
      exact List.getElem_mem hplaced
    exact hattached.descend hknown _ (hknown _ hmem)

theorem Plugged.attached_enter (hattached : Attached s.stages s.admission.network)
    (henters : s.Enters env t c s₁) : Attached s.stages s₁.admission.network := by
  have hcollect : ∀ {ticket : Nat} {b : Admission} {failure : Option Fault},
      s.admission.collect? ticket 1 (some (s.level t.level).source) t.interrupted = some (b, failure) →
        Attached s.stages b.network := by
    intro ticket b failure hcollect
    have hsame : b.network = s.admission.network.unsubscribe (s.level t.level).source (.client ticket) :=
      (Admission.collect?_cases hcollect).2
    rw [hsame]
    exact hattached.keeps fun _ _ _ _ _ => .unsubscribe _ _ _ _
  cases henters with
  | refused _ collected => exact hcollect collected
  | called _ collected _ => exact hcollect collected
  | admitted _ collected _ => exact hcollect collected
  | _ => exact hattached

theorem Plugged.attached_level (h : Plugged capacity others s) {k : Nat} {l : Level}
    (hl : s.levels[k]? = some l) (hstep : s.stepLevel? k l = some s')
    (hattached : Attached s.stages s.admission.network) : Attached s'.stages s'.admission.network := by
  have hstage := State.stages_of_level hl
  have hknown := State.known_of_wired h.wired
  cases State.fate hstep with
  | @fails f runs _ =>
    generalize hbefore : ({ s with admission := s.admission.cancel l.source (.fault f) } : State σ) = s₁
    have hsame : s₁.stages = s.stages ∧ s₁.admission = s.admission.cancel l.source (.fault f) := by
      rw [← hbefore]
      exact ⟨rfl, rfl⟩
    have hstages : ((s₁.interrupt k).updateLevel k
        fun l => { l with stage := .draining f, interrupted := false }).stages =
          s.stages.modify k fun l => (l.1, .draining f) := by
      rw [← hsame.1, ← State.stages_interrupt s₁ k]
      exact State.stages_updateLevel_stage _ k fun _ => ⟨rfl, rfl⟩
    have hnetwork : (s₁.interrupt k).admission.network = (s.admission.network.cancel l.source (.fault f)).1 := by
      refine (Admission.network_foldl_abandon (s₁.ticketsOf (s₁.subtree k)) s₁.admission).trans ?_
      rw [hsame.2]
      rfl
    change Attached _ (s₁.interrupt k).admission.network
    rw [hstages, hnetwork]
    refine Attached.stage ?_ hstage (by rw [runs]; rfl) _
    exact hattached.keeps fun j source stage hj _ =>
      .cancel s.admission.network (hknown _ (List.mem_of_getElem? hj)) l.source (.fault f)
  | @closes result goesOn _ _ =>
    have hstages : (s.close k result).stages = s.stages.modify k fun l => (l.1, .closed result) :=
      State.stages_updateLevel_stage _ k fun _ => ⟨rfl, rfl⟩
    have hnetwork : (s.close k result).admission.network = s.admission.network.detach l.source := by
      rw [← s.level_of_getElem? hl]
      rfl
    rw [hstages, hnetwork]
    intro j source stage hj hopen
    rcases modify_cases hj with ⟨hne, hold⟩ | ⟨_, _, _, heq⟩
    · have hother : l.source ≠ source := by
        rintro rfl
        refine hne (h.wired.index (x := l.source) ?_ ?_)
        · rw [State.sources_eq, List.getElem?_map, hold]
          rfl
        · rw [State.sources_eq, List.getElem?_map, hstage]
          rfl
      intro hquiet
      rw [Network.reason?_detach] at hquiet
      obtain ⟨n, hn, hears⟩ := hattached j source stage hold hopen hquiet
      exact ⟨n, (Network.Keeps.detach s.admission.network hother).hears n hn hears
        ((Network.reason?_detach _ _ _).trans hquiet)⟩
    · obtain ⟨-, rfl⟩ := Prod.mk.inj heq
      cases hopen

theorem Plugged.attached_step (h : Plugged capacity others s) {a : Actor} (hstep : s.step? env a = some s')
    (hattached : Attached s.stages s.admission.network) : Attached s'.stages s'.admission.network := by
  cases a with
  | task i =>
    obtain ⟨t, ht, hstep⟩ := Option.bind_eq_some_iff.mp hstep
    exact (State.along_step (P := fun _ _ s₁ => Attached s.stages s₁.admission.network)
      (Q := fun s' => Attached s'.stages s'.admission.network) ht (fun _ _ => attached_enter hattached)
      fun _ _ _ => h.attached_move ht).2 s' hstep
  | level k =>
    obtain ⟨l, hl, hstep⟩ := Option.bind_eq_some_iff.mp hstep
    exact h.attached_level hl hstep hattached

theorem Plugged.attached_amid (h : Plugged capacity others s)
    (hattached : Attached s.stages s.admission.network) (hamid : s.Amid env i u d s₁) :
    Attached s.stages s₁.admission.network := by
  obtain ⟨t, ht⟩ := hamid.task
  exact (State.along_step (P := fun _ _ s₁ => Attached s.stages s₁.admission.network)
    (Q := fun s' => Attached s'.stages s'.admission.network) ht (fun _ _ => attached_enter hattached)
    fun _ _ _ => h.attached_move ht).1 u d s₁ hamid

/-- At every moment after the caller has cancelled its source, so is the level of the task that makes a
step. -/
theorem Plugged.called (h : Plugged capacity others s) (hattached : Attached s.stages s.admission.network)
    (hamid : s.Amid env i u d s₁) (hcaller : s₁.admission.network.reason? callerToken ≠ none) :
    s₁.admission.called? (some (s₁.level u.level).source) ≠ none := by
  obtain ⟨t, ht⟩ := hamid.task
  obtain ⟨hplace, -, hranks⟩ := hamid.unmoved ht
  have hwired := h.wired_amid hamid
  rw [State.sources_eq] at hwired
  obtain ⟨l, hl, hopen⟩ := h.level_open ht (h.advances ht hamid).1.1
  have hlevel := State.stages_of_level hl
  have hstruck := (h.attached_amid hattached hamid).struck h.nested h.forked hwired hcaller t.level
    l.source l.stage hlevel hopen
  have hsource : (s₁.level u.level).source = l.source := by
    rw [State.level_source_eq, State.stages_of_ranks hranks, hplace, hlevel]
    rfl
  rw [hsource]
  unfold Admission.called?
  simpa using hstruck

end Steps

section Trace

/-- Whether a call begins here on the file system or on the path handler. -/
def Event.isStart : Event → Bool
  | stated _ | linkRead _ | listed _ | reported _ => true
  | _ => false

/-- The calls that have begun, the latest first. -/
def State.starts (s : State σ) : List Event := s.trace.filter Event.isStart

/-- What is noted when a task goes on from a cursor. -/
inductive Cursor.Notes : Cursor → List Event → Prop
  | nothing (c : Cursor) : Notes c []
  | logged (tally : Tally) (line : Text) : Notes (.log tally) [.logged line]
  | offered (job : Job) (f : Fault) : Notes (.offer job f) [.offered f]
  | begun {job : Job} {e : Event} (start : e.isStart = true) : Notes (.begin job) [e]

theorem Cursor.notes_move (env : Environment σ) (i : Nat) (t : Task) (c : Cursor) (s : State σ) :
    ∃ new, c.Notes new ∧ (c.move env i t s).Meets (fun _ _ s' => s'.trace = new ++ s.trace)
      fun s' => s'.trace = new ++ s.trace := by
  cases c with
  | conclude result => exact ⟨[], .nothing _, by cases result <;> rfl⟩
  | log tally =>
    simp only [move]
    split
    · exact ⟨[], .nothing _, rfl⟩
    · split
      · refine ⟨_, .logged tally (logLine t.visit.name tally), ?_⟩
        split <;> rfl
      · exact ⟨[], .nothing _, rfl⟩
  | offer job f =>
    simp only [move]
    split
    · exact ⟨[], .nothing _, rfl⟩
    · split
      · exact ⟨[], .nothing _, rfl⟩
      · refine ⟨_, .offered job f, ?_⟩
        split <;> rfl
  | begin job =>
    cases job with
    | info => exact ⟨_, .begun (e := .stated t.visit.place) rfl, rfl⟩
    | target info => exact ⟨_, .begun (e := .linkRead t.visit.place) rfl, rfl⟩
    | entries info => exact ⟨_, .begun (e := .listed t.visit.place) rfl, rfl⟩
    | report info tally =>
      simp only [move]
      split
      · exact ⟨[], .nothing _, rfl⟩
      · refine ⟨_, .begun (e := .reported (s.pathCall t info tally)) rfl, ?_⟩
        split <;> rfl
  | follow o =>
    refine ⟨[], .nothing _, ?_⟩
    cases o <;> simp only [move] <;> (repeat' split) <;> rfl
  | onAnswer job f answer =>
    refine ⟨[], .nothing _, ?_⟩
    cases answer <;> simp only [move] <;> (repeat' split) <;> rfl
  | onReply info tally answer =>
    refine ⟨[], .nothing _, ?_⟩
    rcases answer with f | _ | _ <;> simp only [move] <;> (repeat' split) <;> rfl
  | stop info tally reply =>
    refine ⟨[], .nothing _, ?_⟩
    cases hstop : reply.stop <;> simp only [move, hstop] <;> rfl
  | answer job =>
    refine ⟨[], .nothing _, ?_⟩
    cases job <;> simp only [move] <;> (repeat' split) <;> rfl
  | _ =>
    refine ⟨[], .nothing _, ?_⟩
    simp only [move]
    (repeat' split) <;> rfl

theorem State.Enters.trace (h : s.Enters env t c s') : s'.trace = s.trace := by
  cases h <;> rfl

theorem State.Fate.trace {k : Nat} {l : Level} (h : s.Fate k l s') : s'.trace = s.trace := by
  cases h <;> rfl

/-- A task begins a call within a step when it has asked for a permit and was let in at once. -/
theorem Cursor.move_begin {u : Task} {job : Job} {s' : State σ} (hc : c.Balanced)
    (h : c.move env i t s = .goOn u (.begin job) s') : u.level = t.level ∧ s'.ranks = s.ranks ∧
      s.admission.called? (some (s.level t.level).source) = none ∧
        s'.admission.network = s.admission.network := by
  cases c with
  | seek job =>
    simp only [move] at h
    split at h
    · cases h
    · next hask =>
      obtain ⟨-, hcalled, -, hnetwork⟩ := Admission.ask_cases hask
      obtain ⟨rfl, -, rfl⟩ := Course.goOn.inj h
      exact ⟨rfl, rfl, hcalled, hnetwork⟩
    · cases h
  | giveBack next =>
    simp only [move] at h
    split at h
    · obtain ⟨-, rfl, -⟩ := Course.goOn.inj h
      cases hc
    · cases h
  | follow o => cases o <;> simp only [move] at h <;> (repeat' split at h) <;> cases h
  | onAnswer job f answer => cases answer <;> simp only [move] at h <;> (repeat' split at h) <;> cases h
  | onReply info tally answer =>
    rcases answer with f | _ | _ <;> simp only [move] at h <;> (repeat' split at h) <;> cases h
  | begin job | answer job =>
    cases job <;> simp only [move] at h <;> (repeat' split at h) <;> cases h
  | _ =>
    simp only [move] at h
    (repeat' split at h) <;> cases h

end Trace

section Steps

variable {capacity : Int} {others : List Pool.Stake} {s₁ s₂ : State σ} {u : Task} {d : Cursor}

/-- No task begins a call after the caller has cancelled its source. -/
theorem Plugged.not_begin (h : Plugged capacity others s) (hattached : Attached s.stages s.admission.network)
    (hamid : s.Amid env i u d s₁) (hcaller : s₁.admission.network.reason? callerToken ≠ none) (job : Job) :
    d ≠ .begin job := by
  rintro rfl
  have hcalled := h.called hattached hamid hcaller
  generalize hcursor : Cursor.begin job = d at hamid
  cases hamid with
  | enter task entry =>
    cases State.enters entry with
    | admitted _ _ on => exact hcalled on
    | _ => cases hcursor
  | @next v _ c _ s₀ _ before move =>
    subst hcursor
    obtain ⟨t, ht⟩ := before.task
    have hbalanced : c.Balanced := by
      cases (h.advances ht before).2 with
      | onward _ balanced _ _ _ => exact balanced
    obtain ⟨hlevel, hranks, hon, hsame⟩ := Cursor.move_begin hbalanced move
    refine hcalled ?_
    unfold Admission.called? at hon ⊢
    rw [hsame, hlevel, State.level_source_eq, State.stages_of_ranks hranks, ← State.level_source_eq]
    exact hon

/-- The rest of a step in which the caller has cancelled its source begins no call. -/
theorem Plugged.starts_run (h : Plugged capacity others s)
    (hattached : Attached s.stages s.admission.network) (hamid : s.Amid env i u d s₁)
    (hcaller : s₁.admission.network.reason? callerToken ≠ none) :
    (d.run env i u s₁).starts = s₁.starts := by
  obtain ⟨r, hr⟩ := Option.ne_none_iff_exists'.mp hcaller
  refine Cursor.run_of_moves (Q := fun s' => s'.starts = s₁.starts)
    (P := fun u d s₂ => s.Amid env i u d s₂ ∧
      s₂.admission.network.reason? callerToken = some r ∧ s₂.starts = s₁.starts) ?_ u d s₁ ⟨hamid, hr, rfl⟩
  rintro u d s₂ ⟨hamid, hr, hsame⟩
  have hnot := h.not_begin hattached hamid (by rw [hr]; nofun)
  obtain ⟨new, hnotes, htrace⟩ := d.notes_move env i u s₂
  have hstays := (d.deed_move env i u s₂).reason? hr
  have hnew : new.filter Event.isStart = [] := by
    cases hnotes with
    | begun => exact absurd rfl (hnot _)
    | _ => rfl
  have hstarts : ∀ {s₃ : State σ}, s₃.trace = new ++ s₂.trace → s₃.starts = s₁.starts := by
    intro s₃ htrace
    rw [← hsame]
    unfold State.starts
    rw [htrace, List.filter_append, hnew, List.nil_append]
  cases hcourse : d.move env i u s₂ with
  | goOn v e s₃ =>
    rw [hcourse] at hstays htrace
    exact ⟨.next hamid hcourse, hstays, hstarts htrace⟩
  | done s₃ =>
    rw [hcourse] at htrace
    exact hstarts htrace

theorem Plugged.starts_step (h : Plugged capacity others s)
    (hattached : Attached s.stages s.admission.network) {a : Actor} (hstep : s.step? env a = some s')
    (hcaller : s.admission.network.reason? callerToken ≠ none) : s'.starts = s.starts := by
  cases a with
  | task i =>
    obtain ⟨t, ht, hstep⟩ := Option.bind_eq_some_iff.mp hstep
    obtain ⟨c, s₁, hentry, rfl⟩ := State.exists_entry hstep
    have henters := State.enters hentry
    rw [h.starts_run hattached (.enter ht hentry) (by rwa [henters.reason?])]
    unfold State.starts
    rw [henters.trace]
  | level k =>
    obtain ⟨l, _, hstep⟩ := Option.bind_eq_some_iff.mp hstep
    unfold State.starts
    rw [(State.fate hstep).trace]

end Steps

end TreeCensus.Walk
