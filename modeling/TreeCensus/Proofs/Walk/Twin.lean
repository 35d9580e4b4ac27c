import TreeCensus.Proofs.Walk.Doom
import TreeCensus.Proofs.Walk.Wiring

/-!
# The walk without the cancellation

Beside a walk whose caller cancels it goes the same walk without the cancellation, in which the same
tasks and levels make their steps in the same order. As long as the cancellation has had no effect on
any task, the two differ in nothing but their tokens; and as soon as it has had an effect, the walk is
doomed.
-/

namespace TreeCensus.Walk

set_option autoImplicit false

open Cancellation (Network)

variable {σ : Type}

/-- A path handler that does not cancel. -/
def Handler.unstopped (handler : Handler σ PathCall PathReply) : Handler σ PathCall PathReply :=
  { handler with
    act := fun memory call =>
      let (memory, reply) := handler.act memory call
      (memory, { reply with stop := none }) }

/-- The same environment, but the path handler does not cancel. -/
def Environment.unstopped (env : Environment σ) : Environment σ :=
  { env with options := { env.options with onPath := env.options.onPath.map Handler.unstopped } }

/-- The path handler does not ask whether the walk has been cancelled. -/
def Environment.Blind (env : Environment σ) : Prop :=
  ∀ handler, env.options.onPath = some handler → ∀ memory call, (handler.act memory call).2.check = false

namespace Cursor

def unstopped : Cursor → Cursor
  | stop info tally reply => stop info tally { reply with stop := none }
  | giveBack next => giveBack next.unstopped
  | c => c

/-- The path handler has not asked whether the walk has been cancelled. -/
def Blind : Cursor → Prop
  | stop _ _ reply => reply.check = false
  | giveBack next => next.Blind
  | _ => True

theorem unstopped_forgone (t : Task) (job : Job) : (job.forgone t).unstopped = job.forgone t := by
  cases job <;> rfl

theorem blind_forgone (t : Task) (job : Job) : (job.forgone t).Blind := by
  cases job <;> trivial

end Cursor

/-- The state with other tokens. -/
def State.rewire (s : State σ) (net : Network Nat) : State σ :=
  { s with admission := { s.admission with network := net } }

/-- The states differ in their tokens alone, and in the second one none is cancelled. -/
structure State.Twin (s s' : State σ) : Prop where
  quiet : s'.admission.network.Quiet
  length : s'.admission.network.tokens.length = s.admission.network.tokens.length
  same : s' = s.rewire s'.admission.network

theorem State.Twin.of {net : Network Nat} (hquiet : net.Quiet) {s : State σ}
    (hlength : net.tokens.length = s.admission.network.tokens.length) : s.Twin (s.rewire net) :=
  ⟨hquiet, hlength, rfl⟩

/-- A cancellation by which nobody is refused is of no concern yet. -/
theorem State.Twin.cancel {s s' : State σ} (h : s.Twin s') (source : Nat) (r : Reason)
    (hsame : (s.admission.cancel source r).pool = s.admission.pool) :
    State.Twin { s with admission := s.admission.cancel source r } s' := by
  refine ⟨h.quiet, h.length.trans (Network.length_spread _ _).symm, h.same.trans ?_⟩
  exact (congrArg (fun pool => ({ s with admission := ⟨pool, _⟩ } : State σ)) hsame).symm

inductive Course.Twin : Course σ → Course σ → Prop
  | goOn {t : Task} {c : Cursor} {s s' : State σ} (blind : c.Blind) (twin : s.Twin s') :
      Twin (.goOn t c s) (.goOn t c.unstopped s')
  | done {s s' : State σ} (twin : s.Twin s') : Twin (.done s) (.done s')

section Moves

variable {env : Environment σ} {i : Nat} {t : Task} {c : Cursor} {s : State σ} {net : Network Nat}

theorem Admission.called?_of_quiet {a : Admission} (h : a.network.Quiet) (token : Option Nat) :
    a.called? token = none := by
  cases token with
  | none => rfl
  | some t =>
    unfold Admission.called?
    rw [Option.bind_some, h t]
    rfl

/-- Who is let in or has to wait is so as well if no source is cancelled. -/
theorem Admission.ask_of_quiet {a b : Admission} {priority : Priority} {source : Nat} {ticket : Option Nat}
    (hask : a.ask priority 1 (some source) = .ok (b, ticket)) (hquiet : net.Quiet)
    (hlength : net.tokens.length = a.network.tokens.length) :
    ∃ net' : Network Nat, Admission.ask { a with network := net } priority 1 (some source) =
      .ok (⟨b.pool, net'⟩, ticket) ∧ net'.Quiet ∧ net'.tokens.length = b.network.tokens.length := by
  obtain ⟨hfits, -, hrequest, hnetwork⟩ := Admission.ask_cases hask
  have hcalled := Admission.called?_of_quiet (a := { a with network := net }) hquiet (some source)
  unfold Admission.ask
  rw [if_neg (show ¬ a.pool.capacity < 1 by omega), hcalled]
  dsimp only
  rw [hrequest]
  cases ticket with
  | none =>
    have hsame : b.network = a.network := hnetwork
    exact ⟨net, rfl, hquiet, by rw [hsame, hlength]⟩
  | some ticket =>
    have hsub : b.network = a.network.subscribe source (.client ticket) := hnetwork
    refine ⟨_, rfl, hquiet.subscribe _ _, ?_⟩
    rw [hsub, Network.length_subscribe, Network.length_subscribe, hlength]

/-- What a move of the walk has to do with that of its twin. -/
inductive Cursor.Parallel (env : Environment σ) (i : Nat) (t : Task) (c : Cursor) (s : State σ)
    (net : Network Nat) : Prop
  | twin (twin : (c.move env i t s).Twin (c.unstopped.move env.unstopped i t (s.rewire net)))
  | sinks {d : Cursor} {s' : State σ} (move : c.move env i t s = .goOn t d s') (sinks : d.Sinks)
  | refuses {r : Reason} {u : Task} {d : Cursor} {s' : State σ} (move : c.move env i t s = .goOn u d s')
      (admission : s'.admission = s.admission.cancel callerToken r)
      (refused : (s.admission.cancel callerToken r).pool ≠ s.admission.pool)

theorem Cursor.parallel (henv : env.Blind) (hblind : c.Blind) (hquiet : net.Quiet)
    (hlength : net.tokens.length = s.admission.network.tokens.length) :
    c.Parallel env i t s net := by
  -- A move that leaves the admission alone is the same in the twin.
  have hstill : ∀ {u : Task} {c : Cursor} {s' : State σ}, c.Blind → s'.admission = s.admission →
      Course.Twin (.goOn u c s') (.goOn u c.unstopped (s'.rewire net)) :=
    fun hblind hsame => .goOn hblind (.of hquiet (by rw [hlength, hsame]))
  have hdone : ∀ {s' : State σ}, s'.admission = s.admission →
      Course.Twin (.done s') (.done (s'.rewire net)) :=
    fun hsame => .done (.of hquiet (by rw [hlength, hsame]))
  cases c with
  | conclude result =>
    refine .twin ?_
    cases result <;> exact hdone rfl
  | log tally =>
    refine .twin ?_
    simp only [move, unstopped, Environment.unstopped]
    cases env.options.log with
    | none => exact hstill trivial rfl
    | some logging =>
      dsimp only
      change Course.Twin _ (if logging.rule.allows (s.level t.level).depth tally.size then _ else _)
      split
      · split
        · exact hdone rfl
        · exact hstill trivial rfl
      · exact hstill trivial rfl
  | accept tally => exact .twin (hstill trivial rfl)
  | seek job =>
    cases hask : s.admission.ask (job.priority (s.level t.level).priority t.visit.index) 1
      (some (s.level t.level).source) with
    | error f =>
      have hmove : Cursor.move env i t (.seek job) s = .goOn t (.conclude (.error f)) s := by
        simp only [move, hask]
      exact .sinks hmove trivial
    | ok granted =>
      obtain ⟨b, ticket⟩ := granted
      obtain ⟨net', htwin, hquiet', hlength'⟩ := Admission.ask_of_quiet hask hquiet hlength
      have hsame : (s.rewire net).admission.ask (job.priority (s.level t.level).priority t.visit.index) 1
          (some (s.level t.level).source) = .ok (⟨b.pool, net'⟩, ticket) := htwin
      have hlevel : (s.rewire net).level t.level = s.level t.level := rfl
      refine .twin ?_
      simp only [move, unstopped, hask, hlevel, hsame]
      cases ticket with
      | none => exact .goOn (c := .begin job) trivial ⟨hquiet', hlength', rfl⟩
      | some ticket => exact .done ⟨hquiet', hlength', rfl⟩
  | follow o =>
    refine .twin ?_
    cases o with
    | «over» result => exact hstill trivial rfl
    | counted info tally =>
      simp only [move, unstopped, Environment.unstopped]
      cases env.options.onPath <;> exact hstill trivial rfl
  | enter info =>
    refine .twin ?_
    simp only [move, unstopped, Environment.unstopped]
    cases info.kind with
    | link =>
      by_cases hwalk : env.options.walkLinks = true
      · simp only [hwalk, if_true]
        exact hstill trivial rfl
      · simp only [hwalk]
        exact hstill trivial rfl
    | _ => exact hstill trivial rfl
  | onInfo info =>
    refine .twin ?_
    simp only [move, unstopped]
    change Course.Twin _ (if info.kind = .file ∧ t.visit.verdict ≠ .included then _ else
      if info.identity t.visit.place ∈ s.visited then _ else _)
    (repeat' split) <;> exact hstill trivial rfl
  | onTarget info target =>
    refine .twin ?_
    simp only [move, unstopped]
    split
    · exact hstill trivial rfl
    · exact hstill trivial rfl
  | onEntries info names =>
    refine .twin ?_
    simp only [move, unstopped]
    split
    · exact hstill trivial rfl
    · refine .done ⟨hquiet.addSource [(s.level t.level).source], ?_, ?_⟩
      · change (net.addSource _).tokens.length = (s.admission.network.addSource _).tokens.length
        rw [Network.length_addSource, Network.length_addSource, hlength]
      · unfold State.openLevel State.rewire
        rw [← hlength]
        rfl
  | giveBack next =>
    refine .twin ?_
    have hnetwork : ∀ (s' : State σ), s'.admission.network = s.admission.network → s'.Twin (s'.rewire net) :=
      fun s' hsame => .of hquiet (by rw [hlength, hsame])
    simp only [move, unstopped, State.rewire]
    unfold Admission.release
    dsimp only
    cases (s.admission.pool.release 1).2 with
    | none => exact .goOn (c := next) hblind (hnetwork _ rfl)
    | some f => exact .goOn (c := .conclude (.error f)) trivial (hnetwork _ rfl)
  | onAnswer job f answer =>
    refine .twin ?_
    cases answer with
    | error g => exact hstill trivial rfl
    | ok taken =>
      simp only [move, unstopped]
      split
      · have hstill := hstill (u := t) (c := .giveBack (job.forgone t)) (blind_forgone t job) (Eq.refl s.admission)
        rw [unstopped, unstopped_forgone] at hstill
        exact hstill
      · exact hstill trivial rfl
  | consult job f =>
    refine .twin ?_
    simp only [move, unstopped, Environment.unstopped]
    cases env.options.onFault <;> exact hstill trivial rfl
  | offer job f =>
    refine .twin ?_
    simp only [move, unstopped, Environment.unstopped]
    split
    · exact hstill trivial rfl
    · cases env.options.onFault with
      | none => exact hstill trivial rfl
      | some handler =>
        dsimp only
        split
        · exact hdone rfl
        · exact hstill trivial rfl
  | onReply info tally answer =>
    refine .twin ?_
    rcases answer with f | _ | _
    · simp only [move, unstopped]
      split <;> exact hstill trivial rfl
    · exact hstill trivial rfl
    · exact hstill trivial rfl
  | stop info tally reply =>
    have hcheck : reply.check = false := hblind
    cases hstop : reply.stop with
    | none =>
      refine .twin ?_
      simp only [move, unstopped, hstop, hcheck, Bool.false_eq_true, if_false]
      exact hstill trivial rfl
    | some r =>
      by_cases hsame : (s.admission.cancel callerToken r).pool = s.admission.pool
      · refine .twin ?_
        simp only [move, unstopped, hstop, hcheck, Bool.false_eq_true, if_false]
        exact .goOn (c := .onReply info tally reply.answer) trivial ((State.Twin.of hquiet hlength).cancel _ r hsame)
      · have hmove : Cursor.move env i t (.stop info tally reply) s =
            .goOn t (.onReply info tally reply.answer)
              { s with admission := s.admission.cancel callerToken r } := by
          simp only [move, hstop, hcheck, Bool.false_eq_true, if_false]
        exact .refuses hmove rfl hsame
  | report info tally =>
    refine .twin ?_
    simp only [move, unstopped, Environment.unstopped]
    cases h : env.options.onPath with
    | none => exact hstill trivial rfl
    | some handler => exact hstill (henv handler h _ _) rfl
  | begin job =>
    refine .twin ?_
    cases job with
    | report info tally =>
      simp only [move, unstopped, Environment.unstopped]
      cases env.options.onPath with
      | none => exact hstill trivial rfl
      | some handler =>
        dsimp only [Option.map_some, Handler.unstopped]
        split
        · exact hdone rfl
        · exact hstill trivial rfl
    | _ => exact hdone rfl
  | answer job =>
    refine .twin ?_
    cases job with
    | report info tally => exact hstill trivial rfl
    | _ =>
      simp only [move, unstopped, Environment.unstopped]
      split <;> exact hstill trivial rfl

end Moves

section Refusals

variable {env : Environment σ} {capacity : Int} {others : List Pool.Stake} {s s' s₂ : State σ} {i : Nat}
  {t u : Task} {d : Cursor}

/-- If somebody is refused because the caller cancels its source, it is a task of the walk that waits. -/
theorem Wired.refused {stakes : List Pool.Stake} {a : Admission}
    (h : Wired s.posts s.sources others a) (hserves : Pool.Serves a.pool (stakes ++ others)) {source : Nat} {r : Reason}
    (hrefused : (a.cancel source r).pool ≠ a.pool) : ∃ ticket f,
      (∃ stake ∈ stakes, ∃ count, (ticket, count) ∈ stake.claims) ∧
        (ticket, .refused f) ∈ (a.cancel source r).pool.settled := by
  rcases Admission.foldl_refuse_cases (a.network.cancel source r).2 a.pool with hsame | ⟨e, he, hwaits, hsettled⟩
  · exact absurd hsame hrefused
  · refine ⟨e.1, _, ?_, hsettled⟩
    have hheard : ∃ n, a.network.Hears n (.client e.1) := by
      have hconfined : a.network.Confined (fun _ => True) fun c => ∃ n, a.network.Hears n (.client c) :=
        ⟨fun _ _ _ _ => trivial, fun n c _ hears => ⟨n, hears⟩⟩
      exact ((hconfined.cancel trivial r).2 e he).1
    obtain ⟨n, hears⟩ := hheard
    have hticket : e.1 ∈ a.pool.tickets := by
      obtain ⟨w, hw, heq⟩ := Pool.isWaiting_iff.mp hwaits
      exact List.mem_append_left _ (heq ▸ List.mem_map_of_mem hw)
    obtain ⟨c, hc, heq⟩ := List.mem_map.mp (hserves.1.tickets.mem_iff.mp hticket)
    obtain ⟨stake, hstake, hclaim⟩ := List.mem_flatMap.mp hc
    have hclaim : (e.1, c.2) ∈ stake.claims := by rwa [← heq]
    -- Others have no ticket that hears a token, so it is one of the walk.
    rcases List.mem_append.mp hstake with hstake | hstake
    · exact ⟨stake, hstake, c.2, hclaim⟩
    · exact absurd hclaim (h.foreign n e.1 hears stake hstake c.2)

theorem claims_of_posts {posts : List (Nat × Phase)} {stake : Pool.Stake}
    (hstake : stake ∈ posts.flatMap (·.2.stakes)) {ticket : Nat} {count : Int}
    (hclaim : (ticket, count) ∈ stake.claims) : ∃ p ∈ posts, ∃ job, p.2 = .queued ticket job := by
  obtain ⟨p, hp, hstake⟩ := List.mem_flatMap.mp hstake
  refine ⟨p, hp, ?_⟩
  cases hphase : p.2 with
  | queued own job =>
    rw [hphase] at hstake
    rw [List.mem_singleton.mp hstake] at hclaim
    obtain ⟨rfl, _⟩ := Prod.mk.inj (List.mem_singleton.mp hclaim)
    exact ⟨job, rfl⟩
  | calling job | consulting job f =>
    rw [hphase] at hstake
    rw [List.mem_singleton.mp hstake] at hclaim
    cases hclaim
  | _ =>
    rw [hphase] at hstake
    cases hstake

/-- A cancellation by which somebody is refused dooms the walk. -/
theorem Plugged.doomed_cancel (h : Plugged capacity others s) {r : Reason}
    (hrefused : (s.admission.cancel callerToken r).pool ≠ s.admission.pool) :
    State.Doomed { s with admission := s.admission.cancel callerToken r } := by
  obtain ⟨ticket, f, ⟨stake, hstake, count, hclaim⟩, hsettled⟩ := h.wired.refused h.serves_all hrefused
  obtain ⟨p, hp, job, hqueued⟩ := claims_of_posts hstake hclaim
  obtain ⟨j, hj⟩ := List.getElem?_of_mem hp
  exact .ticket trivial hj hqueued hsettled (by simp)

theorem Plugged.doomed_stop (h : Plugged capacity others s) (ht : s.tasks[i]? = some t)
    (hamid : s.Amid env i u d s₂) {r : Reason}
    (hrefused : (s₂.admission.cancel callerToken r).pool ≠ s₂.admission.pool) :
    Doomed (· ≠ i) s.posts s.ranks (s₂.admission.cancel callerToken r) := by
  have hserves : Pool.Serves s₂.admission.pool ((d.stakes ++ s.stakesBut i) ++ others) := by
    cases (h.advances ht hamid).2 with
    | onward _ _ _ _ trade =>
      rw [List.append_assoc]
      exact trade.serves _ (h.serves_task ht)
  obtain ⟨ticket, f, ⟨stake, hstake, count, hclaim⟩, hsettled⟩ :=
    (h.wired_amid hamid).refused hserves hrefused
  rcases List.mem_append.mp hstake with hstake | hstake
  · unfold Cursor.stakes at hstake
    split at hstake
    · rw [List.mem_singleton.mp hstake] at hclaim
      cases hclaim
    · cases hstake
  · obtain ⟨p, hp, job, hqueued⟩ := claims_of_posts hstake hclaim
    obtain ⟨j, hij, hj⟩ := List.mem_eraseIdx_iff_getElem?.mp hp
    exact .ticket hij hj hqueued hsettled (by simp)

end Refusals

section Steps

variable {env : Environment σ} {capacity : Int} {others : List Pool.Stake} {s s' s₁ s₂ : State σ} {i : Nat}
  {t u : Task} {c d : Cursor} {net : Network Nat}

/-- What a task does from some moment of its step on is what its twin does, unless the walk is doomed. -/
theorem Plugged.twin_run (h : Plugged capacity others s) (henv : env.Blind) (ht : s.tasks[i]? = some t)
    (hamid : s.Amid env i u c s₁) (hblind : c.Blind) (htwin : s₁.Twin s₂) :
    (c.run env i u s₁).Doomed ∨ (c.run env i u s₁).Twin (c.unstopped.run env.unstopped i u s₂) := by
  generalize hend : c.unstopped.run env.unstopped i u s₂ = e
  refine Cursor.run_of_moves (Q := fun s' => s'.Doomed ∨ s'.Twin e)
    (P := fun u c s₁ => s.Amid env i u c s₁ ∧ ((Doomed (· ≠ i) s.posts s.ranks s₁.admission ∨ c.Sinks) ∨
      c.Blind ∧ ∃ s₂, s₁.Twin s₂ ∧ c.unstopped.run env.unstopped i u s₂ = e)) ?_ u c s₁
    ⟨hamid, .inr ⟨hblind, s₂, htwin, hend⟩⟩
  -- Once the walk is doomed, its twin is not followed any further.
  rintro u c s₁ ⟨hamid, hdoomed | ⟨hblind, s₂, ⟨hquiet, hlength, hsame⟩, hend⟩⟩
  · have hnext := h.doomed_move ht hamid hdoomed
    cases hcourse : c.move env i u s₁ with
    | goOn v d s₃ =>
      rw [hcourse] at hnext
      exact ⟨.next hamid hcourse, .inl hnext⟩
    | done s₃ =>
      rw [hcourse] at hnext
      exact .inl hnext
  · rw [hsame] at hend
    cases Cursor.parallel (i := i) (t := u) henv hblind hquiet hlength with
    | twin twin =>
      have hlast := c.unstopped.last_move env.unstopped i u (s₁.rewire s₂.admission.network)
      rw [hend] at hlast
      generalize c.unstopped.move env.unstopped i u (s₁.rewire s₂.admission.network) = course₂ at twin hlast
      cases hcourse : c.move env i u s₁ with
      | goOn v d s₃ =>
        rw [hcourse] at twin
        cases twin with
        | goOn blind twin => exact ⟨.next hamid hcourse, .inr ⟨blind, _, twin, hlast⟩⟩
      | done s₃ =>
        rw [hcourse] at twin
        cases twin with
        | done twin =>
          refine .inr ?_
          rw [← hlast]
          exact twin
    | sinks move sinks =>
      rw [move]
      exact ⟨.next hamid move, .inl (.inr sinks)⟩
    | refuses move admission refused =>
      rw [move]
      refine ⟨.next hamid move, .inl (.inl ?_)⟩
      rw [admission]
      exact h.doomed_stop ht hamid refused

/-- A task of the twin begins its step as the task itself does, unless that one is called off. -/
theorem State.entry_twin (hquiet : net.Quiet) (hlength : net.tokens.length = s.admission.network.tokens.length)
    (h : s.entry? env t = some (c, s₁)) : c.Sinks ∨
      c.Blind ∧ ∃ s₂, s₁.Twin s₂ ∧ State.entry? env.unstopped (s.rewire net) t = some (c.unstopped, s₂) := by
  have hstill : ∀ {d : Cursor}, d.Blind → d.unstopped = d → d.Blind ∧ ∃ s₂, s.Twin s₂ ∧
      some (d, s.rewire net) = some (d.unstopped, s₂) :=
    fun hblind hsame => ⟨hblind, _, .of hquiet hlength, by rw [hsame]⟩
  unfold entry? at h ⊢
  cases hphase : t.phase with
  | queued ticket job =>
    simp only [hphase] at h ⊢
    obtain ⟨⟨b, failure⟩, hcollect, heq⟩ := Option.map_eq_some_iff.mp h
    obtain ⟨rfl, rfl⟩ := Prod.mk.inj heq
    obtain ⟨hpool, hnetwork⟩ := Admission.collect?_cases hcollect
    have hunsub : b.network = s.admission.network.unsubscribe (s.level t.level).source (.client ticket) := hnetwork
    have htwin : (s.rewire net).admission.collect? ticket 1 (some ((s.rewire net).level t.level).source)
        t.interrupted = some (⟨b.pool, net.unsubscribe (s.level t.level).source (.client ticket)⟩, failure) := by
      unfold Admission.collect?
      change (s.admission.pool.collect? ticket 1 t.interrupted).map _ = _
      rw [hpool]
      rfl
    have hquiet' := hquiet.unsubscribe (s.level t.level).source (.client ticket)
    have hcalled := Admission.called?_of_quiet
      (a := ⟨b.pool, net.unsubscribe (s.level t.level).source (.client ticket)⟩) hquiet'
      (some ((s.rewire net).level t.level).source)
    rw [htwin, Option.map_some]
    dsimp only
    cases failure with
    | some f => exact .inl trivial
    | none =>
      dsimp only
      cases b.called? (some (s.level t.level).source) with
      | some f => exact .inl trivial
      | none =>
        refine .inr ⟨trivial, { s with admission := ⟨b.pool, net.unsubscribe (s.level t.level).source
          (.client ticket)⟩ }, ⟨hquiet', ?_, rfl⟩, ?_⟩
        · change (net.unsubscribe _ _).tokens.length = b.network.tokens.length
          rw [hunsub]
          exact (Network.length_update _ _ _).trans (hlength.trans (Network.length_update _ _ _).symm)
        · rw [hcalled]
          rfl
  | descending k info =>
    simp only [hphase] at h ⊢
    have hlevel : (s.rewire net).level k = s.level k := rfl
    rw [hlevel]
    cases hstage : (s.level k).stage with
    | closed result =>
      simp only [hstage] at h
      obtain ⟨rfl, rfl⟩ := Prod.mk.inj (Option.some.inj h)
      right
      dsimp only
      split
      · exact hstill trivial rfl
      · cases result <;> exact hstill trivial rfl
    | _ => simp [hstage] at h
  | ended result => simp [hphase] at h
  | logging tally =>
    simp only [hphase] at h ⊢
    obtain ⟨rfl, rfl⟩ := Prod.mk.inj (Option.some.inj h)
    exact .inr (hstill trivial rfl)
  | fresh | calling job | consulting job f =>
    simp only [hphase] at h ⊢
    obtain ⟨rfl, rfl⟩ := Prod.mk.inj (Option.some.inj h)
    right
    split <;> exact hstill trivial rfl

/-- A level of the twin makes its step as the level itself does, if that one does not fail. -/
theorem State.level_twin {k : Nat} {l : Level} (hquiet : net.Quiet)
    (hlength : net.tokens.length = s.admission.network.tokens.length) (hstep : s.stepLevel? k l = some s') :
    l.stage.isClosed = false ∧ l.failure ≠ none ∨
      ∃ s₂, s'.Twin s₂ ∧ (s.rewire net).stepLevel? k l = some s₂ := by
  have hended : (s.rewire net).allEnded k = s.allEnded k := rfl
  have hclose : ∀ result, State.Twin (s.close k result) ((s.rewire net).close k result) := by
    intro result
    refine ⟨hquiet.detach _, ?_, rfl⟩
    exact (Network.length_detach _ _).trans (hlength.trans (Network.length_detach _ _).symm)
  unfold stepLevel? at hstep ⊢
  cases hstage : l.stage with
  | closed result => simp [hstage] at hstep
  | draining f =>
    simp only [hstage, hended] at hstep ⊢
    split at hstep
    · next hall =>
      obtain rfl := Option.some.inj hstep
      rw [if_pos hall]
      exact .inr ⟨_, hclose _, rfl⟩
    · cases hstep
  | running =>
    simp only [hstage, hended] at hstep ⊢
    cases hfailure : l.failure with
    | some f => exact .inl ⟨rfl, by simp⟩
    | none =>
      simp only [hfailure] at hstep ⊢
      split at hstep
      · next hall =>
        rw [if_pos hall]
        split at hstep
        · next htold =>
          obtain rfl := Option.some.inj hstep
          rw [if_pos htold]
          exact .inr ⟨_, hclose _, rfl⟩
        · next hfree =>
          obtain rfl := Option.some.inj hstep
          rw [if_neg hfree]
          exact .inr ⟨_, hclose _, rfl⟩
      · cases hstep

/-- The twin makes the same step, unless the walk is doomed. -/
theorem Plugged.twin_step (h : Plugged capacity others s) (henv : env.Blind) {a : Actor}
    (hstep : s.step? env a = some s') (htwin : s.Twin s₂) :
    s'.Doomed ∨ ∃ s₃, s'.Twin s₃ ∧ s₂.step? env.unstopped a = some s₃ := by
  obtain ⟨hquiet, hlength, hsame⟩ := htwin
  rw [hsame]
  cases a with
  | task i =>
    obtain ⟨t, ht, hstep⟩ := Option.bind_eq_some_iff.mp hstep
    obtain ⟨c, s₁, hentry, rfl⟩ := State.exists_entry hstep
    have hamid : s.Amid env i t c s₁ := .enter ht hentry
    rcases State.entry_twin hquiet hlength hentry with hsinks | ⟨hblind, s₃, htwin, hentry'⟩
    · exact .inl (h.doomed_run ht hamid (.inr hsinks))
    · refine (h.twin_run henv ht hamid hblind htwin).imp_right fun hend => ⟨_, hend, ?_⟩
      have htask : (s.rewire s₂.admission.network).tasks[i]? = some t := ht
      change (s.rewire s₂.admission.network).tasks[i]?.bind _ = _
      rw [htask, Option.bind_some, State.stepTask?_eq, hentry']
      rfl
  | level k =>
    obtain ⟨l, hl, hstep⟩ := Option.bind_eq_some_iff.mp hstep
    rcases State.level_twin hquiet hlength hstep with ⟨hopen, hfailure⟩ | ⟨s₃, htwin, hstep'⟩
    · left
      have hnested := h.nested
      rw [State.stages_eq] at hnested
      have hdoomed := Doomed.of_failure hnested (s.rank_of_level k hl) hopen hfailure s.admission
      refine (State.fate hstep).doomed hl ?_
      exact hdoomed.stays (fun _ r hr hf => ⟨r, hr, hf⟩) (fun _ _ _ hp => ⟨trivial, hp⟩)
        fun _ _ _ _ _ _ _ _ => id
    · refine .inr ⟨s₃, htwin, ?_⟩
      have hlevel : (s.rewire s₂.admission.network).levels[k]? = some l := hl
      change (s.rewire s₂.admission.network).levels[k]?.bind _ = _
      rw [hlevel, Option.bind_some]
      exact hstep'

end Steps

end TreeCensus.Walk
