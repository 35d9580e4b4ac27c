import TreeCensus.Proofs.Walk.Deeds
import TreeCensus.Proofs.Walk.Nesting

/-!
# Walks among others

A scene is a walk together with what the other users of its pool have at stake there, and with the
serial numbers of all subscriptions that the walk has made. In a scene either the walk makes a step or
somebody else deals with the pool or with a source, the caller with its own source included. The
permits of the walk and of the others never exceed the pool, and a walk that has come back leaves the
pool to the others, has nothing more to do, and listens no more to the token of its caller. That holds
as well if the walk itself is told to end, once or more often.
-/

namespace TreeCensus.Walk

set_option autoImplicit false

open Cancellation (Network)
open Pool (Serves Stake)

variable {σ : Type}

/-- The moments within a step of a task. -/
inductive State.Amid (env : Environment σ) (s : State σ) (i : Nat) : Task → Cursor → State σ → Prop
  | enter {t : Task} {c : Cursor} {s' : State σ} (task : s.tasks[i]? = some t)
      (entry : s.entry? env t = some (c, s')) : Amid env s i t c s'
  | next {t u : Task} {c d : Cursor} {s₁ s₂ : State σ} (before : Amid env s i t c s₁)
      (move : c.move env i t s₁ = .goOn u d s₂) : Amid env s i u d s₂

namespace State

variable {env : Environment σ} {s s' : State σ} {i : Nat} {t u : Task} {c : Cursor} {s₁ : State σ}

/-- All moments of a step lead to the same end. -/
theorem Amid.run_eq (h : s.Amid env i u c s₁) (ht : s.tasks[i]? = some t)
    (hstep : s.stepTask? env i t = some s') : c.run env i u s₁ = s' := by
  induction h with
  | enter task entry =>
    obtain rfl := Option.some.inj (ht.symm.trans task)
    rw [stepTask?_eq, entry] at hstep
    exact Option.some.inj hstep
  | @next t u c d s₁ s₂ _ move ih =>
    rw [← ih, ← c.last_move, move]
    rfl

theorem Amid.task (h : s.Amid env i u c s₁) : ∃ t, s.tasks[i]? = some t := by
  induction h with
  | enter task _ => exact ⟨_, task⟩
  | next _ _ ih => exact ih

/-- Within a step tasks and levels stay what they are to each other. -/
theorem Amid.unmoved (h : s.Amid env i u c s₁) (ht : s.tasks[i]? = some t) :
    u.level = t.level ∧ s₁.standings = s.standings ∧ s₁.ranks = s.ranks := by
  induction h with
  | enter task entry =>
    obtain rfl := Option.some.inj (ht.symm.trans task)
    cases State.enters entry <;> exact ⟨rfl, rfl, rfl⟩
  | @next t u c d s₁ s₂ _ move ih =>
    obtain ⟨hlevel, hstandings, hranks⟩ := ih
    have hdeed := c.deed_move env i t s₁
    rw [move] at hdeed
    cases hdeed with
    | onward level standings ranks _ =>
      exact ⟨level.trans hlevel, standings.trans hstandings, ranks.trans hranks⟩

/-- What holds when a step begins and is kept by its moves holds at all moments of the step, and what
the last move comes to holds when the step is over. -/
theorem along_entry {P : Task → Cursor → State σ → Prop} {Q : State σ → Prop}
    (ht : s.tasks[i]? = some t) (henter : ∀ c s₁, s.entry? env t = some (c, s₁) → P t c s₁)
    (hmove : ∀ u c s₁, s.Amid env i u c s₁ → P u c s₁ → (c.move env i u s₁).Meets P Q) :
    (∀ u c s₁, s.Amid env i u c s₁ → P u c s₁) ∧ ∀ s', s.stepTask? env i t = some s' → Q s' := by
  refine ⟨?_, ?_⟩
  · intro u c s₁ hamid
    induction hamid with
    | enter task entry =>
      obtain rfl := Option.some.inj (ht.symm.trans task)
      exact henter _ _ entry
    | next before move ih =>
      have hnext := hmove _ _ _ before ih
      rwa [move] at hnext
  · intro s' hstep
    obtain ⟨c, s₁, hentry, rfl⟩ := exists_entry hstep
    refine Cursor.run_of_moves (P := fun u c s₁ => s.Amid env i u c s₁ ∧ P u c s₁) ?_ t c s₁
      ⟨.enter ht hentry, henter c s₁ hentry⟩
    rintro u d s₂ ⟨hamid, hP⟩
    have hnext := hmove u d s₂ hamid hP
    cases hcourse : d.move env i u s₂ with
    | goOn v e s₃ =>
      rw [hcourse] at hnext
      exact ⟨.next hamid hcourse, hnext⟩
    | done s₃ =>
      rw [hcourse] at hnext
      exact hnext

/-- The same for what follows from how the step begins. -/
theorem along_step {P : Task → Cursor → State σ → Prop} {Q : State σ → Prop}
    (ht : s.tasks[i]? = some t) (henter : ∀ c s₁, s.Enters env t c s₁ → P t c s₁)
    (hmove : ∀ u c s₁, s.Amid env i u c s₁ → P u c s₁ → (c.move env i u s₁).Meets P Q) :
    (∀ u c s₁, s.Amid env i u c s₁ → P u c s₁) ∧ ∀ s', s.stepTask? env i t = some s' → Q s' :=
  along_entry ht (fun c s₁ hentry => henter c s₁ (State.enters hentry)) hmove

end State

/-- The number of calls on the file system and on handlers that are in progress. -/
def State.underWay (s : State σ) : Nat := s.tasks.countP (·.phase.holdsPermit)

/-- The same without the calls of one task. -/
def State.underWayBut (s : State σ) (i : Nat) : Nat :=
  (s.tasks.eraseIdx i).countP (·.phase.holdsPermit)

/-- The whole walk is told to end. -/
def State.interruptAll (s : State σ) : State σ :=
  (s.interrupt 0).updateLevel 0 fun l => { l with interrupted := true }

structure Scene (σ : Type) where
  state : State σ
  own : List Nat
  others : List Stake

namespace Scene

def serial (sc : Scene σ) : Nat := sc.state.admission.network.serial

/-- The scene after the walk has made a step. -/
def after (sc : Scene σ) (s : State σ) : Scene σ :=
  ⟨s, sc.own ++ List.range' sc.serial (s.admission.network.serial - sc.serial), sc.others⟩

def start (env : Environment σ) (caller : Caller σ) (paths : List Path) (others : List Stake) :
    Scene σ :=
  let s := State.start env caller paths
  ⟨s, List.range s.admission.network.serial, others⟩

inductive Move (env : Environment σ) : Scene σ → Scene σ → Prop
  | act {sc : Scene σ} {a : Actor} {s : State σ} (step : sc.state.step? env a = some s) :
      Move env sc (sc.after s)
  | interrupt (sc : Scene σ) : Move env sc (sc.after sc.state.interruptAll)
  | deal {sc : Scene σ} {b : Admission} {others : List Stake}
      (dealing : Admission.Dealing sc.state.admission sc.others b others) :
      Move env sc { sc with state := { sc.state with admission := b }, others }

inductive Moves (env : Environment σ) : Scene σ → Scene σ → Prop
  | refl (sc : Scene σ) : Moves env sc sc
  | cons {a b c : Scene σ} : Move env a b → Moves env b c → Moves env a c

/-- Some actors make a step each, one after the other. -/
def play (env : Environment σ) : List Actor → Scene σ → Option (Scene σ)
  | [], sc => some sc
  | a :: actors, sc => (sc.state.step? env a).bind fun s => play env actors (sc.after s)

theorem moves_of_play {env : Environment σ} {actors : List Actor} {sc sc' : Scene σ}
    (h : play env actors sc = some sc') : Moves env sc sc' := by
  induction actors generalizing sc with
  | nil =>
    obtain rfl := Option.some.inj h
    exact .refl sc
  | cons a actors ih =>
    obtain ⟨s, hstep, hrest⟩ := Option.bind_eq_some_iff.mp h
    exact .cons (.act hstep) (ih hrest)

end Scene

/-- What the tasks of a walk have at stake in the pool. -/
def State.stakes (s : State σ) : List Stake := s.posts.flatMap (·.2.stakes)

/-- What the tasks but one have at stake in the pool. -/
def State.stakesBut (s : State σ) (i : Nat) : List Stake := (s.posts.eraseIdx i).flatMap (·.2.stakes)

theorem State.perm_stakes (s : State σ) {i : Nat} {p : Nat × Phase} (hp : s.posts[i]? = some p) :
    s.stakes.Perm (p.2.stakes ++ s.stakesBut i) :=
  (perm_eraseIdx hp).flatMap_right _

theorem sum_hands (posts : List (Nat × Phase)) :
    ((posts.flatMap (·.2.stakes)).map (·.hands)).sum =
      (posts.countP (·.2.holdsPermit) : Int) := by
  induction posts with
  | nil => rfl
  | cons p posts ih =>
    rw [List.flatMap_cons, List.map_append, List.sum_append, ih, List.countP_cons]
    cases p.2 <;> simp [Phase.stakes, Phase.holdsPermit, Stake.hold, Stake.claim] <;> omega

theorem State.perm_stakes_modify (s : State σ) {i : Nat} {p : Nat × Phase}
    (hp : s.posts[i]? = some p) (phase : Phase) :
    ((s.posts.modify i fun p => (p.1, phase)).flatMap (·.2.stakes)).Perm
      (phase.stakes ++ s.stakesBut i) :=
  (perm_modify hp fun p => (p.1, phase)).flatMap_right _

/-- A step of a task is a trade of all tasks together. -/
theorem Advances.trade_stakes {i level : Nat} {s s' : State σ} {p : Nat × Phase}
    (hp : s.posts[i]? = some p) (h : Advances i level p.2.stakes s (.done s')) :
    Trade (· ≠ callerToken) s.stakes s'.stakes s.admission s'.admission := by
  have hbefore := s.perm_stakes hp
  cases h with
  | rest phase _ posts _ trade =>
    have hthen := s.perm_stakes_modify hp phase
    rw [← posts] at hthen
    exact (trade.keep _).congr hbefore hthen.symm
  | descend info count _ posts _ _ _ trade =>
    have hthen := s.perm_stakes_modify hp (.descending s.stages.length info)
    have hnew : (List.replicate count (s.stages.length, Phase.fresh)).flatMap (·.2.stakes) = [] := by
      rw [List.flatMap_eq_nil_iff]
      intro q hq
      rw [List.eq_of_mem_replicate hq]
      rfl
    rw [modify_append (List.getElem?_eq_some_iff.mp hp).1] at posts
    have hall : s'.stakes =
        (s.posts.modify i fun p => (p.1, .descending s.stages.length info)).flatMap (·.2.stakes) := by
      unfold State.stakes
      rw [posts, List.flatMap_append, hnew, List.append_nil]
    rw [← hall] at hthen
    exact (trade.keep _).congr hbefore hthen.symm

theorem State.posts_of_task {s : State σ} {i : Nat} {t : Task} (ht : s.tasks[i]? = some t) :
    s.posts[i]? = some (t.level, t.phase) := by
  unfold posts
  rw [List.getElem?_map, ht]
  rfl

theorem State.stages_of_level {s : State σ} {k : Nat} {l : Level} (hl : s.levels[k]? = some l) :
    s.stages[k]? = some (l.source, l.stage) := by
  unfold stages
  rw [List.getElem?_map, hl]
  rfl

theorem State.posts_interruptAll (s : State σ) : s.interruptAll.posts = s.posts := posts_interrupt s 0

theorem State.stages_interruptAll (s : State σ) : s.interruptAll.stages = s.stages := by
  rw [← stages_interrupt s 0]
  exact stages_updateLevel _ 0 fun _ => ⟨rfl, rfl⟩

theorem State.result?_interruptAll (s : State σ) : s.interruptAll.result? = s.result? := by
  unfold result?
  rw [level_stage_eq, level_stage_eq, stages_interruptAll]

/-- Levels stay nested when a level makes a step. -/
theorem Turns.nested {k : Nat} {s s' : State σ} {l : Level} (hl : s.levels[k]? = some l)
    (h : Turns s k s') (hnested : Nested s.posts s.stages s.admission.network) :
    Nested s'.posts s'.stages s'.admission.network := by
  have hstage := State.stages_of_level hl
  have hlevel : (s.level k).source = l.source ∧ (s.level k).stage = l.stage := by
    unfold State.level
    rw [hl]
    exact ⟨rfl, rfl⟩
  cases h with
  | drain f goesOn posts stages trade =>
    rw [hlevel.2] at goesOn
    rw [posts, stages]
    refine Nested.follows ?_ trade.follows
    refine hnested.stage hstage goesOn ?_ ?_
    · intro hclosed
      cases hclosed
    · intro hclosed
      cases hclosed
  | close result goesOn ended posts stages admission =>
    rw [hlevel.2] at goesOn
    rw [posts, stages, admission, hlevel.1]
    have hfollows : Network.Follows (· ≠ callerToken) s.admission.network
        (s.admission.network.detach l.source) := .detach s.admission.network l.source
    refine (hnested.follows hfollows).stage hstage goesOn ?_ ?_
    · intro _ p hp hpk
      rw [State.allEnded_eq, List.all_eq_true] at ended
      have := ended p hp
      simpa [hpk] using this
    · intro _
      rw [Network.links_detach, if_pos rfl]

theorem Turns.trade_stakes {k : Nat} {s s' : State σ} (h : Turns s k s') :
    Trade (· ≠ callerToken) s.stakes s'.stakes s.admission s'.admission := by
  cases h with
  | drain _ _ posts _ trade =>
    unfold State.stakes
    rw [posts]
    exact trade.keep _
  | close _ _ _ posts _ admission =>
    unfold State.stakes
    rw [posts, admission]
    exact .detach _ _

/-- Levels stay nested when a task makes a step. -/
theorem Advances.nested {i level : Nat} {given : List Stake} {s s' : State σ} {t : Task}
    (ht : s.tasks[i]? = some t) (hready : s.Ready t)
    (h : Advances i level given s (.done s'))
    (hnested : Nested s.posts s.stages s.admission.network) :
    Nested s'.posts s'.stages s'.admission.network := by
  have hp := State.posts_of_task ht
  have harrived : ∀ k info, t.phase = .descending k info → ∀ source stage,
      s.stages[k]? = some (source, stage) → stage.isClosed = true := by
    intro k info hphase source stage hl
    have hclosed := hready.2 k info hphase
    rw [State.level_stage_eq, hl] at hclosed
    exact hclosed
  cases h with
  | rest phase _ posts stages trade =>
    rw [posts, stages]
    exact (hnested.post hp hready.1 harrived phase).follows trade.follows
  | descend info count source posts stages unused grown trade =>
    rw [posts, stages, modify_append (List.getElem?_eq_some_iff.mp hp).1]
    have hmoved := (hnested.post hp hready.1 harrived (.descending s.stages.length info)).follows
      trade.follows
    have hcaller : source ≠ callerToken := by
      have htop := hnested.topmost
      cases hstages : s.stages with
      | nil => simp [hstages] at htop
      | cons l rest =>
        have := (hnested.sources l (by rw [hstages]; exact List.mem_cons_self)).2
        unfold callerToken
        omega
    refine hmoved.descend (i := i) (p := (t.level, .descending s.stages.length info)) ?_ rfl hcaller
      grown count
    rw [List.getElem?_modify_eq, hp]
    rfl

/-- A walk has come back when its topmost level is closed. -/
theorem State.topmost_of_result {s : State σ} {result : Except Fault Tally} (hresult : s.result? = some result) :
    ∃ l, s.levels[0]? = some l ∧ l.stage = .closed result := by
  unfold State.result? State.level at hresult
  cases hlevel : s.levels[0]? with
  | none =>
    rw [hlevel] at hresult
    cases hresult
  | some l =>
    rw [hlevel, Option.getD_some] at hresult
    cases hstage : l.stage with
    | closed =>
      rw [hstage] at hresult
      exact ⟨l, rfl, hstage.trans (congrArg Stage.closed (Option.some.inj hresult))⟩
    | _ =>
      rw [hstage] at hresult
      cases hresult

theorem State.closed_of_result {s : State σ} (hresult : s.result?.isSome = true) :
    ∃ source result, s.stages[0]? = some (source, .closed result) := by
  unfold State.result? at hresult
  rw [State.level_stage_eq] at hresult
  cases hfirst : s.stages[0]? with
  | none => simp [hfirst] at hresult
  | some l =>
    obtain ⟨source, stage⟩ := l
    cases stage with
    | closed result => exact ⟨source, result, rfl⟩
    | _ => simp [hfirst] at hresult

/-- When a walk has come back, all its tasks have ended. -/
theorem State.ended_of_result {s : State σ} {net : Cancellation.Network Nat}
    (hnested : Nested s.posts s.stages net) (hresult : s.result?.isSome = true) {p : Nat × Phase}
    (hp : p ∈ s.posts) : p.2.isEnded = true := by
  obtain ⟨source, result, htop⟩ := closed_of_result hresult
  exact hnested.isEnded_of_topmost htop hp

structure Scene.Sound (capacity : Int) (sc : Scene σ) : Prop where
  capacity : sc.state.admission.pool.capacity = capacity
  serves : Serves sc.state.admission.pool (sc.state.stakes ++ sc.others)
  nested : Nested sc.state.posts sc.state.stages sc.state.admission.network
  linked : sc.state.admission.network.Linked
  own : ∀ n ∈ sc.own, n < sc.serial
  callbacks : ∀ sub ∈ sc.state.admission.network.subscriptions callerToken, sub.serial < sc.serial ∧
    (sub.serial ∈ sc.own → sub.listener = .source (callerToken + 1))

namespace Scene

variable {env : Environment σ} {capacity : Int} {sc : Scene σ}

theorem mem_own_after {s : State σ} {n : Nat} (hn : n ∈ (sc.after s).own) :
    n ∈ sc.own ∨ sc.serial ≤ n ∧ n < s.admission.network.serial := by
  rcases List.mem_append.mp hn with hn | hn
  · exact .inl hn
  · rw [List.mem_range'_1] at hn
    exact .inr (by omega)

namespace Sound

/-- The walk trades and does not subscribe to the token of its caller. -/
theorem after (h : Sound capacity sc) {s : State σ}
    (htrade : Trade (· ≠ callerToken) sc.state.stakes s.stakes sc.state.admission s.admission)
    (hnested : Nested s.posts s.stages s.admission.network) : Sound capacity (sc.after s) := by
  have hserial : sc.serial ≤ s.admission.network.serial := htrade.follows.serial
  refine ⟨htrade.capacity.trans h.capacity, htrade.serves _ h.serves, hnested,
    htrade.linked h.linked, ?_, ?_⟩
  · intro n hn
    change n < s.admission.network.serial
    rcases mem_own_after hn with hn | hn
    · exact Nat.lt_of_lt_of_le (h.own n hn) hserial
    · exact hn.2
  · intro sub hsub
    rcases htrade.follows.subscriptions callerToken sub hsub with hold | ⟨hne, _⟩
    · obtain ⟨hlt, howner⟩ := h.callbacks sub hold
      refine ⟨Nat.lt_of_lt_of_le hlt hserial, ?_⟩
      intro hn
      rcases mem_own_after hn with hn | hn
      · exact howner hn
      · omega
    · exact absurd rfl hne

theorem source_ne (h : Sound capacity sc) {i : Nat} {t : Task} (ht : sc.state.tasks[i]? = some t) :
    (sc.state.level t.level).source ≠ callerToken := by
  have hplaced := h.nested.placed _ (List.mem_of_getElem? (State.posts_of_task ht))
  rw [State.level_source_eq, List.getElem?_eq_getElem hplaced]
  exact (h.nested.sources _ (List.getElem_mem hplaced)).1

theorem task (h : Sound capacity sc) {i : Nat} {t : Task} {s : State σ}
    (ht : sc.state.tasks[i]? = some t) (hstep : sc.state.stepTask? env i t = some s) :
    Sound capacity (sc.after s) := by
  obtain ⟨hready, hadvances⟩ := State.advances_stepTask (h.source_ne ht) hstep
  exact h.after (hadvances.trade_stakes (p := (t.level, t.phase)) (State.posts_of_task ht))
    (hadvances.nested ht hready h.nested)

theorem level (h : Sound capacity sc) {k : Nat} {l : Level} {s : State σ}
    (hl : sc.state.levels[k]? = some l) (hstep : sc.state.stepLevel? k l = some s) :
    Sound capacity (sc.after s) := by
  have hturns := State.turns hl hstep
  exact h.after hturns.trade_stakes (hturns.nested hl h.nested)

theorem interrupt (h : Sound capacity sc) : Sound capacity (sc.after sc.state.interruptAll) := by
  have hposts := sc.state.posts_interruptAll
  have htrade : Trade (· ≠ callerToken) sc.state.stakes sc.state.interruptAll.stakes
      sc.state.admission sc.state.interruptAll.admission := by
    unfold State.stakes
    rw [hposts]
    exact .foldl_abandon _ _
  refine h.after htrade ?_
  rw [hposts, sc.state.stages_interruptAll]
  exact h.nested.follows htrade.follows

theorem deal (h : Sound capacity sc) {b : Admission} {others : List Stake}
    (hdeal : Admission.Dealing sc.state.admission sc.others b others) :
    Sound capacity { sc with state := { sc.state with admission := b }, others } := by
  have htrade := hdeal.trade
  have hserial : sc.serial ≤ b.network.serial := htrade.follows.serial
  refine ⟨htrade.capacity.trans h.capacity, ?_, h.nested.follows htrade.follows,
    htrade.linked h.linked, ?_, ?_⟩
  · have hserves := htrade.serves sc.state.stakes (h.serves.perm List.perm_append_comm)
    exact hserves.perm List.perm_append_comm
  · intro n hn
    exact Nat.lt_of_lt_of_le (h.own n hn) hserial
  · intro sub hsub
    change sub.serial < b.network.serial ∧ _
    rcases htrade.follows.subscriptions callerToken sub hsub with hold | ⟨_, hlow, hhigh⟩
    · obtain ⟨hlt, howner⟩ := h.callbacks sub hold
      exact ⟨Nat.lt_of_lt_of_le hlt hserial, howner⟩
    · refine ⟨hhigh, ?_⟩
      intro hn
      exact absurd (h.own _ hn) (Nat.not_lt.mpr hlow)

theorem move (h : Sound capacity sc) {sc' : Scene σ} (hmove : Move env sc sc') :
    Sound capacity sc' := by
  cases hmove with
  | @act a s step =>
    cases a with
    | task i =>
      obtain ⟨t, ht, hstep⟩ := Option.bind_eq_some_iff.mp step
      exact h.task ht hstep
    | level k =>
      obtain ⟨l, hl, hstep⟩ := Option.bind_eq_some_iff.mp step
      exact h.level hl hstep
  | interrupt => exact h.interrupt
  | deal dealing => exact h.deal dealing

theorem moves (h : Sound capacity sc) {sc' : Scene σ} (hmoves : Moves env sc sc') :
    Sound capacity sc' := by
  induction hmoves with
  | refl => exact h
  | cons hmove _ ih => exact ih (h.move hmove)

/-- The network of a walk that begins. -/
theorem callbacks_opening (heeded : Bool) :
    let net : Network Nat :=
      (Network.empty.addSource []).addSource (if heeded then [callerToken] else [])
    ∀ sub ∈ net.subscriptions callerToken,
      sub.serial < net.serial ∧ sub.listener = .source (callerToken + 1) := by
  cases heeded <;> decide

theorem start (env : Environment σ) (caller : Caller σ) (paths : List Path) {others : List Stake}
    (hpool : Serves caller.pool others) :
    Sound caller.pool.capacity (start env caller paths others) := by
  have hposts := State.posts_start env caller paths
  have hstages := State.stages_start env caller paths
  have hstakes : (State.start env caller paths).stakes = [] := by
    unfold State.stakes
    rw [hposts, List.flatMap_eq_nil_iff]
    intro q hq
    rw [List.eq_of_mem_replicate hq]
    rfl
  have hknown : (State.start env caller paths).admission.network.tokens.length = 2 :=
    Network.length_addSource _ _
  refine ⟨rfl, ?_, ?_, ?_, ?_, ?_⟩
  · change Serves caller.pool ((State.start env caller paths).stakes ++ others)
    rw [hstakes]
    exact hpool
  · change Nested (State.start env caller paths).posts (State.start env caller paths).stages _
    rw [hposts, hstages]
    exact .single _ (Nat.lt_of_lt_of_eq (by decide) hknown.symm)
  · refine Network.Linked.addSource (Network.Linked.addSource ?_ _) _
    intro t s
    exact Nat.le_refl 0
  · intro n hn
    exact List.mem_range.mp hn
  · intro sub hsub
    obtain ⟨hlt, howner⟩ := callbacks_opening caller.heeded sub hsub
    exact ⟨hlt, fun _ => howner⟩

/-- Nobody has anything left to do in a walk that has come back. -/
theorem still (h : Sound capacity sc) (hresult : sc.state.result?.isSome = true) (a : Actor) :
    sc.state.step? env a = none := by
  cases a with
  | task i =>
    cases ht : sc.state.tasks[i]? with
    | none => simp [State.step?, ht]
    | some t =>
      have hended := State.ended_of_result h.nested hresult
        (List.mem_of_getElem? (State.posts_of_task ht))
      cases hphase : t.phase with
      | ended r => simp [State.step?, ht, State.stepTask?, hphase]
      | _ => simp [hphase, Phase.isEnded] at hended
  | level k =>
    cases hl : sc.state.levels[k]? with
    | none => simp [State.step?, hl]
    | some l =>
      obtain ⟨source, result, htop⟩ := State.closed_of_result hresult
      have hclosed := h.nested.isClosed_of_topmost htop k _ (State.stages_of_level hl)
      cases hstage : l.stage with
      | closed r => simp [State.step?, hl, State.stepLevel?, hstage]
      | _ => simp [hstage, Stage.isClosed] at hclosed

theorem silent (h : Sound capacity sc) (hresult : sc.state.result?.isSome = true) {sc' : Scene σ}
    (hmoves : Moves env sc sc') : sc'.state.trace = sc.state.trace := by
  induction hmoves with
  | refl => rfl
  | cons hmove _ ih =>
    have hsound := h.move hmove
    cases hmove with
    | act step =>
      rw [h.still hresult] at step
      cases step
    | interrupt =>
      refine ih hsound ?_
      rw [← hresult]
      exact congrArg Option.isSome (State.result?_interruptAll _)
    | deal dealing => exact ih hsound hresult

theorem callbacks_over (h : Sound capacity sc) (hresult : sc.state.result?.isSome = true) :
    ∀ sub ∈ sc.state.admission.network.subscriptions callerToken, sub.serial ∉ sc.own := by
  intro sub hsub hn
  obtain ⟨source, result, htop⟩ := State.closed_of_result hresult
  have hsource : source = callerToken + 1 := by
    have := h.nested.topmost
    rw [htop] at this
    exact Option.some.inj this
  have hlinks := h.nested.unlinked 0 source result htop
  have hheard := h.linked callerToken source
  rw [hlinks, List.count_nil, Nat.le_zero, Network.heard, List.countP_eq_zero] at hheard
  refine hheard sub hsub ?_
  rw [(h.callbacks sub hsub).2 hn, hsource]
  exact decide_eq_true rfl

end Sound

/-- What a walk that has come back leaves behind: no task, nothing in the pool that is not another
user's, no callback on the token of its caller, and nothing that could still happen. -/
structure Cleared (env : Environment σ) (sc : Scene σ) : Prop where
  ended : ∀ t ∈ sc.state.tasks, t.phase.isEnded = true
  still : ∀ a, sc.state.step? env a = none
  held : sc.state.admission.pool.held = (sc.others.map (·.hands)).sum +
    Pool.owed (sc.others.flatMap (·.claims)) sc.state.admission.pool.settled
  tickets : sc.state.admission.pool.tickets.Perm ((sc.others.flatMap (·.claims)).map (·.1))
  callbacks : ∀ sub ∈ sc.state.admission.network.subscriptions callerToken, sub.serial ∉ sc.own
  silent : ∀ sc', Moves env sc sc' → sc'.state.trace = sc.state.trace

structure Orderly (env : Environment σ) (capacity : Int) (sc : Scene σ) : Prop where
  underWay : (sc.state.underWay : Int) ≤ capacity
  amid : ∀ i t c s, sc.state.Amid env i t c s →
    (s.underWayBut i : Int) + (if c.hasPermit then 1 else 0) ≤ capacity
  cleared : sc.state.result?.isSome = true → Cleared env sc

theorem Sound.cleared (h : Sound capacity sc) (hresult : sc.state.result?.isSome = true) :
    Cleared env sc := by
  have hended : ∀ t ∈ sc.state.tasks, t.phase.isEnded = true := fun t ht =>
    State.ended_of_result h.nested hresult (p := (t.level, t.phase)) (List.mem_map_of_mem ht)
  have hnone : sc.state.stakes = [] := by
    unfold State.stakes
    rw [List.flatMap_eq_nil_iff]
    intro p hp
    have := State.ended_of_result h.nested hresult hp
    cases hphase : p.2 with
    | ended r => rfl
    | _ => simp [hphase, Phase.isEnded] at this
  have hbooks := h.serves
  rw [hnone, List.nil_append] at hbooks
  exact ⟨hended, h.still hresult, hbooks.1.held, hbooks.1.tickets, h.callbacks_over hresult,
    fun _ => h.silent hresult⟩

end Scene

end TreeCensus.Walk
