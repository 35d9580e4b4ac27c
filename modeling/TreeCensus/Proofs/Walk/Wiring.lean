import TreeCensus.Proofs.Cancellation.Spread
import TreeCensus.Proofs.Walk.Progress

/-!
# Who hears which token

The source of a level hears the token of the level above it, and the topmost one that of the caller.
Besides sources, tokens are heard only by tasks of their own level that wait for a permit. So a
cancellation goes down the levels, and comes to all levels below that are open.
-/

namespace TreeCensus.Walk

set_option autoImplicit false

open Cancellation (Network)

variable {σ : Type}

/-- The sources of the levels. -/
def State.sources (s : State σ) : List Nat := s.levels.map (·.source)

theorem State.sources_eq (s : State σ) : s.sources = s.stages.map (·.1) := by
  unfold sources stages
  rw [List.map_map]
  rfl

theorem State.sources_updateLevel (s : State σ) (k : Nat) {f : Level → Level}
    (hf : ∀ l, (f l).source = l.source) : (s.updateLevel k f).sources = s.sources :=
  map_modify_of_eq hf s.levels k

structure Wired (posts : List (Nat × Phase)) (sources : List Nat) (others : List Pool.Stake)
    (a : Admission) : Prop where
  distinct : sources.Nodup
  known : ∀ x ∈ sources, x ≠ callerToken ∧ x < a.network.tokens.length
  topmost : sources[0]? = some (callerToken + 1)
  source : ∀ t x, a.network.Hears t (.source x) → t = callerToken ∧ x = callerToken + 1 ∨
    ∃ p ∈ posts, ∃ k, p.2.Awaits k ∧ sources[p.1]? = some t ∧ sources[k]? = some x
  client : ∀ t ticket, a.network.Hears t (.client ticket) → ticket < a.pool.next ∧
    ∀ p ∈ posts, ∀ job, p.2 = .queued ticket job → sources[p.1]? = some t
  fresh : ∀ p ∈ posts, ∀ ticket job, p.2 = .queued ticket job → ticket < a.pool.next
  foreign : ∀ t ticket, a.network.Hears t (.client ticket) → ∀ stake ∈ others, ∀ count,
    (ticket, count) ∉ stake.claims

namespace Wired

variable {posts : List (Nat × Phase)} {sources : List Nat} {others : List Pool.Stake} {a b : Admission}

theorem index (h : Wired posts sources others a) {j k x : Nat} (hj : sources[j]? = some x)
    (hk : sources[k]? = some x) : j = k :=
  (List.getElem?_inj (List.getElem?_eq_some_iff.mp hj).1 h.distinct).mp (hj.trans hk.symm)

/-- Nobody new hears a token. -/
theorem shrink (h : Wired posts sources others a) (hlength : a.network.tokens.length ≤ b.network.tokens.length)
    (hnext : a.pool.next ≤ b.pool.next) (hhears : ∀ t l, b.network.Hears t l → a.network.Hears t l) :
    Wired posts sources others b := by
  refine ⟨h.distinct, ?_, h.topmost, fun t x hx => h.source t x (hhears t _ hx), ?_, ?_,
    fun t ticket hticket => h.foreign t ticket (hhears t _ hticket)⟩
  · exact fun x hx => ⟨(h.known x hx).1, Nat.lt_of_lt_of_le (h.known x hx).2 hlength⟩
  · intro t ticket hticket
    obtain ⟨hlt, howner⟩ := h.client t ticket (hhears t _ hticket)
    exact ⟨Nat.lt_of_lt_of_le hlt hnext, howner⟩
  · exact fun p hp ticket job hphase => Nat.lt_of_lt_of_le (h.fresh p hp ticket job hphase) hnext

/-- A task goes on to a phase in which it does not wait for a permit. If it waited for a level, nobody
hears anything for that level any more. -/
theorem rest (h : Wired posts sources others a) {i : Nat} {p : Nat × Phase} (hi : posts[i]? = some p)
    (harrived : ∀ k, p.2.Awaits k → ∀ x, sources[k]? = some x → ∀ t, ¬ a.network.Hears t (.source x))
    {phase : Phase} (hphase : ∀ ticket job, phase ≠ .queued ticket job) :
    Wired (posts.modify i fun p => (p.1, phase)) sources others a := by
  refine ⟨h.distinct, h.known, h.topmost, ?_, ?_, ?_, h.foreign⟩
  · intro t x hx
    refine (h.source t x hx).imp_right ?_
    rintro ⟨q, hq, k, hawaits, habove, hbelow⟩
    refine ⟨q, Nested.mem_modify_of_ne hi hq ?_, k, hawaits, habove, hbelow⟩
    rintro rfl
    exact harrived k hawaits x hbelow t hx
  · intro t ticket hticket
    obtain ⟨hlt, howner⟩ := h.client t ticket hticket
    refine ⟨hlt, ?_⟩
    intro q hq job hqueued
    rcases mem_modify hq with hq | ⟨q, _, rfl⟩
    · exact howner q hq job hqueued
    · exact absurd hqueued (hphase ticket job)
  · intro q hq ticket job hqueued
    rcases mem_modify hq with hq | ⟨q, _, rfl⟩
    · exact h.fresh q hq ticket job hqueued
    · exact absurd hqueued (hphase ticket job)

/-- A task begins to wait for a permit, with the token of its level. -/
theorem queue (h : Wired posts sources others a) {i : Nat} {p : Nat × Phase} {t : Nat}
    (hi : posts[i]? = some p) (hidle : ∀ k, p.2.Awaits k → ∀ x, sources[k]? = some x → ∀ t,
      ¬ a.network.Hears t (.source x)) (ht : sources[p.1]? = some t) {priority : Priority} {ticket : Nat}
    (hask : a.ask priority 1 (some t) = .ok (b, some ticket))
    (hfresh : ∀ stake ∈ others, ∀ c ∈ stake.claims, c.1 < a.pool.next) (job : Job) :
    Wired (posts.modify i fun p => (p.1, .queued ticket job)) sources others b := by
  obtain ⟨-, -, hrequest, hnetwork⟩ := Admission.ask_cases hask
  dsimp only at hnetwork
  obtain ⟨rfl, hnext, -⟩ := Pool.request_some hrequest
  refine ⟨h.distinct, ?_, h.topmost, ?_, ?_, ?_, ?_⟩
  · rw [hnetwork, Network.length_subscribe]
    exact h.known
  · intro u x hx
    rw [hnetwork, Network.hears_subscribe] at hx
    rcases hx with hx | ⟨_, hnone⟩
    · refine (h.source u x hx).imp_right ?_
      rintro ⟨q, hq, k, hawaits, habove, hbelow⟩
      refine ⟨q, Nested.mem_modify_of_ne hi hq ?_, k, hawaits, habove, hbelow⟩
      rintro rfl
      exact hidle k hawaits x hbelow u hx
    · cases hnone
  · intro u c hc
    rw [hnetwork, Network.hears_subscribe] at hc
    rw [hnext]
    rcases hc with hc | ⟨⟨rfl, _⟩, heq⟩
    · obtain ⟨hlt, howner⟩ := h.client u c hc
      refine ⟨by omega, ?_⟩
      intro q hq job' hqueued
      rcases mem_modify hq with hq | ⟨q, _, rfl⟩
      · exact howner q hq job' hqueued
      · obtain ⟨rfl, _⟩ := Phase.queued.inj hqueued
        omega
    · obtain rfl := Cancellation.Listener.client.inj heq
      refine ⟨Nat.lt_succ_self _, ?_⟩
      intro q hq job' hqueued
      rcases mem_modify hq with hold | ⟨r, hr, rfl⟩
      · exact absurd (h.fresh q hold _ job' hqueued) (Nat.lt_irrefl _)
      · obtain rfl := Option.some.inj (hi.symm.trans hr)
        exact ht
  · intro q hq c job' hqueued
    rw [hnext]
    rcases mem_modify hq with hq | ⟨q, _, rfl⟩
    · exact Nat.lt_succ_of_lt (h.fresh q hq c job' hqueued)
    · obtain ⟨rfl, _⟩ := Phase.queued.inj hqueued
      exact Nat.lt_succ_self _
  · intro u c hc stake hstake count hclaim
    rw [hnetwork, Network.hears_subscribe] at hc
    rcases hc with hc | ⟨_, heq⟩
    · exact h.foreign u c hc stake hstake count hclaim
    · obtain rfl := Cancellation.Listener.client.inj heq
      exact absurd (hfresh stake hstake _ hclaim) (Nat.lt_irrefl _)

/-- A task opens a level, whose source hears the token of the level of the task. -/
theorem descend (h : Wired posts sources others a) {i : Nat} {p : Nat × Phase} {t : Nat}
    (hi : posts[i]? = some p) (hidle : ∀ k, p.2.Awaits k → ∀ x, sources[k]? = some x → ∀ t,
      ¬ a.network.Hears t (.source x)) (ht : sources[p.1]? = some t) (count : Nat) (info : FileInfo) :
    Wired ((posts ++ List.replicate count (sources.length, Phase.fresh)).modify i
        fun p => (p.1, .descending sources.length info)) (sources ++ [a.network.tokens.length]) others
      { a with network := a.network.addSource [t] } := by
  have hplaced : p.1 < sources.length := (List.getElem?_eq_some_iff.mp ht).1
  have hold : ∀ {k x : Nat}, sources[k]? = some x → (sources ++ [a.network.tokens.length])[k]? = some x := by
    intro k x hk
    rw [List.getElem?_append_left (List.getElem?_eq_some_iff.mp hk).1]
    exact hk
  have hwaiting : ∀ q ∈ (posts ++ List.replicate count (sources.length, Phase.fresh)).modify i
      (fun p => (p.1, Phase.descending sources.length info)), ∀ c job, q.2 = .queued c job → q ∈ posts :=
    fun q hq c job hqueued => State.mem_posts_of_descended hq (by simp [hqueued]) (by simp [hqueued])
  have hlength := a.network.length_addSource [t]
  have hown : (p.1, Phase.descending sources.length info) ∈
      (posts ++ List.replicate count (sources.length, Phase.fresh)).modify i
        fun p => (p.1, Phase.descending sources.length info) := by
    have hlt := (List.getElem?_eq_some_iff.mp hi).1
    apply List.mem_of_getElem? (i := i)
    rw [List.getElem?_modify_eq, List.getElem?_append_left hlt, hi]
    rfl
  have hstays : ∀ q ∈ posts, q ≠ p → q ∈ (posts ++ List.replicate count (sources.length, Phase.fresh)).modify i
      fun p => (p.1, Phase.descending sources.length info) := by
    intro q hq hne
    rw [modify_append (List.getElem?_eq_some_iff.mp hi).1]
    exact List.mem_append_left _ (Nested.mem_modify_of_ne hi hq hne)
  have hkept : ∀ u x, a.network.Hears u (.source x) → u = callerToken ∧ x = callerToken + 1 ∨
      ∃ q ∈ (posts ++ List.replicate count (sources.length, Phase.fresh)).modify i
        (fun p => (p.1, Phase.descending sources.length info)), ∃ k, q.2.Awaits k ∧
          (sources ++ [a.network.tokens.length])[q.1]? = some u ∧
          (sources ++ [a.network.tokens.length])[k]? = some x := by
    intro u x hx
    refine (h.source u x hx).imp_right ?_
    rintro ⟨q, hq, k, hawaits, habove, hbelow⟩
    refine ⟨q, hstays q hq ?_, k, hawaits, hold habove, hold hbelow⟩
    rintro rfl
    exact hidle k hawaits x hbelow u hx
  have hnew : ∀ u l, (a.network.addSource [t]).Hears u l → a.network.Hears u l ∨
      u = t ∧ l = .source a.network.tokens.length := by
    intro u l hl
    -- Under a token that is cancelled already the new source hears nothing.
    cases a.network.joins t with
    | late _ _ _ _ hears _ => exact .inl (hears u l hl)
    | early _ _ hears => exact ((hears u l).mp hl).imp_right fun ⟨⟨ht, _⟩, hl⟩ => ⟨ht.symm, hl⟩
  refine ⟨?_, ?_, ?_, ?_, ?_, ?_, ?_⟩
  · rw [List.nodup_append]
    refine ⟨h.distinct, List.nodup_singleton _, ?_⟩
    intro x hx y hy
    rw [List.mem_singleton.mp hy]
    exact Nat.ne_of_lt (h.known x hx).2
  · intro x hx
    dsimp only
    rw [hlength]
    rcases List.mem_append.mp hx with hx | hx
    · exact ⟨(h.known x hx).1, Nat.lt_succ_of_lt (h.known x hx).2⟩
    · rw [List.mem_singleton.mp hx]
      have hpos := (h.known t (List.mem_of_getElem? ht)).2
      exact ⟨by unfold callerToken; omega, Nat.lt_succ_self _⟩
  · exact hold h.topmost
  · intro u x hx
    rcases hnew u _ hx with hx | ⟨rfl, heq⟩
    · exact hkept u x hx
    · obtain rfl := Cancellation.Listener.source.inj heq
      refine .inr ⟨_, hown, sources.length, ⟨info, rfl⟩, hold ht, ?_⟩
      rw [List.getElem?_concat_length]
  · intro u c hc
    rcases hnew u _ hc with hc | ⟨_, hnone⟩
    · obtain ⟨hlt, howner⟩ := h.client u c hc
      exact ⟨hlt, fun q hq job hqueued => hold (howner q (hwaiting q hq c job hqueued) job hqueued)⟩
    · cases hnone
  · exact fun q hq c job hqueued => h.fresh q (hwaiting q hq c job hqueued) c job hqueued
  · intro u c hc
    rcases hnew u _ hc with hc | ⟨_, hnone⟩
    · exact h.foreign u c hc
    · cases hnone

end Wired

section Shrinking

variable {posts : List (Nat × Phase)} {sources : List Nat} {others : List Pool.Stake} {a b : Admission}

theorem Wired.cancel (h : Wired posts sources others a) (source : Nat) (r : Reason) :
    Wired posts sources others (a.cancel source r) :=
  h.shrink (Nat.le_of_eq (Network.length_spread _ _).symm)
    (Nat.le_of_eq (a.settles_cancel source r).next.symm)
    fun _ _ hears => hears.of_follows (.cancel a.network source r)

/-- Others have other claims now. -/
theorem Wired.share (h : Wired posts sources others a) {others' : List Pool.Stake}
    (hforeign : ∀ t ticket, a.network.Hears t (.client ticket) → ∀ stake ∈ others', ∀ count,
      (ticket, count) ∉ stake.claims) : Wired posts sources others' a :=
  ⟨h.distinct, h.known, h.topmost, h.source, h.client, h.fresh, hforeign⟩

theorem Wired.foldl_abandon (tickets : List Nat) : ∀ {a : Admission}, Wired posts sources others a →
    Wired posts sources others (tickets.foldl (fun a ticket => a.abandon ticket) a) := by
  induction tickets with
  | nil => exact fun h => h
  | cons ticket tickets ih =>
    intro a h
    refine ih (h.shrink (Nat.le_refl _) ?_ fun _ _ hears => hears)
    exact Nat.le_of_eq (a.settles_abandon ticket).next.symm

theorem Wired.collect (h : Wired posts sources others a) {ticket : Nat} {t : Nat} {told : Bool}
    {failure : Option Fault} (hcollect : a.collect? ticket 1 (some t) told = some (b, failure)) :
    Wired posts sources others b := by
  obtain ⟨hpool, hnetwork⟩ := Admission.collect?_cases hcollect
  have hsame : b.network = a.network.unsubscribe t (.client ticket) := hnetwork
  refine h.shrink ?_ (Nat.le_of_eq (Pool.next_collect? hpool).symm) ?_
  · rw [hsame]
    exact Nat.le_of_eq (Network.length_update _ _ _).symm
  · rw [hsame]
    exact fun _ _ hears => hears.of_follows (.unsubscribe a.network t _)

end Shrinking

/-- Whoever waits for a level that has closed hears nothing for it. -/
theorem Shared.not_hears {capacity : Int} {others : List Pool.Stake} {s s₁ : State σ} {i : Nat} {t u : Task}
    {c : Cursor} (h : Shared capacity others s) (hready : s.Ready t)
    (hadvances : Advances i t.level t.phase.stakes s (.goOn u c s₁)) :
    ∀ k, t.phase.Awaits k → ∀ x, s.sources[k]? = some x → ∀ n,
      ¬ s₁.admission.network.Hears n (.source x) := by
  rintro k ⟨info, hphase⟩ x hx n hears
  obtain ⟨own, hsound⟩ := h.sound
  have hclosed := hready.2 k info hphase
  rw [State.sources_eq, List.getElem?_map] at hx
  obtain ⟨⟨source, stage⟩, hstage, rfl⟩ := Option.map_eq_some_iff.mp hx
  rw [State.level_stage_eq, hstage] at hclosed
  cases stage with
  | closed result =>
    have hlinks := hsound.nested.unlinked k source result hstage
    have hknown := (hsound.nested.sources _ (List.mem_of_getElem? hstage)).2
    cases hadvances with
    | onward _ _ _ _ trade =>
      have hfree := trade.follows.links source hknown hlinks
      have hheard := trade.linked hsound.linked n source
      rw [Network.hears_source_iff] at hears
      rw [hfree, List.count_nil] at hheard
      exact absurd hears (Nat.not_lt.mpr hheard)
  | _ => cases hclosed

/-- A walk in which tokens are heard as they should. -/
structure Plugged (capacity : Int) (others : List Pool.Stake) (s : State σ) : Prop extends
    Shared capacity others s where
  wired : Wired s.posts s.sources others s.admission

namespace Plugged

variable {env : Environment σ} {capacity : Int} {others : List Pool.Stake} {s s' : State σ}

theorem source_level (h : Plugged capacity others s) {i : Nat} {t : Task} (ht : s.tasks[i]? = some t) :
    s.sources[t.level]? = some (s.level t.level).source := by
  have hplaced := h.nested.placed _ (List.mem_of_getElem? (State.posts_of_task ht))
  rw [State.level_source_eq, State.sources_eq, List.getElem?_map, List.getElem?_eq_getElem hplaced]
  rfl

theorem wired_enter (h : Plugged capacity others s) {t : Task} {c : Cursor} {s₁ : State σ}
    (henters : s.Enters env t c s₁) : Wired s.posts s.sources others s₁.admission := by
  cases henters with
  | refused _ collected => exact h.wired.collect collected
  | called _ collected _ => exact h.wired.collect collected
  | admitted _ collected _ => exact h.wired.collect collected
  | _ => exact h.wired

theorem wired_move (h : Plugged capacity others s) {i : Nat} {t : Task} (ht : s.tasks[i]? = some t)
    {u : Task} {d : Cursor} {s₂ : State σ} (hamid : s.Amid env i u d s₂)
    (hwired : Wired s.posts s.sources others s₂.admission) :
    (d.move env i u s₂).Meets (fun _ _ s₃ => Wired s.posts s.sources others s₃.admission)
      fun s' => Wired s'.posts s'.sources others s'.admission := by
  have hposts := State.posts_of_task ht
  obtain ⟨hready, hadvances⟩ := h.advances ht hamid
  have hsilent := h.not_hears hready hadvances
  have hfresh : ∀ stake ∈ others, ∀ c ∈ stake.claims, c.1 < s₂.admission.pool.next := by
    intro stake hstake c hc
    cases hadvances with
    | onward _ _ _ _ trade =>
      refine (trade.serves _ (h.serves_task ht)).1.fresh c (List.mem_flatMap.mpr ⟨stake, ?_, hc⟩)
      exact List.mem_append_right _ (List.mem_append_right _ hstake)
  have hdeed := d.deed_move env i u s₂
  obtain ⟨hplace, hposts₂, hstages₂⟩ : u.level = t.level ∧ s₂.posts = s.posts ∧ s₂.stages = s.stages := by
    cases hadvances with
    | onward place _ posts stages _ => exact ⟨place, posts, stages⟩
  have hsources₂ : s₂.sources = s.sources := by rw [State.sources_eq, hstages₂, ← State.sources_eq]
  have hown : s.sources[t.level]? = some (s₂.level u.level).source := by
    rw [h.source_level ht, State.level_source_eq, State.level_source_eq, hstages₂, hplace]
  generalize d.move env i u s₂ = course at hdeed
  cases hdeed with
  | @onward _ d' u' s₃ level standings ranks deals =>
    change Wired s.posts s.sources others s₃.admission
    generalize s₃.admission = b at deals ⊢
    cases deals with
    | nothing => exact hwired
    | grant asked =>
      obtain ⟨-, -, hrequest, hnetwork⟩ := Admission.ask_cases asked
      have hsame : b.network = s₂.admission.network := hnetwork
      refine hwired.shrink (Nat.le_of_eq (by rw [hsame])) ?_ (by rw [hsame]; exact fun _ _ h => h)
      exact Nat.le_of_eq (Pool.request_none hrequest).1.symm
    | release next =>
      exact hwired.shrink (Nat.le_refl _) (Nat.le_of_eq (Pool.next_release _ _).symm) fun _ _ h => h
    | cancel _ => exact hwired.cancel _ _
  | conclude result =>
    change Wired (s₂.conclude i u result).posts (s₂.conclude i u result).sources others _
    rw [State.posts_conclude, State.sources_eq, State.stages_conclude, ← State.sources_eq, hposts₂,
      hsources₂, State.admission_conclude]
    exact hwired.rest hposts hsilent (by simp)
  | @queue job b ticket asked =>
    change Wired (State.posts (State.setPhase { s₂ with admission := b } i _)) s₂.sources others b
    rw [State.posts_setPhase, hsources₂]
    change Wired (s₂.posts.modify i _) _ _ _
    rw [hposts₂]
    exact hwired.queue hposts hsilent hown asked hfresh job
  | @rest _ s₃ phase work standings ranks admission =>
    change Wired s₃.posts s₃.sources others s₃.admission
    rw [State.posts_of_standings standings, State.sources_eq, State.stages_of_ranks ranks,
      ← State.sources_eq, admission, hposts₂, hsources₂]
    refine hwired.rest hposts hsilent ?_
    rintro ticket job rfl
    cases work
  | descend info names depth priority =>
    have hlength : s₂.levels.length = s.sources.length := by
      rw [← hsources₂]
      exact (List.length_map ..).symm
    have hstages : s₂.stages.length = s₂.levels.length := List.length_map ..
    have hsources (s : State σ) (phase : Phase) : (s.setPhase i phase).sources = s.sources := rfl
    change Wired (State.posts _) (State.sources _) others _
    rw [hsources, State.posts_setPhase, State.posts_openLevel, State.sources_eq, State.stages_openLevel,
      List.map_append, ← State.sources_eq, hsources₂, hstages, hposts₂, hlength]
    exact hwired.descend hposts hsilent hown _ info

theorem wired_amid (h : Plugged capacity others s) {i : Nat} {u : Task} {c : Cursor} {s₁ : State σ}
    (hamid : s.Amid env i u c s₁) : Wired s.posts s.sources others s₁.admission := by
  obtain ⟨t, ht⟩ := hamid.task
  exact (State.along_step ht (fun _ _ => h.wired_enter) fun _ _ _ hamid => h.wired_move ht hamid).1 u c s₁ hamid

theorem wired_level (h : Plugged capacity others s) {k : Nat} {l : Level}
    (hstep : s.stepLevel? k l = some s') : Wired s'.posts s'.sources others s'.admission := by
  cases State.fate hstep with
  | @fails f _ _ =>
    generalize hbefore : ({ s with admission := s.admission.cancel l.source (.fault f) } : State σ) = s₁
    have hsame : s₁.posts = s.posts ∧ s₁.stages = s.stages ∧
        s₁.admission = s.admission.cancel l.source (.fault f) := by
      rw [← hbefore]
      exact ⟨rfl, rfl, rfl⟩
    have hsources : ((s₁.interrupt k).updateLevel k
        fun l => { l with stage := .draining f, interrupted := false }).sources = s.sources := by
      have hupdate : ((s₁.interrupt k).updateLevel k
          fun l => { l with stage := .draining f, interrupted := false }).sources =
            (s₁.interrupt k).sources := State.sources_updateLevel _ k fun _ => rfl
      rw [hupdate, State.sources_eq, State.stages_interrupt, hsame.2.1, ← State.sources_eq]
    rw [hsources, State.posts_updateLevel, State.posts_interrupt, hsame.1]
    refine Wired.foldl_abandon (s₁.ticketsOf (s₁.subtree k)) ?_
    rw [hsame.2.2]
    exact h.wired.cancel _ _
  | @closes result _ _ _ =>
    have hsources : (s.close k result).sources = s.sources :=
      State.sources_updateLevel { s with admission := _ } k fun _ => rfl
    rw [hsources]
    exact h.wired.shrink (Nat.le_of_eq (Network.length_detach _ _).symm) (Nat.le_refl _)
      fun _ _ hears => hears.of_follows (.detach s.admission.network _)

theorem step (h : Plugged capacity others s) {a : Actor} (hstep : s.step? env a = some s') :
    Plugged capacity others s' := by
  refine ⟨h.toShared.step hstep, ?_⟩
  cases a with
  | task i =>
    obtain ⟨t, ht, hstep⟩ := Option.bind_eq_some_iff.mp hstep
    exact (State.along_step ht (fun _ _ => h.wired_enter) fun _ _ _ => h.wired_move ht).2 s' hstep
  | level k =>
    obtain ⟨l, _, hstep⟩ := Option.bind_eq_some_iff.mp hstep
    exact h.wired_level hstep

theorem cancel (h : Plugged capacity others s) (r : Reason) :
    Plugged capacity others { s with admission := s.admission.cancel callerToken r } :=
  ⟨h.toShared.cancel r, h.wired.cancel callerToken r⟩

theorem share (h : Plugged capacity others s) {q : Pool} {others' : List Pool.Stake}
    (hsharing : Pool.Sharing s.admission.pool others q others') :
    Plugged capacity others' { s with admission := { s.admission with pool := q } } := by
  have hwired : Wired s.posts s.sources others { s.admission with pool := q } :=
    h.wired.shrink (Nat.le_refl _) hsharing.next fun _ _ hears => hears
  refine ⟨h.toShared.share hsharing, hwired.share ?_⟩
  intro t ticket hears stake hstake count hclaim
  rcases hsharing.claims hstake hclaim with ⟨stake', hstake', hold⟩ | rfl
  · exact h.wired.foreign t ticket hears stake' hstake' count hold
  · exact absurd (h.wired.client t _ hears).1 (Nat.lt_irrefl _)

theorem start (env : Environment σ) {caller : Caller σ} (paths : List Path)
    (hpool : Pool.Serves caller.pool others) :
    Plugged caller.pool.capacity others (State.start env caller paths) := by
  refine ⟨.start env paths hpool, ?_⟩
  have hposts := State.posts_start env caller paths
  have hsources : (State.start env caller paths).sources = [callerToken + 1] := rfl
  have hfresh : ∀ p ∈ (State.start env caller paths).posts, ∀ ticket job, p.2 ≠ .queued ticket job := by
    intro p hp ticket job
    rw [hposts] at hp
    rw [List.eq_of_mem_replicate hp]
    simp
  have hempty : ∀ t l, ¬ ((Network.empty : Network Nat).addSource []).Hears t l := by
    intro t l hears
    have hears := Network.hears_append_fresh.mp hears
    obtain ⟨sub, hsub, _⟩ := hears
    cases hsub
  have hhears : ∀ t l, (State.start env caller paths).admission.network.Hears t l →
      t = callerToken ∧ l = .source (callerToken + 1) := by
    intro t l hears
    change ((Network.empty.addSource []).addSource
      (if caller.heeded then [callerToken] else [])).Hears t l at hears
    split at hears
    · cases ((Network.empty : Network Nat).addSource []).joins callerToken with
      | late r struck _ _ _ _ => cases struck
      | early _ _ hears' =>
        rcases (hears' t l).mp hears with hold | ⟨⟨ht, _⟩, hl⟩
        · exact absurd hold (hempty t l)
        · exact ⟨ht.symm, hl⟩
    · exact absurd (Network.hears_append_fresh.mp hears) (hempty t l)
  rw [hsources]
  refine ⟨List.nodup_singleton _, ?_, rfl, ?_, ?_, ?_, ?_⟩
  · intro x hx
    rw [List.mem_singleton.mp hx]
    refine ⟨by decide, ?_⟩
    change _ < (Network.addSource _ _).tokens.length
    rw [Network.length_addSource]
    exact Nat.lt_succ_of_le (Nat.le_refl 1)
  · intro t x hears
    obtain ⟨ht, hl⟩ := hhears t _ hears
    exact .inl ⟨ht, Cancellation.Listener.source.inj hl⟩
  · intro t ticket hears
    cases (hhears t _ hears).2
  · exact fun p hp ticket job hqueued => absurd hqueued (hfresh p hp ticket job)
  · intro t ticket hears
    cases (hhears t _ hears).2

end Plugged

end TreeCensus.Walk
