import TreeCensus.Proofs.Walk.Wiring

/-!
# Whose fault it is

A level that fails tells everything below it to end, and what ends that way fails in its turn. But such
failures never come to light: they stay below the level that brought them about. So the fault with
which a walk fails is one that a task has come to by itself, or that of a cancellation by the caller.
-/

namespace TreeCensus

set_option autoImplicit false

/-- If no permits were granted, then because of a fault that `P` holds of. -/
def Settlement.Excused (P : Fault → Prop) : Settlement → Prop
  | granted => True
  | refused f => P f
  | abandoned => False

open Cancellation (Listener Network)

namespace Admission

/-- What a change of an admission may settle and cancel. -/
structure Mild (P : Fault → Prop) (a b : Admission) : Prop where
  settled : ∀ e ∈ b.pool.settled, e ∈ a.pool.settled ∨ e.2.Excused P
  reasons : ∀ t q, b.network.reason? t = some q → a.network.reason? t = some q ∨ P (.ofReason q)

namespace Mild

variable {P : Fault → Prop} {a b : Admission}

theorem refl (P : Fault → Prop) (a : Admission) : Mild P a a :=
  ⟨fun _ he => .inl he, fun _ _ hq => .inl hq⟩

theorem collect {ticket t : Nat} {told : Bool} {failure : Option Fault}
    (h : a.collect? ticket 1 (some t) told = some (b, failure)) : Mild P a b := by
  obtain ⟨hpool, hnetwork⟩ := Admission.collect?_cases h
  have hsame : b.network = a.network.unsubscribe t (.client ticket) := hnetwork
  refine ⟨?_, ?_⟩
  · intro e he
    refine (Pool.mem_settled_collect hpool he).imp_right ?_
    intro hgranted
    rw [hgranted]
    trivial
  · intro u q hq
    rw [hsame, Network.reason?_unsubscribe] at hq
    exact .inl hq

/-- The caller cancels its source for a reason that is a good excuse, or has done so before. -/
theorem cancel {source : Nat} {r : Reason}
    (hr : a.network.reason? source = none → P (.ofReason r)) : Mild P a (a.cancel source r) := by
  have hconfined : a.network.Confined (fun _ => a.network.reason? source = none)
      fun _ => a.network.reason? source = none := ⟨fun _ _ h _ => h, fun _ _ h _ => h⟩
  cases hstruck : a.network.reason? source with
  | none =>
    obtain ⟨hreasons, htold⟩ := hconfined.cancel hstruck r
    refine ⟨?_, ?_⟩
    · intro e he
      rcases Admission.mem_settled_cancel he with he | he | ⟨q, hq, rfl⟩
      · exact .inl he
      · rw [he]
        exact .inr trivial
      · right
        rw [(htold q hq).2]
        exact hr hstruck
    · intro t q hq
      rcases hreasons t with hsame | ⟨_, _, hnew⟩
      · exact .inl (hsame.symm.trans hq)
      · right
        obtain rfl := Option.some.inj (hnew.symm.trans hq)
        exact hr hstruck
  | some q =>
    -- A source that is cancelled once more only lets go of its links.
    have hdone : a.network.cancel source r = (a.network.detach source, []) :=
      Network.cancel_of_struck (by rw [hstruck]; nofun) r
    have hpool : (a.cancel source r).pool = a.pool := by
      unfold Admission.cancel
      rw [hdone]
      rfl
    have hnetwork : (a.cancel source r).network = a.network.detach source := by
      unfold Admission.cancel
      rw [hdone]
    refine ⟨fun e he => ?_, fun t q hq => ?_⟩
    · rw [hpool] at he
      exact .inl he
    · rw [hnetwork, Network.reason?_detach] at hq
      exact .inl hq

theorem grant {priority : Priority} {t : Nat}
    (h : a.ask priority 1 (some t) = .ok (b, none)) : Mild P a b := by
  obtain ⟨-, -, hrequest, hnetwork⟩ := Admission.ask_cases h
  have hsame : b.network = a.network := hnetwork
  refine ⟨?_, by rw [hsame]; exact fun _ _ hq => .inl hq⟩
  rw [(Pool.request_none hrequest).2]
  exact fun _ he => .inl he

theorem release (a : Admission) (count : Int) : Mild P a (a.release count).1 := by
  refine ⟨?_, fun _ _ hq => .inl hq⟩
  intro e he
  refine (Pool.mem_settled_release he).imp_right ?_
  intro hgranted
  rw [hgranted]
  trivial

end Mild

end Admission

namespace Walk

variable {σ : Type}

/-- The levels with nothing but running levels above them. -/
inductive Clean (standings : List Standing) (ranks : List Rank) : Nat → Prop
  | top : Clean standings ranks 0
  | under {x : Standing} {k : Nat} {info : FileInfo} {r : Rank} (mem : x ∈ standings)
      (awaits : x.phase = .descending k info) (above : Clean standings ranks x.level)
      (rank : ranks[x.level]? = some r) (runs : r.stage = .running) : Clean standings ranks k

/-- The level is clean and runs itself. -/
def Sheltered (standings : List Standing) (ranks : List Rank) (k : Nat) : Prop :=
  Clean standings ranks k ∧ ∃ r, ranks[k]? = some r ∧ r.stage = .running

section Clean

variable {standings standings' : List Standing} {ranks ranks' : List Rank} {k : Nat}

/-- A level is no cleaner than before if no task has begun to wait and no level has begun to run. -/
theorem Clean.of_fewer (h : Clean standings' ranks' k)
    (hstandings : ∀ x ∈ standings', ∀ k info, x.phase = .descending k info →
      ∃ y ∈ standings, y.level = x.level ∧ y.phase = x.phase)
    (hranks : ∀ (j : Nat) (r : Rank), ranks'[j]? = some r → r.stage = .running →
      ∃ q, ranks[j]? = some q ∧ q.stage = .running) : Clean standings ranks k := by
  induction h with
  | top => exact .top
  | under mem awaits above rank runs ih =>
    obtain ⟨y, hy, hlevel, hphase⟩ := hstandings _ mem _ _ awaits
    obtain ⟨q, hq, hruns⟩ := hranks _ _ rank runs
    rw [← hlevel] at ih hq
    exact .under hy (hphase.trans awaits) ih hq hruns

/-- A level that has stopped is above no clean level. -/
theorem Clean.eq_of_beneath {count : Nat} (h : Clean standings' ranks' k)
    (hstandings : ∀ (i : Nat) (x : Standing), standings'[i]? = some x →
      ∃ y, standings[i]? = some y ∧ x.level = y.level ∧ x.phase = y.phase)
    (hforked : Forked (standings.map fun x => (x.level, x.phase)) count) {top : Nat}
    (hstopped : ∀ r, ranks'[top]? = some r → r.stage ≠ .running) (hbeneath : Beneath standings top k) :
    k = top := by
  have hpost : ∀ (i : Nat) (y : Standing), standings[i]? = some y →
      (standings.map fun x => (x.level, x.phase))[i]? = some (y.level, y.phase) := by
    intro i y hy
    rw [List.getElem?_map, hy]
    rfl
  induction h with
  | top =>
    cases hbeneath with
    | self => rfl
    | under mem awaits _ =>
      obtain ⟨i, hi⟩ := List.getElem?_of_mem mem
      exact absurd (hforked.below i _ 0 (hpost i _ hi) ⟨_, awaits⟩).1 (Nat.not_lt_zero _)
  | @under x k info r mem awaits above rank runs ih =>
    cases hbeneath with
    | self => rfl
    | @under z _ info' mem' awaits' above' =>
      obtain ⟨i, hi⟩ := List.getElem?_of_mem mem
      obtain ⟨y, hy, hlevel, hphase⟩ := hstandings i x hi
      obtain ⟨j, hj⟩ := List.getElem?_of_mem mem'
      -- Only one task waits for the level, so there is one way up from it.
      have hij := hforked.once i j _ _ k (hpost i y hy) (hpost j z hj) ⟨info, hphase ▸ awaits⟩
        ⟨info', awaits'⟩
      subst hij
      obtain rfl := Option.some.inj (hy.symm.trans hj)
      rw [← hlevel] at above'
      have htop := ih above'
      rw [htop] at rank
      exact absurd runs (hstopped r rank)

end Clean

/-- If the level fails, then with a fault that `P` holds of. -/
structure Rank.Excused (P : Fault → Prop) (r : Rank) : Prop where
  free : r.interrupted = false
  failure : r.stage = .running → ∀ f, r.failure = some f → P f
  draining : ∀ f, r.stage = .draining f → P f
  closed : ∀ f, r.stage = .closed (.error f) → P f

/-- Whatever goes wrong where nothing above has gone wrong is due to a fault that `P` holds of. -/
structure Honest (P : Fault → Prop) (standings : List Standing) (ranks : List Rank) (a : Admission) :
    Prop where
  levels : ∀ k r, ranks[k]? = some r → Clean standings ranks k → r.Excused P
  free : ∀ x ∈ standings, Sheltered standings ranks x.level → x.interrupted = false
  tickets : ∀ x ∈ standings, Sheltered standings ranks x.level → ∀ ticket job,
    x.phase = .queued ticket job → ∀ y, (ticket, y) ∈ a.pool.settled → y.Excused P
  tokens : ∀ k r, ranks[k]? = some r → Sheltered standings ranks k →
    ∀ q, a.network.reason? r.source = some q → P (.ofReason q)

namespace Honest

variable {P : Fault → Prop} {standings : List Standing} {ranks : List Rank} {a b : Admission}

theorem mild (h : Honest P standings ranks a) (hmild : a.Mild P b) : Honest P standings ranks b := by
  refine ⟨h.levels, h.free, ?_, ?_⟩
  · intro x hx hshelter ticket job hphase y hy
    rcases hmild.settled _ hy with hy | hy
    · exact h.tickets x hx hshelter ticket job hphase y hy
    · exact hy
  · intro k r hr hshelter q hq
    rcases hmild.reasons _ q hq with hq | hq
    · exact h.tokens k r hr hshelter q hq
    · exact hq

/-- A task goes on to a phase in which it waits for no level. -/
theorem post (h : Honest P standings ranks a) (i : Nat) {phase : Phase} (hphase : ∀ k info, phase ≠ .descending k info)
    (hticket : ∀ ticket job, phase = .queued ticket job → ∀ y, (ticket, y) ∉ a.pool.settled) :
    Honest P (standings.modify i fun x => { x with phase }) ranks a := by
  have hclean : ∀ {k}, Clean (standings.modify i fun x => { x with phase }) ranks k →
      Clean standings ranks k := by
    intro k hk
    refine hk.of_fewer ?_ fun j r hr hruns => ⟨r, hr, hruns⟩
    intro y hy k info hawaits
    rcases mem_modify hy with hy | ⟨y, _, rfl⟩
    · exact ⟨y, hy, rfl, rfl⟩
    · exact absurd hawaits (hphase k info)
  refine ⟨fun k r hr hk => h.levels k r hr (hclean hk), ?_, ?_,
    fun k r hr hk => h.tokens k r hr ⟨hclean hk.1, hk.2⟩⟩
  · intro y hy hshelter
    rcases mem_modify hy with hold | ⟨y, hold, rfl⟩
    · exact h.free y hold ⟨hclean hshelter.1, hshelter.2⟩
    · exact h.free y (List.mem_of_getElem? hold) ⟨hclean hshelter.1, hshelter.2⟩
  · intro y hy hshelter ticket job hqueued outcome hmem
    rcases mem_modify hy with hy | ⟨y, _, rfl⟩
    · exact h.tickets y hy ⟨hclean hshelter.1, hshelter.2⟩ ticket job hqueued outcome hmem
    · exact absurd hmem (hticket ticket job hqueued outcome)

/-- Levels go on, but none begins to run again. -/
theorem relevel (h : Honest P standings ranks a) {ranks' : List Rank}
    (hback : ∀ (j : Nat) (r : Rank), ranks'[j]? = some r → ∃ q, ranks[j]? = some q ∧
      r.source = q.source ∧ (r.stage = .running → q.stage = .running) ∧
      (Clean standings ranks j → q.Excused P → r.Excused P)) : Honest P standings ranks' a := by
  have hclean : ∀ {j}, Clean standings ranks' j → Clean standings ranks j := by
    intro j hj
    refine hj.of_fewer (fun x hx _ _ _ => ⟨x, hx, rfl, rfl⟩) ?_
    intro j r hr hruns
    obtain ⟨q, hq, _, hrunning, _⟩ := hback j r hr
    exact ⟨q, hq, hrunning hruns⟩
  have hshelter : ∀ {j}, Sheltered standings ranks' j → Sheltered standings ranks j := by
    rintro j ⟨hj, r, hr, hruns⟩
    obtain ⟨q, hq, _, hrunning, _⟩ := hback j r hr
    exact ⟨hclean hj, q, hq, hrunning hruns⟩
  refine ⟨?_, fun x hx hj => h.free x hx (hshelter hj), fun x hx hj => h.tickets x hx (hshelter hj), ?_⟩
  · intro j r hr hj
    obtain ⟨q, hq, _, _, hexcused⟩ := hback j r hr
    exact hexcused (hclean hj) (h.levels j q hq (hclean hj))
  · intro j r hr hj
    obtain ⟨q, hq, hsource, _⟩ := hback j r hr
    rw [hsource]
    exact h.tokens j q hq (hshelter hj)

theorem fail (h : Honest P standings ranks a) {k : Nat} {f : Fault}
    (hf : Sheltered standings ranks k → P f) :
    Honest P standings (ranks.modify k fun r => { r with failure := r.failure.or (some f) }) a := by
  refine h.relevel ?_
  intro j r hr
  rcases modify_cases hr with ⟨_, hr⟩ | ⟨rfl, q, hq, rfl⟩
  · exact ⟨r, hr, rfl, id, fun _ => id⟩
  · refine ⟨q, hq, rfl, id, fun hclean hexcused => ?_⟩
    refine ⟨hexcused.free, ?_, hexcused.draining, hexcused.closed⟩
    intro hruns g hg
    cases hfailure : q.failure with
    | none =>
      simp only [hfailure, Option.none_or] at hg
      rw [← Option.some.inj hg]
      exact hf ⟨hclean, q, hq, hruns⟩
    | some g' =>
      simp only [hfailure, Option.some_or] at hg
      exact hexcused.failure hruns g (hfailure.trans hg)

/-- A level closes, with its fault if nothing else has happened. -/
theorem close (h : Honest P standings ranks a) {k : Nat} {l : Level} (hl : ranks[k]? = some l.rank)
    {result : Except Fault Tally} (hcomes : l.Comes result) :
    Honest P standings (ranks.modify k fun r => { r with stage := .closed result }) a := by
  refine h.relevel ?_
  intro j r hr
  rcases modify_cases hr with ⟨_, hr⟩ | ⟨rfl, q, hq, rfl⟩
  · exact ⟨r, hr, rfl, id, fun _ => id⟩
  · obtain rfl := Option.some.inj (hl.symm.trans hq)
    refine ⟨l.rank, hl, rfl, by simp, fun _ hexcused => ⟨hexcused.free, by simp, by simp, ?_⟩⟩
    intro f hclosed
    obtain rfl := Stage.closed.inj hclosed
    cases hcomes with
    | told told =>
      have hfree : l.interrupted = false := hexcused.free
      rw [told] at hfree
      cases hfree
    | fault drains _ => exact hexcused.draining f drains

/-- A level fails and stops all that is beneath it, and nothing else. -/
theorem stop (h : Honest P standings ranks a) {standings' : List Standing} {ranks' : List Rank}
    {top count : Nat} {r₀ : Rank} {f : Fault}
    (hforked : Forked (standings.map fun x => (x.level, x.phase)) count)
    (htop : ranks[top]? = some r₀) (hruns : r₀.stage = .running) (hfailure : r₀.failure = some f)
    (hstopped : ∀ r, ranks'[top]? = some r → r.stage = .draining f ∧ r.interrupted = false)
    (hstandings : ∀ (i : Nat) (x : Standing), standings'[i]? = some x →
      ∃ y, standings[i]? = some y ∧ x.level = y.level ∧ x.phase = y.phase ∧
        (x.interrupted = y.interrupted ∨ Beneath standings top y.level))
    (hranks : ∀ (j : Nat) (r : Rank), ranks'[j]? = some r → ∃ q, ranks[j]? = some q ∧
      r.source = q.source ∧ (j ≠ top → r.stage = q.stage ∧ r.failure = q.failure ∧
        (r.interrupted = q.interrupted ∨ Beneath standings top j)))
    (htickets : ∀ x ∈ standings, ∀ ticket job, x.phase = .queued ticket job → ∀ y,
      (ticket, y) ∈ b.pool.settled →
        (ticket, y) ∈ a.pool.settled ∨ y = .granted ∨ Beneath standings top x.level)
    (htokens : ∀ (j : Nat) (r : Rank), ranks[j]? = some r → ∀ q, b.network.reason? r.source = some q →
      a.network.reason? r.source = some q ∨ Beneath standings top j) :
    Honest P standings' ranks' b := by
  have hstops : ∀ r, ranks'[top]? = some r → r.stage ≠ .running := by
    intro r hr hstays
    rw [(hstopped r hr).1] at hstays
    cases hstays
  have hother : ∀ {j : Nat} {r : Rank}, ranks'[j]? = some r → r.stage = .running → j ≠ top := by
    rintro j r hr hstays rfl
    exact hstops r hr hstays
  have hclean : ∀ {j}, Clean standings' ranks' j → Clean standings ranks j := by
    intro j hj
    refine hj.of_fewer ?_ ?_
    · intro x hx m info _
      obtain ⟨i, hi⟩ := List.getElem?_of_mem hx
      obtain ⟨y, hy, hlevel, hphase, _⟩ := hstandings i x hi
      exact ⟨y, List.mem_of_getElem? hy, hlevel.symm, hphase.symm⟩
    · intro m r hr hstays
      obtain ⟨q, hq, _, hsame⟩ := hranks m r hr
      exact ⟨q, hq, (hsame (hother hr hstays)).1 ▸ hstays⟩
  -- Whatever is beneath the level that fails hangs on it, and it runs no more.
  have hapart : ∀ {j}, Clean standings' ranks' j → Beneath standings top j → j = top := by
    intro j hj hbeneath
    refine hj.eq_of_beneath ?_ hforked hstops hbeneath
    intro i x hx
    obtain ⟨y, hy, hlevel, hphase, _⟩ := hstandings i x hx
    exact ⟨y, hy, hlevel, hphase⟩
  have hshelter : ∀ {j}, Sheltered standings' ranks' j →
      Sheltered standings ranks j ∧ ¬ Beneath standings top j := by
    rintro j ⟨hj, r, hr, hstays⟩
    obtain ⟨q, hq, _, hsame⟩ := hranks j r hr
    have hne := hother hr hstays
    exact ⟨⟨hclean hj, q, hq, (hsame hne).1 ▸ hstays⟩, fun hbeneath => hne (hapart hj hbeneath)⟩
  refine ⟨?_, ?_, ?_, ?_⟩
  · intro j r hr hj
    obtain ⟨q, hq, _, hsame⟩ := hranks j r hr
    have hexcused := h.levels j q hq (hclean hj)
    by_cases hjt : j = top
    · subst hjt
      obtain rfl := Option.some.inj (htop.symm.trans hq)
      obtain ⟨hstage, hfree⟩ := hstopped r hr
      refine ⟨hfree, by simp [hstage], ?_, by simp [hstage]⟩
      intro g hg
      obtain rfl := Stage.draining.inj (hstage.symm.trans hg)
      exact hexcused.failure hruns f hfailure
    · obtain ⟨hstage, hfail, htold⟩ := hsame hjt
      refine ⟨?_, ?_, ?_, ?_⟩
      · rcases htold with htold | hbeneath
        · exact htold.trans hexcused.free
        · exact absurd (hapart hj hbeneath) hjt
      · rw [hstage, hfail]
        exact hexcused.failure
      · rw [hstage]
        exact hexcused.draining
      · rw [hstage]
        exact hexcused.closed
  · intro x hx hj
    obtain ⟨i, hi⟩ := List.getElem?_of_mem hx
    obtain ⟨y, hy, hlevel, _, htold⟩ := hstandings i x hi
    rw [hlevel] at hj
    obtain ⟨hbefore, hapart⟩ := hshelter hj
    exact (htold.resolve_right hapart).trans (h.free y (List.mem_of_getElem? hy) hbefore)
  · intro x hx hj ticket job hqueued outcome hmem
    obtain ⟨i, hi⟩ := List.getElem?_of_mem hx
    obtain ⟨y, hy, hlevel, hphase, _⟩ := hstandings i x hi
    rw [hlevel] at hj
    rw [hphase] at hqueued
    obtain ⟨hbefore, hapart⟩ := hshelter hj
    have hmem' := List.mem_of_getElem? hy
    rcases htickets y hmem' ticket job hqueued outcome hmem with hold | rfl | hbeneath
    · exact h.tickets y hmem' hbefore ticket job hqueued outcome hold
    · trivial
    · exact absurd hbeneath hapart
  · intro j r hr hj q hq
    obtain ⟨m, hm, hsource, _⟩ := hranks j r hr
    obtain ⟨hbefore, hapart⟩ := hshelter hj
    rw [hsource] at hq
    exact h.tokens j m hm hbefore q ((htokens j m hm q hq).resolve_right hapart)

theorem descend (h : Honest P standings ranks a) {i : Nat} {x : Standing} {r₀ : Rank}
    (hi : standings[i]? = some x) (hown : ranks[x.level]? = some r₀)
    (hplaced : ∀ y ∈ standings, y.level < ranks.length)
    (hbelow : ∀ y ∈ standings, ∀ k info, y.phase = .descending k info → k < ranks.length)
    (hknown : ∀ r ∈ ranks, r.source < a.network.tokens.length)
    {newcomers : List Standing} (hnew : ∀ y ∈ newcomers, y.phase = .fresh ∧ y.interrupted = false)
    (info : FileInfo) :
    Honest P ((standings ++ newcomers).modify i fun x => { x with phase := .descending ranks.length info })
      (ranks ++ [⟨a.network.tokens.length, .running, none, false⟩])
      { a with network := a.network.addSource [r₀.source] } := by
  have hlt : x.level < ranks.length := (List.getElem?_eq_some_iff.mp hown).1
  have hlength := (List.getElem?_eq_some_iff.mp hi).1
  have hcases : ∀ y ∈ (standings ++ newcomers).modify i
      fun x => { x with phase := .descending ranks.length info },
      y ∈ standings ∨ y ∈ newcomers ∨
        y = { x with phase := .descending ranks.length info } := by
    intro y hy
    rcases mem_modify hy with hold | ⟨z, hz, rfl⟩
    · exact (List.mem_append.mp hold).imp_right .inl
    · rw [List.getElem?_append_left hlength, hi] at hz
      rw [← Option.some.inj hz]
      exact .inr (.inr rfl)
  have hold : ∀ {k : Nat} {r : Rank}, k < ranks.length →
      (ranks ++ [⟨a.network.tokens.length, .running, none, false⟩])[k]? = some r → ranks[k]? = some r := by
    intro k r hk hr
    rwa [List.getElem?_append_left hk] at hr
  -- The way up from a level that was there before does not lead through the new one.
  have hclean : ∀ {k}, Clean ((standings ++ newcomers).modify i
      fun x => { x with phase := .descending ranks.length info })
      (ranks ++ [⟨a.network.tokens.length, .running, none, false⟩]) k → k < ranks.length →
        Clean standings ranks k := by
    intro k hk
    induction hk with
    | top => exact fun _ => .top
    | under mem awaits above rank runs ih =>
      intro hk
      rcases hcases _ mem with hy | hy | rfl
      · have := hplaced _ hy
        exact .under hy awaits (ih this) (hold this rank) runs
      · rw [(hnew _ hy).1] at awaits
        cases awaits
      · obtain ⟨rfl, _⟩ := Phase.descending.inj awaits
        exact absurd hk (Nat.lt_irrefl _)
  have hshelter : ∀ {k}, Sheltered ((standings ++ newcomers).modify i
      fun x => { x with phase := .descending ranks.length info })
      (ranks ++ [⟨a.network.tokens.length, .running, none, false⟩]) k → k < ranks.length →
        Sheltered standings ranks k :=
    fun ⟨hk, r, hr, hruns⟩ hlt => ⟨hclean hk hlt, r, hold hlt hr, hruns⟩
  have habove : ∀ {k}, Clean ((standings ++ newcomers).modify i
      fun x => { x with phase := .descending ranks.length info })
      (ranks ++ [⟨a.network.tokens.length, .running, none, false⟩]) k → k = ranks.length →
        Sheltered standings ranks x.level := by
    intro k hk heq
    cases hk with
    | top => omega
    | under mem awaits above rank runs =>
      rcases hcases _ mem with hy | hy | rfl
      · have := hbelow _ hy _ _ awaits
        omega
      · rw [(hnew _ hy).1] at awaits
        cases awaits
      · exact ⟨hclean above hlt, _, hold hlt rank, runs⟩
  have hlast : ∀ {k : Nat} {r : Rank}, (ranks ++ [⟨a.network.tokens.length, .running, none, false⟩])[k]? =
      some r → k < ranks.length ∨ k = ranks.length ∧ r = ⟨a.network.tokens.length, .running, none, false⟩ := by
    intro k r hr
    exact (getElem?_concat_cases hr).imp_left fun hr => (List.getElem?_eq_some_iff.mp hr).1
  refine ⟨?_, ?_, ?_, ?_⟩
  · intro k r hr hk
    rcases hlast hr with hlt | ⟨_, rfl⟩
    · exact h.levels k r (hold hlt hr) (hclean hk hlt)
    · exact ⟨rfl, nofun, nofun, nofun⟩
  · intro y hy hk
    rcases hcases y hy with hy | hy | rfl
    · exact h.free y hy (hshelter hk (hplaced y hy))
    · exact (hnew y hy).2
    · exact h.free x (List.mem_of_getElem? hi) (hshelter hk hlt)
  · intro y hy hk ticket job hqueued
    rcases hcases y hy with hy | hy | rfl
    · exact h.tickets y hy (hshelter hk (hplaced y hy)) ticket job hqueued
    · rw [(hnew y hy).1] at hqueued
      cases hqueued
    · cases hqueued
  · intro k r hr hk q hq
    rcases hlast hr with hlt | ⟨heq, rfl⟩
    · have hsource := hknown r (List.mem_of_getElem? (hold hlt hr))
      refine h.tokens k r (hold hlt hr) (hshelter hk hlt) q ?_
      cases a.network.joins r₀.source with
      | late _ _ _ reasons _ _ => rwa [← reasons r.source (Nat.ne_of_lt hsource)]
      | early _ reasons _ => rwa [← reasons]
    · have hparent := h.tokens x.level r₀ hown (habove hk.1 heq) q
      cases a.network.joins r₀.source with
      | late p struck own _ _ _ =>
        refine hparent ?_
        rw [struck, ← own]
        exact hq
      | early _ reasons _ =>
        change (a.network.addSource [r₀.source]).reason? a.network.tokens.length = some q at hq
        rw [reasons] at hq
        unfold Network.reason? at hq
        rw [List.getElem?_eq_none (Nat.le_refl _)] at hq
        cases hq

end Honest

namespace Cursor

/-- The task does not end with a fault but such that `P` holds of. -/
def Excused (P : Fault → Prop) : Cursor → Prop
  | conclude (.error f) => P f
  | giveBack next => next.Excused P
  | _ => True

/-- No fault comes up here but such that `P` holds of. -/
def Proper (P : Fault → Prop) (s : State σ) : Cursor → Prop
  | onAnswer _ _ (.error g) => P g
  | onAnswer _ f (.ok taken) => (taken || f.isMissing) = false → P f
  | offer _ f => f = .interrupted → P f
  | onReply _ _ (.error f) => f.isCancellation = true → P f
  | stop _ _ reply => ∀ r, reply.stop = some r →
    s.admission.network.reason? callerToken = none → P (.ofReason r)
  | _ => True

theorem excused_forgone (P : Fault → Prop) (t : Task) (job : Job) : (job.forgone t).Excused P := by
  cases job <;> exact trivial

theorem excused_move {P : Fault → Prop} {env : Environment σ} {i : Nat} {t : Task} {c : Cursor} {s : State σ}
    (hlog : ∀ line f, env.refusal line = some f → P f) (hc : c.Excused P) (hproper : c.Proper P s)
    (hsize : 1 ≤ s.admission.pool.capacity)
    (hfine : ∀ next, c = .giveBack next → (s.admission.release 1).2 = none)
    (htoken : ∀ q, s.admission.network.reason? (s.level t.level).source = some q → P (.ofReason q)) :
    (c.move env i t s).Meets (fun _ d _ => d.Excused P) fun _ => True := by
  cases c with
  | conclude result => trivial
  | log tally =>
    simp only [move]
    split
    · trivial
    · split
      · split
        · trivial
        · unfold Environment.logged
          cases hline : env.refusal (logLine t.visit.name tally) with
          | none => trivial
          | some f => exact hlog _ f hline
      · trivial
  | accept tally => trivial
  | seek job =>
    simp only [move]
    split
    · next f hask =>
      unfold Admission.ask at hask
      rw [if_neg (by omega)] at hask
      cases hcalled : s.admission.called? (some (s.level t.level).source) with
      | none =>
        rw [hcalled] at hask
        dsimp only at hask
        split at hask <;> cases hask
      | some g =>
        rw [hcalled] at hask
        obtain rfl := Except.error.inj hask
        obtain ⟨q, hq, rfl⟩ := Option.map_eq_some_iff.mp hcalled
        exact htoken q hq
    · trivial
    · trivial
  | follow o => cases o <;> simp only [move] <;> (repeat' split) <;> trivial
  | enter info | onInfo info | onTarget info target | onEntries info names =>
    simp only [move]
    (repeat' split) <;> trivial
  | giveBack next =>
    have hgiven := hfine next rfl
    simp only [move]
    split
    · exact hc
    · next hfails =>
      rw [hfails] at hgiven
      cases hgiven
  | onAnswer job f answer =>
    cases answer with
    | error g => exact hproper
    | ok taken =>
      simp only [move]
      split
      · exact excused_forgone P t job
      · next hleft => exact hproper (Bool.eq_false_iff.mpr hleft)
  | consult job f =>
    simp only [move]
    split <;> trivial
  | offer job f =>
    simp only [move]
    split
    · next htold => exact hproper htold
    · (repeat' split) <;> trivial
  | onReply info tally answer =>
    rcases answer with f | _ | _
    · simp only [move]
      split
      · next hoff => exact hproper hoff
      · trivial
    · trivial
    · trivial
  | stop info tally reply => trivial
  | report info tally =>
    simp only [move]
    split <;> trivial
  | begin job | answer job =>
    cases job <;> simp only [move] <;> (repeat' split) <;> trivial

end Cursor

section Steps

variable {P : Fault → Prop} {env : Environment σ} {capacity : Int}
  {others : List Pool.Stake} {s s' : State σ} {i : Nat} {t : Task}

theorem State.own_rank (hplaced : t.level < s.levels.length) :
    ∃ r, s.ranks[t.level]? = some r ∧ r.source = (s.level t.level).source ∧
      r.stage = (s.level t.level).stage := by
  have hl := List.getElem?_eq_getElem hplaced
  refine ⟨_, s.rank_of_level _ hl, ?_⟩
  rw [s.level_of_getElem? hl]
  exact ⟨rfl, rfl⟩

theorem State.level_of_isClosed {k : Nat} (h : (s.level k).stage.isClosed = true) :
    ∃ l, s.levels[k]? = some l ∧ l.stage = (s.level k).stage := by
  unfold level at h ⊢
  cases hl : s.levels[k]? with
  | none =>
    rw [hl] at h
    cases h
  | some l => exact ⟨l, rfl, rfl⟩

theorem Honest.enter (h : Honest P s.standings s.ranks s.admission)
    (hlog : ∀ line f, env.refusal line = some f → P f) (ht : s.tasks[i]? = some t)
    (hplaced : t.level < s.levels.length) {c : Cursor} (henters : s.Enters env t c s') :
    Honest P s.standings s.ranks s'.admission ∧
      (Sheltered s.standings s.ranks t.level → c.Excused P) := by
  have hmem : t.standing ∈ s.standings := List.mem_of_getElem? (s.standing_of_task i ht)
  obtain ⟨own, hown, hsource, hstage⟩ := State.own_rank hplaced
  have hfree : t.interrupted = true → Sheltered s.standings s.ranks t.level → False := by
    intro htold hshelter
    have := h.free t.standing hmem hshelter
    rw [show t.standing.interrupted = t.interrupted from rfl, htold] at this
    cases this
  cases henters with
  | ends told _ _ => exact ⟨h, fun hshelter => (hfree told hshelter).elim⟩
  | drops told _ => exact ⟨h, fun hshelter => (hfree told hshelter).elim⟩
  | refused phase collected =>
    refine ⟨h.mild (.collect collected), fun hshelter => ?_⟩
    have htickets := h.tickets t.standing hmem hshelter _ _ phase
    rcases Pool.collect_some (Admission.collect?_cases collected).1 with htold | hrefused | hleft
    · exact (hfree htold hshelter).elim
    · exact htickets _ hrefused
    · exact (htickets _ hleft).elim
  | called phase collected off =>
    have hthen := h.mild (.collect collected)
    refine ⟨hthen, fun hshelter => ?_⟩
    obtain ⟨q, hq, rfl⟩ := Option.map_eq_some_iff.mp off
    exact hthen.tokens t.level own hown hshelter q (by rwa [hsource])
  | admitted _ collected _ => exact ⟨h.mild (.collect collected), fun _ => trivial⟩
  | logged _ _ =>
    refine ⟨h, fun _ => ?_⟩
    unfold Environment.logged
    cases hline : env.refusal (logLine t.visit.name _) with
    | none => trivial
    | some f => exact hlog _ f hline
  | failed phase closed =>
    refine ⟨h, fun hshelter => ?_⟩
    obtain ⟨hclean, r, hr, hruns⟩ := hshelter
    obtain ⟨l, hl, hstage'⟩ := State.level_of_isClosed (s := s) (by rw [closed]; rfl)
    have hbelow := h.levels _ l.rank (s.rank_of_level _ hl) (.under hmem phase hclean hr hruns)
    exact hbelow.closed _ (hstage'.trans closed)
  | _ => exact ⟨h, fun _ => trivial⟩

/-- Nothing that goes wrong in the step of a task comes from below or from the side. -/
theorem Honest.move (hplugged : Plugged capacity others s) (hsize : 1 ≤ capacity)
    (hlog : ∀ line f, env.refusal line = some f → P f) (ht : s.tasks[i]? = some t) {u : Task} {d : Cursor}
    {s₂ : State σ} (hamid : s.Amid env i u d s₂) (hproper : d.Proper P s₂)
    (h : Honest P s.standings s.ranks s₂.admission)
    (hexcused : Sheltered s.standings s.ranks t.level → d.Excused P) :
    (d.move env i u s₂).Meets
      (fun _ c s₃ => Honest P s.standings s.ranks s₃.admission ∧
        (Sheltered s.standings s.ranks t.level → c.Excused P))
      fun s' => Honest P s'.standings s'.ranks s'.admission := by
  obtain ⟨hplace, hstandings, hranks⟩ := hamid.unmoved ht
  obtain ⟨own, hown, hsource, _⟩ := State.own_rank (hplugged.placed ht)
  obtain ⟨hserves, hcapacity, htokens⟩ :
      Pool.Serves s₂.admission.pool (d.stakes ++ (s.stakesBut i ++ others)) ∧
        s₂.admission.pool.capacity = capacity ∧
        s.admission.network.tokens.length ≤ s₂.admission.network.tokens.length := by
    cases (hplugged.advances ht hamid).2 with
    | onward _ _ _ _ trade =>
      exact ⟨trade.serves _ (hplugged.serves_task ht), trade.capacity.trans hplugged.capacity_eq,
        trade.follows.length⟩
  have hsource₂ : own.source = (s₂.level u.level).source := by
    rw [hsource, State.level_source_eq, State.level_source_eq, State.stages_of_ranks hranks, hplace]
  have hfine : ∀ next, d = .giveBack next → (s₂.admission.release 1).2 = none := by
    rintro next rfl
    exact hserves.release.1
  have hmove : Sheltered s.standings s.ranks t.level →
      (d.move env i u s₂).Meets (fun _ d _ => d.Excused P) fun _ => True := by
    intro hshelter
    refine Cursor.excused_move hlog (hexcused hshelter) hproper (by omega) hfine ?_
    intro q hq
    rw [← hsource₂] at hq
    exact h.tokens t.level own hown hshelter q hq
  have hdeed := d.deed_move env i u s₂
  generalize d.move env i u s₂ = course at hdeed hmove
  cases hdeed with
  | @onward _ d' u' s₃ level standings ranks deals =>
    refine ⟨h.mild ?_, hmove⟩
    generalize s₃.admission = b at deals
    cases deals with
    | nothing => exact .refl P _
    | grant asked => exact .grant asked
    | release next => exact .release _ 1
    | cancel stops => exact .cancel (hproper _ stops)
  | conclude result =>
    change Honest P (s₂.conclude i u result).standings (s₂.conclude i u result).ranks _
    rw [State.standings_conclude, State.admission_conclude, hstandings]
    cases result with
    | ok share =>
      rw [State.ranks_conclude_ok, hranks]
      exact h.post i (by simp) (by simp)
    | error f =>
      rw [State.ranks_conclude_error, hranks, hplace]
      exact (h.fail hexcused).post i (by simp) (by simp)
  | @queue job b ticket asked =>
    obtain ⟨-, -, hrequest, hnetwork⟩ := Admission.ask_cases asked
    obtain ⟨hticket, -, hsettled⟩ := Pool.request_some hrequest
    change Honest P (State.standings (State.setPhase { s₂ with admission := b } i _)) s₂.ranks b
    rw [State.standings_setPhase, hranks]
    change Honest P (s₂.standings.modify i _) _ _
    rw [hstandings]
    refine Honest.post (h.mild ⟨?_, ?_⟩) i (by simp) ?_
    · rw [hsettled]
      exact fun _ he => .inl he
    · intro n q hq
      have hsub : b.network = s₂.admission.network.subscribe (s₂.level u.level).source (.client ticket) :=
        hnetwork
      rw [hsub, Network.reason?_subscribe] at hq
      exact .inl hq
    · intro ticket' job' hphase y hy
      obtain ⟨rfl, _⟩ := Phase.queued.inj hphase
      rw [hsettled] at hy
      have hlt := hserves.1.ticket_lt_next (List.mem_append_right _ (List.mem_map_of_mem hy))
      dsimp only at hlt
      omega
  | @rest _ s₃ phase work standings ranks admission =>
    change Honest P s₃.standings s₃.ranks s₃.admission
    rw [standings, ranks, admission, hstandings, hranks]
    refine h.post i ?_ ?_
    · rintro k info rfl
      cases work
    · rintro ticket job rfl
      cases work
  | descend info names depth priority =>
    have hcount : s₂.levels.length = s.ranks.length := by rw [← State.length_ranks, hranks]
    have hstill (s : State σ) (phase : Phase) : (s.setPhase i phase).ranks = s.ranks := rfl
    have hlength : s.ranks.length = s.stages.length := by rw [State.stages_eq, List.length_map]
    change Honest P (State.standings _) (State.ranks _) _
    rw [hstill, State.standings_setPhase, State.standings_openLevel, State.ranks_openLevel, hstandings,
      hranks, hcount, ← hsource₂]
    refine h.descend (s.standing_of_task i ht) hown ?_ ?_ ?_ ?_ info
    · intro y hy
      rw [hlength]
      exact hplugged.nested.placed (y.level, y.phase) (State.posts_eq s ▸ List.mem_map_of_mem hy)
    · intro y hy k info hawaits
      have hmem : (y.level, y.phase) ∈ s.posts := State.posts_eq s ▸ List.mem_map_of_mem hy
      obtain ⟨j, hj⟩ := List.getElem?_of_mem hmem
      rw [hlength]
      exact (hplugged.forked.below j _ k hj ⟨info, hawaits⟩).2
    · intro r hr
      have hmem : r.source ∈ s.sources := by
        rw [State.sources_eq, State.stages_eq, List.map_map]
        exact List.mem_map_of_mem hr
      exact Nat.lt_of_lt_of_le (hplugged.wired.known _ hmem).2 htokens
    · intro y hy
      obtain ⟨v, _, rfl⟩ := List.mem_map.mp hy
      exact ⟨rfl, rfl⟩

theorem State.mem_ticketsOf {ks : List Nat} {ticket : Nat} (h : ticket ∈ s.ticketsOf ks) :
    ∃ y ∈ s.standings, ∃ job, y.phase = .queued ticket job ∧ y.level ∈ ks := by
  unfold ticketsOf at h
  obtain ⟨u, hu, hticket⟩ := List.mem_filterMap.mp h
  cases hphase : u.phase with
  | queued ticket' job =>
    simp only [hphase, Option.ite_none_right_eq_some, Option.some.injEq] at hticket
    obtain ⟨hlevel, rfl⟩ := hticket
    exact ⟨u.standing, List.mem_map_of_mem hu, job, hphase, hlevel⟩
  | _ => simp [hphase] at hticket

/-- Whoever hears the token of a level is beneath the level. -/
theorem Plugged.confined (h : Plugged capacity others s) (k : Nat) : s.admission.network.Confined
    (fun x => ∃ j, s.sources[j]? = some x ∧ Beneath s.standings k j)
    (fun c => ∀ p ∈ s.posts, ∀ job, p.2 = .queued c job → Beneath s.standings k p.1) := by
  refine ⟨?_, ?_⟩
  · rintro t x ⟨j, hj, hbeneath⟩ hears
    rcases h.wired.source t x hears with ⟨rfl, _⟩ | ⟨p, hp, m, hawaits, habove, hbelow⟩
    · exact absurd rfl (h.wired.known _ (List.mem_of_getElem? hj)).1
    · obtain rfl := h.wired.index hj habove
      rw [State.posts_eq] at hp
      obtain ⟨y, hy, rfl⟩ := List.mem_map.mp hp
      obtain ⟨info, hphase⟩ := hawaits
      exact ⟨m, hbelow, .under hy hphase hbeneath⟩
  · rintro t c ⟨j, hj, hbeneath⟩ hears p hp job hqueued
    obtain rfl := h.wired.index hj ((h.wired.client t c hears).2 p hp job hqueued)
    exact hbeneath

/-- Who ends because a level fails is below that level. -/
theorem Honest.level (h : Honest P s.standings s.ranks s.admission) (hplugged : Plugged capacity others s)
    {k : Nat} {l : Level} (hl : s.levels[k]? = some l) (hstep : s.stepLevel? k l = some s') :
    Honest P s'.standings s'.ranks s'.admission := by
  have hrank := s.rank_of_level k hl
  cases State.fate hstep with
  | @closes result _ _ comes =>
    rw [State.ranks_close]
    refine (h.close hrank comes).mild ⟨fun _ he => .inl he, fun t q hq => .inl ?_⟩
    change (s.admission.network.detach _).reason? t = some q at hq
    rwa [Network.reason?_detach] at hq
  | @fails f runs failure =>
    generalize hbefore : ({ s with admission := s.admission.cancel l.source (.fault f) } : State σ) = s₁
    have hstandings : s₁.standings = s.standings := by rw [← hbefore]; rfl
    have hranks : s₁.ranks = s.ranks := by rw [← hbefore]; rfl
    have hadmission : s₁.admission = s.admission.cancel l.source (.fault f) := by rw [← hbefore]
    have hsource : s.sources[k]? = some l.source := by
      unfold State.sources
      rw [List.getElem?_map, hl]
      rfl
    obtain ⟨hreasons, htold⟩ := (hplugged.confined k).cancel ⟨k, hsource, .self⟩ (.fault f)
    change Honest P (s₁.interrupt k).standings _ (s₁.interrupt k).admission
    rw [State.ranks_drain]
    have hforked : Forked (s.standings.map fun x => (x.level, x.phase)) s.stages.length := by
      rw [← State.posts_eq]
      exact hplugged.forked
    refine h.stop hforked hrank runs failure ?_ ?_ ?_ ?_ ?_
    · intro r hr
      rw [List.getElem?_modify_eq] at hr
      obtain ⟨q, _, rfl⟩ := Option.map_eq_some_iff.mp hr
      exact ⟨rfl, rfl⟩
    · intro i x hx
      rw [← hstandings]
      exact State.standing_interrupt hx
    · intro j r hr
      rw [← hstandings, ← hranks]
      rcases modify_cases hr with ⟨_, hr⟩ | ⟨rfl, m, hm, rfl⟩
      · obtain ⟨q, hq, hsource, hstage, hfailure, htold⟩ := State.rank_interrupt hr
        exact ⟨q, hq, hsource, fun _ => ⟨hstage, hfailure, htold.imp_right And.left⟩⟩
      · obtain ⟨q, hq, hsource, _⟩ := State.rank_interrupt hm
        exact ⟨q, hq, hsource, fun hne => absurd rfl hne⟩
    · intro x hx ticket job hqueued y hy
      rcases Admission.mem_settled_foldl_abandon _ hy with hold | ⟨other, hother, heq⟩
      · rw [hadmission] at hold
        rcases Admission.mem_settled_cancel hold with hold | hgranted | ⟨q, hq, heq⟩
        · exact .inl hold
        · exact .inr (.inl hgranted)
        · obtain ⟨rfl, _⟩ := Prod.mk.inj heq
          have hmem : (x.level, x.phase) ∈ s.posts := State.posts_eq s ▸ List.mem_map_of_mem hx
          exact .inr (.inr ((htold q hq).1 _ hmem job hqueued))
      · obtain ⟨rfl, _⟩ := Prod.mk.inj heq
        right; right
        obtain ⟨y, hy, job', hphase, hbelow⟩ := State.mem_ticketsOf hother
        rw [hstandings] at hy
        obtain ⟨m, hm⟩ := List.getElem?_of_mem hx
        obtain ⟨n, hn⟩ := List.getElem?_of_mem hy
        have hpost : ∀ {i : Nat} {z : Standing}, s.standings[i]? = some z →
            s.posts[i]? = some (z.level, z.phase) := by
          intro i z hz
          rw [State.posts_eq, List.getElem?_map, hz]
          rfl
        obtain rfl := hplugged.queued_once (hpost hm) (hpost hn) hqueued hphase
        obtain rfl := Option.some.inj (hm.symm.trans hn)
        rw [← hstandings]
        exact State.beneath_of_mem_subtree hbelow
    · intro j r hr q hq
      have hsource : s.sources[j]? = some r.source := by
        rw [State.sources_eq, State.stages_eq, List.map_map, List.getElem?_map, hr]
        rfl
      have hnetwork : (s₁.interrupt k).admission.network = (s.admission.network.cancel l.source (.fault f)).1 := by
        refine (Admission.network_foldl_abandon (s₁.ticketsOf (s₁.subtree k)) s₁.admission).trans ?_
        rw [hadmission]
        rfl
      rw [hnetwork] at hq
      rcases hreasons r.source with hsame | ⟨⟨m, hm, hbeneath⟩, _⟩
      · rw [hsame] at hq
        exact .inl hq
      · obtain rfl := hplugged.wired.index hsource hm
        exact .inr hbeneath

theorem Honest.step {a : Actor} (h : Honest P s.standings s.ranks s.admission)
    (hplugged : Plugged capacity others s) (hsize : 1 ≤ capacity)
    (hlog : ∀ line f, env.refusal line = some f → P f)
    (hproper : ∀ i u c s₁, a = .task i → s.Amid env i u c s₁ → c.Proper P s₁)
    (hstep : s.step? env a = some s') : Honest P s'.standings s'.ranks s'.admission := by
  cases a with
  | task i =>
    obtain ⟨t, ht, hstep⟩ := Option.bind_eq_some_iff.mp hstep
    refine (State.along_step (P := fun _ c s₁ => Honest P s.standings s.ranks s₁.admission ∧
      (Sheltered s.standings s.ranks t.level → c.Excused P))
      (Q := fun s' => Honest P s'.standings s'.ranks s'.admission) ht ?_ ?_).2 s' hstep
    · exact fun c s₁ => h.enter hlog ht (hplugged.placed ht)
    · intro u c s₁ hamid ⟨hhonest, hexcused⟩
      exact hhonest.move hplugged hsize hlog ht hamid (hproper i u c s₁ rfl hamid) hexcused
  | level k =>
    obtain ⟨l, hl, hstep⟩ := Option.bind_eq_some_iff.mp hstep
    exact h.level hplugged hl hstep

/-- What others do with the pool is of no concern to the tasks that wait there. -/
theorem Honest.share (h : Honest P s.standings s.ranks s.admission) (hshared : Shared capacity others s)
    {q : Pool} {others' : List Pool.Stake} (hsharing : Pool.Sharing s.admission.pool others q others') :
    Honest P s.standings s.ranks { s.admission with pool := q } := by
  refine ⟨h.levels, h.free, ?_, h.tokens⟩
  intro x hx hshelter ticket job hqueued y hy
  rcases hsharing.mem_settled hy with hold | hgranted | ⟨stake, hstake, count, hclaim⟩
  · exact h.tickets x hx hshelter ticket job hqueued y hold
  · dsimp only at hgranted
    rw [hgranted]
    trivial
  · obtain ⟨i, hi⟩ := List.getElem?_of_mem hx
    have hpost : s.posts[i]? = some (x.level, x.phase) := by
      rw [State.posts_eq, List.getElem?_map, hi]
      rfl
    exact absurd hclaim (hshared.claim_once hpost hqueued (List.mem_append_right _ hstake))

theorem Honest.mono {Q : Fault → Prop} (h : Honest P s.standings s.ranks s.admission)
    (hPQ : ∀ f, P f → Q f) : Honest Q s.standings s.ranks s.admission := by
  refine ⟨?_, h.free, ?_, fun k r hr hk q hq => hPQ _ (h.tokens k r hr hk q hq)⟩
  · intro k r hr hk
    have hexcused := h.levels k r hr hk
    exact ⟨hexcused.free, fun hruns f hf => hPQ f (hexcused.failure hruns f hf),
      fun f hf => hPQ f (hexcused.draining f hf), fun f hf => hPQ f (hexcused.closed f hf)⟩
  · intro x hx hk ticket job hqueued y hy
    have hexcused := h.tickets x hx hk ticket job hqueued y hy
    cases y with
    | granted => trivial
    | refused f => exact hPQ f hexcused
    | abandoned => exact hexcused

/-- Nothing has gone wrong in a walk that begins. -/
theorem Honest.start (P : Fault → Prop) (env : Environment σ) (caller : Caller σ) (paths : List Path) :
    Honest P (State.start env caller paths).standings (State.start env caller paths).ranks
      (State.start env caller paths).admission := by
  have hstandings : ∀ x ∈ (State.start env caller paths).standings, x.phase = .fresh ∧ x.interrupted = false := by
    intro x hx
    unfold State.start at hx
    rw [State.standings_openLevel] at hx
    obtain ⟨v, _, rfl⟩ := List.mem_map.mp hx
    exact ⟨rfl, rfl⟩
  have hquiet := State.quiet_start env caller paths
  refine ⟨?_, fun x hx _ => (hstandings x hx).2, ?_, ?_⟩
  · intro k r hr _
    unfold State.start at hr
    rw [State.ranks_openLevel] at hr
    rw [List.mem_singleton.mp (List.mem_of_getElem? hr)]
    exact ⟨rfl, nofun, nofun, nofun⟩
  · intro x hx _ ticket job hqueued
    rw [(hstandings x hx).1] at hqueued
    cases hqueued
  · intro k r _ _ q hq
    rw [hquiet r.source] at hq
    cases hq

/-- A walk comes back with the fault of its topmost level. -/
theorem Honest.result (h : Honest P s.standings s.ranks s.admission) {f : Fault}
    (hresult : s.result? = some (.error f)) : P f := by
  obtain ⟨l, hl, hstage⟩ := State.topmost_of_result hresult
  exact (h.levels 0 l.rank (s.rank_of_level 0 hl) .top).closed f hstage

end Steps

end Walk

end TreeCensus
