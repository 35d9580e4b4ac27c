import TreeCensus.Proofs.Cancellation.Spread
import TreeCensus.Proofs.Pool.Liveness

/-!
# Calls that are called off

Whoever is in line with a token is told when the token is cancelled, and nobody stays in line with a
cancelled token. Those who are told are refused one after the other, and each refusal may let others in
at once. So a call may still be granted permits after its token was cancelled, if the refusal of another
call with that token makes room for it before it is told itself.
-/

namespace TreeCensus

set_option autoImplicit false

open Cancellation (Listener Network)

namespace Pool

variable {p q : Pool} {w : Waiter}

/-- Whoever is in line stays there or is let in when the line is looked after. -/
theorem stays_letIn {capacity : Int} (ws : List Waiter) : ∀ held, w ∈ ws →
    w ∈ (letIn capacity held ws).waiting ∨ w.ticket ∈ (letIn capacity held ws).tickets := by
  induction ws with
  | nil => nofun
  | cons v vs ih =>
    intro held hw
    unfold letIn
    split
    · exact .inl hw
    · rcases List.mem_cons.mp hw with rfl | hw
      · exact .inr List.mem_cons_self
      · exact (ih (held + v.count) hw).imp_right (List.mem_cons_of_mem _)

theorem stays_wake (hw : w ∈ p.waiting) : w ∈ p.wake.waiting ∨ (w.ticket, .granted) ∈ p.wake.settled :=
  (stays_letIn p.waiting p.held hw).imp_right fun hticket =>
    List.mem_append_right _ (List.mem_map_of_mem hticket)

theorem refused_refuse {ticket : Nat} (hwaits : p.isWaiting ticket = true) (f : Fault) :
    (ticket, .refused f) ∈ (p.refuse ticket f).settled := by
  unfold refuse
  rw [if_pos hwaits]
  refine (settles_wake _).subset ?_
  unfold settle
  rw [if_pos hwaits]
  exact List.mem_append_right _ (List.mem_singleton.mpr rfl)

/-- The refusal of another one leaves a waiter in line, or lets it in. -/
theorem stays_refuse {ticket : Nat} (f : Fault) (hw : w ∈ p.waiting) (hne : w.ticket ≠ ticket) :
    w ∈ (p.refuse ticket f).waiting ∨
      p.isWaiting ticket = true ∧ (w.ticket, .granted) ∈ (p.refuse ticket f).settled := by
  unfold refuse
  split
  · next hwaits =>
    have hstays : w ∈ (p.settle ticket (.refused f)).waiting := by
      unfold settle
      rw [if_pos hwaits]
      exact List.mem_filter.mpr ⟨hw, by simpa using hne⟩
    exact (stays_wake hstays).imp_right fun hgranted => ⟨hwaits, hgranted⟩
  · exact .inl hw

/-- When those who are told are refused in turn, a waiter that is told is refused, or it is let in when
another one is refused that was told before. -/
theorem told_foldl_refuse {r : Reason} (told : List (Nat × Reason)) (hreason : ∀ e ∈ told, e.2 = r) :
    ∀ {p : Pool}, w ∈ p.waiting → (w.ticket, r) ∈ told →
      let q := told.foldl (fun pool e => pool.refuse e.1 (.ofReason e.2)) p
      (w.ticket, .refused (.ofReason r)) ∈ q.settled ∨ (w.ticket, .granted) ∈ q.settled ∧
        ∃ v ∈ p.waiting, v.ticket ≠ w.ticket ∧ (v.ticket, r) ∈ told ∧
          (v.ticket, .refused (.ofReason r)) ∈ q.settled := by
  induction told with
  | nil => nofun
  | cons e told ih =>
    intro p hw hmem
    obtain ⟨ticket, reason⟩ := e
    obtain rfl : reason = r := hreason _ List.mem_cons_self
    have hrest := Admission.settles_foldl_refuse told (p.refuse ticket (.ofReason reason))
    rw [List.foldl_cons]
    by_cases heq : w.ticket = ticket
    · subst heq
      exact .inl (hrest.subset (refused_refuse (isWaiting_iff.mpr ⟨w, hw, rfl⟩) _))
    · have hmem : (w.ticket, reason) ∈ told :=
        (List.mem_cons.mp hmem).resolve_left fun h => heq (congrArg Prod.fst h)
      -- Another one is refused first: the waiter stays in line, or it is let in where there is room now.
      rcases stays_refuse (.ofReason reason) hw heq with hstays | ⟨hwaits, hgranted⟩
      · refine (ih (fun e he => hreason e (List.mem_cons_of_mem _ he)) hstays hmem).imp_right ?_
        rintro ⟨hgranted, v, hv, hne, htold, hrefused⟩
        exact ⟨hgranted, v, (settles_refuse p ticket _).sublist.subset hv, hne,
          List.mem_cons_of_mem _ htold, hrefused⟩
      · obtain ⟨v, hv, rfl⟩ := isWaiting_iff.mp hwaits
        exact .inr ⟨hrest.subset hgranted, v, hv, Ne.symm heq, List.mem_cons_self,
          hrest.subset (refused_refuse hwaits _)⟩

theorem Settles.mem_settled (h : Settles p q) {e : Nat × Settlement} (he : e ∈ q.settled) :
    e ∈ p.settled ∨ ∃ w ∈ p.waiting, w.ticket = e.1 := by
  induction h with
  | refl => exact .inl he
  | cons hone _ ih =>
    rcases ih he with he | ⟨w, hw, hticket⟩
    · cases hone with
      | grant first _ =>
        refine (List.mem_append.mp he).imp_right fun he => ?_
        rw [first, List.mem_singleton.mp he]
        exact ⟨_, List.mem_cons_self, rfl⟩
      | dismiss waits _ =>
        refine (List.mem_append.mp he).imp_right fun he => ?_
        rw [List.mem_singleton.mp he]
        exact ⟨_, waits, rfl⟩
    · exact .inr ⟨w, hone.sublist.subset hw, hticket⟩

theorem Books.lookup_settled {claims : List (Nat × Int)} {out : Int} (h : Books p claims out) {ticket : Nat}
    {s : Settlement} (hmem : (ticket, s) ∈ p.settled) : p.settled.lookup ticket = some s := by
  have hnodup := h.nodup_settled
  obtain ⟨before, after, hsplit⟩ := List.append_of_mem hmem
  rw [hsplit, List.map_append, List.map_cons] at hnodup
  refine List.lookup_eq_some_iff.mpr ⟨before, after, hsplit, ?_⟩
  intro e he
  have hne := (List.nodup_append.mp hnodup).2.2 e.1 (List.mem_map_of_mem he) ticket List.mem_cons_self
  simpa using hne.symm

namespace Session

variable {α : Type} {s : Session α} {i : Nat} {t : Task α}

theorem network_giveBack (s : Session α) (i : Nat) (t : Task α) (result : Except Fault α) :
    (s.giveBack i t result).admission.network = s.admission.network ∧
      (s.giveBack i t result).tokens = s.tokens := by
  unfold giveBack
  rcases h : s.admission.release t.count with ⟨admission, _ | f⟩ <;>
  · refine ⟨?_, rfl⟩
    change admission.network = _
    rw [← Admission.release_network (a := s.admission) t.count, h]

theorem network_proceed (s : Session α) (i : Nat) (t : Task α) :
    (s.proceed i t).admission.network = s.admission.network ∧ (s.proceed i t).tokens = s.tokens := by
  unfold proceed
  split
  · exact ⟨rfl, rfl⟩
  · split
    · exact network_giveBack s i t _
    · split
      · exact network_giveBack _ i t _
      · dsimp only
        split
        · exact ⟨rfl, rfl⟩
        · exact network_giveBack _ i t _

theorem network_interrupt (s : Session α) (i : Nat) (t : Task α) :
    (s.interrupt i t).admission.network = s.admission.network ∧ (s.interrupt i t).tokens = s.tokens := by
  unfold interrupt
  dsimp only
  split
  · exact ⟨rfl, rfl⟩
  · unfold enqueue
    split <;> exact ⟨rfl, rfl⟩
  · exact ⟨rfl, rfl⟩
  · exact ⟨rfl, rfl⟩

theorem tokens_resume (s : Session α) (i : Nat) (t : Task α) : (s.resume i t).tokens = s.tokens := by
  unfold resume
  split
  · rfl
  · split
    · rfl
    · split
      · rfl
      · exact (network_proceed _ i t).2
      · rfl
  · split
    · rfl
    · rfl
    · exact (network_proceed _ i t).2
  · split <;> exact (network_giveBack s i t _).2

/-- What a turn of a task does to the network: the task subscribes when it gets in line with a token, and
it unsubscribes when it leaves the line. -/
inductive Rewires (s : Session α) (t : Task α) (after : Session α) : Prop
  | not (network : after.admission.network = s.admission.network)
      (free : ∀ ticket, t.phase = .fresh → s.pool.request t.priority t.count = (after.pool, some ticket) →
        t.token = none)
  | joins {token : Nat} (names : t.token = some token) (quiet : s.admission.network.reason? token = none)
      (queued : s.pool.request t.priority t.count = (after.pool, some s.pool.next))
      (network : after.admission.network = s.admission.network.subscribe token (.client s.pool.next))
  | leaves {ticket token : Nat} (names : t.token = some token) (waits : t.phase = .waiting ticket)
      (settled : ticket ∈ s.pool.settled.map (·.1))
      (network : after.admission.network = s.admission.network.unsubscribe token (.client ticket))

theorem Rewires.of_collect {after : Session α} {admission : Admission} {ticket : Nat} {failure : Option Fault}
    (hphase : t.phase = .waiting ticket)
    (h : s.admission.collect? ticket t.count t.token t.interrupted = some (admission, failure))
    (hsame : after.admission.network = admission.network) : Rewires s t after := by
  cases htoken : t.token with
  | none =>
    rw [htoken] at h
    exact .not (hsame.trans (Admission.collect?_cases h).2) fun _ _ _ => htoken
  | some token =>
    rw [htoken] at h
    obtain ⟨hcollect, hnetwork⟩ := Admission.collect?_cases h
    refine .leaves htoken hphase ?_ (hsame.trans hnetwork)
    obtain ⟨settlement, hlookup, -⟩ := Option.map_eq_some_iff.mp hcollect
    rw [pool]
    exact List.mem_map_of_mem (f := (·.1)) (mem_of_lookup hlookup)

/-- Nobody who asked for permits is in line if the pool is what it was. -/
theorem request_ne_self {priority : Priority} {count : Int} {ticket : Nat} :
    p.request priority count ≠ (p, some ticket) := fun h =>
  Nat.succ_ne_self _ (request_some h).2.1.symm

theorem rewires_resume (s : Session α) (i : Nat) (t : Task α) : Rewires s t (s.resume i t) := by
  cases hphase : t.phase with
  | «over» =>
    simp only [resume, hphase]
    exact .not rfl fun _ hfresh => by simp [hphase] at hfresh
  | fresh =>
    cases hinterrupted : t.interrupted with
    | true =>
      simp only [resume, hphase, hinterrupted, if_true]
      exact .not rfl fun _ _ hqueued => absurd hqueued request_ne_self
    | false =>
      rcases hask : s.admission.ask t.priority t.count t.token with f | ⟨admission, _ | ticket⟩ <;>
        simp only [resume, hphase, hinterrupted, hask, Bool.false_eq_true, if_false]
      · exact .not rfl fun _ _ hqueued => absurd hqueued request_ne_self
      · obtain ⟨-, -, hrequest, hnetwork⟩ := Admission.ask_cases hask
        refine .not ((network_proceed _ i t).1.trans hnetwork) fun _ _ hqueued => ?_
        cases congrArg Prod.snd (hrequest.symm.trans hqueued)
      · cases htoken : t.token with
        | none =>
          rw [htoken] at hask
          exact .not (Admission.ask_cases hask).2.2.2 fun _ _ _ => htoken
        | some token =>
          rw [htoken] at hask
          obtain ⟨-, hcalled, hrequest, hnetwork⟩ := Admission.ask_cases hask
          obtain rfl : ticket = s.pool.next := (request_some hrequest).1
          exact .joins htoken (Option.map_eq_none_iff.mp hcalled) hrequest hnetwork
  | waiting ticket =>
    rcases hcollect : s.admission.collect? ticket t.count t.token t.interrupted with
      _ | ⟨admission, _ | f⟩ <;>
      simp only [resume, hphase, hcollect]
    · exact .not rfl fun _ hfresh => by simp [hphase] at hfresh
    · exact .of_collect hphase hcollect (network_proceed _ i t).1
    · exact .of_collect hphase hcollect rfl
  | gate =>
    obtain ⟨result, hresult⟩ := s.resume_gate i hphase
    rw [hresult]
    exact .not (network_giveBack s i t result).1 fun _ hfresh => by simp [hphase] at hfresh

/-- A token that is made for a name is fresh, and nothing else changes. -/
theorem token_network (s : Session α) (name : Text) :
    s.admission.network.tokens.length ≤ (s.token name).1.admission.network.tokens.length ∧
    (∀ k, (s.token name).1.admission.network.reason? k = s.admission.network.reason? k) ∧
    (∀ k x, (s.token name).1.admission.network.Hears k x ↔ s.admission.network.Hears k x) ∧
    ((∀ e ∈ s.tokens, e.2 < s.admission.network.tokens.length) →
      (∀ e ∈ (s.token name).1.tokens, e.2 < (s.token name).1.admission.network.tokens.length) ∧
        (s.token name).2 < (s.token name).1.admission.network.tokens.length) := by
  unfold token
  split
  · next t ht =>
    exact ⟨Nat.le_refl _, fun _ => rfl, fun _ _ => .rfl, fun h => ⟨h, h (name, t) (mem_of_lookup ht)⟩⟩
  · have hlength : (s.admission.network.addSource []).tokens.length =
        s.admission.network.tokens.length + 1 := List.length_append
    refine ⟨?_, fun k => Network.reason?_append_fresh _ k, fun k x => Network.hears_append_fresh, ?_⟩
    · rw [hlength]
      exact Nat.le_succ _
    · intro h
      rw [hlength]
      refine ⟨?_, Nat.lt_succ_self _⟩
      rintro e he
      rcases List.mem_cons.mp he with rfl | he
      · exact Nat.lt_succ_self _
      · exact Nat.lt_succ_of_lt (h e he)

theorem cancel_session (s : Session α) (name : Text) (reason : Reason) :
    let after := (s.perform (.cancel name reason)).1
    after.admission = (s.token name).1.admission.cancel (s.token name).2 reason ∧
      after.tokens = (s.token name).1.tokens ∧ after.tasks = s.tasks := by
  obtain ⟨ready, hready⟩ := enqueueSettled_ready
    { (s.token name).1 with admission := (s.token name).1.admission.cancel (s.token name).2 reason }
  dsimp only [perform]
  rw [hready]
  exact ⟨rfl, rfl, (token_eq s name).2⟩

end Session

namespace Ledger

variable {α : Type} {l m : Ledger α} {capacity : Int} {i : Nat} {t : Task α}

def network (l : Ledger α) : Network Nat := l.session.admission.network

/-- What a ledger is after a token is cancelled. -/
def cancelled (l : Ledger α) (token : Text) (reason : Reason) : Ledger α :=
  l.log l.pool (l.session.perform (.cancel token reason)).1

/-- Whoever is in line with a token hears it, and the token is not cancelled. Nobody else hears it. -/
structure Enrolled (l : Ledger α) : Prop where
  named : ∀ e ∈ l.session.tokens, e.2 < l.network.tokens.length
  tokens : ∀ t ∈ l.tasks, ∀ k ∈ t.token, k < l.network.tokens.length
  hears : ∀ w ∈ l.pool.waiting, ∀ t ∈ l.tasks, t.phase = .waiting w.ticket → ∀ k ∈ t.token,
    l.network.reason? k = none ∧ l.network.Hears k (.client w.ticket)
  clients : ∀ k x, l.network.Hears k x → ∃ ticket < l.pool.next, x = .client ticket ∧
    ∀ t ∈ l.tasks, t.phase = .waiting ticket → t.token = some k

namespace Enrolled

theorem of_move (h : Enrolled l) (hsound : Sound capacity l) (hmove : Move l m)
    (hnamed : ∀ e ∈ m.session.tokens, e.2 < m.network.tokens.length)
    (htokens : ∀ u ∈ m.tasks, ∀ k ∈ u.token, k < m.network.tokens.length)
    (hstays : ∀ w ∈ m.pool.waiting, w ∈ l.pool.waiting → ∀ k, l.network.reason? k = none →
      l.network.Hears k (.client w.ticket) →
        m.network.reason? k = none ∧ m.network.Hears k (.client w.ticket))
    (hjoins : ∀ (j : Nat) (t u : Task α), l.tasks[j]? = some t → t.phase = .fresh → m.tasks[j]? = some u →
      u.phase = .waiting l.pool.next → l.pool.request t.priority t.count = (m.pool, some l.pool.next) →
        ∀ k ∈ t.token, m.network.reason? k = none ∧ m.network.Hears k (.client l.pool.next))
    (hclients : ∀ k x, m.network.Hears k x → l.network.Hears k x ∨ x = .client l.pool.next ∧
      l.pool.next < m.pool.next ∧ ∀ u ∈ m.tasks, u.phase = .waiting l.pool.next → u.token = some k) :
    Enrolled m := by
  refine ⟨hnamed, htokens, ?_, ?_⟩
  · intro w hw u hu hphase k hk
    obtain ⟨j, hj⟩ := List.getElem?_of_mem hu
    obtain ⟨t, ht, hgoes, hbefore | ⟨hfresh, hticket, hqueued⟩⟩ := hmove.origin hj hphase
    · have hlater := hsound.ticket_lt ht hbefore
      have hold : w ∈ l.pool.waiting := (hmove.shifts.line hw).resolve_right (by omega)
      obtain ⟨hquiet, hhears⟩ := h.hears w hold t (List.mem_of_getElem? ht) hbefore k (hgoes.token ▸ hk)
      exact hstays w hw hold k hquiet hhears
    · rw [hticket]
      exact hjoins j t u ht hfresh hj (hticket ▸ hphase) hqueued k (hgoes.token ▸ hk)
  · intro k x hx
    rcases hclients k x hx with hold | ⟨rfl, hlt, hall⟩
    · obtain ⟨ticket, hlt, rfl, hall⟩ := h.clients k x hold
      refine ⟨ticket, Nat.lt_of_lt_of_le hlt hmove.shifts.next, rfl, ?_⟩
      intro u hu hphase
      obtain ⟨j, hj⟩ := List.getElem?_of_mem hu
      obtain ⟨t, ht, hgoes, hbefore | ⟨-, hticket, -⟩⟩ := hmove.origin hj hphase
      · exact hgoes.token.trans (hall t (List.mem_of_getElem? ht) hbefore)
      · omega
    · exact ⟨_, hlt, rfl, hall⟩

/-- A move in which nobody gets in line, and which leaves those in line what they hear. -/
theorem of_quiet (h : Enrolled l) (hsound : Sound capacity l) (hmove : Move l m)
    (hnext : m.pool.next = l.pool.next) (hnamed : ∀ e ∈ m.session.tokens, e.2 < m.network.tokens.length)
    (htokens : ∀ u ∈ m.tasks, ∀ k ∈ u.token, k < m.network.tokens.length)
    (hstays : ∀ w ∈ m.pool.waiting, w ∈ l.pool.waiting → ∀ k, l.network.reason? k = none →
      l.network.Hears k (.client w.ticket) →
        m.network.reason? k = none ∧ m.network.Hears k (.client w.ticket))
    (hclients : ∀ k x, m.network.Hears k x → l.network.Hears k x) : Enrolled m := by
  refine h.of_move hsound hmove hnamed htokens hstays ?_ fun k x hx => .inl (hclients k x hx)
  intro _ t _ _ _ _ _ hqueued
  exact absurd (hnext.symm.trans (request_some hqueued).2.1) (Nat.succ_ne_self _).symm

/-- A move that touches neither the network nor the line, but for some of those in it. -/
theorem of_same (h : Enrolled l) (hsound : Sound capacity l) (hmove : Move l m)
    (hnext : m.pool.next = l.pool.next) (hnetwork : m.network = l.network)
    (hnamed : m.session.tokens = l.session.tokens)
    (htokens : ∀ u ∈ m.tasks, ∃ t ∈ l.tasks, u.token = t.token) : Enrolled m := by
  refine h.of_quiet hsound hmove hnext ?_ ?_ ?_ ?_
  · rw [hnamed, hnetwork]
    exact h.named
  · intro u hu k hk
    obtain ⟨t, ht, heq⟩ := htokens u hu
    rw [hnetwork]
    exact h.tokens t ht k (heq ▸ hk)
  · rw [hnetwork]
    exact fun _ _ _ _ hquiet hhears => ⟨hquiet, hhears⟩
  · rw [hnetwork]
    exact fun _ _ => id

theorem mem_modify {f : Task α → Task α} (hf : ∀ t, (f t).token = t.token) {tasks : List (Task α)} {j : Nat} :
    ∀ u ∈ tasks.modify j f, ∃ t ∈ tasks, u.token = t.token := by
  intro u hu
  obtain ⟨n, hn⟩ := List.getElem?_of_mem hu
  rw [List.getElem?_modify] at hn
  obtain ⟨t, ht, rfl⟩ := Option.map_eq_some_iff.mp hn
  refine ⟨t, List.mem_of_getElem? ht, ?_⟩
  split
  · exact hf t
  · rfl

theorem of_resume (h : Enrolled l) (hsound : Sound capacity l) (ht : l.tasks[i]? = some t) :
    Enrolled (l.turn i t (l.session.resume i t)) := by
  have hmove := Move.resume l i t ht
  obtain ⟨phase, -, htasks⟩ := Session.resume_turn l.session ht
  have hcases : ∀ {j : Nat} {u : Task α}, (l.session.resume i t).tasks[j]? = some u →
      j = i ∧ u = { t with phase } ∨ j ≠ i ∧ l.tasks[j]? = some u :=
    fun hu => modify_cases ht (htasks ▸ hu)
  have hjoins : ∀ {j : Nat} {v u : Task α}, l.tasks[j]? = some v → v.phase = .fresh →
      (l.session.resume i t).tasks[j]? = some u → u.phase = .waiting l.pool.next → v = t := by
    intro j v u hv hfresh hu hphase
    rcases hcases hu with ⟨rfl, -⟩ | ⟨-, hsame⟩
    · exact Option.some.inj (hv.symm.trans ht)
    · obtain rfl := Option.some.inj (hv.symm.trans hsame)
      rw [hfresh] at hphase
      cases hphase
  have htokens : ∀ u ∈ (l.session.resume i t).tasks, ∀ k ∈ u.token, k < l.network.tokens.length := by
    intro u hu k hk
    obtain ⟨j, hj⟩ := List.getElem?_of_mem hu
    rcases hcases hj with ⟨-, rfl⟩ | ⟨-, hsame⟩
    · exact h.tokens t (List.mem_of_getElem? ht) k hk
    · exact h.tokens u (List.mem_of_getElem? hsame) k hk
  have hnamed : ∀ e ∈ (l.session.resume i t).tokens, e.2 < l.network.tokens.length := by
    rw [Session.tokens_resume]
    exact h.named
  cases l.session.rewires_resume i t with
  | not network free =>
    have hnetwork : (l.turn i t (l.session.resume i t)).network = l.network := network
    refine h.of_move hsound hmove (hnetwork ▸ hnamed) (hnetwork ▸ htokens) ?_ ?_ ?_ <;> rw [hnetwork]
    · exact fun _ _ _ _ hquiet hhears => ⟨hquiet, hhears⟩
    · intro j v u hv hfresh hu hphase hqueued k hk
      obtain rfl := hjoins hv hfresh hu hphase
      rw [free _ hfresh hqueued] at hk
      cases hk
    · exact fun _ _ hx => .inl hx
  | @joins token names quiet queued network =>
    have hnetwork : (l.turn i t (l.session.resume i t)).network =
        l.network.subscribe token (.client l.pool.next) := network
    have hlength : token < l.network.tokens.length := h.tokens t (List.mem_of_getElem? ht) token names
    refine h.of_move hsound hmove ?_ ?_ ?_ ?_ ?_ <;> rw [hnetwork]
    · rw [Network.length_subscribe]
      exact hnamed
    · rw [Network.length_subscribe]
      exact htokens
    · intro w _ _ k hquiet hhears
      rw [Network.reason?_subscribe, Network.hears_subscribe]
      exact ⟨hquiet, .inl hhears⟩
    · intro j v u hv hfresh hu hphase _ k hk
      obtain rfl := hjoins hv hfresh hu hphase
      obtain rfl : token = k := Option.some.inj (names.symm.trans hk)
      rw [Network.reason?_subscribe, Network.hears_subscribe]
      exact ⟨quiet, .inr ⟨⟨rfl, hlength⟩, rfl⟩⟩
    · intro k x hx
      rcases Network.hears_subscribe.mp hx with hx | ⟨⟨rfl, -⟩, rfl⟩
      · exact .inl hx
      · refine .inr ⟨rfl, Nat.lt_of_lt_of_eq (Nat.lt_succ_self _) (request_some queued).2.1.symm, ?_⟩
        intro u hu hphase
        obtain ⟨j, hj⟩ := List.getElem?_of_mem hu
        rcases hcases hj with ⟨-, rfl⟩ | ⟨-, hsame⟩
        · exact names
        · exact absurd (hsound.ticket_lt hsame hphase) (Nat.lt_irrefl _)
  | @leaves ticket token names waits settled network =>
    have hnetwork : (l.turn i t (l.session.resume i t)).network =
        l.network.unsubscribe token (.client ticket) := network
    have hlength : (l.network.unsubscribe token (.client ticket)).tokens.length = l.network.tokens.length :=
      Network.length_update ..
    refine h.of_move hsound hmove ?_ ?_ ?_ ?_ ?_ <;> rw [hnetwork]
    · rw [hlength]
      exact hnamed
    · rw [hlength]
      exact htokens
    · intro w _ hw k hquiet hhears
      have hne : w.ticket ≠ ticket := by
        rintro rfl
        obtain ⟨e, he, heq⟩ := List.mem_map.mp settled
        exact hsound.serves.1.not_settled_of_waiting hw e.2 (heq ▸ he)
      rw [Network.reason?_unsubscribe, Network.hears_unsubscribe_of_ne (by simpa using hne)]
      exact ⟨hquiet, hhears⟩
    · intro j v u hv hfresh hu hphase
      obtain rfl := hjoins hv hfresh hu hphase
      rw [waits] at hfresh
      cases hfresh
    · exact fun _ _ hx => .inl (hx.of_follows (.unsubscribe ..))

/-- Only clients hear a token, and they are those who wait with it. -/
theorem client_of_hears (h : Enrolled l) {token : Text} {x : Listener Nat}
    (hhears : (l.session.token token).1.admission.network.Hears (l.session.token token).2 x) :
    ∃ ticket, x = .client ticket ∧
      ∀ t ∈ l.tasks, t.phase = .waiting ticket → t.token = some (l.session.token token).2 := by
  obtain ⟨-, -, hsame, -⟩ := l.session.token_network token
  obtain ⟨ticket, -, rfl, hall⟩ := h.clients _ x ((hsame _ x).mp hhears)
  exact ⟨ticket, rfl, hall⟩

/-- Those who are told when a token is cancelled. -/
theorem told (h : Enrolled l) (token : Text) (reason : Reason) :
    ∀ e ∈ ((l.session.token token).1.admission.network.cancel (l.session.token token).2 reason).2,
      (l.session.token token).1.admission.network.Hears (l.session.token token).2 (.client e.1) ∧
        e.2 = reason := by
  refine Network.cancel_told ?_ reason
  intro s hs
  obtain ⟨ticket, heq, -⟩ := h.client_of_hears hs
  cases heq

/-- Whoever is told of a cancellation is refused, or let in when somebody is refused who is told too. -/
theorem told_settled (h : Enrolled l) {token : Text} {reason : Reason} {w : Waiter} (hw : w ∈ l.pool.waiting)
    (htold : (w.ticket, reason) ∈
      ((l.session.token token).1.admission.network.cancel (l.session.token token).2 reason).2) :
    (w.ticket, .refused (.ofReason reason)) ∈ (l.cancelled token reason).pool.settled ∨
      (w.ticket, .granted) ∈ (l.cancelled token reason).pool.settled ∧
        ∃ v ∈ l.pool.waiting, v.ticket ≠ w.ticket ∧
          l.network.Hears (l.session.token token).2 (.client v.ticket) ∧
          (v.ticket, .refused (.ofReason reason)) ∈ (l.cancelled token reason).pool.settled := by
  obtain ⟨-, -, hhears, -⟩ := l.session.token_network token
  have hbefore : (l.session.token token).1.admission.pool = l.pool := (l.session.token_eq token).1
  have hafter : (l.cancelled token reason).pool =
      ((l.session.token token).1.admission.cancel (l.session.token token).2 reason).pool :=
    congrArg Admission.pool (l.session.cancel_session token reason).1
  rw [hafter]
  refine (told_foldl_refuse _ (fun e he => (h.told token reason e he).2) (hbefore ▸ hw) htold).imp_right ?_
  rintro ⟨hgranted, v, hv, hne, hvtold, hrefused⟩
  exact ⟨hgranted, v, hbefore ▸ hv, hne, (hhears _ _).mp (h.told token reason _ hvtold).1, hrefused⟩

theorem of_cancel (h : Enrolled l) (hsound : Sound capacity l) (token : Text) (reason : Reason) :
    Enrolled (l.cancelled token reason) := by
  have hmove : Move l (l.cancelled token reason) := .cancel l token reason
  have hafter := (hsound.move hmove).serves.1
  obtain ⟨hlength, hreasons, hhears, hnamed⟩ := l.session.token_network token
  obtain ⟨hadmission, htokens, htasks⟩ := l.session.cancel_session token reason
  have htasks : (l.cancelled token reason).tasks = l.tasks := htasks
  have hnetwork : (l.cancelled token reason).network =
      ((l.session.token token).1.admission.network.cancel (l.session.token token).2 reason).1 :=
    congrArg Admission.network hadmission
  have hsize : (l.cancelled token reason).network.tokens.length =
      (l.session.token token).1.admission.network.tokens.length := by
    rw [hnetwork]
    exact Network.length_spread _ _
  refine h.of_quiet hsound hmove (l.session.cancel_eq token reason).1.next ?_ ?_ ?_ ?_
  · rw [hsize]
    exact fun e he => (hnamed h.named).1 e (htokens ▸ he)
  · rw [hsize]
    exact fun u hu k hk => Nat.lt_of_lt_of_le (h.tokens u (htasks ▸ hu) k hk) hlength
  · intro w hw hold k hquiet hclient
    rw [hnetwork]
    -- Whoever is told waits no more.
    refine (((l.session.token token).1.admission.network.spread_tells _).2 k w.ticket
      ((hreasons k).trans hquiet) ((hhears k _).mpr hclient)).resolve_left ?_
    rintro ⟨r, hr⟩
    obtain rfl : r = reason := (h.told token reason _ hr).2
    rcases h.told_settled hold hr with hrefused | ⟨hgranted, -⟩
    · exact hafter.not_settled_of_waiting hw _ hrefused
    · exact hafter.not_settled_of_waiting hw _ hgranted
  · intro k x hx
    rw [hnetwork] at hx
    exact (hhears k x).mp (hx.of_follows (.cancel ..))

theorem move (h : Enrolled l) (hsound : Sound capacity l) (hmove : Move l m) : Enrolled m := by
  cases hmove with
  | submit name count priority token errand positive =>
    have hmove := Move.submit l name count priority token errand positive
    cases token with
    | none =>
      refine h.of_quiet hsound hmove rfl h.named ?_ (fun _ _ _ _ hquiet hhears => ⟨hquiet, hhears⟩)
        fun _ _ => id
      intro u hu k hk
      rcases List.mem_append.mp hu with hu | hu
      · exact h.tokens u hu k hk
      · obtain rfl := List.mem_singleton.mp hu
        cases hk
    | some token =>
      obtain ⟨hlength, hreasons, hhears, hnamed⟩ := l.session.token_network token
      obtain ⟨hnamed, hlt⟩ := hnamed h.named
      obtain ⟨hpool, htasks⟩ := l.session.token_eq token
      have htasks : (l.session.token token).1.tasks = l.tasks := htasks
      refine h.of_quiet hsound hmove (congrArg Pool.next hpool) hnamed ?_ ?_ fun k x => (hhears k x).mp
      · intro u hu k hk
        rcases List.mem_append.mp hu with hu | hu
        · exact Nat.lt_of_lt_of_le (h.tokens u (htasks ▸ hu) k hk) hlength
        · obtain rfl := List.mem_singleton.mp hu
          obtain rfl := Option.some.inj hk
          exact hlt
      · intro w _ _ k hquiet hclient
        exact ⟨(hreasons k).trans hquiet, (hhears k _).mpr hclient⟩
  | resume i t known => exact h.of_resume hsound known
  | finish i t result known parked =>
    obtain ⟨hnetwork, hnamed⟩ := l.session.network_giveBack i t result
    obtain ⟨hpool, htasks⟩ := l.session.giveBack_eq i t result
    refine h.of_same hsound (.finish l i t result known parked) ?_ hnetwork hnamed ?_
    · exact (congrArg Pool.next hpool).trans (next_release _ _)
    · change ∀ u ∈ (l.session.giveBack i t result).tasks, _
      rw [htasks]
      exact mem_modify (f := fun u => { u with phase := .over }) fun _ => rfl
  | release i t known keeps granted kept =>
    have hmove := Move.release l i t known keeps granted kept
    obtain ⟨ready, hready⟩ :=
      Session.enqueueSettled_ready { l.session with admission := (l.session.admission.release t.count).1 }
    have hafter : (l.session.perform (.release t.count)).1 =
        { l.session with admission := (l.session.admission.release t.count).1, ready } := hready
    refine h.of_same hsound hmove ?_ ?_ ?_ ?_
    · exact (congrArg (·.pool.next) hafter).trans (next_release _ _)
    · exact congrArg (·.admission.network) hafter
    · exact congrArg (·.tokens) hafter
    · intro u hu
      exact ⟨u, by simpa [Ledger.log, Ledger.tasks, hafter] using hu, rfl⟩
  | interrupt i t known =>
    obtain ⟨hnetwork, hnamed⟩ := l.session.network_interrupt i t
    obtain ⟨hsettles, htasks⟩ := l.session.interrupt_eq i t
    refine h.of_same hsound (.interrupt l i t known) hsettles.next hnetwork hnamed ?_
    change ∀ u ∈ (l.session.interrupt i t).tasks, _
    rw [htasks]
    exact mem_modify (f := fun u => { u with interrupted := true }) fun _ => rfl
  | cancel token reason => exact h.of_cancel hsound token reason
  | schedule ready opened events =>
    exact h.of_same hsound (.schedule l ready opened events) rfl rfl rfl fun u hu => ⟨u, hu, rfl⟩

theorem moves (h : Enrolled l) (hsound : Sound capacity l) (hmoves : Moves l m) : Enrolled m := by
  induction hmoves with
  | refl => exact h
  | cons hmove _ ih => exact ih (h.move hsound hmove) (hsound.move hmove)

theorem opening {s : Session α} (hs : Session.start capacity = .ok s) : Enrolled (opening s) := by
  unfold Session.start create at hs
  split at hs
  · cases hs
  · obtain rfl := Except.ok.inj hs
    exact ⟨nofun, nofun, nofun, fun k x hx => absurd hx.lt (Nat.not_lt_zero k)⟩

end Enrolled

/-- The task is in line with the token. -/
def InLine (l : Ledger α) (i token : Nat) : Prop :=
  ∃ t, l.tasks[i]? = some t ∧ t.token = some token ∧ ∃ w ∈ l.pool.waiting, t.phase = .waiting w.ticket

/-- What became of the ticket of the task is on record, and the task has not gone on yet. -/
def Settled (l : Ledger α) (i : Nat) (s : Settlement) : Prop :=
  ∃ t ticket, l.tasks[i]? = some t ∧ t.phase = .waiting ticket ∧ (ticket, s) ∈ l.pool.settled

/-- The call of a task is called off: it never gets permits, and it fails with the fault, unless the task
is told to end before it goes on. -/
structure Fails (l : Ledger α) (i : Nat) (f : Fault) : Prop where
  never : ∀ m, Moves l m → i ∉ m.granted
  raises : ∀ m, Moves l m → ∃ t, m.tasks[i]? = some t ∧ (t.Answered ∨ (m.session.resume i t).events =
    m.session.events ++ [.ended t.name (.error (if t.interrupted then .interrupted else f))])

theorem Settled.answer {s r : Settlement} (h : l.Settled i s) (hsound : Sound capacity l)
    (ht : l.tasks[i]? = some t) {ticket : Nat} (hphase : t.phase = .waiting ticket)
    (hr : (ticket, r) ∈ l.pool.settled) : r = s := by
  obtain ⟨u, other, hu, hwaits, hs⟩ := h
  obtain rfl : u = t := Option.some.inj (hu.symm.trans ht)
  obtain rfl : other = ticket := Phase.waiting.inj (hwaits.symm.trans hphase)
  exact congrArg Prod.snd (List.inj_on_of_nodup_map hsound.serves.1.nodup_settled hr hs rfl)

/-- What became of a ticket stays on record until the task goes on. -/
theorem Settled.stays {s : Settlement} (h : l.Settled i s) (hsound : Sound capacity l) (hmove : Move l m) :
    m.Settled i s ∨ ∃ u, m.tasks[i]? = some u ∧ u.Answered := by
  obtain ⟨t, ticket, ht, hphase, hs⟩ := id h
  obtain ⟨u, hu, hgoes⟩ := hmove.goesOn ht
  rcases hgoes.waiting hphase with hwaits | hanswered
  · refine .inl ⟨u, ticket, hu, hwaits, ?_⟩
    have hnot : ∀ w ∈ l.pool.waiting, w.ticket ≠ ticket := fun w hw heq =>
      hsound.serves.1.not_settled_of_waiting hw _ (heq ▸ hs)
    have hticket : ticket ∈ m.pool.settled.map (·.1) := by
      refine (List.mem_append.mp ((hsound.move hmove).mem_tickets hu hwaits)).resolve_left ?_
      intro hline
      obtain ⟨w, hw, heq⟩ := List.mem_map.mp hline
      have hlater := hsound.ticket_lt ht hphase
      rcases hmove.shifts.line hw with hw | hw
      · exact hnot w hw heq
      · omega
    obtain ⟨⟨n, r⟩, he, rfl⟩ := List.mem_map.mp hticket
    have hold : (n, r) ∈ l.pool.settled := by
      rcases hmove.shifts with ⟨before, hwaiting, -, hsub, hsettles, -⟩ | ⟨_, _, _, hqueued, -⟩
      · rcases hsettles.mem_settled he with he | ⟨w, hw, heq⟩
        · exact hsub he
        · exact absurd heq (hnot w (hwaiting ▸ hw))
      · exact (request_some hqueued).2.2 ▸ he
    exact h.answer hsound ht hphase hold ▸ he
  · exact .inr ⟨u, hu, hanswered⟩

/-- A call that is called off, or that has failed. -/
def Lost (l : Ledger α) (i : Nat) (f : Fault) : Prop :=
  i ∉ l.granted ∧ (l.Settled i (.refused f) ∨ ∃ t, l.tasks[i]? = some t ∧ t.Answered)

theorem Lost.of_settled {f : Fault} (h : l.Settled i (.refused f)) (hsound : Sound capacity l) : l.Lost i f := by
  obtain ⟨t, ticket, ht, hphase, -⟩ := id h
  exact ⟨fun hi => hsound.notes.unanswered i t ht (.inr ⟨ticket, hphase⟩) (List.mem_append_left _ hi), .inl h⟩

theorem Lost.move {f : Fault} (h : l.Lost i f) (hkept : Kept capacity l) (hmove : Move l m) : m.Lost i f := by
  obtain ⟨hnever, hlost⟩ := h
  refine ⟨fun hi => ?_, ?_⟩
  · obtain ⟨t, ht, ⟨hphase, -⟩ | ⟨ticket, hphase, hgranted, -⟩⟩ := hmove.earned hkept.completed i hi hnever
    · rcases hlost with ⟨u, ticket, hu, hwaits, -⟩ | ⟨u, hu, hanswered⟩ <;>
        obtain rfl : u = t := Option.some.inj (hu.symm.trans ht)
      · rw [hphase] at hwaits
        cases hwaits
      · rcases hanswered with heq | heq <;> rw [hphase] at heq <;> cases heq
    · rcases hlost with hsettled | ⟨u, hu, hanswered⟩
      · cases hsettled.answer hkept.sound ht hphase hgranted
      · obtain rfl : u = t := Option.some.inj (hu.symm.trans ht)
        rcases hanswered with heq | heq <;> rw [hphase] at heq <;> cases heq
  · rcases hlost with hsettled | ⟨t, ht, hanswered⟩
    · exact hsettled.stays hkept.sound hmove
    · obtain ⟨u, hu, hgoes⟩ := hmove.goesOn ht
      exact .inr ⟨u, hu, hgoes.answered hanswered⟩

theorem Lost.moves {s : Session α} (hs : Session.start capacity = .ok s) (hbefore : Moves (Ledger.opening s) l)
    {f : Fault} (h : l.Lost i f) (hmoves : Moves l m) : m.Lost i f := by
  induction hmoves with
  | refl => exact h
  | cons hmove _ ih => exact ih (hbefore.tail hmove) (h.move (kept_of_moves hs hbefore) hmove)

/-- A task whose ticket was refused raises the fault in its next turn. -/
theorem Settled.raises {f : Fault} (h : l.Settled i (.refused f)) (hsound : Sound capacity l)
    (ht : l.tasks[i]? = some t) : (l.session.resume i t).events =
      l.session.events ++ [.ended t.name (.error (if t.interrupted then .interrupted else f))] := by
  obtain ⟨u, ticket, hu, hphase, hrefused⟩ := h
  obtain rfl : u = t := Option.some.inj (hu.symm.trans ht)
  have hlookup := hsound.serves.1.lookup_settled hrefused
  have hcollect : l.session.admission.pool.collect? ticket u.count u.interrupted =
      some ((l.pool.without ticket).wake, some (if u.interrupted then .interrupted else f)) := by
    unfold collect?
    rw [show l.session.admission.pool.settled.lookup ticket = _ from hlookup]
    rfl
  simp only [Session.resume, hphase, Admission.collect?, hcollect, Option.map_some]
  rfl

theorem Fails.of_settled {s : Session α} (hs : Session.start capacity = .ok s) (h : Moves (Ledger.opening s) l)
    {f : Fault} (hi : l.Settled i (.refused f)) : l.Fails i f := by
  have hlost : ∀ m, Moves l m → m.Lost i f := fun m hmoves =>
    Lost.moves hs h (.of_settled hi (kept_of_moves hs h).sound) hmoves
  refine ⟨fun m hmoves => (hlost m hmoves).1, fun m hmoves => ?_⟩
  rcases (hlost m hmoves).2 with hsettled | ⟨t, ht, hanswered⟩
  · obtain ⟨t, -, ht, -⟩ := id hsettled
    exact ⟨t, ht, .inr (hsettled.raises (kept_of_moves hs (h.trans hmoves)).sound ht)⟩
  · exact ⟨t, ht, .inl hanswered⟩

/-- If a token is cancelled, the calls of all tasks that are in line with it fail, but for those that are let
in when another one of them is refused. -/
theorem refused_of_cancel {s : Session α} (hs : Session.start capacity = .ok s) (h : Moves (opening s) l)
    (token : Text) (reason : Reason) (hi : l.InLine i (l.session.token token).2) :
    (l.cancelled token reason).Fails i (.ofReason reason) ∨
      (l.cancelled token reason).Settled i .granted ∧ ∃ j, j ≠ i ∧ l.InLine j (l.session.token token).2 ∧
        (l.cancelled token reason).Fails j (.ofReason reason) := by
  have hmove : Move l (l.cancelled token reason) := .cancel l token reason
  have hsound := (kept_of_moves hs h).sound
  have henrolled := (Enrolled.opening hs).moves (.opening hs) h
  have hfails : ∀ {j : Nat}, (l.cancelled token reason).Settled j (.refused (.ofReason reason)) →
      (l.cancelled token reason).Fails j (.ofReason reason) := fun hj => .of_settled hs (h.tail hmove) hj
  have hsettled : ∀ {j : Nat} {u : Task α} {ticket : Nat} {r : Settlement}, l.tasks[j]? = some u →
      u.phase = .waiting ticket → (ticket, r) ∈ (l.cancelled token reason).pool.settled →
      (l.cancelled token reason).Settled j r := by
    intro j u ticket r hu hphase hr
    refine ⟨u, ticket, ?_, hphase, hr⟩
    change (l.session.perform (.cancel token reason)).1.tasks[j]? = some u
    rw [(l.session.cancel_eq token reason).2]
    exact hu
  obtain ⟨t, ht, htoken, w, hw, hphase⟩ := hi
  obtain ⟨hquiet, hhears⟩ := henrolled.hears w hw t (List.mem_of_getElem? ht) hphase _ htoken
  obtain ⟨-, hreasons, hsame, -⟩ := l.session.token_network token
  have htold : (w.ticket, reason) ∈
      ((l.session.token token).1.admission.network.cancel (l.session.token token).2 reason).2 := by
    refine Network.cancel_tells ?_ ((hreasons _).trans hquiet) ((hsame _ _).mpr hhears) reason
    intro u hu
    obtain ⟨_, heq, -⟩ := henrolled.client_of_hears hu
    cases heq
  rcases henrolled.told_settled hw htold with hrefused | ⟨hgranted, v, hv, hne, hears, hrefused⟩
  · exact .inl (hfails (hsettled ht hphase hrefused))
  · obtain ⟨j, u, hu, hwaits⟩ := hsound.exists_task hv
    refine .inr ⟨hsettled ht hphase hgranted, j, ?_, ?_, hfails (hsettled hu hwaits hrefused)⟩
    · rintro rfl
      obtain rfl : u = t := Option.some.inj (hu.symm.trans ht)
      exact hne (Phase.waiting.inj (hwaits.symm.trans hphase))
    · obtain ⟨ticket, heq, hall⟩ := henrolled.client_of_hears ((hsame _ _).mpr hears)
      cases heq
      exact ⟨u, hu, hall u (List.mem_of_getElem? hu) hwaits, v, hv, hwaits⟩

/-- Two tasks wait with a token that is cancelled. The refusal of the first one lets in the second one. -/
theorem refused_of_first : ∃ (s : Session Unit) (l : Ledger Unit),
    Session.start 2 = .ok s ∧ Moves (opening s) l ∧ l.InLine 2 (l.session.token ['t']).2 ∧
      (l.cancelled ['t'] .none).pool.settled = [(0, .refused .cancelled), (1, .granted)] ∧
      ((l.cancelled ['t'] .none).Fails 2 .cancelled ∨
        (l.cancelled ['t'] .none).Settled 2 .granted ∧ ∃ j, j ≠ 2 ∧ l.InLine j (l.session.token ['t']).2 ∧
          (l.cancelled ['t'] .none).Fails j .cancelled) := by
  let start : Session Unit := ⟨⟨⟨2, 0, [], [], 0⟩, .empty⟩, [], [], [], [], []⟩
  have hstart : Session.start 2 = .ok start := rfl
  have hmoves := Moves.cons (.submit (opening start) ['a'] 1 .root none .keep (by decide)) <|
    .cons (.submit _ ['b'] 2 .root (some ['t']) .keep (by decide)) <|
    .cons (.submit _ ['c'] 1 [1] (some ['t']) .keep (by decide)) <|
    .cons (.resume _ 0 _ rfl) <| .cons (.resume _ 1 _ rfl) <| .cons (.resume _ 2 _ rfl) <| .refl _
  refine ⟨start, _, hstart, hmoves, ?line, by cbv, refused_of_cancel hstart hmoves ['t'] .none ?line⟩
  case line => exact ⟨_, rfl, rfl, ⟨1, [1], 1⟩, List.mem_cons_of_mem _ List.mem_cons_self, rfl⟩

end Ledger

end Pool

end TreeCensus
