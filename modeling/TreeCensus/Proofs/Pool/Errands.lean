import TreeCensus.Proofs.Cancellation.Tidiness
import TreeCensus.Proofs.Pool.Runs

/-!
# Errands that are called off

A task may run an errand with a token that calls it off. The token may be cancelled before the task asks for
permits, while it waits, after its ticket was granted, or together with the tokens of others whose refusal lets
the task in. In each of these cases the errand does not start, the task ends with the cancellation, or with the
interruption if it was told to end, and its permits are given back. Once the errand has started, the token makes
no difference to it.
-/

open Filter (atTop)

namespace TreeCensus.Pool

set_option autoImplicit false

open Cancellation (Network)

variable {α : Type}

namespace Ledger

variable {l m : Ledger α} {capacity : Int} {i j : Nat} {t u : Task α} {result : Except Fault α}

/-- What happens to a network in time: it stays tidy, and what is cancelled stays so for its reason. -/
structure Ages (net net' : Network Nat) : Prop where
  tidy : net.Tidy → net'.Tidy
  reason? : ∀ k r, net.reason? k = some r → net'.reason? k = some r

theorem Ages.of_eq {net net' : Network Nat} (h : net' = net) : Ages net net' := h ▸ ⟨id, fun _ _ => id⟩

theorem Ages.token (s : Session α) (name : Text) :
    Ages s.admission.network (s.token name).1.admission.network := by
  refine ⟨fun h => ?_, fun k r hr => ((s.token_network name).2.1 k).trans hr⟩
  unfold Session.token
  split
  · exact h
  · exact h.append_fresh

theorem Ages.cancel (net : Network Nat) (k : Nat) (r : Reason) : Ages net (net.cancel k r).1 := by
  refine ⟨fun h => h.cancel k r, fun j q hq => (Network.reason?_spread_of_ne_none _ ?_).trans hq⟩
  rw [hq]
  nofun

theorem Ages.rewires {s after : Session α} (h : Session.Rewires s t after) :
    Ages s.admission.network after.admission.network := by
  cases h with
  | not network _ => exact .of_eq network
  | joins _ quiet _ network =>
    rw [network]
    exact ⟨fun h => h.subscribe quiet _, fun k r hr => (Network.reason?_subscribe ..).trans hr⟩
  | leaves _ _ _ network =>
    rw [network]
    exact ⟨fun h => h.thins (.unsubscribe ..), fun k r hr => (Network.reason?_unsubscribe ..).trans hr⟩

theorem Move.ages (h : Move l m) : Ages l.network m.network := by
  cases h with
  | submit name count priority token errand _ =>
    cases token with
    | none => exact .of_eq rfl
    | some token => exact .token l.session token
  | resume i t => exact .rewires (l.session.rewires_resume i t)
  | finish i t outcome => exact .of_eq (l.session.network_giveBack i t outcome).1
  | release i t =>
    obtain ⟨ready, hready⟩ :=
      Session.enqueueSettled_ready { l.session with admission := (l.session.admission.release t.count).1 }
    exact .of_eq (congrArg (·.admission.network) hready)
  | interrupt i t => exact .of_eq (l.session.network_interrupt i t).1
  | cancel token reason =>
    have hnetwork := congrArg Admission.network (l.session.cancel_session token reason).1
    have htoken := Ages.token l.session token
    have hcancel := Ages.cancel (l.session.token token).1.admission.network (l.session.token token).2 reason
    change Ages l.session.admission.network _
    rw [show (l.log l.pool (l.session.perform (.cancel token reason)).1).network = _ from hnetwork]
    exact ⟨fun h => hcancel.tidy (htoken.tidy h), fun k r hr => hcancel.reason? k r (htoken.reason? k r hr)⟩
  | schedule => exact .of_eq rfl

/-- What can have become of a ticket in a move. -/
inductive Fate (l m : Ledger α) : Nat × Settlement → Prop
  | old {e : Nat × Settlement} (before : e ∈ l.pool.settled) : Fate l m e
  | granted (ticket : Nat) : Fate l m (ticket, .granted)
  | refused {ticket k : Nat} {r : Reason} (hears : l.network.Hears k (.client ticket))
      (cancelled : m.network.reason? k = some r) : Fate l m (ticket, .refused (.ofReason r))
  | abandoned {ticket i : Nat} {t : Task α} (known : l.tasks[i]? = some t) (waits : t.phase = .waiting ticket)
      (told : m.tasks = l.tasks.modify i fun u => { u with interrupted := true }) :
      Fate l m (ticket, .abandoned)

theorem Fate.of_granted {e : Nat × Settlement} (h : e ∈ l.pool.settled ∨ e.2 = .granted) : Fate l m e := by
  rcases h with h | h
  · exact .old h
  · obtain ⟨ticket, settlement⟩ := e
    obtain rfl : settlement = .granted := h
    exact .granted ticket

theorem Move.fate (h : Move l m) (henrolled : Enrolled l) (htidy : l.network.Tidy) {e : Nat × Settlement}
    (he : e ∈ m.pool.settled) : Fate l m e := by
  cases h with
  | submit name count priority token errand _ =>
    cases token with
    | none => exact .old he
    | some token =>
      refine .old ?_
      change e ∈ (l.session.token token).1.pool.settled at he
      rwa [(Session.token_eq l.session token).1] at he
  | resume i t known =>
    obtain ⟨phase, hturn, -⟩ := Session.resume_turn l.session known
    exact .of_granted (hturn.mem_settled he)
  | finish i t outcome =>
    change e ∈ (l.session.giveBack i t outcome).pool.settled at he
    rw [(l.session.giveBack_eq i t outcome).1] at he
    exact .of_granted (mem_settled_release he)
  | release i t =>
    change e ∈ (l.session.perform (.release t.count)).1.pool.settled at he
    rw [show (l.session.perform (.release t.count)).1.pool = (l.pool.release t.count).1 from
      (Session.enqueueSettled_eq _).1] at he
    exact .of_granted (mem_settled_release he)
  | interrupt i t known =>
    have htold := (l.session.interrupt_eq i t).2
    change e ∈ (l.session.interrupt i t).pool.settled at he
    unfold Session.interrupt at he
    dsimp only at he
    split at he
    · next ticket hphase =>
      rcases mem_settled_settle he with he | rfl
      · exact .old he
      · exact .abandoned known hphase htold
    · rw [Session.pool_enqueue] at he
      exact .old he
    · exact .old he
    · exact .old he
  | cancel token reason =>
    obtain ⟨hadmission, -, -⟩ := l.session.cancel_session token reason
    obtain ⟨-, hreasons, hhears, hnamed⟩ := l.session.token_network token
    have hpool : (l.session.token token).1.admission.pool = l.pool := (l.session.token_eq token).1
    change e ∈ (l.session.perform (.cancel token reason)).1.admission.pool.settled at he
    rw [hadmission] at he
    rcases Admission.mem_settled_cancel he with he | hgranted | ⟨⟨ticket, r⟩, htold, rfl⟩
    · exact .old (hpool ▸ he)
    · exact .of_granted (.inr hgranted)
    · obtain ⟨hears, rfl⟩ := henrolled.told token reason _ htold
      have hears := (hhears _ _).mp hears
      refine .refused hears ?_
      have hquiet : l.network.reason? (l.session.token token).2 = none := by
        by_contra hne
        obtain ⟨sub, hsub, -⟩ := hears
        cases htidy.spent _ hne ▸ hsub
      change (l.session.perform (.cancel token r)).1.admission.network.reason? _ = some r
      rw [hadmission]
      exact Network.reason?_cancel_first (hnamed henrolled.named).2 ((hreasons _).trans hquiet) r
  | schedule => exact .old he

/-- No two tasks wait with the same ticket. -/
theorem Sound.ticket_inj (h : Sound capacity l) (ht : l.tasks[i]? = some t) (hu : l.tasks[j]? = some u)
    {ticket : Nat} (hphase : t.phase = .waiting ticket) (hsame : u.phase = .waiting ticket) : i = j := by
  by_contra hne
  obtain ⟨before, after, hsplit, -, -⟩ := zipIdx_split ht
  have hrest : (u, j) ∈ before ++ after := by
    have hmem : (u, j) ∈ l.tasks.zipIdx := List.mem_zipIdx_iff_getElem?.mpr hu
    rw [hsplit] at hmem
    rcases List.mem_append.mp hmem with hmem | hmem
    · exact List.mem_append_left _ hmem
    · rcases List.mem_cons.mp hmem with heq | hmem
      · exact absurd (congrArg Prod.snd heq).symm hne
      · exact List.mem_append_right _ hmem
  have hperm : l.stakes.Perm (l.stake i t :: (before ++ after).map fun e => l.stake e.2 e.1) := by
    unfold stakes
    rw [hsplit]
    exact List.perm_middle.map _
  have hclaims : ∀ {k : Nat} {v : Task α}, v.phase = .waiting ticket →
      (l.stake k v).claims = [(ticket, v.count)] := by
    intro k v hv
    rw [stake, hv]
    rfl
  have hnodup := ((hperm.flatMap_right fun s : Stake => s.claims).map (·.1)).nodup_iff.mp h.serves.1.nodup
  rw [List.flatMap_cons, hclaims hphase] at hnodup
  refine (List.nodup_cons.mp hnodup).1 (List.mem_map.mpr ⟨(ticket, u.count), ?_, rfl⟩)
  exact List.mem_flatMap.mpr ⟨_, List.mem_map_of_mem hrest, hclaims hsame ▸ List.mem_singleton.mpr rfl⟩

/-- A task that has just come has done nothing. -/
theorem Move.comes (h : Move l m) (hnone : l.tasks[i]? = none) :
    l.news m i = [] ∧ ∀ u, m.tasks[i]? = some u → u.phase = .fresh := by
  refine ⟨?_, fun u hu => (h.known hu).resolve_right fun hlt => ?_⟩
  · have hmodify : ∀ {j : Nat} {f : Task α → Task α}, m.tasks = l.tasks.modify j f → l.news m i = [] := by
      intro j f htasks
      refine if_pos ?_
      rw [htasks, List.getElem?_modify, hnone]
      rfl
    cases h.retasks with
    | come t _ _ silent => exact news_eq (silent.trans (List.append_nil _).symm) fun _ => rfl
    | resume j v known turn =>
      obtain ⟨phase, -, htasks⟩ := Session.resume_turn l.session known
      exact hmodify ((tasks_turn turn).trans htasks)
    | finish j v outcome _ _ turn => exact hmodify ((tasks_turn turn).trans (Session.giveBack_eq ..).2)
    | told j tasks => exact hmodify tasks
    | same tasks => exact if_pos (by rw [tasks])
  · exact absurd hlt (Nat.not_lt.mpr (List.getElem?_eq_none_iff.mp hnone))

theorem Proceeds.of_over {es : List (Event α)} (h : Proceeds l m i t u result es) (hover : t.phase = .over) :
    u.phase = .over ∧ es = [] := by
  cases h with
  | rests same => exact ⟨same.trans hover, rfl⟩
  | turn _ progress => exact progress.of_over hover
  | finish parked => cases hover.symm.trans parked

/-- Nobody hears a cancelled token. Who was refused waits with a token that was cancelled for the reason it
will be given, and whose ticket was abandoned has been told to end. -/
structure Warranted (l : Ledger α) : Prop where
  tidy : l.network.Tidy
  refused : ∀ t ∈ l.tasks, ∀ ticket f, t.phase = .waiting ticket → (ticket, .refused f) ∈ l.pool.settled →
    ∃ k r, t.token = some k ∧ l.network.reason? k = some r ∧ f = .ofReason r
  abandoned : ∀ t ∈ l.tasks, ∀ ticket, t.phase = .waiting ticket → (ticket, .abandoned) ∈ l.pool.settled →
    t.interrupted = true

theorem Warranted.move (h : Warranted l) (hsound : Sound capacity l) (henrolled : Enrolled l)
    (hmove : Move l m) : Warranted m := by
  -- Who waits with a ticket that is on record waited with it before.
  have horigin : ∀ u ∈ m.tasks, ∀ ticket s, u.phase = .waiting ticket → (ticket, s) ∈ m.pool.settled →
      ∃ (j : Nat) (t : Task α), l.tasks[j]? = some t ∧ m.tasks[j]? = some u ∧ Stays t u ∧
        t.phase = .waiting ticket := by
    intro u hu ticket s hphase hs
    obtain ⟨j, hj⟩ := List.getElem?_of_mem hu
    obtain ⟨t, ht, -, hbefore | ⟨-, rfl, hqueued⟩⟩ := hmove.origin hj hphase
    · obtain ⟨v, hv, hstays⟩ := hmove.stays ht
      obtain rfl : v = u := Option.some.inj (hv.symm.trans hj)
      exact ⟨j, t, ht, hj, hstays, hbefore⟩
    · have hold : l.pool.next ∈ l.pool.tickets :=
        List.mem_append_right _ (List.mem_map_of_mem (f := (·.1)) ((request_some hqueued).2.2 ▸ hs))
      exact absurd (hsound.serves.1.ticket_lt_next hold) (Nat.lt_irrefl _)
  refine ⟨hmove.ages.tidy h.tidy, ?_, ?_⟩
  · intro u hu ticket f hphase hs
    obtain ⟨j, t, ht, -, hstays, hbefore⟩ := horigin u hu ticket _ hphase hs
    have hmem := List.mem_of_getElem? ht
    rw [hstays.token]
    cases hmove.fate henrolled h.tidy hs with
    | old before =>
      obtain ⟨k, r, hk, hr, hf⟩ := h.refused t hmem ticket f hbefore before
      exact ⟨k, r, hk, hmove.ages.reason? k r hr, hf⟩
    | refused hears cancelled =>
      obtain ⟨_, -, heq, hall⟩ := henrolled.clients _ _ hears
      cases heq
      exact ⟨_, _, hall t hmem hbefore, cancelled, rfl⟩
  · intro u hu ticket hphase hs
    obtain ⟨j, t, ht, hj, hstays, hbefore⟩ := horigin u hu ticket _ hphase hs
    cases hmove.fate henrolled h.tidy hs with
    | old before => exact hstays.told (h.abandoned t (List.mem_of_getElem? ht) ticket hbefore before)
    | abandoned known waits told =>
      obtain rfl := hsound.ticket_inj known ht waits hbefore
      rw [told, List.getElem?_modify_eq, ht] at hj
      exact Option.some.inj hj ▸ rfl

theorem Warranted.moves (h : Warranted l) (hsound : Sound capacity l) (henrolled : Enrolled l)
    (hmoves : Moves l m) : Warranted m := by
  induction hmoves with
  | refl => exact h
  | cons hmove _ ih =>
    exact ih (h.move hsound henrolled hmove) (hsound.move hmove) (henrolled.move hsound hmove)

theorem Warranted.opening {s : Session α} (hs : Session.start capacity = .ok s) : Warranted (opening s) := by
  unfold Session.start create at hs
  split at hs
  · cases hs
  · obtain rfl := Except.ok.inj hs
    exact ⟨.empty, nofun, nofun⟩

/-- How an errand that has started comes to its end in a move, and with what. -/
inductive Yields (l m : Ledger α) (i : Nat) (t : Task α) (result : Except Fault α) : Except Fault α → Prop
  | result (turn : m = l.turn i t (l.session.resume i t))
      (free : t.phase = .gate → t.interrupted = false) : Yields l m i t result result
  | interrupted (turn : m = l.turn i t (l.session.resume i t)) (parked : t.phase = .gate)
      (told : t.interrupted = true) : Yields l m i t result (.error .interrupted)
  /-- The errand fails behind its gate, or it comes to something else there. -/
  | finished {outcome : Except Fault α} (parked : t.phase = .gate)
      (turn : m = l.turn i t (l.session.giveBack i t outcome)) : Yields l m i t result outcome

/-- What is reported of an errand that ends behind its gate. -/
theorem Yields.news_eq {outcome : Except Fault α} (h : Yields l m i t result outcome) (hsound : Sound capacity l)
    (hruns : l.Runs i t result) (hgate : t.phase = .gate) : l.news m i = [.ended t.name outcome] := by
  obtain ⟨ht, gated, herrand⟩ := hruns
  have hparked := l.session.resume_parked i hgate herrand
  refine news_finish hsound ht hgate ?_
  cases h with
  | result turn free =>
    rw [free hgate] at hparked
    exact hparked ▸ turn
  | interrupted turn _ told =>
    rw [told] at hparked
    exact hparked ▸ turn
  | finished _ turn => exact turn

end Ledger

open Ledger

namespace Course

variable {s : Session α} {c : Course s} {capacity : Int} {i n : Nat} {t u : Task α} {result : Except Fault α}

/-- What has been reported of a task by the time `n`. -/
def reports (c : Course s) (i : Nat) : Nat → List (Event α)
  | 0 => []
  | n + 1 => c.reports i n ++ (c.ledger n).news (c.ledger (n + 1)) i

/-- By the time `n` the errand of a task has come to its own end, with `outcome`. -/
def Own (c : Course s) (n i : Nat) (result outcome : Except Fault α) : Prop :=
  ∃ k < n, ∃ t u, (c.ledger k).tasks[i]? = some t ∧ t.phase ≠ .over ∧
    (c.ledger (k + 1)).tasks[i]? = some u ∧ u.phase = .over ∧
    (c.ledger k).Yields (c.ledger (k + 1)) i t result outcome

theorem Own.succ {outcome : Except Fault α} (h : c.Own n i result outcome) : c.Own (n + 1) i result outcome := by
  obtain ⟨k, hk, hrest⟩ := h
  exact ⟨k, Nat.lt_succ_of_lt hk, hrest⟩

/-- All that can have been reported of a run by the time `n`, and why. -/
inductive Story (c : Course s) (n i : Nat) (t : Task α) (result : Except Fault α) : List (Event α) → Prop
  | before (unanswered : ¬ t.Answered) : Story c n i t result []
  | underway (parked : t.phase = .gate) : Story c n i t result [.started t.name]
  | served {outcome : Except Fault α} (ended : t.phase = .over) (own : c.Own n i result outcome) :
      Story c n i t result [.started t.name, .ended t.name outcome]
  | dropped (ended : t.phase = .over) (told : t.interrupted = true) : Story c n i t result []
  | interrupted (ended : t.phase = .over) (told : t.interrupted = true) :
      Story c n i t result [.ended t.name (.error .interrupted)]
  | calledOff {k : Nat} {r : Reason} (ended : t.phase = .over) (names : t.token = some k)
      (cancelled : (c.ledger n).network.reason? k = some r) :
      Story c n i t result [.ended t.name (.error (.ofReason r))]
  | tooLarge (ended : t.phase = .over) (more : (c.ledger n).pool.capacity < t.count) :
      Story c n i t result [.ended t.name (.error (.tooLargeRequest t.count (c.ledger n).pool.capacity))]

/-- What is reported of a run that is over stays as it is. -/
theorem Story.stays {es : List (Event α)} (h : c.Story n i t result es) (hover : t.phase = .over)
    (hstays : Stays t u) (hended : u.phase = .over)
    (hsize : (c.ledger (n + 1)).pool.capacity = (c.ledger n).pool.capacity) :
    c.Story (n + 1) i u result es := by
  cases h with
  | before unanswered => exact absurd (.inr hover) unanswered
  | underway parked => cases hover.symm.trans parked
  | served _ own => exact hstays.name ▸ .served hended own.succ
  | dropped _ told => exact .dropped hended (hstays.told told)
  | interrupted _ told => exact hstays.name ▸ .interrupted hended (hstays.told told)
  | calledOff _ names cancelled =>
    exact hstays.name ▸ .calledOff hended (hstays.token.trans names) ((c.goes n).ages.reason? _ _ cancelled)
  | tooLarge _ more =>
    rw [← hstays.name, ← hstays.count, ← hsize]
    refine .tooLarge hended ?_
    rwa [hsize, hstays.count]

/-- What a run that has not started comes to in a move. -/
theorem Story.opens {es : List (Event α)} (hproceeds : Proceeds (c.ledger n) (c.ledger (n + 1)) i t u result es)
    (hwarranted : Warranted (c.ledger n)) (ht : (c.ledger n).tasks[i]? = some t)
    (hu : (c.ledger (n + 1)).tasks[i]? = some u) (hunanswered : ¬ t.Answered) (hstays : Stays t u)
    (hsize : (c.ledger (n + 1)).pool.capacity = (c.ledger n).pool.capacity) :
    c.Story (n + 1) i u result es := by
  have hmem := List.mem_of_getElem? ht
  have hage := (c.goes n).ages
  cases hproceeds with
  | rests same => exact .before (by rwa [Task.Answered, same])
  | finish parked => exact absurd (.inl parked) hunanswered
  | turn turn progress =>
    generalize hphase : u.phase = phase at progress
    cases progress with
    | idle => exact .before (by rwa [Task.Answered, hphase])
    | drop _ told => exact .dropped hphase (hstays.told told)
    | queue => exact .before (by simp [Task.Answered, hphase])
    | fail _ why =>
      rw [← hstays.name]
      cases why with
      | large more =>
        rw [← hstays.count]
        refine hsize ▸ Story.tooLarge hphase ?_
        rw [hsize, hstays.count]
        exact more
      | called called =>
        obtain ⟨k, r, hk, hr, rfl⟩ := Admission.called?_some called
        exact .calledOff hphase (hstays.token.trans hk) (hage.reason? k r hr)
      | refused waits refused =>
        obtain ⟨k, r, hk, hr, rfl⟩ := hwarranted.refused t hmem _ _ waits refused
        exact .calledOff hphase (hstays.token.trans hk) (hage.reason? k r hr)
      | interrupted told => exact .interrupted hphase (hstays.told told)
      | abandoned waits abandoned =>
        exact .interrupted hphase (hstays.told (hwarranted.abandoned t hmem _ waits abandoned))
    | start => exact hstays.name ▸ .underway hphase
    | done =>
      refine hstays.name ▸ .served hphase ⟨n, Nat.lt_succ_self n, t, u, ht, ?_, hu, hphase, ?_⟩
      · exact fun hover => hunanswered (.inr hover)
      · exact .result turn fun hgate => absurd (.inl hgate) hunanswered
    | finish parked => exact absurd (.inl parked) hunanswered

/-- What a run that has started comes to in a move. -/
theorem Story.goesOn {es : List (Event α)} (hproceeds : Proceeds (c.ledger n) (c.ledger (n + 1)) i t u result es)
    (ht : (c.ledger n).tasks[i]? = some t) (hu : (c.ledger (n + 1)).tasks[i]? = some u)
    (hgate : t.phase = .gate) (hstays : Stays t u) : c.Story (n + 1) i u result (.started t.name :: es) := by
  have hserved : ∀ {outcome : Except Fault α}, u.phase = .over →
      (c.ledger n).Yields (c.ledger (n + 1)) i t result outcome →
      c.Story (n + 1) i u result [.started t.name, .ended t.name outcome] := fun hover hyields =>
    hstays.name ▸ .served hover ⟨n, Nat.lt_succ_self n, t, u, ht, by rw [hgate]; nofun, hu, hover, hyields⟩
  cases hproceeds with
  | rests same => exact hstays.name ▸ .underway (same.trans hgate)
  | finish _ turn ended => exact hserved ended (.finished hgate turn)
  | turn turn progress =>
    rcases progress.of_gate hgate with ⟨hphase, rfl⟩ | ⟨hover, rfl⟩
    · exact hstays.name ▸ .underway hphase
    · refine hserved hover ?_
      split
      · next htold => exact .interrupted turn hgate htold
      · next hfree => exact .result turn fun _ => by simpa using hfree

theorem Story.of_gate {es : List (Event α)} (h : c.Story n i t result es) (hgate : t.phase = .gate) :
    es = [.started t.name] := by
  cases h with
  | underway => rfl
  | before unanswered => exact absurd (.inl hgate) unanswered
  | served ended | dropped ended | interrupted ended | calledOff ended | tooLarge ended =>
    cases hgate.symm.trans ended

theorem Story.step {es : List (Event α)} (h : c.Story n i t result es) (hsound : Sound capacity (c.ledger n))
    (hwarranted : Warranted (c.ledger n)) (hruns : (c.ledger n).Runs i t result)
    (hu : (c.ledger (n + 1)).tasks[i]? = some u) (hstays : Stays t u) :
    c.Story (n + 1) i u result (es ++ (c.ledger n).news (c.ledger (n + 1)) i) := by
  have hproceeds := (c.goes n).proceeds hsound hruns hu
  have hsize := (hsound.move (c.goes n)).size.trans hsound.size.symm
  by_cases hover : t.phase = .over
  · obtain ⟨hended, hnone⟩ := hproceeds.of_over hover
    rw [hnone, List.append_nil]
    exact h.stays hover hstays hended hsize
  by_cases hgate : t.phase = .gate
  · rw [h.of_gate hgate]
    exact .goesOn hproceeds hruns.known hu hgate hstays
  · have hunanswered : ¬ t.Answered := fun h => h.elim hgate hover
    obtain rfl : es = [] := by
      cases h with
      | before => rfl
      | underway parked => exact absurd parked hgate
      | served ended | dropped ended | interrupted ended | calledOff ended | tooLarge ended =>
        exact absurd ended hover
    exact .opens hproceeds hwarranted hruns.known hu hunanswered hstays hsize

theorem warranted (hs : Session.start capacity = .ok s) (c : Course s) (n : Nat) : Warranted (c.ledger n) :=
  (Warranted.opening hs).moves (.opening hs) (.opening hs) (c.moves n)

/-- At every time, what has been reported of a run is one of the stories; of a task that has not come yet
nothing has been reported. -/
theorem stories (hs : Session.start capacity = .ok s) (c : Course s) (i n : Nat) :
    (∀ t result, (c.ledger n).Runs i t result → c.Story n i t result (c.reports i n)) ∧
    ((c.ledger n).tasks[i]? = none → c.reports i n = []) := by
  induction n with
  | zero =>
    refine ⟨fun t result ⟨ht, _⟩ => ?_, fun _ => rfl⟩
    unfold Session.start create at hs
    split at hs
    · cases hs
    · obtain rfl := Except.ok.inj hs
      rw [c.begins] at ht
      cases ht
  | succ n ih =>
    obtain ⟨hstory, hnothing⟩ := ih
    have hsound := (kept_of_moves hs (c.moves n)).sound
    cases hi : (c.ledger n).tasks[i]? with
    | some t =>
      obtain ⟨u, hu, hstays⟩ := (c.goes n).stays hi
      refine ⟨fun v result ⟨hv, gated, herrand⟩ => ?_, fun hnone => ?_⟩
      · obtain rfl : u = v := Option.some.inj (hu.symm.trans hv)
        have hruns : (c.ledger n).Runs i t result := ⟨hi, gated, hstays.errand.symm.trans herrand⟩
        exact (hstory t result hruns).step hsound (warranted hs c n) hruns hu hstays
      · cases hnone.symm.trans hu
    | none =>
      obtain ⟨hnews, hfresh⟩ := (c.goes n).comes hi
      have hreports : c.reports i (n + 1) = [] := by
        rw [reports, hnothing hi, hnews, List.append_nil]
      refine ⟨fun u _ hruns => ?_, fun _ => hreports⟩
      rw [hreports]
      exact .before (by simp [Task.Answered, hfresh u hruns.known])

/-- A run that has been reported to have started is in progress, or it has ended. -/
theorem Story.of_started {es : List (Event α)} (h : c.Story n i t result es) (hstarted : .started t.name ∈ es) :
    t.phase = .gate ∧ es = [.started t.name] ∨
      t.phase = .over ∧ ∃ outcome, c.Own n i result outcome ∧ es = [.started t.name, .ended t.name outcome] := by
  cases h with
  | underway parked => exact .inl ⟨parked, rfl⟩
  | served ended own => exact .inr ⟨ended, _, own, rfl⟩
  | before | dropped => cases hstarted
  | interrupted | calledOff | tooLarge => simp at hstarted

/-- Why a run has ended that has not started. -/
theorem Story.of_cancelled {es : List (Event α)} (h : c.Story n i t result es) (hanswered : t.Answered)
    (hnot : .started t.name ∉ es) (hcount : t.count ≤ (c.ledger n).pool.capacity) {k : Nat} {r : Reason}
    (htoken : t.token = some k) (hr : (c.ledger n).network.reason? k = some r) :
    t.phase = .over ∧ (es = [.ended t.name (.error (.ofReason r))] ∨
      t.interrupted = true ∧ (es = [.ended t.name (.error .interrupted)] ∨ es = [])) := by
  cases h with
  | before unanswered => exact absurd hanswered unanswered
  | underway | served => exact absurd List.mem_cons_self hnot
  | dropped ended told => exact ⟨ended, .inr ⟨told, .inr rfl⟩⟩
  | interrupted ended told => exact ⟨ended, .inr ⟨told, .inl rfl⟩⟩
  | calledOff ended names cancelled =>
    obtain rfl := Option.some.inj (htoken.symm.trans names)
    obtain rfl := Option.some.inj (hr.symm.trans cancelled)
    exact ⟨ended, .inl rfl⟩
  | tooLarge _ more => exact absurd more (Int.not_lt.mpr hcount)

theorem reports_subset {m : Nat} (hle : n ≤ m) : c.reports i n ⊆ c.reports i m := by
  induction hle with
  | refl => exact List.Subset.refl _
  | step _ ih => exact List.Subset.trans ih (List.subset_append_left _ _)

theorem stays {m : Nat} (hle : n ≤ m) (ht : (c.ledger n).tasks[i]? = some t) :
    ∃ u, (c.ledger m).tasks[i]? = some u ∧ Stays t u := by
  induction hle with
  | refl => exact ⟨t, ht, .refl t⟩
  | @step m _ ih =>
    obtain ⟨u, hu, hstays⟩ := ih
    obtain ⟨v, hv, hnext⟩ := (c.goes m).stays hu
    exact ⟨v, hv, hstays.trans hnext⟩

theorem reason? {m k : Nat} {r : Reason} (hle : n ≤ m) (hr : (c.ledger n).network.reason? k = some r) :
    (c.ledger m).network.reason? k = some r := by
  induction hle with
  | refl => exact hr
  | @step m _ ih => exact (c.goes m).ages.reason? k r ih

/-- Once its token is cancelled, a run does not start any more. -/
theorem not_starts (hs : Session.start capacity = .ok s) {k m : Nat} {r : Reason}
    (hruns : (c.ledger n).Runs i t result) (htoken : t.token = some k)
    (hr : (c.ledger n).network.reason? k = some r) (hle : n ≤ m)
    (hstarted : .started t.name ∈ c.reports i m) : .started t.name ∈ c.reports i n := by
  induction hle with
  | refl => exact hstarted
  | @step m hle ih =>
    refine (List.mem_append.mp hstarted).elim ih fun hnew => ?_
    obtain ⟨u, hu, hstays⟩ := c.stays hle hruns.known
    obtain ⟨v, hv, -⟩ := (c.goes m).stays hu
    have hsound := (kept_of_moves hs (c.moves m)).sound
    have hproceeds := (c.goes m).proceeds hsound (hruns.stays hu hstays) hv
    generalize (c.ledger m).news (c.ledger (m + 1)) i = es at hproceeds hnew
    cases hproceeds with
    | rests => cases hnew
    | finish => simp at hnew
    | turn _ progress =>
      have hquiet := progress.quiet (hstays.name ▸ hnew)
      rw [hstays.token, htoken] at hquiet
      cases (Admission.called?_none hquiet).symm.trans (c.reason? hle hr)

/-- Whoever has not been answered can go on if its token is cancelled. -/
theorem ready_of_cancelled (hs : Session.start capacity = .ok s) {k : Nat} {r : Reason}
    (ht : (c.ledger n).tasks[i]? = some t) (htoken : t.token = some k)
    (hr : (c.ledger n).network.reason? k = some r) (hunanswered : ¬ t.Answered) : Ready (c.ledger n) t := by
  cases hphase : t.phase with
  | fresh => exact .inl hphase
  | gate => exact absurd (.inl hphase) hunanswered
  | «over» => exact absurd (.inr hphase) hunanswered
  | waiting ticket =>
    refine .inr ⟨ticket, hphase, ?_⟩
    have hsound := (kept_of_moves hs (c.moves n)).sound
    refine (List.mem_append.mp (hsound.mem_tickets ht hphase)).resolve_left fun hline => ?_
    obtain ⟨w, hw, rfl⟩ := List.mem_map.mp hline
    have henrolled := (Enrolled.opening hs).moves (.opening hs) (c.moves n)
    have hquiet := (henrolled.hears w hw t (List.mem_of_getElem? ht) hphase k htoken).1
    cases hquiet.symm.trans hr

/-- A task whose token is cancelled is answered sooner or later. -/
theorem Lively.answers (hs : Session.start capacity = .ok s) (hlively : c.Lively) {k : Nat} {r : Reason}
    (ht : (c.ledger n).tasks[i]? = some t) (htoken : t.token = some k)
    (hr : (c.ledger n).network.reason? k = some r) :
    ∃ m u, n ≤ m ∧ (c.ledger m).tasks[i]? = some u ∧ u.Answered := by
  -- A task takes one turn if it waits, and two if it is fresh.
  have hwaiting : ∀ {m : Nat} {u : Task α} {ticket : Nat}, n ≤ m → (c.ledger m).tasks[i]? = some u →
      u.phase = .waiting ticket → ∃ m u, n ≤ m ∧ (c.ledger m).tasks[i]? = some u ∧ u.Answered := by
    intro m u ticket hle hu hphase
    obtain ⟨v, hv, hstays⟩ := c.stays hle ht
    obtain rfl : v = u := Option.some.inj (hv.symm.trans hu)
    have hready := ready_of_cancelled hs hu (hstays.token.trans htoken) (c.reason? hle hr)
      (by simp [Task.Answered, hphase])
    obtain ⟨p, w, hle', hw, hne⟩ := hlively m i v hu hready
    obtain ⟨w', hw', -, -, -, hwaits⟩ := later hle' hu
    obtain rfl : w' = w := Option.some.inj (hw'.symm.trans hw)
    exact ⟨p, w', Nat.le_trans hle hle', hw, (hwaits ticket hphase).resolve_left (hphase ▸ hne)⟩
  cases hphase : t.phase with
  | gate => exact ⟨n, t, Nat.le_refl n, ht, .inl hphase⟩
  | «over» => exact ⟨n, t, Nat.le_refl n, ht, .inr hphase⟩
  | waiting ticket => exact hwaiting (Nat.le_refl n) ht hphase
  | fresh =>
    obtain ⟨m, u, hle, hu, hne⟩ := hlively n i t ht (.inl hphase)
    cases hlater : u.phase with
    | fresh => exact absurd (hlater.trans hphase.symm) hne
    | gate => exact ⟨m, u, hle, hu, .inl hlater⟩
    | «over» => exact ⟨m, u, hle, hu, .inr hlater⟩
    | waiting ticket => exact hwaiting hle hu hlater

/-- The runs of a session and the tokens that call them off. -/
structure Heeds (capacity : Int) (c : Course s) : Prop where
  story : ∀ n i t result, (c.ledger n).Runs i t result → c.Story n i t result (c.reports i n)
  /-- A run whose token is cancelled does not start any more. -/
  never : ∀ n m i t result k, (c.ledger n).Runs i t result → t.token = some k →
    (c.ledger n).network.reason? k ≠ none → n ≤ m → .started t.name ∈ c.reports i m →
      .started t.name ∈ c.reports i n
  /-- If the token is cancelled before a run has started, and if tasks that can go on do so, the run ends
  with the reason of the cancellation, unless the task is told to end as well. -/
  calledOff : ∀ n i t result k r, (c.ledger n).Runs i t result → t.count ≤ capacity → t.token = some k →
    (c.ledger n).network.reason? k = some r → .started t.name ∉ c.reports i n → c.Lively →
      ∀ᶠ m in atTop, ∃ u, (c.ledger m).tasks[i]? = some u ∧ u.phase = .over ∧
        (c.reports i m = [.ended t.name (.error (.ofReason r))] ∨ u.interrupted = true ∧
          (c.reports i m = [.ended t.name (.error .interrupted)] ∨ c.reports i m = []))
  /-- A run that has started is in progress, or it has ended with what its errand came to. -/
  served : ∀ n m i t result, (c.ledger n).Runs i t result → .started t.name ∈ c.reports i n → n ≤ m →
    ∃ u, (c.ledger m).tasks[i]? = some u ∧ (u.phase = .gate ∧ c.reports i m = [.started t.name] ∨
      u.phase = .over ∧ ∃ outcome, c.Own m i result outcome ∧
        c.reports i m = [.started t.name, .ended t.name outcome])
  /-- When its errand comes to its end, so does the run, and with the same outcome. -/
  outcome : ∀ n i t result outcome, (c.ledger n).Runs i t result → t.phase = .gate →
    (c.ledger n).Yields (c.ledger (n + 1)) i t result outcome →
      c.reports i (n + 1) = [.started t.name, .ended t.name outcome]
  /-- Every permit that is held is held by somebody, and a run that is over holds none. -/
  held : ∀ n, (c.ledger n).pool.held = (c.ledger n).shares
  returned : ∀ n i t result, (c.ledger n).Runs i t result → t.phase = .over →
    (c.ledger n).share i t = 0 ∧ (i ∈ (c.ledger n).granted → i ∈ (c.ledger n).returned)
  /-- Nobody is left at a cancelled token. -/
  silent : ∀ n k, (c.ledger n).network.reason? k ≠ none → (c.ledger n).network.subscriptions k = []

theorem heeds_of_course (hs : Session.start capacity = .ok s) (c : Course s) : c.Heeds capacity := by
  have hsound : ∀ n, Sound capacity (c.ledger n) := fun n => (kept_of_moves hs (c.moves n)).sound
  have hstory : ∀ n i t result, (c.ledger n).Runs i t result → c.Story n i t result (c.reports i n) :=
    fun n i => (stories hs c i n).1
  refine ⟨hstory, ?never, ?calledOff, ?served, ?outcome, fun n => held_eq_shares (hsound n), ?returned, ?silent⟩
  case never =>
    intro n m i t result k hruns htoken hcancelled hle
    obtain ⟨r, hr⟩ := Option.ne_none_iff_exists'.mp hcancelled
    exact not_starts hs hruns htoken hr hle
  case calledOff =>
    intro n i t result k r hruns hcount htoken hr hnot hlively
    obtain ⟨first, u, hle, hu, hanswered⟩ := hlively.answers hs hruns.known htoken hr
    refine Filter.eventually_atTop.mpr ⟨first, fun m hm => ?_⟩
    have hle := Nat.le_trans hle hm
    obtain ⟨v, hv, hstays⟩ := c.stays hle hruns.known
    obtain ⟨w, hw, -, -, hlater, -⟩ := later hm hu
    obtain rfl : w = v := Option.some.inj (hw.symm.trans hv)
    have hnot : .started w.name ∉ c.reports i m := fun hstarted =>
      hnot (not_starts hs hruns htoken hr hle (hstays.name ▸ hstarted))
    have hcount : w.count ≤ (c.ledger m).pool.capacity := by
      rw [hstays.count, (hsound m).size]
      exact hcount
    obtain ⟨hover, hreports⟩ := (hstory m i w result (hruns.stays hv hstays)).of_cancelled (hlater hanswered) hnot
      hcount (hstays.token.trans htoken) (c.reason? hle hr)
    exact ⟨w, hv, hover, hstays.name ▸ hreports⟩
  case served =>
    intro n m i t result hruns hstarted hle
    obtain ⟨u, hu, hstays⟩ := c.stays hle hruns.known
    have hserved := (hstory m i u result (hruns.stays hu hstays)).of_started
      (hstays.name ▸ reports_subset hle hstarted)
    exact ⟨u, hu, hstays.name ▸ hserved⟩
  case outcome =>
    intro n i t result outcome hruns hgate hyields
    rw [reports, (hstory n i t result hruns).of_gate hgate, hyields.news_eq (hsound n) hruns hgate]
    rfl
  case returned =>
    intro n i t result hruns hover
    obtain ⟨ht, gated, herrand⟩ := hruns
    have hkeeps : t.errand.keeps = false := by rw [herrand]; rfl
    refine ⟨?_, (hsound n).notes.done i t ht hover hkeeps⟩
    rw [share, hover]
    exact if_neg fun h => by simp [hkeeps] at h
  case silent => exact fun n k => (warranted hs c n).tidy.spent k

/-- Two runs wait with a token that is cancelled. The refusal of the first one lets in the second one, which ends
all the same without having started, although the task that holds the other permit never gives it back. -/
theorem heeds_when_let_in : ∃ (s : Session Unit) (c : Course s) (n : Nat) (t : Task Unit),
    Session.start 2 = .ok s ∧ c.Lively ∧ (c.ledger n).Runs 2 t (.ok ()) ∧ t.phase = .waiting 1 ∧
      (c.ledger n).pool.settled = [(0, .refused .cancelled), (1, .granted)] ∧ c.Heeds 2 ∧
      ∀ᶠ m in atTop, c.reports 2 m = [.ended ['c'] (.error .cancelled)] ∧ (c.ledger m).pool.held = 1 := by
  let start : Session Unit := ⟨⟨⟨2, 0, [], [], 0⟩, .empty⟩, [], [], [], [], []⟩
  have hstart : Session.start 2 = .ok start := rfl
  let t : Task Unit := ⟨['c'], 1, [1], some 0, .run false (.ok ()), .waiting 1, false⟩
  suffices hrun : ∃ l m : Ledger Unit, Moves (opening start) l ∧ Moves l m ∧ l.tasks[2]? = some t ∧
      l.pool.settled = [(0, .refused .cancelled), (1, .granted)] ∧ l.network.reason? 0 = some .none ∧
      m.tasks.map (fun u => (u.phase, u.interrupted)) = List.replicate 3 (.over, false) ∧ m.pool.held = 1 by
    obtain ⟨l, m, hl, hm, ht, hsettled, hcancelled, htasks, hheld⟩ := hrun
    have hended : ∀ u ∈ m.tasks, u.phase = .over ∧ u.interrupted = false := fun u hu =>
      Prod.mk.inj (List.eq_of_mem_replicate (htasks ▸ List.mem_map_of_mem hu))
    obtain ⟨c, ⟨n, rfl⟩, k, hk⟩ := exists_through hl hm
    have hlively := lively_of_idle hk fun u hu => .inr (hended u hu).1
    have hheeds := heeds_of_course hstart c
    have hruns : (c.ledger n).Runs 2 t (.ok ()) := ⟨ht, false, rfl⟩
    refine ⟨start, c, n, t, hstart, hlively, hruns, rfl, hsettled, hheeds, ?_⟩
    have hnot : .started t.name ∉ c.reports 2 n := fun hstarted =>
      (hheeds.story n 2 t _ hruns).of_started hstarted |>.elim (fun h => by cases h.1) fun h => by cases h.1
    filter_upwards [hheeds.calledOff n 2 t _ 0 .none hruns (by decide) rfl hcancelled hnot hlively,
      Filter.eventually_ge_atTop k] with p ⟨u, hu, _, hreports⟩ hp
    rw [hk p hp] at hu ⊢
    refine ⟨hreports.resolve_right fun htold => ?_, hheld⟩
    cases htold.1.symm.trans (hended u (List.mem_of_getElem? hu)).2
  have hwait := Moves.cons (.submit (opening start) ['a'] 1 .root none .keep (by decide)) <|
    .cons (.submit _ ['b'] 2 .root (some ['t']) (.run false (.ok ())) (by decide)) <|
    .cons (.submit _ ['c'] 1 [1] (some ['t']) (.run false (.ok ())) (by decide)) <|
    .cons (.resume _ 0 _ rfl) <| .cons (.resume _ 1 _ rfl) <| .cons (.resume _ 2 _ rfl) <| .refl _
  exact ⟨_, _, hwait.tail (.cancel _ ['t'] .none),
    .cons (.resume _ 1 { t with name := ['b'], count := 2, priority := .root, phase := .waiting 0 } (by cbv)) <|
      .cons (.resume _ 2 t (by cbv)) <| .refl _, by cbv, by cbv, by cbv, by cbv, by cbv⟩

end Course

end TreeCensus.Pool
