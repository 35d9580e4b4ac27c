import TreeCensus.Proofs.Pool.Blockage

/-!
# Calls for permits come to an end

Nobody waits at a pool from which nobody holds permits. So if tasks that can go on do so, and whoever
holds permits gives them back sooner or later, every call for permits ends, unless the task is overtaken
for ever by others that have better priorities.
-/

open Filter (atTop)

namespace TreeCensus.Pool

set_option autoImplicit false

variable {α : Type}

/-- The call of the task for permits has ended. -/
def Task.Answered (t : Task α) : Prop := t.phase = .gate ∨ t.phase = .over

instance (t : Task α) : Decidable t.Answered :=
  inferInstanceAs (Decidable (t.phase = .gate ∨ t.phase = .over))

namespace Ledger

variable {l m : Ledger α} {capacity : Int} {i : Nat} {t : Task α}

/-- What a move does to the tasks. -/
inductive Retasks (l m : Ledger α) : Prop
  | come (t : Task α) (fresh : t.phase = .fresh) (tasks : m.tasks = l.tasks ++ [t])
      (silent : m.session.events = l.session.events)
  | resume (i : Nat) (t : Task α) (known : l.tasks[i]? = some t)
      (turn : m = l.turn i t (l.session.resume i t))
  | finish (i : Nat) (t : Task α) (outcome : Except Fault α) (known : l.tasks[i]? = some t)
      (parked : t.phase = .gate) (turn : m = l.turn i t (l.session.giveBack i t outcome))
  | told (i : Nat) (tasks : m.tasks = l.tasks.modify i fun u => { u with interrupted := true })
  | same (tasks : m.tasks = l.tasks)

theorem Move.retasks (h : Move l m) : Retasks l m := by
  cases h with
  | submit name count priority token errand _ =>
    cases token with
    | none => exact .come _ rfl rfl rfl
    | some token =>
      exact .come _ rfl (congrArg (· ++ [_]) (Session.token_eq l.session token).2)
        (Session.events_token l.session token)
  | resume i t known => exact .resume i t known rfl
  | finish i t outcome known parked => exact .finish i t outcome known parked rfl
  | release i t => exact .same (Session.enqueueSettled_eq _).2
  | interrupt i t => exact .told i (Session.interrupt_eq l.session i t).2
  | cancel token reason => exact .same (Session.cancel_eq l.session token reason).2
  | schedule => exact .same rfl

theorem tasks_turn {after : Session α} (h : m = l.turn i t after) : m.tasks = after.tasks := by
  rw [h]
  rfl

/-- Between two ledgers a task goes on, if it does: it gets in line, or its call for permits ends. -/
structure GoesOn (l m : Ledger α) (t u : Task α) : Prop where
  priority : u.priority = t.priority
  token : u.token = t.token
  phase : u.phase = t.phase ∨ u.Answered ∨ t.phase = .fresh ∧ u.phase = .waiting l.pool.next ∧
    l.pool.request t.priority t.count = (m.pool, some l.pool.next)

theorem GoesOn.refl (l m : Ledger α) (t : Task α) : GoesOn l m t t := ⟨rfl, rfl, .inl rfl⟩

theorem goesOn_turn {p q : Pool} {phase : Phase} {outcome : Option Bool}
    (hturn : Session.Turn p t q phase outcome) (hp : l.pool = p) (hq : m.pool = q) :
    GoesOn l m t { t with phase } := by
  refine ⟨rfl, rfl, ?_⟩
  rw [hp, hq]
  cases hturn with
  | idle => exact .inl rfl
  | queue fresh queued =>
    obtain ⟨rfl, -, -⟩ := request_some queued
    exact .inr (.inr ⟨fresh, rfl, queued⟩)
  | park => exact .inr (.inl (.inl rfl))
  | drop | refuse | fail | keep | done | finish => exact .inr (.inl (.inr rfl))

theorem Move.goesOn (h : Move l m) (ht : l.tasks[i]? = some t) :
    ∃ u, m.tasks[i]? = some u ∧ GoesOn l m t u := by
  have hturn : ∀ {j : Nat} {v : Task α} {after : Session α} {phase : Phase} {outcome : Option Bool},
      m = l.turn j v after → l.tasks[j]? = some v → Session.Turn l.pool v after.pool phase outcome →
      after.tasks = l.tasks.modify j (fun u => { u with phase }) →
      ∃ u, m.tasks[i]? = some u ∧ GoesOn l m t u := by
    intro j v after phase outcome hm hv hturn htasks
    rw [tasks_turn hm, htasks, List.getElem?_modify, ht]
    by_cases hij : j = i
    · obtain rfl := hij
      obtain rfl : v = t := Option.some.inj (hv.symm.trans ht)
      exact ⟨{ v with phase }, by simp, goesOn_turn hturn rfl (hm ▸ rfl)⟩
    · exact ⟨t, by simp [hij], .refl _ _ t⟩
  cases h.retasks with
  | come v _ tasks _ =>
    refine ⟨t, ?_, .refl _ _ t⟩
    rw [tasks, List.getElem?_append_left (List.getElem?_eq_some_iff.mp ht).1]
    exact ht
  | resume j v known turn =>
    obtain ⟨phase, hthis, htasks⟩ := Session.resume_turn l.session known
    exact hturn turn known hthis htasks
  | finish j v outcome known parked turn =>
    obtain ⟨hpool, htasks⟩ := Session.giveBack_eq l.session j v outcome
    have hgiven : Session.Turn l.pool v (l.session.giveBack j v outcome).pool .over none :=
      hpool ▸ .finish parked
    exact hturn turn known hgiven htasks
  | told j tasks =>
    rw [tasks, List.getElem?_modify, ht]
    refine ⟨_, rfl, ?_, ?_, .inl ?_⟩ <;> split <;> rfl
  | same tasks => exact ⟨t, tasks ▸ ht, .refl _ _ t⟩

namespace GoesOn

variable {u : Task α}

theorem not_fresh (h : GoesOn l m t u) (ht : t.phase ≠ .fresh) : u.phase ≠ .fresh := by
  rcases h.phase with heq | hgate | ⟨hfresh, -⟩
  · rwa [heq]
  · rcases hgate with heq | heq <;> rw [heq] <;> nofun
  · exact absurd hfresh ht

theorem answered (h : GoesOn l m t u) (ht : t.Answered) : u.Answered := by
  rcases h.phase with heq | hu | ⟨hfresh, -⟩
  · unfold Task.Answered
    rwa [heq]
  · exact hu
  · rcases ht with ht | ht <;> rw [ht] at hfresh <;> cases hfresh

/-- A task leaves the line only when its call ends. -/
theorem waiting (h : GoesOn l m t u) {ticket : Nat} (ht : t.phase = .waiting ticket) :
    u.phase = .waiting ticket ∨ u.Answered := by
  rcases h.phase with heq | hu | ⟨hfresh, -⟩
  · exact .inl (heq.trans ht)
  · exact .inr hu
  · rw [ht] at hfresh
    cases hfresh

end GoesOn

/-- Nobody is in line with a ticket that no task has, and who is in line has the priority of its task. -/
def Ranked (l : Ledger α) : Prop :=
  ∀ w ∈ l.pool.waiting, ∀ t ∈ l.tasks, t.phase = .waiting w.ticket → w.priority = t.priority

theorem Move.known (h : Move l m) {u : Task α} (hu : m.tasks[i]? = some u) :
    u.phase = .fresh ∨ i < l.tasks.length := by
  have hlt := (List.getElem?_eq_some_iff.mp hu).1
  have hmodify : ∀ {j : Nat} {f : Task α → Task α}, m.tasks = l.tasks.modify j f → i < l.tasks.length := by
    intro j f htasks
    rwa [htasks, List.length_modify] at hlt
  cases h.retasks with
  | come v fresh tasks _ =>
    rw [tasks] at hu
    rcases Nat.lt_or_ge i l.tasks.length with hi | hi
    · exact .inr hi
    · rw [List.getElem?_append_right hi, List.getElem?_singleton] at hu
      split at hu
      · exact .inl (Option.some.inj hu ▸ fresh)
      · cases hu
  | resume j v known turn =>
    obtain ⟨phase, -, htasks⟩ := Session.resume_turn l.session known
    exact .inr (hmodify ((tasks_turn turn).trans htasks))
  | finish j v outcome _ _ turn =>
    exact .inr (hmodify ((tasks_turn turn).trans (Session.giveBack_eq ..).2))
  | told j tasks => exact .inr (hmodify tasks)
  | same tasks => exact .inr (tasks ▸ hlt)

/-- Where a task that is in line was before. -/
theorem Move.origin (h : Move l m) {u : Task α} (hu : m.tasks[i]? = some u) {ticket : Nat}
    (hphase : u.phase = .waiting ticket) : ∃ t, l.tasks[i]? = some t ∧ GoesOn l m t u ∧
      (t.phase = .waiting ticket ∨ t.phase = .fresh ∧ ticket = l.pool.next ∧
        l.pool.request t.priority t.count = (m.pool, some l.pool.next)) := by
  rcases h.known hu with hfresh | hlt
  · rw [hphase] at hfresh
    cases hfresh
  obtain ⟨t, ht⟩ : ∃ t, l.tasks[i]? = some t := ⟨_, List.getElem?_eq_getElem hlt⟩
  obtain ⟨v, hv, hgoes⟩ := h.goesOn ht
  obtain rfl : v = u := Option.some.inj (hv.symm.trans hu)
  refine ⟨t, ht, hgoes, ?_⟩
  rcases hgoes.phase with heq | hgate | ⟨hfresh, heq, hqueued⟩
  · exact .inl (heq.symm.trans hphase)
  · rcases hgate with heq | heq <;> rw [hphase] at heq <;> cases heq
  · exact .inr ⟨hfresh, Phase.waiting.inj (hphase.symm.trans heq), hqueued⟩

theorem Shifts.line (h : Shifts l m) {w : Waiter} (hw : w ∈ m.pool.waiting) :
    w ∈ l.pool.waiting ∨ w.ticket = l.pool.next := by
  rcases h with ⟨before, hwaiting, -, -, hsettles, -⟩ | ⟨_, _, _, hqueued, -⟩
  · exact .inl (hwaiting ▸ hsettles.sublist.subset hw)
  · rw [(request_some_eq hqueued).2] at hw
    rcases List.mem_cons.mp ((Books.perm_enqueue _ _).mem_iff.mp hw) with rfl | hw
    · exact .inr rfl
    · exact .inl hw

theorem Shifts.next (h : Shifts l m) : l.pool.next ≤ m.pool.next := by
  rcases h with ⟨before, -, hnext, -, hsettles, -⟩ | ⟨_, _, _, hqueued, -⟩
  · exact Nat.le_of_eq (hnext.symm.trans hsettles.next.symm)
  · rw [(request_some hqueued).2.1]
    exact Nat.le_succ _

namespace Sound

variable {ticket : Nat}

theorem mem_tickets (h : Sound capacity l) (ht : l.tasks[i]? = some t)
    (hphase : t.phase = .waiting ticket) : ticket ∈ l.pool.tickets := by
  obtain ⟨rest, hrest⟩ := stakes_split ht
  have hclaims := hrest.flatMap_right fun s : Stake => s.claims
  refine (h.serves.1.tickets.trans (hclaims.map (·.1))).mem_iff.mpr ?_
  rw [Ledger.stake, hphase]
  exact List.mem_cons_self

theorem ticket_lt (h : Sound capacity l) (ht : l.tasks[i]? = some t)
    (hphase : t.phase = .waiting ticket) : ticket < l.pool.next :=
  h.serves.1.ticket_lt_next (h.mem_tickets ht hphase)

/-- Whoever is in line is a task that waits. -/
theorem exists_task (h : Sound capacity l) {w : Waiter} (hw : w ∈ l.pool.waiting) :
    ∃ (j : Nat) (u : Task α), l.tasks[j]? = some u ∧ u.phase = .waiting w.ticket := by
  obtain ⟨u, hu, hphase, -⟩ := mem_claims (h.serves.1.counts w hw)
  obtain ⟨j, hj⟩ := List.getElem?_of_mem hu
  exact ⟨j, u, hj, hphase⟩

theorem ranked_move (h : Sound capacity l) (hlined : l.pool.Lined) (hranked : l.Ranked)
    (hmove : Move l m) : m.Ranked := by
  intro w hw u hu hphase
  obtain ⟨j, hj⟩ := List.getElem?_of_mem hu
  obtain ⟨t, ht, hgoes, hbefore | ⟨-, hticket, hqueued⟩⟩ := hmove.origin hj hphase
  · rw [hgoes.priority]
    have hlater := h.ticket_lt ht hbefore
    rcases hmove.shifts.line hw with hw | hw
    · exact hranked w hw t (List.mem_of_getElem? ht) hbefore
    · omega
  · rw [hgoes.priority]
    rw [(request_some_eq hqueued).2] at hw
    rcases List.mem_cons.mp ((Books.perm_enqueue _ _).mem_iff.mp hw) with rfl | hw
    · rfl
    · exact absurd (hlined.old w hw) (by omega)

/-- Whoever gets in line is a task that has just begun. -/
theorem comes (h : Sound capacity l) (hmove : Move l m) (hranked : m.Ranked) {w : Waiter}
    (hw : w ∈ m.pool.waiting) (hnew : w ∉ l.pool.waiting) : w.ticket = l.pool.next ∧
      ∃ (j : Nat) (t : Task α), l.tasks[j]? = some t ∧ t.phase = .fresh ∧ w.priority = t.priority := by
  have hticket := (hmove.shifts.line hw).resolve_left hnew
  obtain ⟨j, u, hu, hphase⟩ := (h.move hmove).exists_task hw
  obtain ⟨t, ht, hgoes, hbefore | ⟨hfresh, -⟩⟩ := hmove.origin hu hphase
  · have := h.ticket_lt ht hbefore
    omega
  · exact ⟨hticket, j, t, ht, hfresh,
      (hranked w hw u (List.mem_of_getElem? hu) hphase).trans hgoes.priority⟩

end Sound

/-- The number of those who stand in line before `w`. -/
def ahead (l : Ledger α) (w : Waiter) : Nat := l.pool.waiting.countP (·.Precedes w)

theorem ahead_move (hmove : Move l m) (hlined : l.pool.Lined) {w : Waiter}
    (hbehind : ∀ v ∈ m.pool.waiting, v ∉ l.pool.waiting → ¬ v.Precedes w) : m.ahead w ≤ l.ahead w := by
  unfold ahead
  rcases hmove.shifts with ⟨before, hwaiting, -, -, hsettles, -⟩ | ⟨priority, count, _, hqueued, -⟩
  · rw [← hwaiting]
    exact hsettles.sublist.countP_le
  · have hline : m.pool.waiting = enqueue ⟨l.pool.next, priority, count⟩ l.pool.waiting := by
      rw [(request_some_eq hqueued).2]
    have hperm := Books.perm_enqueue ⟨l.pool.next, priority, count⟩ l.pool.waiting
    have hnew := hbehind ⟨l.pool.next, priority, count⟩ (hline ▸ hperm.mem_iff.mpr List.mem_cons_self)
      fun hmem => absurd (hlined.old _ hmem) (Nat.lt_irrefl _)
    rw [hline, hperm.countP_eq, List.countP_cons_of_neg (by simpa using hnew)]

/-- If a ticket is granted while `w` stays in line, it was that of somebody before `w`. -/
theorem ahead_lt (hmove : Move l m) (hlined : l.pool.Lined) {claims : List (Nat × Int)} {out : Int}
    (hbooks : Books m.pool claims out) {w : Waiter} (hw : w ∈ l.pool.waiting) (hstays : w ∈ m.pool.waiting)
    {ticket : Nat} (hgranted : (ticket, .granted) ∈ m.pool.settled)
    (hnew : (ticket, .granted) ∉ l.pool.settled) : m.ahead w < l.ahead w := by
  rcases hmove.shifts with ⟨before, hwaiting, -, hsub, hsettles, -⟩ | ⟨_, _, _, hqueued, -⟩
  · obtain ⟨new, hall⟩ := hsettles.adds
    have hmem : (ticket, .granted) ∈ new := by
      rw [← hall] at hgranted
      exact (List.mem_append.mp hgranted).resolve_left fun h => hnew (hsub h)
    obtain ⟨earlier, later, rfl⟩ := List.append_of_mem hmem
    obtain ⟨v, hv, hticket, hfirst⟩ := hsettles.inTurn (hwaiting ▸ hlined.sorted) hall.symm
    rw [hwaiting] at hv hfirst
    have hsettled : ∀ e ∈ m.pool.settled, w.ticket ≠ e.1 := by
      intro e he heq
      exact hbooks.not_settled_of_waiting hstays e.2 (heq ▸ he)
    have hnot : ¬ w.Precedes v := by
      refine hfirst w hw fun hmem => ?_
      obtain ⟨e, he, heq⟩ := List.mem_map.mp hmem
      exact hsettled e (hall ▸ List.mem_append_right _ (List.mem_append_left _ he)) heq.symm
    have hbefore : v.Precedes w := by
      have hne := hsettled _ hgranted
      exact (Waiter.precedes_or (hticket ▸ hne.symm)).resolve_right hnot
    have hgone : v ∉ m.pool.waiting := fun hmem =>
      hbooks.not_settled_of_waiting hmem .granted (hticket ▸ hgranted)
    have hsublist : m.pool.waiting.Sublist (l.pool.waiting.erase v) := by
      rw [← List.erase_of_not_mem hgone, ← hwaiting]
      exact hsettles.sublist.erase v
    have hpos : 0 < l.pool.waiting.countP (·.Precedes w) :=
      List.countP_pos_iff.mpr ⟨v, hv, by simpa using hbefore⟩
    have hle := hsublist.countP_le (p := (·.Precedes w))
    rw [List.countP_erase, if_pos ⟨hv, by simpa using hbefore⟩] at hle
    unfold ahead
    omega
  · rw [(request_some hqueued).2.2] at hgranted
    exact absurd hgranted hnew

/-- A task has permits in hand, or they were granted to its ticket. -/
def Holding (l : Ledger α) (i : Nat) : Prop :=
  i ∈ l.granted ∧ i ∉ l.returned ∨ ∃ t ticket, l.tasks[i]? = some t ∧ t.phase = .waiting ticket ∧
    (ticket, .granted) ∈ l.pool.settled

theorem Move.returned (h : Move l m) : l.returned ⊆ m.returned := by
  cases h with
  | resume | finish =>
    change l.returned ⊆ if _ then _ else _
    split
    · exact List.subset_cons_self _ _
    · exact List.Subset.refl _
  | release => exact List.subset_cons_self _ _
  | submit | interrupt | cancel | schedule => exact List.Subset.refl _

theorem Move.granted (h : Move l m) : l.granted ⊆ m.granted := by
  cases h with
  | resume | finish =>
    change l.granted ⊆ if _ then _ else _
    split
    · exact List.subset_cons_self _ _
    · exact List.Subset.refl _
  | submit | release | interrupt | cancel | schedule => exact List.Subset.refl _

/-- As long as somebody is in line and no ticket is granted, nobody comes by permits. -/
theorem not_holding_move (h : Sound capacity l) (hmove : Move l m)
    (hcompleted : ∀ e ∈ l.pool.settled, e.1 ∈ l.completed) (hline : l.pool.waiting ≠ [])
    (hnone : ∀ ticket, (ticket, .granted) ∈ m.pool.settled → (ticket, .granted) ∈ l.pool.settled)
    (hnot : ¬ l.Holding i) : ¬ m.Holding i := by
  rintro (⟨hgranted, hkept⟩ | ⟨u, ticket, hu, hphase, hgranted⟩)
  · by_cases hold : i ∈ l.granted
    · exact hnot (.inl ⟨hold, fun hback => hkept (hmove.returned hback)⟩)
    · obtain ⟨t, ht, ⟨-, hempty⟩ | ⟨ticket, hphase, hticket, -⟩⟩ := hmove.earned hcompleted i hgranted hold
      · exact hline hempty
      · exact hnot (.inr ⟨t, ticket, ht, hphase, hticket⟩)
  · obtain ⟨t, ht, -, hbefore | ⟨-, rfl, -⟩⟩ := hmove.origin hu hphase
    · exact hnot (.inr ⟨t, ticket, ht, hbefore, hnone ticket hgranted⟩)
    · have hmem : l.pool.next ∈ l.pool.tickets :=
        List.mem_append_right _ (List.mem_map_of_mem (hnone _ hgranted))
      exact absurd (h.serves.1.ticket_lt_next hmem) (Nat.lt_irrefl _)

/-- If nobody has permits, all of them are free. -/
theorem Sound.held_eq_zero (h : Sound capacity l) (hnone : ∀ i, ¬ l.Holding i) : l.pool.held = 0 := by
  rw [held_eq_shares h, shares]
  refine List.sum_eq_zero fun x hx => ?_
  obtain ⟨⟨t, i⟩, ht, rfl⟩ := List.mem_map.mp hx
  have ht : l.tasks[i]? = some t := List.mem_zipIdx_iff_getElem?.mp ht
  unfold share
  split
  · rfl
  · next ticket hphase =>
    have hnot : (ticket, Settlement.granted) ∉ l.pool.settled := fun hmem =>
      hnone i (.inr ⟨t, ticket, ht, hphase, hmem⟩)
    simp [owed, hnot]
  · next hphase =>
    obtain ⟨hgranted, hkept, -⟩ := h.notes.parked i t ht hphase
    exact absurd (.inl ⟨hgranted, hkept⟩) (hnone i)
  · exact if_neg fun hkeeps => hnone i (.inl hkeeps.2)

theorem Moves.tail {k : Ledger α} (h : Moves k l) (hmove : Move l m) : Moves k m :=
  h.trans (.cons hmove (.refl m))

/-- All that is kept by every move of a session. -/
structure Kept (capacity : Int) (l : Ledger α) : Prop where
  sound : Sound capacity l
  lined : l.pool.Lined
  tended : l.pool.Tended
  ranked : l.Ranked
  completed : ∀ e ∈ l.pool.settled, e.1 ∈ l.completed

theorem kept_of_moves {s : Session α} (hs : Session.start capacity = .ok s) (h : Moves (opening s) l) :
    Kept capacity l := by
  have hranked : ∀ {k m : Ledger α}, Sound capacity k → k.pool.Lined → k.Ranked → Moves k m → m.Ranked := by
    intro k m hsound hlined hranked hmoves
    induction hmoves with
    | refl => exact hranked
    | cons hmove _ ih =>
      exact ih (hsound.move hmove) (lined_move hlined hmove) (hsound.ranked_move hlined hranked hmove)
  have hopening : (opening s).pool.waiting = [] ∧ (opening s).pool.settled = [] := by
    unfold Session.start create at hs
    split at hs
    · cases hs
    · obtain rfl := Except.ok.inj hs
      exact ⟨rfl, rfl⟩
  refine ⟨(Sound.opening hs).moves h, lined_moves (lined_opening hs) h,
    tended_moves (.opening hs) (lined_opening hs) (tended_opening hs) h,
    hranked (.opening hs) (lined_opening hs) ?_ h, completed_moves ?_ h⟩
  · unfold Ranked
    rw [hopening.1]
    nofun
  · rw [hopening.2]
    nofun

/-- If all calls have ended and all permits have come back, the pool is as good as new. -/
theorem Sound.idle (h : Sound capacity l) (hended : ∀ t ∈ l.tasks, t.Answered)
    (hback : ∀ i ∈ l.granted, i ∈ l.returned) : l.pool.held = 0 ∧ l.pool.pending = 0 := by
  have hnone : ∀ t ∈ l.tasks, ∀ ticket, t.phase ≠ .waiting ticket := by
    intro t ht ticket hphase
    rcases hended t ht with heq | heq <;> rw [hphase] at heq <;> cases heq
  refine ⟨h.held_eq_zero fun i hholding => ?_, List.length_eq_zero_iff.mpr ?_⟩
  · rcases hholding with ⟨hgranted, hkept⟩ | ⟨t, ticket, ht, hphase, -⟩
    · exact hkept (hback i hgranted)
    · exact hnone t (List.mem_of_getElem? ht) ticket hphase
  · refine List.eq_nil_iff_forall_not_mem.mpr fun w hw => ?_
    obtain ⟨j, t, ht, hphase⟩ := h.exists_task hw
    exact hnone t (List.mem_of_getElem? ht) w.ticket hphase

end Ledger

open Ledger

/-- A session that goes on for ever, be it that nothing happens any more from some time on. -/
structure Course (s : Session α) where
  ledger : Nat → Ledger α
  begins : ledger 0 = opening s
  goes : ∀ n, Move (ledger n) (ledger (n + 1))

namespace Course

variable {s : Session α} {capacity : Int} {i : Nat} {t : Task α}

/-- A task that has begun, or whose ticket is settled, can go on. -/
def Ready (l : Ledger α) (t : Task α) : Prop :=
  t.phase = .fresh ∨ ∃ ticket, t.phase = .waiting ticket ∧ ticket ∈ l.pool.settled.map (·.1)

/-- Tasks that can go on do so. -/
def Lively (c : Course s) : Prop :=
  ∀ (n i : Nat) (t : Task α), (c.ledger n).tasks[i]? = some t → Ready (c.ledger n) t →
    ∃ (m : Nat) (u : Task α), n ≤ m ∧ (c.ledger m).tasks[i]? = some u ∧ u.phase ≠ t.phase

/-- Tasks that can go on do so, and whoever was given permits gives them back. -/
structure Fair (c : Course s) : Prop where
  turns : ∀ (n i : Nat) (t : Task α), (c.ledger n).tasks[i]? = some t → Ready (c.ledger n) t →
    ∃ (m : Nat) (u : Task α), n ≤ m ∧ (c.ledger m).tasks[i]? = some u ∧ u.phase ≠ t.phase
  returns : ∀ n i, i ∈ (c.ledger n).granted → ∃ m, n ≤ m ∧ i ∈ (c.ledger m).returned

variable {c : Course s}

theorem moves (c : Course s) (n : Nat) : Moves (opening s) (c.ledger n) := by
  induction n with
  | zero => exact c.begins ▸ .refl _
  | succ n ih => exact ih.tail (c.goes n)

/-- What has become of a task at a later time. -/
theorem later {n m : Nat} (hle : n ≤ m) (ht : (c.ledger n).tasks[i]? = some t) :
    ∃ u, (c.ledger m).tasks[i]? = some u ∧ u.priority = t.priority ∧
      (t.phase ≠ .fresh → u.phase ≠ .fresh) ∧ (t.Answered → u.Answered) ∧
      ∀ ticket, t.phase = .waiting ticket → u.phase = .waiting ticket ∨ u.Answered := by
  induction hle with
  | refl => exact ⟨t, ht, rfl, id, id, fun _ h => .inl h⟩
  | @step m _ ih =>
    obtain ⟨u, hu, hpriority, hbegun, hanswered, hwaits⟩ := ih
    obtain ⟨v, hv, hgoes⟩ := (c.goes m).goesOn hu
    refine ⟨v, hv, hgoes.priority.trans hpriority, fun h => hgoes.not_fresh (hbegun h),
      fun h => hgoes.answered (hanswered h), fun ticket h => ?_⟩
    rcases hwaits ticket h with h | h
    · exact hgoes.waiting h
    · exact .inr (hgoes.answered h)

theorem next_le {n m : Nat} (hle : n ≤ m) : (c.ledger n).pool.next ≤ (c.ledger m).pool.next := by
  induction hle with
  | refl => exact Nat.le_refl _
  | @step m _ ih => exact Nat.le_trans ih (c.goes m).shifts.next

/-- Nobody gets in line with a ticket of old. -/
theorem was_in_line {n m : Nat} (hle : n ≤ m) {w : Waiter} (hw : w ∈ (c.ledger m).pool.waiting)
    (hold : w.ticket < (c.ledger n).pool.next) : w ∈ (c.ledger n).pool.waiting := by
  induction hle with
  | refl => exact hw
  | @step m hle ih =>
    rcases (c.goes m).shifts.line hw with hw | hnew
    · exact ih hw
    · have := next_le (c := c) hle
      omega

/-- In the end a task is not fresh. -/
theorem Fair.begins (hfair : c.Fair) (j : Nat) :
    ∀ᶠ n in atTop, ∀ u, (c.ledger n).tasks[j]? = some u → u.phase ≠ .fresh := by
  rw [Filter.eventually_atTop]
  by_cases hcomes : ∃ n t, (c.ledger n).tasks[j]? = some t
  · obtain ⟨n, t, ht⟩ := hcomes
    obtain ⟨m, u, hu, hbegun⟩ : ∃ m u, (c.ledger m).tasks[j]? = some u ∧ u.phase ≠ .fresh := by
      by_cases hfresh : t.phase = .fresh
      · obtain ⟨m, u, -, hu, hne⟩ := hfair.turns n j t ht (.inl hfresh)
        exact ⟨m, u, hu, hfresh ▸ hne⟩
      · exact ⟨n, t, ht, hfresh⟩
    refine ⟨m, fun k hk v hv => ?_⟩
    obtain ⟨w, hw, -, hlater, -⟩ := later hk hu
    obtain rfl : w = v := Option.some.inj (hw.symm.trans hv)
    exact hlater hbegun
  · exact ⟨0, fun k _ v hv => absurd ⟨k, v, hv⟩ hcomes⟩

/-- From some time on nobody gets in line before a waiter than whom only finitely many tasks are better. -/
theorem Fair.behind (hs : Session.start capacity = .ok s) (hfair : c.Fair) {priority : Priority} {k : Nat}
    (hfew : ∀ n j u, (c.ledger n).tasks[j]? = some u → u.priority.Before priority → j < k) :
    ∀ᶠ n in atTop, ∀ w ∈ (c.ledger n).pool.waiting, w.priority = priority →
      ∀ v ∈ (c.ledger (n + 1)).pool.waiting, v ∉ (c.ledger n).pool.waiting → ¬ v.Precedes w := by
  have hbegun : ∀ᶠ n in atTop, ∀ j ∈ Finset.range k, ∀ u, (c.ledger n).tasks[j]? = some u →
      u.phase ≠ .fresh := (Filter.eventually_all_finset _).mpr fun j _ => hfair.begins j
  filter_upwards [hbegun] with n hn w hw hpriority v hv hnew
  have hkept := kept_of_moves hs (c.moves n)
  obtain ⟨hticket, j, u, hu, hfresh, hsame⟩ :=
    hkept.sound.comes (c.goes n) (kept_of_moves hs (c.moves (n + 1))).ranked hv hnew
  rintro (hbefore | ⟨-, hlt⟩)
  · rw [hsame, hpriority] at hbefore
    exact hn j (Finset.mem_range.mpr (hfew n j u hu hbefore)) u hu hfresh
  · have := hkept.lined.old w hw
    omega

/-- Sooner or later a task has no permits. -/
theorem Fair.lets (hs : Session.start capacity = .ok s) (hfair : c.Fair) (n j : Nat) :
    ∃ m, n ≤ m ∧ ¬ (c.ledger m).Holding j := by
  have hback : ∀ {n : Nat}, j ∈ (c.ledger n).granted → ∃ m, n ≤ m ∧ ¬ (c.ledger m).Holding j := by
    intro n hgranted
    obtain ⟨m, hle, hback⟩ := hfair.returns n j hgranted
    have hnotes := (kept_of_moves hs (c.moves m)).sound.notes
    refine ⟨m, hle, ?_⟩
    rintro (⟨-, hkept⟩ | ⟨u, ticket, hu, hphase, -⟩)
    · exact hkept hback
    · exact hnotes.unanswered j u hu (.inr ⟨ticket, hphase⟩) (List.mem_append_left _ (hnotes.given j hback))
  -- Permits that were handed over come back; those of a granted ticket are collected first, in a turn of the task.
  by_cases hholding : (c.ledger n).Holding j
  · rcases hholding with ⟨hgranted, -⟩ | ⟨t, ticket, ht, hphase, hticket⟩
    · exact hback hgranted
    · obtain ⟨m, u, hle, hu, hne⟩ :=
        hfair.turns n j t ht (.inr ⟨ticket, hphase, List.mem_map_of_mem (f := (·.1)) hticket⟩)
      obtain ⟨v, hv, -, -, -, hwaits⟩ := later hle ht
      obtain rfl : v = u := Option.some.inj (hv.symm.trans hu)
      have hanswered := (hwaits ticket hphase).resolve_left (hphase ▸ hne)
      by_cases hholding : (c.ledger m).Holding j
      · rcases hholding with ⟨hgranted, -⟩ | ⟨w, other, hw, hother, -⟩
        · obtain ⟨k, hle', hk⟩ := hback hgranted
          exact ⟨k, Nat.le_trans hle hle', hk⟩
        · obtain rfl : w = v := Option.some.inj (hw.symm.trans hu)
          rcases hanswered with heq | heq <;> rw [hother] at heq <;> cases heq
      · exact ⟨m, hle, hholding⟩
  · exact ⟨n, Nat.le_refl n, hholding⟩

/-- If somebody is in line for ever, and no ticket is granted from some time on, the permits come back, so
that somebody is in line for permits that are all free. -/
theorem Fair.granted (hs : Session.start capacity = .ok s) (hfair : c.Fair) {n : Nat}
    (hline : ∀ m, n ≤ m → (c.ledger m).pool.waiting ≠ []) :
    ∃ m ticket, n ≤ m ∧ (ticket, .granted) ∈ (c.ledger (m + 1)).pool.settled ∧
      (ticket, .granted) ∉ (c.ledger m).pool.settled := by
  by_contra hnone
  have hnone : ∀ m, n ≤ m → ∀ ticket, (ticket, .granted) ∈ (c.ledger (m + 1)).pool.settled →
      (ticket, .granted) ∈ (c.ledger m).pool.settled := by
    intro m hm ticket hticket
    by_contra hnew
    exact hnone ⟨m, ticket, hm, hticket, hnew⟩
  have hstays : ∀ {m k : Nat} (j : Nat), n ≤ m → m ≤ k → ¬ (c.ledger m).Holding j →
      ¬ (c.ledger k).Holding j := by
    intro m k j hm hle hnot
    induction hle with
    | refl => exact hnot
    | @step k hle ih =>
      have hkept := kept_of_moves hs (c.moves k)
      exact not_holding_move hkept.sound (c.goes k) hkept.completed (hline k (Nat.le_trans hm hle))
        (hnone k (Nat.le_trans hm hle)) ih
  -- None of the tasks that have come has permits from some time on, and the later ones get none.
  have hfew : ∀ᶠ m in atTop, ∀ j ∈ Finset.range (c.ledger n).tasks.length, ¬ (c.ledger m).Holding j := by
    rw [Filter.eventually_all_finset]
    intro j _
    obtain ⟨m, hm, hnot⟩ := hfair.lets hs n j
    exact Filter.eventually_atTop.mpr ⟨m, fun k hk => hstays j hm hk hnot⟩
  obtain ⟨m, hfew, hm⟩ := (hfew.and (Filter.eventually_ge_atTop n)).exists
  have hkept := kept_of_moves hs (c.moves m)
  have hzero := hkept.sound.held_eq_zero fun j => by
    by_cases hj : j < (c.ledger n).tasks.length
    · exact hfew j (Finset.mem_range.mpr hj)
    · refine hstays j (Nat.le_refl n) hm ?_
      rintro (⟨hgranted, -⟩ | ⟨t, ticket, ht, -⟩)
      · exact hj ((kept_of_moves hs (c.moves n)).sound.notes.known j (List.mem_append_left _ hgranted))
      · exact hj (List.getElem?_eq_some_iff.mp ht).1
  have := hkept.tended.busy (hline m hm)
  omega

/-- Nobody is in line for ever. -/
theorem Fair.leaves (hs : Session.start capacity = .ok s) (hfair : c.Fair) {w : Waiter} {n k : Nat}
    (hfew : ∀ n j u, (c.ledger n).tasks[j]? = some u → u.priority.Before w.priority → j < k) :
    ∃ m, n ≤ m ∧ w ∉ (c.ledger m).pool.waiting := by
  by_contra hnever
  have hstays : ∀ m, n ≤ m → w ∈ (c.ledger m).pool.waiting := by
    intro m hm
    by_contra hnot
    exact hnever ⟨m, hm, hnot⟩
  obtain ⟨first, hbehind⟩ := Filter.eventually_atTop.mp (hfair.behind hs hfew)
  -- From then on fewer and fewer are ahead of `w`, so there is a time when they are fewest.
  let late := max n first
  have hlate' : n ≤ late ∧ first ≤ late := ⟨Nat.le_max_left .., Nat.le_max_right ..⟩
  have hshrinks : ∀ m, late ≤ m → (c.ledger (m + 1)).ahead w ≤ (c.ledger m).ahead w := by
    intro m hm
    exact ahead_move (c.goes m) (kept_of_moves hs (c.moves m)).lined
      (hbehind m (Nat.le_trans hlate'.2 hm) w (hstays m (Nat.le_trans hlate'.1 hm)) rfl)
  let fewest := late + Function.argmin fun d => (c.ledger (late + d)).ahead w
  have hfewest : ∀ m, late ≤ m → (c.ledger fewest).ahead w ≤ (c.ledger m).ahead w := by
    intro m hm
    have hmin := Function.argmin_le (fun d => (c.ledger (late + d)).ahead w) (m - late)
    rwa [Nat.add_sub_cancel' hm] at hmin
  have hsame : ∀ m, fewest ≤ m → (c.ledger m).ahead w ≤ (c.ledger fewest).ahead w := by
    intro m hm
    induction hm with
    | refl => exact Nat.le_refl _
    | @step m hm ih => exact Nat.le_trans (hshrinks m (Nat.le_trans (Nat.le_add_right ..) hm)) ih
  have hlate : n ≤ fewest := Nat.le_trans hlate'.1 (Nat.le_add_right ..)
  obtain ⟨m, ticket, hm, hgranted, hnew⟩ := hfair.granted hs (n := fewest) fun m hm =>
    List.ne_nil_of_mem (hstays m (Nat.le_trans hlate hm))
  have hm' : n ≤ m := Nat.le_trans hlate hm
  have hlt := ahead_lt (c.goes m) (kept_of_moves hs (c.moves m)).lined
    (kept_of_moves hs (c.moves (m + 1))).sound.serves.1 (hstays m hm') (hstays (m + 1) (Nat.le_succ_of_le hm'))
    hgranted hnew
  have := hsame m hm
  have := hfewest (m + 1) (Nat.le_trans (Nat.le_add_right ..) (Nat.le_succ_of_le hm))
  omega

/-- The call of every task ends, unless infinitely many tasks come that have a better priority. -/
theorem Fair.answers (hs : Session.start capacity = .ok s) (hfair : c.Fair) {n k : Nat}
    (ht : (c.ledger n).tasks[i]? = some t)
    (hfew : ∀ n j u, (c.ledger n).tasks[j]? = some u → u.priority.Before t.priority → j < k) :
    ∃ m u, n ≤ m ∧ (c.ledger m).tasks[i]? = some u ∧ u.Answered := by
  obtain ⟨m, hm, u, hu, hpriority, hbegun⟩ : ∃ m, n ≤ m ∧ ∃ u, (c.ledger m).tasks[i]? = some u ∧
      u.priority = t.priority ∧ u.phase ≠ .fresh := by
    obtain ⟨first, hfirst⟩ := Filter.eventually_atTop.mp (hfair.begins i)
    obtain ⟨u, hu, hpriority, -⟩ := later (Nat.le_max_left n first) ht
    exact ⟨_, Nat.le_max_left .., u, hu, hpriority, hfirst _ (Nat.le_max_right ..) u hu⟩
  cases hphase : u.phase with
  | fresh => exact absurd hphase hbegun
  | gate => exact ⟨m, u, hm, hu, .inl hphase⟩
  | «over» => exact ⟨m, u, hm, hu, .inr hphase⟩
  | waiting ticket =>
    have hkept := kept_of_moves hs (c.moves m)
    -- Sooner or later the ticket is settled, and then the task can go on.
    have hsettled : ∃ k v, m ≤ k ∧ (c.ledger k).tasks[i]? = some v ∧
        (v.phase = .waiting ticket → ticket ∈ (c.ledger k).pool.settled.map (·.1)) := by
      rcases List.mem_append.mp (hkept.sound.mem_tickets hu hphase) with hmem | hmem
      · obtain ⟨w, hw, rfl⟩ := List.mem_map.mp hmem
        have hrank := hkept.ranked w hw u (List.mem_of_getElem? hu) hphase
        obtain ⟨k, hk, hgone⟩ := hfair.leaves hs (n := m) (w := w) fun n j v hv hbefore =>
          hfew n j v hv (hpriority ▸ hrank ▸ hbefore)
        obtain ⟨v, hv, -⟩ := later hk hu
        refine ⟨k, v, hk, hv, fun hwaits => ?_⟩
        rcases List.mem_append.mp ((kept_of_moves hs (c.moves k)).sound.mem_tickets hv hwaits) with h | h
        · obtain ⟨x, hx, heq⟩ := List.mem_map.mp h
          have hold := was_in_line hk hx (heq ▸ hkept.lined.old w hw)
          have hsame := List.inj_on_of_nodup_map hkept.sound.serves.1.nodup_waiting hold hw heq
          exact absurd (hsame ▸ hx) hgone
        · exact h
      · exact ⟨m, u, Nat.le_refl m, hu, fun _ => hmem⟩
    obtain ⟨k, v, hk, hv, hready⟩ := hsettled
    obtain ⟨v', hv', -, -, -, hwaits⟩ := later hk hu
    obtain rfl : v' = v := Option.some.inj (hv'.symm.trans hv)
    rcases hwaits ticket hphase with hwaits | hanswered
    · obtain ⟨k', x, hk', hx, hne⟩ := hfair.turns k i v' hv (.inr ⟨ticket, hwaits, hready hwaits⟩)
      obtain ⟨y, hy, -, -, -, hthen⟩ := later hk' hv
      obtain rfl : y = x := Option.some.inj (hy.symm.trans hx)
      exact ⟨k', y, by omega, hx, (hthen ticket hwaits).resolve_left (hwaits ▸ hne)⟩
    · exact ⟨k, v', by omega, hv, hanswered⟩

theorem exists_cons {j k : Ledger α} {f : Nat → Ledger α} (hmove : Move j k) (hzero : f 0 = k)
    (hf : ∀ n, Move (f n) (f (n + 1))) :
    ∃ g : Nat → Ledger α, g 0 = j ∧ (∀ n, Move (g n) (g (n + 1))) ∧ ∀ n, g (n + 1) = f n := by
  refine ⟨fun n => n.casesOn j f, rfl, fun n => ?_, fun _ => rfl⟩
  cases n with
  | zero =>
    change Move j (f 0)
    rwa [hzero]
  | succ n => exact hf n

theorem exists_ending {l m : Ledger α} (h : Moves l m) :
    ∃ f : Nat → Ledger α, f 0 = l ∧ (∀ n, Move (f n) (f (n + 1))) ∧ ∃ k, ∀ n, k ≤ n → f n = m := by
  induction h with
  | refl l =>
    exact ⟨fun _ => l, rfl, fun _ => .schedule l l.session.ready l.session.opened l.session.events, 0,
      fun _ _ => rfl⟩
  | cons hmove _ ih =>
    obtain ⟨f, hzero, hf, k, hk⟩ := ih
    obtain ⟨g, hg, hmoves, hsucc⟩ := exists_cons hmove hzero hf
    refine ⟨g, hg, hmoves, k + 1, fun n hn => ?_⟩
    obtain ⟨d, rfl⟩ := Nat.exists_eq_add_of_le' hn
    exact (hsucc _).trans (hk _ (Nat.le_add_left ..))

/-- Whatever happens in a session is the beginning of a course, in which nothing happens afterwards. -/
theorem exists_through {l m : Ledger α} (h : Moves (opening s) l) (h' : Moves l m) :
    ∃ c : Course s, (∃ n, c.ledger n = l) ∧ ∃ k, ∀ n, k ≤ n → c.ledger n = m := by
  have hall : ∃ g : Nat → Ledger α, g 0 = opening s ∧ (∀ n, Move (g n) (g (n + 1))) ∧
      (∃ n, g n = l) ∧ ∃ k, ∀ n, k ≤ n → g n = m := by
    generalize opening s = first at h ⊢
    induction h with
    | refl l =>
      obtain ⟨f, hzero, hf, hends⟩ := exists_ending h'
      exact ⟨f, hzero, hf, ⟨0, hzero⟩, hends⟩
    | cons hmove _ ih =>
      obtain ⟨f, hzero, hf, ⟨i, hi⟩, k, hk⟩ := ih h'
      obtain ⟨g, hg, hmoves, hsucc⟩ := exists_cons hmove hzero hf
      refine ⟨g, hg, hmoves, ⟨i + 1, (hsucc i).trans hi⟩, k + 1, fun n hn => ?_⟩
      obtain ⟨d, rfl⟩ := Nat.exists_eq_add_of_le' hn
      exact (hsucc _).trans (hk _ (Nat.le_add_left ..))
  obtain ⟨g, hbegins, hgoes, hthrough, hends⟩ := hall
  exact ⟨⟨g, hbegins, hgoes⟩, hthrough, hends⟩

/-- A course in which all calls end is lively. -/
theorem lively_of_idle {l : Ledger α} {k : Nat} (hends : ∀ n, k ≤ n → c.ledger n = l)
    (hended : ∀ t ∈ l.tasks, t.Answered) : c.Lively := by
  intro n i t ht hready
  obtain ⟨u, hu, -⟩ := later (Nat.le_max_left n k) ht
  refine ⟨_, u, Nat.le_max_left n k, hu, fun heq => ?_⟩
  have hanswered := hended u (List.mem_of_getElem? (hends _ (Nat.le_max_right n k) ▸ hu))
  rcases hready with hphase | ⟨_, hphase, -⟩ <;> rw [hphase] at heq <;>
    rcases hanswered with hover | hover <;> rw [heq] at hover <;> cases hover

end Course

end TreeCensus.Pool
