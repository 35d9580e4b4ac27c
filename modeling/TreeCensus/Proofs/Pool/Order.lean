import TreeCensus.Proofs.Pool.Ledger
import TreeCensus.Proofs.Pool.Outcomes

/-!
# The order of admission

Those who wait at a pool stand in line by their priorities, and those of one priority in the order in
which they came. Whatever happens, the line stays in order, and permits are granted to the first one
in it, or to somebody who comes when nobody is in it.
-/

namespace TreeCensus

set_option autoImplicit false

namespace Waiter

variable {u v w : Waiter}

/-- Stands in line before the other one, by priority and then by arrival. -/
def Precedes (w v : Waiter) : Prop :=
  w.priority.Before v.priority ∨ w.priority = v.priority ∧ w.ticket < v.ticket

instance (w v : Waiter) : Decidable (w.Precedes v) :=
  inferInstanceAs (Decidable (w.priority.Before v.priority ∨ w.priority = v.priority ∧ w.ticket < v.ticket))

theorem Precedes.trans (huv : u.Precedes v) (hvw : v.Precedes w) : u.Precedes w := by
  unfold Precedes at *
  rcases huv with huv | ⟨huv, hlt⟩ <;> rcases hvw with hvw | ⟨hvw, hlt'⟩
  · exact .inl (List.lt_trans huv hvw)
  · exact .inl (hvw ▸ huv)
  · exact .inl (huv ▸ hvw)
  · exact .inr ⟨huv.trans hvw, Nat.lt_trans hlt hlt'⟩

theorem Precedes.irrefl (w : Waiter) : ¬ w.Precedes w := by
  rintro (h | ⟨_, h⟩)
  · exact List.lt_irrefl _ h
  · exact Nat.lt_irrefl _ h

theorem Precedes.asymm (h : w.Precedes v) : ¬ v.Precedes w :=
  fun h' => irrefl w (h.trans h')

/-- Who came earlier goes first, unless the other one has a better priority. -/
theorem precedes_of_earlier (hlt : v.ticket < w.ticket) (h : ¬ w.priority.Before v.priority) :
    v.Precedes w := by
  rcases List.le_iff_lt_or_eq.mp (List.not_lt.mp h) with h | h
  · exact .inl h
  · exact .inr ⟨h, hlt⟩

/-- Of two waiters one comes first. -/
theorem precedes_or (h : v.ticket ≠ w.ticket) : v.Precedes w ∨ w.Precedes v := by
  rcases Nat.lt_or_gt_of_ne h with hlt | hlt
  · by_cases hbefore : w.priority.Before v.priority
    · exact .inr (.inl hbefore)
    · exact .inl (precedes_of_earlier hlt hbefore)
  · by_cases hbefore : v.priority.Before w.priority
    · exact .inl (.inl hbefore)
    · exact .inr (precedes_of_earlier hlt hbefore)

end Waiter

namespace Pool

variable {p q : Pool}

/-- The line is in order, and whoever is in it came before the next one will. -/
structure Lined (p : Pool) : Prop where
  sorted : p.waiting.Pairwise Waiter.Precedes
  old : ∀ w ∈ p.waiting, w.ticket < p.next

theorem pairwise_enqueue {w : Waiter} {ws : List Waiter} (h : ws.Pairwise Waiter.Precedes)
    (hlast : ∀ v ∈ ws, v.ticket < w.ticket) : (enqueue w ws).Pairwise Waiter.Precedes := by
  induction ws with
  | nil => exact List.pairwise_singleton _ _
  | cons v vs ih =>
    obtain ⟨hfirst, hrest⟩ := List.pairwise_cons.mp h
    unfold enqueue
    split
    · next hbefore =>
      refine List.pairwise_cons.mpr ⟨fun u hu => ?_, h⟩
      rcases List.mem_cons.mp hu with rfl | hu
      · exact .inl hbefore
      · exact Waiter.Precedes.trans (.inl hbefore) (hfirst u hu)
    · next hbefore =>
      refine List.pairwise_cons.mpr ⟨fun u hu => ?_, ih hrest fun u hu => hlast u (List.mem_cons_of_mem v hu)⟩
      rcases List.mem_cons.mp ((Books.perm_enqueue w vs).mem_iff.mp hu) with rfl | hu
      · exact Waiter.precedes_of_earlier (hlast v List.mem_cons_self) hbefore
      · exact hfirst u hu

theorem Settling.sublist (h : Settling p q) : q.waiting.Sublist p.waiting := by
  cases h with
  | grant first _ => exact first ▸ List.sublist_cons_self _ _
  | dismiss _ _ => exact List.filter_sublist

theorem Settles.sublist (h : Settles p q) : q.waiting.Sublist p.waiting := by
  induction h with
  | refl => exact List.Sublist.refl _
  | cons hone _ ih => exact ih.trans hone.sublist

theorem Settles.adds (h : Settles p q) : p.settled <+: q.settled := by
  induction h with
  | refl => exact List.prefix_rfl
  | cons hone _ ih =>
    refine .trans ?_ ih
    cases hone <;> exact List.prefix_append _ _

theorem settles_release (p : Pool) (count : Int) :
    Settles { p with held := p.held - count } (p.release count).1 := by
  unfold release
  dsimp only
  split
  · exact .refl _
  · exact settles_wake { p with held := p.held - count }

theorem Lined.settles (h : Lined p) (hpq : Settles p q) : Lined q :=
  ⟨h.sorted.sublist hpq.sublist, fun w hw => hpq.next ▸ h.old w (hpq.sublist.subset hw)⟩

/-- Who is granted permits was in line, and nobody who was so and was not settled before it stood before
it. -/
theorem Settles.inTurn (h : Settles p q) (hsorted : p.waiting.Pairwise Waiter.Precedes)
    {before after : List (Nat × Settlement)} {ticket : Nat}
    (hset : q.settled = p.settled ++ (before ++ (ticket, .granted) :: after)) :
    ∃ w ∈ p.waiting, w.ticket = ticket ∧
      ∀ v ∈ p.waiting, v.ticket ∉ before.map (·.1) → ¬ v.Precedes w := by
  induction h generalizing before with
  | refl =>
    have hlength := congrArg List.length hset
    simp at hlength
  | @cons p r q hone hrest ih =>
    -- The first entry is that of this settling, all others come later.
    have hentry : ∃ e, r.settled = p.settled ++ [e] ∧
        ∀ v ∈ p.waiting, v.ticket ≠ e.1 → v ∈ r.waiting := by
      cases hone with
      | @grant w ws first _ =>
        refine ⟨_, rfl, fun v hv hne => ?_⟩
        rw [first] at hv
        rcases List.mem_cons.mp hv with rfl | hv
        · exact absurd rfl hne
        · exact hv
      | dismiss _ _ => exact ⟨_, rfl, fun v hv hne => List.mem_filter.mpr ⟨hv, by simpa using hne⟩⟩
    obtain ⟨e, hr, hstays⟩ := hentry
    obtain ⟨new, hnew⟩ := hrest.adds
    have hsplit : before ++ (ticket, .granted) :: after = e :: new := by
      rw [hr, List.append_assoc, List.singleton_append] at hnew
      exact List.append_cancel_left (hset.symm.trans hnew.symm)
    rcases List.append_eq_cons_iff.mp hsplit with ⟨rfl, heq⟩ | ⟨rest, rfl, rfl⟩
    · obtain ⟨rfl, -⟩ := List.cons.inj heq
      cases hone with
      | @grant w ws first _ =>
        obtain rfl : w.ticket = ticket := by simpa using hr
        refine ⟨w, first ▸ List.mem_cons_self, rfl, fun v hv _ => ?_⟩
        rw [first] at hv hsorted
        rcases List.mem_cons.mp hv with rfl | hv
        · exact Waiter.Precedes.irrefl v
        · exact ((List.pairwise_cons.mp hsorted).1 v hv).asymm
      | @dismiss w s _ refused =>
        obtain ⟨-, rfl⟩ : w.ticket = ticket ∧ s = .granted := by simpa using hr
        exact absurd rfl refused
    · have hrest' : q.settled = r.settled ++ (rest ++ (ticket, .granted) :: after) := by
        rw [← hnew]
      obtain ⟨w, hw, hticket, hfirst⟩ := ih (hsorted.sublist hone.sublist) hrest'
      refine ⟨w, hone.sublist.subset hw, hticket, fun v hv hnot => ?_⟩
      rw [List.map_cons, List.mem_cons, not_or] at hnot
      exact hfirst v (hstays v hv hnot.1) hnot.2

theorem request_none_eq {priority : Priority} {count : Int}
    (h : p.request priority count = (q, none)) : p.waiting = [] ∧ q = { p with held := p.held + count } := by
  unfold request at h
  split at h
  · next hfree => exact ⟨hfree.1, (Prod.mk.inj h).1.symm⟩
  · simp at h

theorem request_some_eq {priority : Priority} {count : Int} {ticket : Nat}
    (h : p.request priority count = (q, some ticket)) : ticket = p.next ∧ q = { p with
      waiting := enqueue ⟨p.next, priority, count⟩ p.waiting, next := p.next + 1 } := by
  unfold request at h
  split at h
  · simp at h
  · obtain ⟨hpool, heq⟩ := Prod.mk.inj h
    exact ⟨(Option.some.inj heq).symm, hpool.symm⟩

theorem Lined.request (h : Lined p) {priority : Priority} {count : Int} {ticket : Nat}
    (hq : p.request priority count = (q, some ticket)) : Lined q := by
  rw [(request_some_eq hq).2]
  refine ⟨pairwise_enqueue h.sorted h.old, fun w hw => ?_⟩
  rcases List.mem_cons.mp ((Books.perm_enqueue _ _).mem_iff.mp hw) with rfl | hw
  · exact Nat.lt_succ_self _
  · exact Nat.lt_succ_of_lt (h.old w hw)

namespace Session

variable {α : Type} {t : Task α}

theorem Takes.eq (h : Takes p t q) : ∃ held, q = { t.cleared p with held } := by
  cases h with
  | atOnce fresh granted =>
    rw [(request_none_eq granted).2, Task.cleared, fresh]
    exact ⟨_, rfl⟩
  | collected waits granted =>
    rw [Task.cleared, waits]
    rcases collect?_cases granted with ⟨-, -, rfl, -⟩ | ⟨-, -, -, hf⟩ | ⟨-, -, -, -, f, hf⟩
    · exact ⟨_, rfl⟩
    · cases hf
    · cases hf

/-- In its turn a task gets in line, or some of those in line are settled. -/
theorem Turn.settles {phase : Phase} {outcome : Option Bool} (h : Turn p t q phase outcome) :
    (∃ held, Settles { t.cleared p with held } q) ∨
      ∃ ticket, t.phase = .fresh ∧ p.request t.priority t.count = (q, some ticket) := by
  cases h with
  | idle unsettled =>
    refine .inl ⟨p.held, ?_⟩
    unfold Task.cleared
    split
    · next ticket hwaits =>
      have herase : p.settled.eraseP (·.1 = ticket) = p.settled := by
        apply List.eraseP_of_forall_not
        intro e he heq
        apply unsettled ticket hwaits
        rw [← of_decide_eq_true heq]
        exact List.mem_map_of_mem he
      rw [without, herase]
      exact .refl p
    · exact .refl p
  | drop fresh | refuse fresh =>
    rw [Task.cleared, fresh]
    exact .inl ⟨p.held, .refl p⟩
  | queue fresh queued => exact .inr ⟨_, fresh, queued⟩
  | fail waits failed =>
    rw [Task.cleared, waits]
    rcases collect?_cases failed with ⟨-, -, -, hf⟩ | ⟨-, -, rfl, -⟩ | ⟨-, -, -, rfl, -⟩
    · cases hf
    · exact .inl ⟨_, settles_release _ _⟩
    · exact .inl ⟨_, settles_wake _⟩
  | keep takes _ | park takes _ =>
    obtain ⟨held, rfl⟩ := takes.eq
    exact .inl ⟨held, .refl _⟩
  | done takes _ =>
    obtain ⟨held, rfl⟩ := takes.eq
    exact .inl ⟨held - t.count, settles_release { t.cleared p with held } t.count⟩
  | finish parked =>
    rw [Task.cleared, parked]
    exact .inl ⟨_, settles_release _ _⟩

/-- Who comes and gets permits at once finds nobody in line. -/
theorem Turn.waiting_eq_nil {phase : Phase} {outcome : Option Bool} (h : Turn p t q phase outcome)
    (hgranted : outcome = some true) : t.phase = .fresh ∧ p.waiting = [] ∨
      ∃ ticket, t.phase = .waiting ticket ∧ (ticket, .granted) ∈ p.settled := by
  have htakes : ∀ {r : Pool}, Takes p t r → t.phase = .fresh ∧ p.waiting = [] ∨
      ∃ ticket, t.phase = .waiting ticket ∧ (ticket, .granted) ∈ p.settled := by
    intro r h
    cases h with
    | atOnce fresh granted => exact .inl ⟨fresh, (request_none_eq granted).1⟩
    | collected waits granted => exact .inr ⟨_, waits, collect_none granted⟩
  cases h with
  | keep takes _ | park takes _ | done takes _ => exact htakes takes
  | idle | drop | refuse | queue | fail | finish => cases hgranted

end Session

namespace Ledger

variable {α : Type} {l m : Ledger α}

/-- From `l` to `m` some of those in line are settled, and nobody gets in line. -/
def Clears (l m : Ledger α) : Prop :=
  ∃ before : Pool, before.waiting = l.pool.waiting ∧ before.next = l.pool.next ∧
    before.settled ⊆ l.pool.settled ∧ Settles before m.pool ∧
    m.completed = l.completed ++ (m.pool.settled.drop before.settled.length).map (·.1)

theorem Clears.of_settles (hsettles : Settles l.pool m.pool) (hcompleted : m.completed =
    l.completed ++ (m.pool.settled.drop l.pool.settled.length).map (·.1)) : Clears l m :=
  ⟨l.pool, rfl, rfl, List.Subset.refl _, hsettles, hcompleted⟩

theorem Clears.of_eq (hpool : m.pool = l.pool) (hcompleted : m.completed = l.completed) : Clears l m := by
  refine .of_settles (hpool ▸ .refl _) ?_
  rw [hpool, hcompleted, List.drop_length, List.map_nil, List.append_nil]

/-- In a move somebody gets in line, or some of those in it are settled. -/
def Shifts (l m : Ledger α) : Prop :=
  Clears l m ∨ ∃ (priority : Priority) (count : Int) (ticket : Nat),
    l.pool.request priority count = (m.pool, some ticket) ∧ m.completed = l.completed

theorem shifts_turn {i : Nat} {t : Task α} {after : Session α} {phase : Phase} {outcome : Option Bool}
    (hturn : Session.Turn l.pool t after.pool phase outcome) : Shifts l (l.turn i t after) := by
  have hcleared : (t.cleared l.pool).next = l.pool.next ∧
      (t.cleared l.pool).waiting = l.pool.waiting ∧ (t.cleared l.pool).settled ⊆ l.pool.settled := by
    unfold Task.cleared
    split
    · exact ⟨rfl, rfl, List.eraseP_subset⟩
    · exact ⟨rfl, rfl, List.Subset.refl _⟩
  obtain ⟨hnext, hwaiting, hsettled⟩ := hcleared
  rcases hturn.settles with ⟨held, hsettles⟩ | ⟨ticket, hfresh, hqueued⟩
  · exact .inl ⟨{ t.cleared l.pool with held }, hwaiting, hnext, hsettled, hsettles, rfl⟩
  · refine .inr ⟨_, _, ticket, hqueued, ?_⟩
    change l.completed ++ (after.pool.settled.drop (t.cleared l.pool).settled.length).map (·.1) = _
    rw [(request_some hqueued).2.2, Task.cleared, hfresh, List.drop_length, List.map_nil, List.append_nil]

theorem Move.shifts (h : Move l m) : Shifts l m := by
  cases h with
  | submit name count priority token errand _ =>
    cases token with
    | none => exact .inl (.of_eq rfl rfl)
    | some token => exact .inl (.of_eq (Session.token_eq l.session token).1 rfl)
  | resume i t known =>
    obtain ⟨phase, hturn, -⟩ := Session.resume_turn l.session known
    exact shifts_turn hturn
  | finish i t result known parked =>
    have hturn : Session.Turn l.pool t (l.session.giveBack i t result).pool .over none :=
      (Session.giveBack_eq l.session i t result).1 ▸ .finish parked
    exact shifts_turn hturn
  | release i t known keeps granted kept =>
    refine .inl ⟨{ l.pool with held := l.pool.held - t.count }, rfl, rfl, List.Subset.refl _, ?_, rfl⟩
    have hpool : (l.session.perform (.release t.count)).1.pool = (l.pool.release t.count).1 :=
      (Session.enqueueSettled_eq _).1
    change Settles _ (l.session.perform (.release t.count)).1.pool
    rw [hpool]
    exact settles_release l.pool t.count
  | interrupt i t known => exact .inl (.of_settles (Session.interrupt_eq l.session i t).1 rfl)
  | cancel token reason => exact .inl (.of_settles (Session.cancel_eq l.session token reason).1 rfl)
  | schedule ready opened events => exact .inl (.of_eq rfl rfl)

theorem lined_move (h : l.pool.Lined) (hmove : Move l m) : m.pool.Lined := by
  rcases hmove.shifts with ⟨before, hwaiting, hnext, -, hsettles, -⟩ | ⟨_, _, _, hqueued, -⟩
  · have hbefore : before.Lined := ⟨hwaiting ▸ h.sorted, by rw [hwaiting, hnext]; exact h.old⟩
    exact hbefore.settles hsettles
  · exact h.request hqueued

theorem lined_moves (h : l.pool.Lined) (hmoves : Moves l m) : m.pool.Lined := by
  induction hmoves with
  | refl => exact h
  | cons hmove _ ih => exact ih (lined_move h hmove)

theorem lined_opening {capacity : Int} {s : Session α} (hs : Session.start capacity = .ok s) :
    (opening s).pool.Lined := by
  unfold Session.start create at hs
  split at hs
  · cases hs
  · obtain rfl := Except.ok.inj hs
    exact ⟨.nil, nofun⟩

/-- What is settled is on record as completed. -/
theorem completed_moves (h : ∀ e ∈ l.pool.settled, e.1 ∈ l.completed) (hmoves : Moves l m) :
    ∀ e ∈ m.pool.settled, e.1 ∈ m.completed := by
  induction hmoves with
  | refl => exact h
  | cons hmove _ ih =>
    apply ih
    rcases hmove.shifts with ⟨before, -, -, hsub, hsettles, hcompleted⟩ | ⟨_, _, _, hqueued, hcompleted⟩
    · obtain ⟨new, hnew⟩ := hsettles.adds
      rw [hcompleted, ← hnew, List.drop_left]
      intro e he
      rcases List.mem_append.mp he with he | he
      · exact List.mem_append_left _ (h e (hsub he))
      · exact List.mem_append_right _ (List.mem_map_of_mem he)
    · rw [hcompleted, (request_some hqueued).2.2]
      exact h

/-- How a task may come by permits: it comes when nobody is in line, or its ticket has been granted. -/
def Earns (l : Ledger α) (i : Nat) : Prop :=
  ∃ t, l.tasks[i]? = some t ∧ (t.phase = .fresh ∧ l.pool.waiting = [] ∨
    ∃ ticket, t.phase = .waiting ticket ∧ (ticket, .granted) ∈ l.pool.settled ∧ ticket ∈ l.completed)

/-- In a move permits are granted in the order of admission. -/
structure InTurn (l m : Ledger α) : Prop where
  earned : ∀ i ∈ m.granted, i ∉ l.granted → l.Earns i
  /-- When a ticket is granted, nobody stands before it in line that is not settled by then. -/
  first : ∀ before ticket after, m.completed = l.completed ++ (before ++ ticket :: after) →
    (ticket, .granted) ∈ m.pool.settled → ∃ w ∈ l.pool.waiting, w.ticket = ticket ∧
      ∀ v ∈ l.pool.waiting, v.ticket ∉ before → ¬ v.Precedes w

theorem Move.earned (hmove : Move l m) (hcompleted : ∀ e ∈ l.pool.settled, e.1 ∈ l.completed) :
    ∀ i ∈ m.granted, i ∉ l.granted → l.Earns i := by
  intro i hi hnew
  cases hmove with
  | resume j t known =>
    change i ∈ (if _ then _ else _) at hi
    split at hi
    · next houtcome =>
      rcases List.mem_cons.mp hi with rfl | hi
      · obtain ⟨phase, hturn, -⟩ := Session.resume_turn l.session known
        refine ⟨t, known, (hturn.waiting_eq_nil houtcome).imp_right ?_⟩
        rintro ⟨ticket, hwaits, hgranted⟩
        exact ⟨ticket, hwaits, hgranted, hcompleted _ hgranted⟩
      · exact absurd hi hnew
    · exact absurd hi hnew
  | finish j t result known parked =>
    change i ∈ (if _ then _ else _) at hi
    rw [Session.outcome?, parked] at hi
    exact absurd hi hnew
  | submit | release | interrupt | cancel | schedule => exact absurd hi hnew

theorem Move.first (hmove : Move l m) (hlined : l.pool.Lined) {claims : List (Nat × Int)} {out : Int}
    (hbooks : Books m.pool claims out) {before after : List Nat} {ticket : Nat}
    (hcompleted : m.completed = l.completed ++ (before ++ ticket :: after))
    (hgranted : (ticket, .granted) ∈ m.pool.settled) : ∃ w ∈ l.pool.waiting, w.ticket = ticket ∧
      ∀ v ∈ l.pool.waiting, v.ticket ∉ before → ¬ v.Precedes w := by
  rcases hmove.shifts with ⟨p, hwaiting, -, -, hsettles, hnotes⟩ | ⟨_, _, _, -, hnotes⟩
  · obtain ⟨new, hnew⟩ := hsettles.adds
    rw [hcompleted, ← hnew, List.drop_left] at hnotes
    obtain ⟨earlier, rest, rfl, rfl, hrest⟩ :=
      List.map_eq_append_iff.mp (List.append_cancel_left hnotes).symm
    obtain ⟨⟨n, settlement⟩, later, rfl, rfl, -⟩ := List.map_eq_cons_iff.mp hrest
    obtain rfl : settlement = .granted := by
      have hmem : (n, settlement) ∈ m.pool.settled := by
        rw [← hnew]
        simp
      exact congrArg Prod.snd (List.inj_on_of_nodup_map hbooks.nodup_settled hmem hgranted rfl)
    rw [← hwaiting]
    exact hsettles.inTurn (hwaiting ▸ hlined.sorted) hnew.symm
  · have hlength := congrArg List.length (hnotes.symm.trans hcompleted)
    simp at hlength

/-- Whatever has happened in a session, permits are granted to the first one in line, and at once only
if nobody is in it. -/
theorem inTurn_of_moves {capacity : Int} {s : Session α} (hs : Session.start capacity = .ok s)
    (h : Moves (opening s) l) (hmove : Move l m) : InTurn l m := by
  have hsound := ((Sound.opening hs).moves h).move hmove
  have hempty : (opening s).pool.settled = [] := by
    unfold Session.start create at hs
    split at hs
    · cases hs
    · obtain rfl := Except.ok.inj hs
      rfl
  have hcompleted : ∀ e ∈ l.pool.settled, e.1 ∈ l.completed :=
    completed_moves (by rw [hempty]; nofun) h
  exact ⟨hmove.earned hcompleted,
    fun before ticket after => hmove.first (lined_moves (lined_opening hs) h) hsound.serves.1⟩

/-- Of two tasks that wait for a permit the one that came later is given it first, since it has a better
priority. -/
theorem inTurn_by_priority : ∃ (s : Session Unit) (l m : Ledger Unit),
    Session.start 1 = .ok s ∧ Moves (opening s) l ∧ Move l m ∧
      l.pool.waiting.map (·.ticket) = [1, 0] ∧ m.completed = [1] ∧ InTurn l m := by
  let start : Session Unit := ⟨⟨⟨1, 0, [], [], 0⟩, .empty⟩, [], [], [], [], []⟩
  have hstart : Session.start 1 = .ok start := rfl
  have hmoves := Moves.cons (.submit (opening start) ['a'] 1 .root none .keep (by decide)) <|
    .cons (.submit _ ['b'] 1 [2] none .keep (by decide)) <|
    .cons (.submit _ ['c'] 1 [1] none .keep (by decide)) <|
    .cons (.resume _ 0 _ rfl) <| .cons (.resume _ 1 _ rfl) <| .cons (.resume _ 2 _ rfl) <| .refl _
  have hnext {l m : Ledger Unit} (h : Moves (opening start) l) (hmove : Move l m) :
      Move l m ∧ InTurn l m := ⟨hmove, inTurn_of_moves hstart h hmove⟩
  obtain ⟨hmove, hinTurn⟩ := hnext hmoves (.release _ 0 _ rfl rfl (by decide) (by decide))
  exact ⟨_, _, _, hstart, hmoves, hmove, rfl, rfl, hinTurn⟩

end Ledger

end Pool

end TreeCensus
