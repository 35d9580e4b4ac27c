import TreeCensus.Proofs.Pool.Turns

/-!
# Ledgers of a pool

A ledger is a session together with what it does not remember: which tasks were given permits and
which were refused them, which tasks gave permits back, and which tickets were settled, each noted
once for every time that it happened. `Move` allows everything that can happen to a session, in any
order: tasks come, take turns, are told to end, end their errands in any way and give back what they
keep, and tokens are cancelled. `Ledger.Sound` is kept by every move, and the accounts of a pool
follow from it.
-/

namespace TreeCensus.Pool

set_option autoImplicit false

variable {α : Type}

structure Ledger (α : Type) where
  session : Session α
  /-- The tasks that were given their permits. -/
  granted : List Nat
  /-- The tasks whose call for permits failed. -/
  raised : List Nat
  /-- The tasks that gave their permits back. -/
  returned : List Nat
  /-- The tickets that were settled. -/
  completed : List Nat

namespace Ledger

def opening (s : Session α) : Ledger α := ⟨s, [], [], [], []⟩

def pool (l : Ledger α) : Pool := l.session.pool

def tasks (l : Ledger α) : List (Task α) := l.session.tasks

/-- Goes on with another session; what was settled since `before` is noted. -/
def log (l : Ledger α) (before : Pool) (after : Session α) : Ledger α :=
  { l with
    session := after
    completed := l.completed ++ (after.pool.settled.drop before.settled.length).map (·.1) }

/-- Whether a task that does not keep its permits gives them back in a turn: it had them or got them,
and it is over. -/
def givesBack (l : Ledger α) (i : Nat) (t : Task α) (after : Session α) : Bool :=
  !t.errand.keeps && (l.session.outcome? t = some true || t.phase = .gate) &&
    (after.tasks[i]?.map (·.phase)) = some .over

/-- Notes a turn of a task that leads to the session `after`. -/
def turn (l : Ledger α) (i : Nat) (t : Task α) (after : Session α) : Ledger α :=
  { l.log (t.cleared l.pool) after with
    granted := if l.session.outcome? t = some true then i :: l.granted else l.granted
    raised := if l.session.outcome? t = some false then i :: l.raised else l.raised
    returned := if l.givesBack i t after then i :: l.returned else l.returned }

inductive Move : Ledger α → Ledger α → Prop
  | submit (l : Ledger α) (name : Text) (count : Int) (priority : Priority) (token : Option Text)
      (errand : Errand α) (positive : 1 ≤ count) :
      Move l { l with
        session := (l.session.perform (.submit name count priority token errand)).1 }
  | resume (l : Ledger α) (i : Nat) (t : Task α) (known : l.tasks[i]? = some t) :
      Move l (l.turn i t (l.session.resume i t))
  /-- An errand comes to its end behind its gate, and it may well fail there. -/
  | finish (l : Ledger α) (i : Nat) (t : Task α) (result : Except Fault α)
      (known : l.tasks[i]? = some t) (parked : t.phase = .gate) :
      Move l (l.turn i t (l.session.giveBack i t result))
  | release (l : Ledger α) (i : Nat) (t : Task α) (known : l.tasks[i]? = some t)
      (keeps : t.errand.keeps = true) (granted : i ∈ l.granted) (kept : i ∉ l.returned) :
      Move l { l.log l.pool (l.session.perform (.release t.count)).1 with
        returned := i :: l.returned }
  | interrupt (l : Ledger α) (i : Nat) (t : Task α) (known : l.tasks[i]? = some t) :
      Move l (l.log l.pool (l.session.interrupt i t))
  | cancel (l : Ledger α) (token : Text) (reason : Reason) :
      Move l (l.log l.pool (l.session.perform (.cancel token reason)).1)
  /-- Who goes on next, which gates are open and what is reported does not matter. -/
  | schedule (l : Ledger α) (ready : List Nat) (opened : List Text) (events : List (Event α)) :
      Move l { l with session := { l.session with ready, opened, events } }

inductive Moves : Ledger α → Ledger α → Prop
  | refl (l : Ledger α) : Moves l l
  | cons {l m n : Ledger α} : Move l m → Moves m n → Moves l n

theorem Moves.trans {l m n : Ledger α} (hlm : Moves l m) (hmn : Moves m n) : Moves l n := by
  induction hlm with
  | refl => exact hmn
  | cons h _ ih => exact .cons h (ih hmn)

theorem moves_enqueueSettled (l : Ledger α) :
    ∃ m, Moves l m ∧ m.session = l.session.enqueueSettled := by
  obtain ⟨ready, hready⟩ := l.session.enqueueSettled_ready
  exact ⟨_, .cons (.schedule l ready l.session.opened l.session.events) (.refl _), hready.symm⟩

/-- Tasks that go on one after the other make moves. -/
theorem moves_drain (fuel : Nat) :
    ∀ l : Ledger α, ∃ m, Moves l m ∧ m.session = l.session.drain fuel := by
  induction fuel with
  | zero => exact fun l => ⟨l, .refl l, rfl⟩
  | succ fuel ih =>
    intro l
    unfold Session.drain
    split
    · exact ⟨l, .refl l, rfl⟩
    · next i rest _ =>
      have hfirst := Move.schedule l rest l.session.opened l.session.events
      dsimp only
      split
      · obtain ⟨m, hmoves, hm⟩ := ih { l with session := { l.session with ready := rest } }
        exact ⟨m, .cons hfirst hmoves, hm⟩
      · next t ht =>
        have hturn := Move.resume { l with session := { l.session with ready := rest } } i t ht
        obtain ⟨m, hmoves, hm⟩ := moves_enqueueSettled
          (({ l with session := { l.session with ready := rest } } : Ledger α).turn i t
            ({ l.session with ready := rest }.resume i t))
        obtain ⟨n, hrest, hn⟩ := ih m
        refine ⟨n, .cons hfirst (.cons hturn (hmoves.trans hrest)), ?_⟩
        rw [hn, hm]
        rfl

theorem moves_perform (l : Ledger α) {st : Session.Step α}
    (hcount : ∀ name count priority token errand,
      st = .submit name count priority token errand → 1 ≤ count)
    (hrelease : ∀ count, st ≠ .release count) :
    ∃ m, Moves l m ∧ m.session = (l.session.perform st).1 := by
  cases st with
  | submit name count priority token errand =>
    have hmove := Move.submit l name count priority token errand (hcount _ _ _ _ _ rfl)
    exact ⟨_, .cons hmove (.refl _), rfl⟩
  | release count => exact absurd rfl (hrelease count)
  | openGate name =>
    dsimp only [Session.perform]
    split
    · unfold Session.enqueue
      split <;> exact ⟨_, .cons (.schedule l _ _ _) (.refl _), rfl⟩
    · exact ⟨_, .cons (.schedule l _ _ _) (.refl _), rfl⟩
  | interrupt name =>
    dsimp only [Session.perform]
    split
    · exact ⟨l, .refl l, rfl⟩
    · next i _ =>
      split
      · exact ⟨l, .refl l, rfl⟩
      · next t ht =>
        obtain ⟨m, hmoves, hm⟩ := moves_enqueueSettled (l.log l.pool (l.session.interrupt i t))
        exact ⟨m, .cons (.interrupt l i t ht) hmoves, hm⟩
  | cancel token reason => exact ⟨_, .cons (.cancel l token reason) (.refl _), rfl⟩

/-- What a session does on its own is made of moves. -/
theorem moves_step (l : Ledger α) (settling : Bool) {st : Session.Step α}
    (hcount : ∀ name count priority token errand,
      st = .submit name count priority token errand → 1 ≤ count)
    (hrelease : ∀ count, st ≠ .release count) :
    ∃ m, Moves l m ∧ m.session = (l.session.step settling st).1 := by
  have hclear := Move.schedule l l.session.ready l.session.opened []
  obtain ⟨m, hmoves, hm⟩ :=
    moves_perform { l with session := { l.session with events := [] } } hcount hrelease
  dsimp only [Session.step]
  split
  · obtain ⟨n, hdrain, hn⟩ := moves_drain (3 * m.session.tasks.length + m.session.ready.length) m
    refine ⟨n, .cons hclear (hmoves.trans hdrain), hn.trans ?_⟩
    rw [hm]
    rfl
  · exact ⟨m, .cons hclear hmoves, hm⟩

/-- The permits of a task that are not given back: it keeps them, or they were granted to its ticket,
or its errand is in progress. -/
def share (l : Ledger α) (i : Nat) (t : Task α) : Int :=
  match t.phase with
  | .fresh => 0
  | .waiting ticket => owed [(ticket, t.count)] l.pool.settled
  | .gate => t.count
  | .over => if t.errand.keeps ∧ i ∈ l.granted ∧ i ∉ l.returned then t.count else 0

def shares (l : Ledger α) : Int := (l.tasks.zipIdx.map fun e => l.share e.2 e.1).sum

/-- The accounts of a pool in good order. -/
structure InOrder (capacity : Int) (l : Ledger α) : Prop where
  nonneg : 0 ≤ l.pool.held
  bounded : l.pool.held ≤ capacity
  exact : l.pool.held = l.shares
  /-- No call for permits ends twice. -/
  ends : (l.granted ++ l.raised).Nodup
  /-- Only who was given permits gives them back, and not twice. -/
  returns : l.returned.Nodup ∧ l.returned ⊆ l.granted
  /-- An errand that was given permits is in progress, or over with its permits given back. -/
  errands : ∀ (i : Nat) (t : Task α), l.tasks[i]? = some t → t.errand.keeps = false →
    i ∈ l.granted → t.phase = .gate ∧ l.returned.count i = 0 ∨ t.phase = .over ∧ l.returned.count i = 1
  /-- No ticket is settled twice, and none that was settled still waits. -/
  settlements : l.completed.Nodup ∧ ∀ w ∈ l.pool.waiting, w.ticket ∉ l.completed

/-- Whether a task is over and still has the permits that it keeps. -/
def keeps (l : Ledger α) (i : Nat) (t : Task α) : Bool :=
  t.errand.keeps && decide (i ∈ l.granted) && decide (i ∉ l.returned)

def stake (l : Ledger α) (i : Nat) (t : Task α) : Stake := t.stake (l.keeps i t) t.phase

def stakes (l : Ledger α) : List Stake := l.tasks.zipIdx.map fun e => l.stake e.2 e.1

/-- The notes of a ledger agree with the phases of its tasks. -/
structure Noted (l : Ledger α) : Prop where
  ends : (l.granted ++ l.raised).Nodup
  known : ∀ i ∈ l.granted ++ l.raised, i < l.tasks.length
  returns : l.returned.Nodup
  given : ∀ i ∈ l.returned, i ∈ l.granted
  unanswered : ∀ (i : Nat) (t : Task α), l.tasks[i]? = some t →
    (t.phase = .fresh ∨ ∃ n, t.phase = .waiting n) → i ∉ l.granted ++ l.raised
  parked : ∀ (i : Nat) (t : Task α), l.tasks[i]? = some t → t.phase = .gate →
    i ∈ l.granted ∧ i ∉ l.returned ∧ t.errand.keeps = false
  done : ∀ (i : Nat) (t : Task α), l.tasks[i]? = some t → t.phase = .over →
    t.errand.keeps = false → i ∈ l.granted → i ∈ l.returned

structure Sound (capacity : Int) (l : Ledger α) : Prop where
  size : l.pool.capacity = capacity
  serves : Serves l.pool l.stakes
  positive : ∀ t ∈ l.tasks, 0 < t.count
  notes : Noted l
  settled : (l.completed ++ l.pool.waiting.map (·.ticket)).Nodup
  old : ∀ n ∈ l.completed, n < l.pool.next

/-- What a turn notes of a task, if it leads to `phase`. -/
structure Notes (l m : Ledger α) (i : Nat) (t : Task α) (phase : Phase) (outcome : Option Bool) :
    Prop where
  tasks : m.tasks = l.tasks.modify i fun u => { u with phase }
  granted : m.granted = if outcome = some true then i :: l.granted else l.granted
  raised : m.raised = if outcome = some false then i :: l.raised else l.raised
  returned : m.returned =
    if t.errand.keeps = false ∧ (outcome = some true ∨ t.phase = .gate) ∧ phase = .over then
      i :: l.returned else l.returned

/-- One task among the others. -/
theorem zipIdx_split {β : Type} {tasks : List β} {i : Nat} {t : β} (h : tasks[i]? = some t) :
    ∃ before after, tasks.zipIdx = before ++ (t, i) :: after ∧
      (∀ f : β → β, (tasks.modify i f).zipIdx = before ++ (f t, i) :: after) ∧
      ∀ e ∈ before ++ after, e.2 ≠ i := by
  obtain ⟨hi, rfl⟩ := List.getElem?_eq_some_iff.mp h
  refine ⟨(tasks.take i).zipIdx, (tasks.drop (i + 1)).zipIdx (i + 1), ?_, ?_, ?_⟩
  · conv_lhs => rw [← List.take_append_drop i tasks, List.drop_eq_getElem_cons hi]
    rw [List.zipIdx_append, List.zipIdx_cons]
    simp [Nat.min_eq_left (Nat.le_of_lt hi)]
  · intro f
    rw [List.modify_eq_take_cons_drop hi, List.zipIdx_append, List.zipIdx_cons]
    simp [Nat.min_eq_left (Nat.le_of_lt hi)]
  · intro e he heq
    rcases List.mem_append.mp he with he | he
    · have := (List.mem_zipIdx he).2.1
      simp only [List.length_take] at this
      omega
    · have := (List.mem_zipIdx he).1
      omega

theorem modify_cases {β : Type} {tasks : List β} {i j : Nat} {t u : β} {f : β → β}
    (h : tasks[i]? = some t) (hu : (tasks.modify i f)[j]? = some u) :
    j = i ∧ u = f t ∨ j ≠ i ∧ tasks[j]? = some u := by
  rw [List.getElem?_modify] at hu
  by_cases hij : j = i
  · subst hij
    refine .inl ⟨rfl, ?_⟩
    simpa [h, eq_comm] using hu
  · refine .inr ⟨hij, ?_⟩
    simpa [Ne.symm hij] using hu

theorem stakes_modify {l m : Ledger α} {i : Nat} {t : Task α} {f : Task α → Task α}
    (h : l.tasks[i]? = some t) (htasks : m.tasks = l.tasks.modify i f)
    (hother : ∀ (j : Nat) (u : Task α), j ≠ i → m.stake j u = l.stake j u) :
    ∃ rest, l.stakes.Perm (l.stake i t :: rest) ∧ m.stakes.Perm (m.stake i (f t) :: rest) := by
  obtain ⟨before, after, hsplit, hmodify, hne⟩ := zipIdx_split h
  refine ⟨(before ++ after).map fun e => l.stake e.2 e.1, ?_, ?_⟩
  · unfold stakes
    rw [hsplit]
    exact (List.perm_middle.map _)
  · have hrest : (before ++ after).map (fun e => l.stake e.2 e.1) =
        (before ++ after).map fun e => m.stake e.2 e.1 := by
      apply List.map_congr_left
      intro e he
      exact (hother e.2 e.1 (hne e he)).symm
    unfold stakes
    rw [htasks, hmodify f, hrest]
    exact (List.perm_middle.map _)

theorem log_nodup {capacity : Int} {l : Ledger α} (h : Sound capacity l) {before p : Pool} (hgrows : Grows before p)
    (hnext : before.next = l.pool.next) (hwaiting : before.waiting = l.pool.waiting)
    (hsize : before.capacity = l.pool.capacity) :
    p.capacity = capacity ∧
    let completed := l.completed ++ (p.settled.drop before.settled.length).map (·.1)
    (completed ++ p.waiting.map (·.ticket)).Nodup ∧ ∀ n ∈ completed, n < p.next := by
  obtain ⟨hcap, hle, new, come, hset, hperm, hnodup, hlt⟩ := hgrows
  have hdrop : p.settled.drop before.settled.length = new := by rw [hset]; simp
  have hold := h.old
  have hall : ∀ n ∈ l.completed ++ before.waiting.map (·.ticket), n < before.next := by
    intro n hn
    rw [hnext]
    rcases List.mem_append.mp hn with hn | hn
    · exact hold n hn
    · apply h.serves.1.ticket_lt_next
      rw [hwaiting] at hn
      exact List.mem_append_left _ hn
  have hmoved : (l.completed ++ new.map (·.1) ++ p.waiting.map (·.ticket)).Perm
      (come ++ (l.completed ++ before.waiting.map (·.ticket))) := by
    rw [List.append_assoc]
    refine (hperm.append_left l.completed).trans ?_
    rw [← List.append_assoc, ← List.append_assoc]
    exact List.perm_append_comm.append_right _
  have hfresh : (come ++ (l.completed ++ before.waiting.map (·.ticket))).Nodup := by
    refine List.nodup_append.mpr ⟨hnodup, hwaiting ▸ h.settled, ?_⟩
    intro m hm n hn heq
    have := hlt m hm
    have := hall n hn
    omega
  refine ⟨hcap.trans (hsize.trans h.size), hdrop ▸ hmoved.nodup_iff.mpr hfresh, ?_⟩
  intro n hn
  rw [hdrop] at hn
  have hmem : n ∈ come ++ (l.completed ++ before.waiting.map (·.ticket)) :=
    hmoved.mem_iff.mp (List.mem_append_left _ hn)
  rcases List.mem_append.mp hmem with hn | hn
  · exact (hlt n hn).2
  · have := hall n hn
    omega

/-- What a turn says about the call of its task for permits. -/
theorem answer_of_turn {p q : Pool} {t : Task α} {phase : Phase} {outcome : Option Bool}
    (h : Session.Turn p t q phase outcome) :
    (outcome ≠ none → t.phase = .fresh ∨ ∃ n, t.phase = .waiting n) ∧
    ((phase = .fresh ∨ ∃ n, phase = .waiting n) →
      outcome = none ∧ (t.phase = .fresh ∨ ∃ n, t.phase = .waiting n)) ∧
    (phase = .gate → outcome = some true ∧ t.errand.keeps = false ∨ outcome = none ∧ t.phase = .gate) := by
  have htakes : ∀ {r : Pool}, Session.Takes p t r → t.phase = .fresh ∨ ∃ n, t.phase = .waiting n := by
    intro r hr
    cases hr with
    | atOnce hfresh _ => exact .inl hfresh
    | collected hwaits _ => exact .inr ⟨_, hwaits⟩
  cases h with
  | idle => simp
  | drop hfresh => simp
  | refuse hfresh => simp [hfresh]
  | queue hfresh _ => simp [hfresh]
  | fail hwaits _ => simp [hwaits]
  | keep h _ => simpa using htakes h
  | park h hruns => simpa [hruns] using htakes h
  | done h _ => simpa using htakes h
  | finish => simp

theorem notes_turn {l : Ledger α} {i : Nat} {t : Task α} (ht : l.tasks[i]? = some t)
    {after : Session α} {phase : Phase}
    (htasks : after.tasks = l.tasks.modify i fun u => { u with phase }) :
    Notes l (l.turn i t after) i t phase (l.session.outcome? t) := by
  refine ⟨htasks, rfl, rfl, ?_⟩
  have hafter : (after.tasks[i]?.map (·.phase)) = some phase := by simp [htasks, ht]
  simp [turn, log, givesBack, hafter, and_assoc]

namespace Noted

variable {l m : Ledger α} {i : Nat} {t : Task α} {phase : Phase} {outcome : Option Bool}

theorem turn (h : Noted l) (ht : l.tasks[i]? = some t) {p q : Pool}
    (hturn : Session.Turn p t q phase outcome) (hnotes : Notes l m i t phase outcome) : Noted m := by
  obtain ⟨hanswer, hopen, hparked⟩ := answer_of_turn hturn
  obtain ⟨htasks, hgranted, hraised, hreturned⟩ := hnotes
  have hfresh : outcome ≠ none → i ∉ l.granted ++ l.raised :=
    fun hne => h.unanswered i t ht (hanswer hne)
  have hmem : ∀ j, (j ∈ m.granted ↔ j ∈ l.granted ∨ outcome = some true ∧ j = i) ∧
      (j ∈ m.raised ↔ j ∈ l.raised ∨ outcome = some false ∧ j = i) ∧
      (j ∈ m.returned ↔ j ∈ l.returned ∨ (t.errand.keeps = false ∧
        (outcome = some true ∨ t.phase = .gate) ∧ phase = .over) ∧ j = i) := by
    intro j
    rw [hgranted, hraised, hreturned]
    refine ⟨?_, ?_, ?_⟩ <;> split <;> simp_all [or_comm]
  have hcases : ∀ {j : Nat} {u : Task α}, m.tasks[j]? = some u →
      j = i ∧ u = { t with phase } ∨ j ≠ i ∧ l.tasks[j]? = some u :=
    fun hu => modify_cases ht (htasks ▸ hu)
  have hnot : i ∉ l.granted → i ∉ l.returned := fun hi hmem => hi (h.given i hmem)
  refine ⟨?_, ?_, ?_, ?_, ?_, ?_, ?_⟩
  · rw [hgranted, hraised]
    have hends := h.ends
    rcases outcome with _ | _ | _
    · simpa using hends
    · simpa using List.nodup_middle.mpr (List.nodup_cons.mpr ⟨hfresh (by simp), hends⟩)
    · simpa using List.nodup_cons.mpr ⟨hfresh (by simp), hends⟩
  · intro j hj
    rw [htasks, List.length_modify]
    by_cases hji : j = i
    · rw [hji]
      exact (List.getElem?_eq_some_iff.mp ht).1
    · apply h.known j
      simp only [List.mem_append, (hmem j).1, (hmem j).2.1] at hj ⊢
      grind
  · rw [hreturned]
    split
    · next hback =>
      refine List.nodup_cons.mpr ⟨?_, h.returns⟩
      rcases hback.2.1 with ho | hgate
      · exact hnot fun hg => hfresh (by simp [ho]) (List.mem_append_left _ hg)
      · exact (h.parked i t ht hgate).2.1
    · exact h.returns
  · intro j hj
    rcases (hmem j).2.2.mp hj with hj | ⟨⟨-, ho | hgate, -⟩, rfl⟩
    · exact (hmem j).1.mpr (.inl (h.given j hj))
    · exact (hmem j).1.mpr (.inr ⟨ho, rfl⟩)
    · exact (hmem j).1.mpr (.inl (h.parked j t ht hgate).1)
  · intro j u hu hphase hj
    simp only [List.mem_append, (hmem j).1, (hmem j).2.1] at hj
    rcases hcases hu with ⟨rfl, rfl⟩ | ⟨hne, hu⟩
    · obtain ⟨hnone, hbefore⟩ := hopen hphase
      have := h.unanswered j t ht hbefore
      simp only [List.mem_append] at this
      grind
    · have := h.unanswered j u hu hphase
      simp only [List.mem_append] at this
      grind
  · intro j u hu hphase
    rw [(hmem j).1, (hmem j).2.2]
    rcases hcases hu with ⟨rfl, rfl⟩ | ⟨hne, hu⟩
    · simp only at hphase
      rcases hparked hphase with ⟨ho, hruns⟩ | ⟨ho, hgate⟩
      · have := hfresh (by simp [ho])
        simp only [List.mem_append] at this
        grind
      · have := h.parked j t ht hgate
        grind
    · have := h.parked j u hu hphase
      grind
  · intro j u hu hphase hruns hj
    rw [(hmem j).1] at hj
    rw [(hmem j).2.2]
    rcases hcases hu with ⟨rfl, rfl⟩ | ⟨hne, hu⟩
    · simp only at hphase hruns
      cases hbefore : t.phase with
      | «over» => have := h.done j t ht hbefore hruns; grind
      | gate => grind
      | fresh => have := h.unanswered j t ht (.inl hbefore); grind
      | waiting n => have := h.unanswered j t ht (.inr ⟨n, hbefore⟩); grind
    · have := h.done j u hu hphase hruns
      grind

end Noted

namespace Sound

variable {capacity : Int} {l m : Ledger α} {i : Nat} {t : Task α}

theorem keeps_over (h : Sound capacity l) (ht : l.tasks[i]? = some t) (hkeeps : l.keeps i t = true) :
    t.phase = .over := by
  simp only [keeps, Bool.and_eq_true, decide_eq_true_eq] at hkeeps
  obtain ⟨⟨hkeeps, hgranted⟩, -⟩ := hkeeps
  cases hphase : t.phase with
  | «over» => rfl
  | gate =>
    have := (h.notes.parked i t ht hphase).2.2
    rw [hkeeps] at this
    cases this
  | fresh =>
    exact absurd (List.mem_append_left _ hgranted) (h.notes.unanswered i t ht (.inl hphase))
  | waiting n =>
    exact absurd (List.mem_append_left _ hgranted) (h.notes.unanswered i t ht (.inr ⟨n, hphase⟩))

/-- After a turn a task keeps permits if it kept them before or was given them to keep. -/
theorem keeps_turn (h : Sound capacity l) (ht : l.tasks[i]? = some t) {p q : Pool} {phase : Phase}
    {outcome : Option Bool} (hturn : Session.Turn p t q phase outcome)
    (hnotes : Notes l m i t phase outcome) :
    m.keeps i { t with phase } = (l.keeps i t || t.errand.keeps && outcome == some true) := by
  rw [Bool.eq_iff_iff]
  simp only [keeps, hnotes.granted, hnotes.returned]
  cases hk : t.errand.keeps with
  | false => simp
  | true =>
    have hnot : outcome = some true → i ∉ l.returned := by
      intro ho hmem
      have hbefore := (answer_of_turn hturn).1 (by simp [ho])
      exact h.notes.unanswered i t ht hbefore (List.mem_append_left _ (h.notes.given i hmem))
    by_cases ho : outcome = some true <;> simp [ho, hnot]

theorem keeps_turn_other {phase : Phase} {outcome : Option Bool}
    (hnotes : Notes l m i t phase outcome) {j : Nat} (hj : j ≠ i) (u : Task α) :
    m.keeps j u = l.keeps j u := by
  have hgranted : j ∈ m.granted ↔ j ∈ l.granted := by
    rw [hnotes.granted]
    split <;> simp [hj]
  have hreturned : j ∈ m.returned ↔ j ∈ l.returned := by
    rw [hnotes.returned]
    split <;> simp [hj]
  simp only [keeps, hgranted, hreturned]

theorem turn (h : Sound capacity l) (ht : l.tasks[i]? = some t) {after : Session α} {phase : Phase}
    (hturn : Session.Turn l.pool t after.pool phase (l.session.outcome? t))
    (htasks : after.tasks = l.tasks.modify i fun u => { u with phase }) :
    Sound capacity (l.turn i t after) := by
  have hnotes := notes_turn ht htasks
  have hcount := h.positive t (List.mem_of_getElem? ht)
  obtain ⟨rest, hbefore, hthen⟩ := stakes_modify ht hnotes.tasks fun j u hj => by
    simp only [stake, keeps_turn_other hnotes hj u]
  obtain ⟨hserves, hgrows⟩ := hturn.serves hcount (h.keeps_over ht) (h.serves.perm hbefore)
  have hcleared : (t.cleared l.pool).next = l.pool.next ∧
      (t.cleared l.pool).waiting = l.pool.waiting ∧
      (t.cleared l.pool).capacity = l.pool.capacity := by
    unfold Task.cleared
    split <;> exact ⟨rfl, rfl, rfl⟩
  have hlog := log_nodup h hgrows hcleared.1 hcleared.2.1 hcleared.2.2
  refine ⟨hlog.1, ?_, ?_, h.notes.turn ht hturn hnotes, hlog.2.1, hlog.2.2⟩
  · refine .perm ?_ hthen.symm
    rw [stake, h.keeps_turn ht hturn hnotes]
    exact hserves
  · intro u hu
    obtain ⟨j, hj⟩ := List.getElem?_of_mem hu
    rcases modify_cases ht (hnotes.tasks ▸ hj) with ⟨-, rfl⟩ | ⟨-, hu⟩
    · exact hcount
    · exact h.positive u (List.mem_of_getElem? hu)

/-- Waiters are settled while the tasks stay as they are, but for what they have been told. -/
theorem settles (h : Sound capacity l) {after : Session α} (hpool : Settles l.pool after.pool) {b : Bool}
    (htasks : after.tasks = l.tasks.modify i fun u => { u with interrupted := b }) :
    Sound capacity (l.log l.pool after) := by
  have hgrows := Grows.of_settles hpool h.serves.1.nodup_waiting
  have hlog := log_nodup h hgrows rfl rfl rfl
  have hold : ∀ {j : Nat} {u : Task α}, (l.log l.pool after).tasks[j]? = some u →
      ∃ v, l.tasks[j]? = some v ∧ u.phase = v.phase ∧ u.errand = v.errand ∧ u.count = v.count := by
    intro j u hu
    change after.tasks[j]? = some u at hu
    rw [htasks, List.getElem?_modify] at hu
    obtain ⟨v, hv, rfl⟩ := Option.map_eq_some_iff.mp hu
    refine ⟨v, hv, ?_⟩
    split <;> exact ⟨rfl, rfl, rfl⟩
  have hstakes : (l.log l.pool after).stakes = l.stakes := by
    change (after.tasks.zipIdx.map fun e => l.stake e.2 e.1) = l.tasks.zipIdx.map _
    apply List.ext_getElem?
    intro j
    simp only [htasks, List.getElem?_map, List.getElem?_zipIdx, List.getElem?_modify, Option.map_map]
    cases l.tasks[j]? with
    | none => rfl
    | some v =>
      simp only [Option.map_some, Function.comp_apply, Option.map_eq_map]
      split <;> rfl
  refine ⟨hlog.1, ?_, ?_, ?_, hlog.2.1, hlog.2.2⟩
  · rw [hstakes]
    exact h.serves.settles hpool
  · intro u hu
    obtain ⟨j, hj⟩ := List.getElem?_of_mem hu
    obtain ⟨v, hv, -, -, hcount⟩ := hold hj
    exact hcount ▸ h.positive v (List.mem_of_getElem? hv)
  · refine ⟨h.notes.ends, ?_, h.notes.returns, h.notes.given, ?_, ?_, ?_⟩
    · intro j hj
      change j < after.tasks.length
      rw [htasks, List.length_modify]
      exact h.notes.known j hj
    · intro j u hu hphase
      obtain ⟨v, hv, heq, -, -⟩ := hold hu
      exact h.notes.unanswered j v hv (by simpa [heq] using hphase)
    · intro j u hu hphase
      obtain ⟨v, hv, heq, herrand, -⟩ := hold hu
      rw [herrand]
      exact h.notes.parked j v hv (heq ▸ hphase)
    · intro j u hu hphase hruns
      obtain ⟨v, hv, heq, herrand, -⟩ := hold hu
      exact h.notes.done j v hv (heq ▸ hphase) (herrand ▸ hruns)

theorem submit (h : Sound capacity l) {after : Session α} (hpool : after.pool = l.pool) {u : Task α}
    (hu : u.phase = .fresh) (hcount : 0 < u.count) (htasks : after.tasks = l.tasks ++ [u]) :
    Sound capacity { l with session := after } := by
  have hcases : ∀ {j : Nat} {v : Task α}, after.tasks[j]? = some v →
      l.tasks[j]? = some v ∨ j = l.tasks.length ∧ v = u := by
    intro j v hv
    rw [htasks] at hv
    rcases Nat.lt_or_ge j l.tasks.length with hj | hj
    · rw [List.getElem?_append_left hj] at hv
      exact .inl hv
    · rw [List.getElem?_append_right hj, List.getElem?_singleton] at hv
      split at hv
      · exact .inr ⟨by omega, (Option.some.inj hv).symm⟩
      · cases hv
  refine ⟨?_, ?_, ?_, ⟨h.notes.ends, ?_, h.notes.returns, h.notes.given, ?_, ?_, ?_⟩, ?_, ?_⟩
  · change after.pool.capacity = capacity
    rw [hpool]
    exact h.size
  · have hstakes : ({ l with session := after } : Ledger α).stakes = l.stakes ++ [.none] := by
      change (after.tasks.zipIdx.map fun e => l.stake e.2 e.1) = _
      rw [htasks, List.zipIdx_append, List.map_append]
      simp [stakes, stake, hu, Task.stake]
    rw [hstakes]
    change Serves after.pool _
    rw [hpool]
    exact (Serves.cons_none.mpr h.serves).perm (List.perm_append_singleton _ _).symm
  · intro v hv
    change v ∈ after.tasks at hv
    rw [htasks, List.mem_append, List.mem_singleton] at hv
    rcases hv with hv | rfl
    · exact h.positive v hv
    · exact hcount
  · intro j hj
    have := h.notes.known j hj
    change j < after.tasks.length
    rw [htasks, List.length_append]
    omega
  · intro j v hv hphase
    rcases hcases hv with hv | ⟨rfl, -⟩
    · exact h.notes.unanswered j v hv hphase
    · intro hj
      exact absurd (h.notes.known _ hj) (Nat.lt_irrefl _)
  · intro j v hv hphase
    rcases hcases hv with hv | ⟨-, rfl⟩
    · exact h.notes.parked j v hv hphase
    · rw [hu] at hphase
      cases hphase
  · intro j v hv hphase
    rcases hcases hv with hv | ⟨-, rfl⟩
    · exact h.notes.done j v hv hphase
    · rw [hu] at hphase
      cases hphase
  · change (_ ++ after.pool.waiting.map _).Nodup
    rw [hpool]
    exact h.settled
  · change ∀ n ∈ _, n < after.pool.next
    rw [hpool]
    exact h.old

theorem release (h : Sound capacity l) (ht : l.tasks[i]? = some t) (hkeeps : t.errand.keeps = true)
    (hgranted : i ∈ l.granted) (hkept : i ∉ l.returned) {after : Session α}
    (hpool : after.pool = (l.pool.release t.count).1) (htasks : after.tasks = l.tasks) :
    Sound capacity { l.log l.pool after with returned := i :: l.returned } := by
  have hover : t.phase = .over := h.keeps_over ht (by simp [keeps, hkeeps, hgranted, hkept])
  have hmodify : after.tasks = l.tasks.modify i fun u => { u with phase := .over } := by
    rw [htasks, ← hover]
    exact (Session.modify_phase_self ht).symm
  obtain ⟨rest, hbefore, hthen⟩ :=
    stakes_modify (m := { l.log l.pool after with returned := i :: l.returned }) ht hmodify
      fun j u hj => by simp [stake, keeps, log, hj]
  have hstake : l.stake i t = .hold t.count := by
    simp [stake, keeps, hover, hkeeps, hgranted, hkept, Task.stake]
  have hserves := h.serves.perm hbefore
  rw [hstake] at hserves
  obtain ⟨hfault, hback⟩ := hserves.release
  have hlog := log_nodup h (Grows.of_release hfault h.serves.1.nodup_waiting) rfl rfl rfl
  rw [← hpool] at hback hlog
  refine ⟨hlog.1, ?_, ?_, ⟨h.notes.ends, ?_, ?_, ?_, ?_, ?_, ?_⟩, hlog.2.1, hlog.2.2⟩
  · refine .perm ?_ hthen.symm
    change Serves after.pool _
    simpa [stake, keeps, log, Task.stake] using hback
  · intro u hu
    exact h.positive u (htasks ▸ hu)
  · intro j hj
    change j < after.tasks.length
    rw [htasks]
    exact h.notes.known j hj
  · exact List.nodup_cons.mpr ⟨hkept, h.notes.returns⟩
  · intro j hj
    rcases List.mem_cons.mp hj with rfl | hj
    · exact hgranted
    · exact h.notes.given j hj
  · intro j u hu
    exact h.notes.unanswered j u (htasks ▸ hu)
  · intro j u hu hphase
    obtain ⟨hj, hnot, hruns⟩ := h.notes.parked j u (htasks ▸ hu) hphase
    refine ⟨hj, ?_, hruns⟩
    intro hmem
    rcases List.mem_cons.mp hmem with rfl | hmem
    · obtain rfl : t = u := Option.some.inj (ht.symm.trans (htasks ▸ hu))
      rw [hover] at hphase
      cases hphase
    · exact hnot hmem
  · intro j u hu hphase hruns hj
    exact List.mem_cons_of_mem _ (h.notes.done j u (htasks ▸ hu) hphase hruns hj)

theorem move (h : Sound capacity l) (hmove : Move l m) : Sound capacity m := by
  cases hmove with
  | submit name count priority token errand hcount =>
    cases token with
    | none => exact h.submit rfl rfl (by dsimp only; omega) rfl
    | some token =>
      obtain ⟨hpool, htasks⟩ := Session.token_eq l.session token
      exact h.submit hpool rfl (by dsimp only; omega) (congrArg (· ++ _) htasks)
  | resume i t ht =>
    obtain ⟨phase, hturn, htasks⟩ := Session.resume_turn l.session ht
    exact h.turn ht hturn htasks
  | finish i t result ht hparked =>
    obtain ⟨hpool, htasks⟩ := Session.giveBack_eq l.session i t result
    refine h.turn ht ?_ htasks
    have hout : l.session.outcome? t = none := by simp [Session.outcome?, hparked]
    rw [hpool, hout]
    exact .finish hparked
  | release i t ht hkeeps hgranted hkept =>
    obtain ⟨hpool, htasks⟩ := Session.enqueueSettled_eq
      { l.session with admission := (l.session.admission.release t.count).1 }
    exact h.release ht hkeeps hgranted hkept hpool htasks
  | interrupt i t ht =>
    obtain ⟨hpool, htasks⟩ := Session.interrupt_eq l.session i t
    exact h.settles hpool htasks
  | cancel token reason =>
    obtain ⟨hpool, htasks⟩ := Session.cancel_eq l.session token reason
    exact h.settles hpool (i := l.tasks.length) (b := true)
      (htasks.trans (List.modify_eq_self (Nat.le_refl _)).symm)
  | schedule ready opened events =>
    have hnotes := h.notes
    exact ⟨h.size, h.serves, h.positive, ⟨hnotes.ends, hnotes.known, hnotes.returns, hnotes.given,
      hnotes.unanswered, hnotes.parked, hnotes.done⟩, h.settled, h.old⟩

theorem moves (h : Sound capacity l) (hmoves : Moves l m) : Sound capacity m := by
  induction hmoves with
  | refl => exact h
  | cons hmove _ ih => exact ih (h.move hmove)

theorem opening {s : Session α} (hs : Session.start capacity = .ok s) :
    Sound capacity (Ledger.opening s) := by
  unfold Session.start create at hs
  split at hs
  · cases hs
  · next hcap =>
    obtain rfl := Except.ok.inj hs
    refine ⟨rfl, ⟨⟨.refl _, .nil, ?_, ?_, ?_, Int.le_refl 0, rfl, ?_⟩, ?_⟩, ?_, ?_, ?_, ?_⟩
    · simp [stakes, tasks, Ledger.opening]
    · simp [pool, Session.pool, Ledger.opening]
    · simp [stakes, tasks, Ledger.opening]
    · change (0 : Int) ≤ capacity
      omega
    · simp [stakes, tasks, Ledger.opening]
    · simp [tasks, Ledger.opening]
    · constructor <;> simp [tasks, Ledger.opening]
    · simp [pool, Session.pool, Ledger.opening]
    · simp [pool, Session.pool, Ledger.opening]

end Sound

theorem share_eq (l : Ledger α) (i : Nat) (t : Task α) :
    l.share i t = (l.stake i t).hands + owed (l.stake i t).claims l.pool.settled := by
  unfold share stake
  cases t.phase with
  | fresh => rfl
  | waiting n => simp [Task.stake, Stake.claim]
  | gate => simp [Task.stake, Stake.hold, owed]
  | «over» =>
    by_cases hkeeps : t.errand.keeps ∧ i ∈ l.granted ∧ i ∉ l.returned
    · simp [Task.stake, keeps, hkeeps, Stake.hold, owed]
    · simp only [Task.stake, keeps, hkeeps, if_false]
      simp only [← and_assoc] at hkeeps
      simp [hkeeps, Stake.none, owed]

theorem held_eq_shares {capacity : Int} {l : Ledger α} (h : Sound capacity l) :
    l.pool.held = l.shares := by
  have hsum : ∀ es : List (Task α × Nat),
      (es.map fun e => l.share e.2 e.1).sum =
        ((es.map fun e => l.stake e.2 e.1).map (·.hands)).sum +
          owed ((es.map fun e => l.stake e.2 e.1).flatMap (·.claims)) l.pool.settled := by
    intro es
    induction es with
    | nil => rfl
    | cons e es ih =>
      rw [List.map_cons, List.sum_cons, ih, share_eq]
      simp only [List.map_cons, List.sum_cons, List.flatMap_cons, owed_append]
      omega
  exact h.serves.1.held.trans (hsum l.tasks.zipIdx).symm

/-- Whatever happens in a session, and in whatever order, the accounts of the pool stay in order. -/
theorem inOrder_of_moves {capacity : Int} {s : Session α} (hs : Session.start capacity = .ok s)
    {l : Ledger α} (h : Moves (opening s) l) : InOrder capacity l := by
  have hsound := (Sound.opening hs).moves h
  have hnotes := hsound.notes
  refine ⟨hsound.serves.held_nonneg, ?_, held_eq_shares hsound, hnotes.ends,
    ⟨hnotes.returns, fun i hi => hnotes.given i hi⟩, ?_, ?_, ?_⟩
  · exact hsound.size ▸ hsound.serves.bounded
  · intro i t ht hruns hgranted
    cases hphase : t.phase with
    | gate =>
      have := (hnotes.parked i t ht hphase).2.1
      exact .inl ⟨rfl, List.count_eq_zero.mpr this⟩
    | «over» =>
      have := hnotes.done i t ht hphase hruns hgranted
      exact .inr ⟨rfl, List.count_eq_one_of_mem hnotes.returns this⟩
    | fresh =>
      exact absurd (List.mem_append_left _ hgranted) (hnotes.unanswered i t ht (.inl hphase))
    | waiting n =>
      exact absurd (List.mem_append_left _ hgranted) (hnotes.unanswered i t ht (.inr ⟨n, hphase⟩))
  · exact (List.nodup_append.mp hsound.settled).1
  · intro w hw hmem
    exact (List.nodup_append.mp hsound.settled).2.2 _ hmem _ (List.mem_map_of_mem hw) rfl

/-- A task that is told to end after its ticket was granted, and before it goes on, gives its permits
back. -/
theorem inOrder_after_late_interruption : ∃ (s : Session Unit) (l : Ledger Unit),
    Session.start 1 = .ok s ∧ Moves (opening s) l ∧ l.granted = [0] ∧ l.raised = [1] ∧
      l.completed = [0] ∧ l.pool.held = 0 ∧ InOrder 1 l := by
  have hmoves := Moves.cons (.submit
      (opening (⟨⟨⟨1, 0, [], [], 0⟩, .empty⟩, [], [], [], [], []⟩ : Session Unit))
      ['a'] 1 .root none .keep (by decide)) <|
    .cons (.submit _ ['b'] 1 .root none (.run true (.ok ())) (by decide)) <|
    .cons (.resume _ 0 _ rfl) <| .cons (.resume _ 1 _ rfl) <|
    .cons (.release _ 0 _ rfl rfl (by decide) (by decide)) <|
    .cons (.interrupt _ 1 _ rfl) <| .cons (.resume _ 1 _ rfl) <| .refl _
  exact ⟨_, _, rfl, hmoves, rfl, rfl, rfl, rfl, inOrder_of_moves rfl hmoves⟩

end Ledger

end TreeCensus.Pool
