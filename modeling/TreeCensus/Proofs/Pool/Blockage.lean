import TreeCensus.Proofs.Pool.Order

/-!
# Lines that do not move

A pool looks after its line whenever permits come back or somebody leaves it. So whoever waits, waits
for somebody who holds permits. A newcomer with a better priority, however, goes to the head of the line
without another look: it may wait although there are permits enough for it, until the one that the line
was waiting for before has its turn or somebody gives permits back.
-/

namespace TreeCensus.Pool

set_option autoImplicit false

variable {p q : Pool}

/-- The single things that are done with a pool. Permits are only given back by those who have them. -/
inductive Transaction (p : Pool) : Pool → Prop
  | grant {priority : Priority} {count : Int} {q : Pool} (fits : count ≤ p.capacity)
      (asked : p.request priority count = (q, none)) : Transaction p q
  | queue {priority : Priority} {count : Int} {ticket : Nat} {q : Pool} (fits : count ≤ p.capacity)
      (asked : p.request priority count = (q, some ticket)) : Transaction p q
  | take {ticket : Nat} (granted : p.settled.lookup ticket = some .granted) :
      Transaction p (p.without ticket)
  | leave (ticket : Nat) : Transaction p (p.without ticket).wake
  | release {count : Int} (fine : (p.release count).2 = none) : Transaction p (p.release count).1
  | abandon (ticket : Nat) : Transaction p (p.abandon ticket)
  | refuse (ticket : Nat) (f : Fault) : Transaction p (p.refuse ticket f)

abbrev Transactions : Pool → Pool → Prop := Relation.ReflTransGen Transaction

theorem transactions_foldl_refuse (told : List (Nat × Reason)) (p : Pool) :
    Transactions p (told.foldl (fun pool e => pool.refuse e.1 (.ofReason e.2)) p) := by
  induction told generalizing p with
  | nil => exact .refl
  | cons e told ih => exact .head (.refuse e.1 _) (ih _)

namespace Session

variable {α : Type} {s : Session α} {t : Task α} {kept : Bool} {stakes : List Stake}

theorem Takes.transactions (h : Takes p t q) (hfits : t.phase = .fresh → t.count ≤ p.capacity) :
    Transactions p q := by
  cases h with
  | atOnce fresh granted => exact .single (.grant (hfits fresh) granted)
  | collected waits granted =>
    rcases collect?_cases granted with ⟨hlookup, -, rfl, -⟩ | ⟨-, -, -, hf⟩ | ⟨-, -, -, -, f, hf⟩
    · exact .single (.take hlookup)
    · cases hf
    · cases hf

theorem Turn.transactions {phase : Phase} {outcome : Option Bool} (h : Turn p t q phase outcome)
    (hcount : 0 < t.count) (hserves : Serves p (t.stake kept t.phase :: stakes))
    (hfits : t.phase = .fresh → t.count ≤ p.capacity) : Transactions p q := by
  cases h with
  | idle | drop | refuse => exact .refl
  | queue fresh queued => exact .single (.queue (hfits fresh) queued)
  | fail waits failed =>
    rcases collect?_cases failed with ⟨-, -, -, hf⟩ | ⟨hlookup, -, rfl, -⟩ | ⟨-, -, -, rfl, -⟩
    · cases hf
    · rw [waits] at hserves
      exact .head (.take hlookup) (.single (.release (Serves.giveBack hserves hlookup)))
    · exact .single (.leave _)
  | keep takes _ | park takes _ => exact takes.transactions hfits
  | done takes _ =>
    exact (takes.transactions hfits).tail (.release (takes.serves hcount hserves).1.release.1)
  | finish parked =>
    rw [parked] at hserves
    exact .single (.release hserves.release.1)

/-- Who asks for more than there is gets nothing and does not wait. -/
theorem pool_resume_of_large {i : Nat} (hfresh : t.phase = .fresh) (hlarge : s.pool.capacity < t.count) :
    (s.resume i t).pool = s.pool := by
  have hask : s.admission.ask t.priority t.count t.token =
      .error (.tooLargeRequest t.count s.pool.capacity) := if_pos hlarge
  unfold resume
  rw [hfresh, hask]
  dsimp only
  split <;> rfl

theorem pool_interrupt (s : Session α) (i : Nat) (t : Task α) : (s.interrupt i t).pool = s.pool ∨
    ∃ ticket, (s.interrupt i t).pool = s.pool.abandon ticket := by
  unfold interrupt
  dsimp only
  split
  · exact .inr ⟨_, rfl⟩
  · exact .inl (pool_enqueue _ i)
  · exact .inl rfl
  · exact .inl rfl

end Session

/-- Among those in line there is one for whom too few permits are free, and only such as came later stand
before it. -/
def Jammed (p : Pool) : Prop :=
  ∃ before w after, p.waiting = before ++ w :: after ∧ p.capacity < p.held + w.count ∧
    ∀ v ∈ before, w.ticket < v.ticket

/-- Whoever waits has asked for no more than there is, and somebody holds permits for it to wait for. The
line is jammed, unless somebody who was told to end has yet to leave. -/
structure Tended (p : Pool) : Prop where
  fits : ∀ w ∈ p.waiting, w.count ≤ p.capacity
  busy : p.waiting ≠ [] → 0 < p.held
  jammed : p.waiting ≠ [] → p.Jammed ∨ ∃ ticket, (ticket, Settlement.abandoned) ∈ p.settled

theorem letIn_stops {capacity : Int} (ws : List Waiter) : ∀ held, (letIn capacity held ws).waiting = [] ∨
    ∃ w rest, (letIn capacity held ws).waiting = w :: rest ∧
      capacity < (letIn capacity held ws).held + w.count := by
  induction ws with
  | nil => exact fun _ => .inl rfl
  | cons w ws ih =>
    intro held
    unfold letIn
    split
    · next hfull => exact .inr ⟨w, ws, rfl, hfull⟩
    · exact ih _

theorem enqueue_split (w : Waiter) (ws : List Waiter) :
    ∃ before after, ws = before ++ after ∧ enqueue w ws = before ++ w :: after := by
  induction ws with
  | nil => exact ⟨[], [], rfl, rfl⟩
  | cons v vs ih =>
    unfold enqueue
    split
    · exact ⟨[], v :: vs, rfl, rfl⟩
    · obtain ⟨before, after, hvs, hqueue⟩ := ih
      exact ⟨v :: before, after, by rw [hvs]; rfl, by rw [hqueue]; rfl⟩

/-- Whoever gets in line does not get before anybody but as a latecomer. -/
theorem Jammed.enqueue (h : p.Jammed) {w : Waiter} (hlast : ∀ v ∈ p.waiting, v.ticket < w.ticket)
    (next : Nat) : Jammed { p with waiting := enqueue w p.waiting, next } := by
  obtain ⟨before, v, after, hline, hfull, hlater⟩ := h
  obtain ⟨front, back, hsplit, hqueue⟩ := enqueue_split w p.waiting
  have hv : v.ticket < w.ticket := hlast v (hline ▸ List.mem_append_right _ List.mem_cons_self)
  rw [hline, List.append_eq_append_iff] at hsplit
  unfold Jammed
  dsimp only
  rw [hqueue]
  rcases hsplit with ⟨rest, rfl, hrest⟩ | ⟨rest, rfl, rfl⟩
  · rcases List.cons_eq_append_iff.mp hrest with ⟨rfl, rfl⟩ | ⟨tail, rfl, rfl⟩
    · refine ⟨before ++ [w], v, after, by simp, hfull, fun u hu => ?_⟩
      rcases List.mem_append.mp hu with hu | hu
      · exact hlater u hu
      · exact List.mem_singleton.mp hu ▸ hv
    · exact ⟨before, v, tail ++ w :: back, by simp, hfull, hlater⟩
  · refine ⟨front ++ w :: rest, v, after, by simp, hfull, fun u hu => ?_⟩
    rcases List.mem_append.mp hu with hu | hu
    · exact hlater u (List.mem_append_left _ hu)
    · rcases List.mem_cons.mp hu with rfl | hu
      · exact hv
      · exact hlater u (List.mem_append_right _ hu)

namespace Tended

/-- Looking after the line is enough. -/
theorem wake (hfits : ∀ w ∈ p.waiting, w.count ≤ p.capacity) : Tended p.wake := by
  have hsub := (settles_wake p).sublist.subset
  have hthen : ∀ w ∈ p.wake.waiting, w.count ≤ p.wake.capacity := fun w hw => hfits w (hsub hw)
  rcases letIn_stops p.waiting p.held with hnone | ⟨w, rest, hline, hfull⟩
  · exact ⟨hthen, fun hne => absurd hnone hne, fun hne => absurd hnone hne⟩
  · change p.wake.waiting = w :: rest at hline
    change p.wake.capacity < p.wake.held + w.count at hfull
    refine ⟨hthen, fun _ => ?_, fun _ => .inl ⟨[], w, rest, hline, hfull, nofun⟩⟩
    have := hthen w (hline ▸ List.mem_cons_self)
    omega

theorem settle (h : Tended p) (ticket : Nat) (s : Settlement) :
    ∀ w ∈ (p.settle ticket s).waiting, w.count ≤ (p.settle ticket s).capacity := by
  unfold Pool.settle
  split
  · exact fun w hw => h.fits w (List.mem_filter.mp hw).1
  · exact h.fits

theorem transaction (h : Tended p) (hlined : p.Lined) (hone : Transaction p q) : Tended q := by
  cases hone with
  | grant fits asked =>
    obtain ⟨hnone, rfl⟩ := request_none_eq asked
    exact ⟨h.fits, fun hne => absurd hnone hne, fun hne => absurd hnone hne⟩
  | @queue priority count ticket q fits asked =>
    have hbusy : p.waiting = [] → p.capacity < p.held + count := by
      intro hnone
      by_contra hfree
      unfold Pool.request at asked
      rw [if_pos ⟨hnone, by omega⟩] at asked
      cases asked
    obtain ⟨-, rfl⟩ := request_some_eq asked
    refine ⟨?_, fun _ => ?_, fun _ => ?_⟩
    · intro w hw
      rcases List.mem_cons.mp ((Books.perm_enqueue _ _).mem_iff.mp hw) with rfl | hw
      · exact fits
      · exact h.fits w hw
    · by_cases hnone : p.waiting = []
      · have := hbusy hnone
        dsimp only
        omega
      · exact h.busy hnone
    · by_cases hnone : p.waiting = []
      · refine .inl ⟨[], ⟨p.next, priority, count⟩, [], ?_, hbusy hnone, nofun⟩
        rw [hnone]
        rfl
      · exact (h.jammed hnone).imp_left fun hjammed => hjammed.enqueue hlined.old _
  | @take ticket granted =>
    refine ⟨h.fits, h.busy, fun hne => (h.jammed hne).imp_right ?_⟩
    rintro ⟨other, hother⟩
    exact ⟨other, mem_without granted hother (by simp)⟩
  | leave ticket => exact wake h.fits
  | @release count fine =>
    have hfine : ¬ p.held - count < 0 := by
      intro hneg
      simp [Pool.release, hneg] at fine
    simp only [Pool.release, hfine, if_false]
    exact wake (p := { p with held := p.held - count }) h.fits
  | abandon ticket =>
    have hfits := h.settle ticket .abandoned
    unfold Pool.abandon
    unfold Pool.settle at hfits ⊢
    split at hfits
    · next hwaits =>
      obtain ⟨w, hw, -⟩ := isWaiting_iff.mp hwaits
      rw [if_pos hwaits]
      exact ⟨hfits, fun _ => h.busy (List.ne_nil_of_mem hw),
        fun _ => .inr ⟨ticket, List.mem_append_right _ (List.mem_singleton.mpr rfl)⟩⟩
    · next hwaits =>
      rw [if_neg hwaits]
      exact h
  | refuse ticket f =>
    unfold Pool.refuse
    split
    · exact wake (h.settle ticket (.refused f))
    · exact h

end Tended

theorem Lined.transaction (h : p.Lined) (hone : Transaction p q) : q.Lined := by
  cases hone with
  | grant fits asked =>
    obtain ⟨-, rfl⟩ := request_none_eq asked
    exact ⟨h.sorted, h.old⟩
  | queue fits asked => exact h.request asked
  | take granted => exact ⟨h.sorted, h.old⟩
  | @leave ticket => exact Lined.settles (p := p.without ticket) ⟨h.sorted, h.old⟩ (settles_wake _)
  | @release count fine =>
    exact Lined.settles (p := { p with held := p.held - count }) ⟨h.sorted, h.old⟩ (settles_release p count)
  | abandon ticket => exact h.settles (settles_abandon p ticket)
  | refuse ticket f => exact h.settles (settles_refuse p ticket f)

theorem Tended.transactions (h : Tended p) (hlined : p.Lined) (hall : Transactions p q) : Tended q := by
  have hboth : Tended q ∧ q.Lined := by
    induction hall with
    | refl => exact ⟨h, hlined⟩
    | tail _ hone ih => exact ⟨ih.1.transaction ih.2 hone, ih.2.transaction hone⟩
  exact hboth.1

namespace Ledger

variable {α : Type} {l m : Ledger α} {capacity : Int}

theorem stakes_split {i : Nat} {t : Task α} (h : l.tasks[i]? = some t) :
    ∃ rest, l.stakes.Perm (l.stake i t :: rest) := by
  obtain ⟨before, after, hsplit, -, -⟩ := zipIdx_split h
  refine ⟨(before ++ after).map fun e => l.stake e.2 e.1, ?_⟩
  unfold stakes
  rw [hsplit]
  exact List.perm_middle.map _

theorem Sound.transactions (h : Sound capacity l) (hmove : Move l m) : Transactions l.pool m.pool := by
  cases hmove with
  | submit name count priority token errand _ =>
    cases token with
    | none => exact .refl
    | some token =>
      change Transactions l.session.pool (l.session.token token).1.pool
      rw [(Session.token_eq l.session token).1]
  | resume i t known =>
    obtain ⟨phase, hturn, -⟩ := Session.resume_turn l.session known
    obtain ⟨rest, hrest⟩ := stakes_split known
    by_cases hfits : t.phase = .fresh → t.count ≤ l.pool.capacity
    · exact hturn.transactions (h.positive t (List.mem_of_getElem? known)) (h.serves.perm hrest) hfits
    · obtain ⟨hfresh, hlarge⟩ := Classical.not_imp.mp hfits
      change Transactions l.session.pool (l.session.resume i t).pool
      rw [Session.pool_resume_of_large hfresh (Int.not_le.mp hlarge)]
  | finish i t result known parked =>
    obtain ⟨rest, hrest⟩ := stakes_split known
    have hturn : Session.Turn l.pool t (l.session.giveBack i t result).pool .over none := by
      rw [(Session.giveBack_eq l.session i t result).1]
      exact .finish parked
    refine hturn.transactions (h.positive t (List.mem_of_getElem? known)) (h.serves.perm hrest) ?_
    rw [parked]
    nofun
  | release i t known keeps granted kept =>
    have hpool : (l.session.perform (.release t.count)).1.pool = (l.pool.release t.count).1 :=
      (Session.enqueueSettled_eq _).1
    obtain ⟨rest, hrest⟩ := stakes_split known
    have hkeeps : l.keeps i t = true := by simp [Ledger.keeps, keeps, granted, kept]
    have hserves := h.serves.perm hrest
    rw [stake, hkeeps, h.keeps_over known hkeeps] at hserves
    change Transactions l.pool (l.session.perform (.release t.count)).1.pool
    rw [hpool]
    exact .single (.release (Serves.release hserves).1)
  | interrupt i t known =>
    change Transactions l.session.pool (l.session.interrupt i t).pool
    rcases Session.pool_interrupt l.session i t with hpool | ⟨ticket, hpool⟩
    · rw [hpool]
    · rw [hpool]
      exact .single (.abandon ticket)
  | cancel token reason =>
    have hpool := (Session.enqueueSettled_eq { (l.session.token token).1 with
      admission := (l.session.token token).1.admission.cancel (l.session.token token).2 reason }).1
    change Transactions l.session.pool (l.session.perform (.cancel token reason)).1.pool
    unfold Session.perform
    dsimp only
    rw [hpool, ← (Session.token_eq l.session token).1]
    exact transactions_foldl_refuse _ _
  | schedule ready opened events => exact .refl

theorem tended_moves (hsound : Sound capacity l) (hlined : l.pool.Lined) (h : l.pool.Tended)
    (hmoves : Moves l m) : m.pool.Tended := by
  induction hmoves with
  | refl => exact h
  | cons hmove _ ih =>
    exact ih (hsound.move hmove) (lined_move hlined hmove) (h.transactions hlined (hsound.transactions hmove))

theorem tended_opening {s : Session α} (hs : Session.start capacity = .ok s) : (opening s).pool.Tended := by
  unfold Session.start create at hs
  split at hs
  · cases hs
  · obtain rfl := Except.ok.inj hs
    exact ⟨nofun, fun hne => absurd rfl hne, fun hne => absurd rfl hne⟩

/-- Nobody who waits can go on. -/
def AtRest (l : Ledger α) : Prop :=
  ∀ t ∈ l.tasks, ∀ ticket, t.phase = .waiting ticket → ticket ∉ l.pool.settled.map (·.1)

/-- Every claim is that of a task that waits. -/
theorem mem_claims {c : Nat × Int} (h : c ∈ l.stakes.flatMap (·.claims)) :
    ∃ t ∈ l.tasks, t.phase = .waiting c.1 ∧ c.2 = t.count := by
  obtain ⟨stake, hstake, hc⟩ := List.mem_flatMap.mp h
  obtain ⟨⟨t, i⟩, ht, rfl⟩ := List.mem_map.mp hstake
  refine ⟨t, List.fst_mem_of_mem_zipIdx ht, ?_⟩
  unfold Ledger.stake Task.stake at hc
  split at hc
  · cases hc
  · next ticket hphase =>
    obtain rfl := List.mem_singleton.mp hc
    exact ⟨hphase, rfl⟩
  · cases hc
  · split at hc <;> cases hc

theorem AtRest.settled_eq_nil (h : l.AtRest) (hsound : Sound capacity l) : l.pool.settled = [] := by
  refine List.eq_nil_iff_forall_not_mem.mpr fun e he => ?_
  have hticket : e.1 ∈ l.pool.tickets := List.mem_append_right _ (List.mem_map_of_mem he)
  obtain ⟨c, hc, heq⟩ := List.mem_map.mp (hsound.serves.1.tickets.mem_iff.mp hticket)
  obtain ⟨t, ht, hphase, -⟩ := mem_claims hc
  exact h t ht c.1 hphase (heq ▸ List.mem_map_of_mem he)

/-- If nobody can go on, there are too few permits free for the first one in line, or it has overtaken
one for whom there are too few. -/
theorem jammed_of_moves {s : Session α} (hs : Session.start capacity = .ok s) (h : Moves (opening s) l)
    (hrest : l.AtRest) {w : Waiter} {ws : List Waiter} (hline : l.pool.waiting = w :: ws) :
    capacity < l.pool.held + w.count ∨ ∃ v ∈ ws, capacity < l.pool.held + v.count ∧
      v.ticket < w.ticket ∧ w.priority.Before v.priority := by
  have hsound := (Sound.opening hs).moves h
  have hlined := lined_moves (lined_opening hs) h
  have htended := tended_moves (.opening hs) (lined_opening hs) (tended_opening hs) h
  have hne : l.pool.waiting ≠ [] := by
    rw [hline]
    nofun
  rcases htended.jammed hne with ⟨before, v, after, hsplit, hfull, hlater⟩ | ⟨ticket, hticket⟩
  · rw [hsound.size] at hfull
    rcases List.cons_eq_append_iff.mp (hline.symm.trans hsplit) with ⟨-, heq⟩ | ⟨rest, rfl, rfl⟩
    · exact .inl ((List.cons.inj heq).1 ▸ hfull)
    · have hmem : v ∈ rest ++ v :: after := List.mem_append_right _ List.mem_cons_self
      have hlt := hlater w List.mem_cons_self
      refine .inr ⟨v, hmem, hfull, hlt, ?_⟩
      have hsorted := hlined.sorted
      rw [hline] at hsorted
      rcases (List.pairwise_cons.mp hsorted).1 v hmem with hbefore | ⟨-, hbefore⟩
      · exact hbefore
      · exact absurd hbefore (Nat.lt_asymm hlt)
  · rw [hrest.settled_eq_nil hsound] at hticket
    cases hticket

/-- A newcomer with a better priority waits at the head of the line although the permit that it asks for
is free. -/
theorem jammed_by_overtaking : ∃ (s : Session Unit) (l : Ledger Unit) (w v : Waiter),
    Session.start 2 = .ok s ∧ Moves (opening s) l ∧ l.AtRest ∧ l.pool.waiting = [w, v] ∧
      l.pool.held + w.count = 2 ∧ (2 < l.pool.held + w.count ∨ ∃ u ∈ [v], 2 < l.pool.held + u.count ∧
        u.ticket < w.ticket ∧ w.priority.Before u.priority) := by
  let start : Session Unit := ⟨⟨⟨2, 0, [], [], 0⟩, .empty⟩, [], [], [], [], []⟩
  have hstart : Session.start 2 = .ok start := rfl
  have hmoves := Moves.cons (.submit (opening start) ['a'] 1 .root none .keep (by decide)) <|
    .cons (.submit _ ['b'] 2 [5] none .keep (by decide)) <|
    .cons (.submit _ ['c'] 1 [1] none .keep (by decide)) <|
    .cons (.resume _ 0 _ rfl) <| .cons (.resume _ 1 _ rfl) <| .cons (.resume _ 2 _ rfl) <| .refl _
  refine ⟨start, _, ⟨1, [1], 1⟩, ⟨0, [5], 2⟩, hstart, hmoves, ?rest, rfl, rfl,
    jammed_of_moves hstart hmoves ?rest rfl⟩
  case rest => exact fun t _ ticket _ => List.not_mem_nil

end Ledger

end TreeCensus.Pool
