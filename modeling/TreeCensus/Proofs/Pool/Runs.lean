import TreeCensus.Proofs.Pool.Refusal

/-!
# Runs at a pool

A run asks for permits, runs its errand while it holds them, and gives them back. What a turn of a run
reports, and why nothing comes of the run if so, is listed once, in `Progress`. `Move.proceeds` says what a
run does in any move of a session.
-/

namespace TreeCensus

set_option autoImplicit false

open Cancellation (Network)

namespace Admission

variable {a b : Admission}

theorem called?_congr (h : ∀ k, b.network.reason? k = a.network.reason? k) (token : Option Nat) :
    b.called? token = a.called? token := by
  unfold called?
  simp only [h]

theorem called?_some {token : Option Nat} {f : Fault} (h : a.called? token = some f) :
    ∃ k r, token = some k ∧ a.network.reason? k = some r ∧ f = .ofReason r := by
  obtain ⟨k, hk, hfault⟩ := Option.bind_eq_some_iff.mp h
  obtain ⟨r, hr, rfl⟩ := Option.map_eq_some_iff.mp hfault
  exact ⟨k, r, hk, hr, rfl⟩

theorem called?_none {k : Nat} (h : a.called? (some k) = none) : a.network.reason? k = none :=
  Option.map_eq_none_iff.mp h

/-- Why nothing comes of asking for permits. -/
theorem ask_error {priority : Priority} {count : Int} {token : Option Nat} {f : Fault}
    (h : a.ask priority count token = .error f) :
    a.pool.capacity < count ∧ f = .tooLargeRequest count a.pool.capacity ∨ a.called? token = some f := by
  unfold ask at h
  split at h
  · next hlarge => exact .inl ⟨hlarge, (Except.error.inj h).symm⟩
  · split at h
    · next hcalled => exact .inr (Except.error.inj h ▸ hcalled)
    · split at h <;> cases h

theorem reason?_collect {ticket : Nat} {count : Int} {token : Option Nat} {interrupted : Bool}
    {failure : Option Fault} (h : a.collect? ticket count token interrupted = some (b, failure)) (k : Nat) :
    b.network.reason? k = a.network.reason? k := by
  rw [(collect?_cases h).2]
  split
  · exact Network.reason?_unsubscribe ..
  · rfl

end Admission

namespace Pool

variable {α : Type}

/-- Why a party that waits gets no permits. -/
theorem Serves.collect_error {p q : Pool} {stakes : List Stake} {ticket : Nat} {count : Int}
    {interrupted : Bool} {f : Fault} (h : Serves p (.claim ticket count :: stakes))
    (hq : p.collect? ticket count interrupted = some (q, some f)) :
    interrupted = true ∧ f = .interrupted ∨ (ticket, .refused f) ∈ p.settled ∨
      (ticket, .abandoned) ∈ p.settled ∧ f = .interrupted := by
  obtain ⟨settlement, hlookup, hfault⟩ := Option.map_eq_some_iff.mp hq
  have hmem := mem_of_lookup hlookup
  cases settlement with
  | granted =>
    cases interrupted with
    | false => cases congrArg Prod.snd hfault
    | true =>
      have hf : ((p.without ticket).release count).2.getD .interrupted = f :=
        Option.some.inj (congrArg Prod.snd hfault)
      rw [h.giveBack hlookup] at hf
      exact .inl ⟨rfl, hf.symm⟩
  | refused g =>
    have hf : (if interrupted then .interrupted else g) = f := Option.some.inj (congrArg Prod.snd hfault)
    cases interrupted with
    | true => exact .inl ⟨rfl, hf.symm⟩
    | false =>
      obtain rfl : g = f := hf
      exact .inr (.inl hmem)
  | abandoned => exact .inr (.inr ⟨hmem, (Option.some.inj (congrArg Prod.snd hfault)).symm⟩)

namespace Session

variable {s u : Session α} {p : Pool} {i : Nat} {t : Task α} {kept : Bool} {stakes : List Stake}
  {gated : Bool} {result : Except Fault α}

/-- Why a run comes to nothing in a turn. -/
inductive Failure (s : Session α) (t : Task α) : Fault → Prop
  | large (more : s.pool.capacity < t.count) : Failure s t (.tooLargeRequest t.count s.pool.capacity)
  | called {f : Fault} (called : s.admission.called? t.token = some f) : Failure s t f
  | refused {ticket : Nat} {f : Fault} (waits : t.phase = .waiting ticket)
      (refused : (ticket, .refused f) ∈ s.pool.settled) : Failure s t f
  | interrupted (told : t.interrupted = true) : Failure s t .interrupted
  | abandoned {ticket : Nat} (waits : t.phase = .waiting ticket)
      (abandoned : (ticket, .abandoned) ∈ s.pool.settled) : Failure s t .interrupted

/-- What a run reports in a turn, and the phase that the turn leads to. -/
inductive Progress (s : Session α) (t : Task α) (result : Except Fault α) : Phase → List (Event α) → Prop
  | idle : Progress s t result t.phase []
  | drop (fresh : t.phase = .fresh) (told : t.interrupted = true) : Progress s t result .over []
  | queue (ticket : Nat) (fresh : t.phase = .fresh) : Progress s t result (.waiting ticket) []
  | fail {f : Fault} (unanswered : ¬ t.Answered) (why : Failure s t f) :
      Progress s t result .over [.ended t.name (.error f)]
  | start (unanswered : ¬ t.Answered) (quiet : s.admission.called? t.token = none) :
      Progress s t result .gate [.started t.name]
  | done (unanswered : ¬ t.Answered) (quiet : s.admission.called? t.token = none) :
      Progress s t result .over [.started t.name, .ended t.name result]
  | finish (parked : t.phase = .gate) :
      Progress s t result .over [.ended t.name (if t.interrupted then .error .interrupted else result)]

theorem events_giveBack (s : Session α) (i : Nat) {t : Task α} (hfine : (s.pool.release t.count).2 = none)
    (result : Except Fault α) : (s.giveBack i t result).events = s.events ++ [.ended t.name result] := by
  unfold giveBack
  rcases h : s.admission.release t.count with ⟨admission, _ | f⟩
  · rfl
  · have hfault := congrArg Prod.snd h
    cases hfault.symm.trans hfine

/-- A run that goes on behind its gate comes to its end. -/
theorem resume_parked (s : Session α) (i : Nat) (hphase : t.phase = .gate) (herrand : t.errand = .run gated result) :
    s.resume i t = s.giveBack i t (if t.interrupted then .error .interrupted else result) := by
  simp only [resume, hphase, herrand]
  cases t.interrupted <;> rfl

/-- A run that has its permits starts, or it finds that it is called off and gives them back. -/
theorem progress_proceed (herrand : t.errand = .run gated result) (hunanswered : ¬ t.Answered)
    (hcalled : u.admission.called? t.token = s.admission.called? t.token)
    (hserves : Serves u.pool (.hold t.count :: stakes)) :
    ∃ phase news, Progress s t result phase news ∧
      (u.proceed i t).tasks = u.tasks.modify i (fun v => { v with phase }) ∧
      (u.proceed i t).events = u.events ++ news := by
  have hback : ∀ (v : Session α) outcome, v.pool = u.pool → v.tasks = u.tasks →
      (v.giveBack i t outcome).tasks = u.tasks.modify i (fun v => { v with phase := .over }) ∧
        (v.giveBack i t outcome).events = v.events ++ [.ended t.name outcome] := by
    intro v outcome hpool htasks
    refine ⟨htasks ▸ (giveBack_eq v i t outcome).2, events_giveBack v i ?_ outcome⟩
    rw [hpool]
    exact hserves.release.1
  unfold proceed
  rw [herrand]
  dsimp only
  split
  · next f hf =>
    obtain ⟨htasks, hevents⟩ := hback u (.error f) rfl rfl
    exact ⟨.over, _, .fail hunanswered (.called (hcalled ▸ hf)), htasks, hevents⟩
  · next hquiet =>
    have hquiet := hcalled.symm.trans hquiet
    have hdone : ∃ phase news, Progress s t result phase news ∧
        ((u.note (.started t.name)).giveBack i t result).tasks =
          u.tasks.modify i (fun v => { v with phase }) ∧
        ((u.note (.started t.name)).giveBack i t result).events = u.events ++ news := by
      obtain ⟨htasks, hevents⟩ := hback (u.note (.started t.name)) result rfl rfl
      refine ⟨.over, _, .done hunanswered hquiet, htasks, hevents.trans ?_⟩
      exact List.append_assoc ..
    cases result with
    | error f => exact hdone
    | ok value =>
      dsimp only
      split
      · exact ⟨.gate, _, .start hunanswered hquiet, rfl, rfl⟩
      · exact hdone

theorem progress_resume (ht : s.tasks[i]? = some t) (herrand : t.errand = .run gated result)
    (hcount : 0 < t.count) (hserves : Serves s.pool (t.stake kept t.phase :: stakes)) :
    ∃ phase news, Progress s t result phase news ∧
      (s.resume i t).tasks = s.tasks.modify i (fun v => { v with phase }) ∧
      (s.resume i t).events = s.events ++ news := by
  have hself := (modify_phase_self ht).symm
  have hstays := (List.append_nil s.events).symm
  cases hphase : t.phase with
  | «over» =>
    simp only [resume, hphase]
    exact ⟨t.phase, [], .idle, hself, hstays⟩
  | fresh =>
    have hunanswered : ¬ t.Answered := by simp [Task.Answered, hphase]
    cases htold : t.interrupted with
    | true =>
      simp only [resume, hphase, htold, if_true]
      exact ⟨.over, [], .drop hphase htold, rfl, hstays⟩
    | false =>
      rcases hask : s.admission.ask t.priority t.count t.token with f | ⟨admission, _ | ticket⟩ <;>
        simp only [resume, hphase, htold, hask, Bool.false_eq_true, if_false]
      · refine ⟨.over, _, .fail hunanswered ?_, rfl, rfl⟩
        rcases Admission.ask_error hask with ⟨hlarge, rfl⟩ | hcalled
        · exact .large hlarge
        · exact .called hcalled
      · obtain ⟨-, -, hrequest, hnetwork⟩ := Admission.ask_cases hask
        have htakes : Takes s.pool t admission.pool := .atOnce hphase hrequest
        exact progress_proceed herrand hunanswered
          (Admission.called?_congr (fun k => congrArg (·.reason? k) hnetwork) _)
          (htakes.serves hcount hserves).1
      · exact ⟨.waiting ticket, [], .queue ticket hphase, rfl, hstays⟩
  | waiting ticket =>
    have hunanswered : ¬ t.Answered := by simp [Task.Answered, hphase]
    rcases hcollect : s.admission.collect? ticket t.count t.token t.interrupted with
      _ | ⟨admission, _ | f⟩ <;> simp only [resume, hphase, hcollect]
    · exact ⟨t.phase, [], .idle, hself, hstays⟩
    · have htakes : Takes s.pool t admission.pool :=
        .collected hphase (Admission.collect?_cases hcollect).1
      exact progress_proceed herrand hunanswered
        (Admission.called?_congr (Admission.reason?_collect hcollect) _) (htakes.serves hcount hserves).1
    · refine ⟨.over, _, .fail hunanswered ?_, rfl, rfl⟩
      rw [hphase] at hserves
      rcases hserves.collect_error (Admission.collect?_cases hcollect).1 with
        ⟨htold, rfl⟩ | hrefused | ⟨habandoned, rfl⟩
      · exact .interrupted htold
      · exact .refused hphase hrefused
      · exact .abandoned hphase habandoned
  | gate =>
    rw [hphase] at hserves
    rw [resume_parked s i hphase herrand]
    exact ⟨.over, _, .finish hphase, (giveBack_eq s i t _).2, events_giveBack s i hserves.release.1 _⟩

/-- A task that stays in its phase reports nothing. -/
theorem Progress.eq_nil {phase : Phase} {news : List (Event α)} (h : Progress s t result phase news)
    (hsame : phase = t.phase) : news = [] := by
  cases h with
  | idle | drop | queue => rfl
  | fail unanswered | done unanswered => exact absurd (.inr hsame.symm) unanswered
  | start unanswered => exact absurd (.inl hsame.symm) unanswered
  | finish parked => cases hsame.trans parked

/-- A run starts only if its token is not cancelled. -/
theorem Progress.quiet {phase : Phase} {news : List (Event α)} (h : Progress s t result phase news)
    (hstarts : .started t.name ∈ news) : s.admission.called? t.token = none := by
  cases h with
  | start _ quiet | done _ quiet => exact quiet
  | idle | drop | queue | fail | finish => simp at hstarts

/-- A run that is over does nothing. -/
theorem Progress.of_over {phase : Phase} {news : List (Event α)} (h : Progress s t result phase news)
    (hover : t.phase = .over) : phase = .over ∧ news = [] := by
  cases h with
  | idle => exact ⟨hover, rfl⟩
  | drop fresh | queue _ fresh => cases hover.symm.trans fresh
  | fail unanswered | start unanswered | done unanswered => exact absurd (.inr hover) unanswered
  | finish parked => cases hover.symm.trans parked

/-- A run behind its gate stays there or comes to its end. -/
theorem Progress.of_gate {phase : Phase} {news : List (Event α)} (h : Progress s t result phase news)
    (hgate : t.phase = .gate) : phase = .gate ∧ news = [] ∨
      phase = .over ∧ news = [.ended t.name (if t.interrupted then .error .interrupted else result)] := by
  cases h with
  | idle => exact .inl ⟨hgate, rfl⟩
  | drop fresh | queue _ fresh => cases hgate.symm.trans fresh
  | fail unanswered | start unanswered | done unanswered => exact absurd (.inl hgate) unanswered
  | finish parked => exact .inr ⟨rfl, rfl⟩

theorem Turn.mem_settled {q : Pool} {phase : Phase} {outcome : Option Bool} (h : Turn p t q phase outcome)
    {e : Nat × Settlement} (he : e ∈ q.settled) : e ∈ p.settled ∨ e.2 = .granted := by
  have htakes : ∀ {q : Pool}, Takes p t q → e ∈ q.settled → e ∈ p.settled ∨ e.2 = .granted := by
    intro q htakes he
    cases htakes with
    | atOnce _ granted => exact .inl ((request_none granted).2 ▸ he)
    | collected _ granted => exact mem_settled_collect granted he
  cases h with
  | idle | drop | refuse => exact .inl he
  | queue _ queued => exact .inl ((request_some queued).2.2 ▸ he)
  | fail _ failed => exact mem_settled_collect failed he
  | keep takes _ | park takes _ => exact htakes takes he
  | done takes _ =>
    rcases mem_settled_release he with he | hgranted
    · exact htakes takes he
    · exact .inr hgranted
  | finish => exact mem_settled_release he

end Session

namespace Ledger

variable {l m : Ledger α} {capacity : Int} {i : Nat} {t u : Task α} {result : Except Fault α}

/-- The task runs an errand that is meant to come to `result`. -/
structure Runs (l : Ledger α) (i : Nat) (t : Task α) (result : Except Fault α) : Prop where
  known : l.tasks[i]? = some t
  errand : ∃ gated, t.errand = .run gated result

/-- A task later on: its phase may be another one, and it may have been told to end. -/
structure Stays (t u : Task α) : Prop where
  name : u.name = t.name
  count : u.count = t.count
  token : u.token = t.token
  errand : u.errand = t.errand
  told : t.interrupted = true → u.interrupted = true

theorem Stays.refl (t : Task α) : Stays t t := ⟨rfl, rfl, rfl, rfl, id⟩

theorem Stays.trans {v : Task α} (h : Stays t u) (h' : Stays u v) : Stays t v :=
  ⟨h'.name.trans h.name, h'.count.trans h.count, h'.token.trans h.token, h'.errand.trans h.errand,
    fun htold => h'.told (h.told htold)⟩

theorem Runs.stays {l' : Ledger α} (h : Runs l i t result) (hu : l'.tasks[i]? = some u) (hstays : Stays t u) :
    Runs l' i u result :=
  ⟨hu, h.errand.imp fun _ => hstays.errand.trans⟩

theorem Move.stays (h : Move l m) (ht : l.tasks[i]? = some t) : ∃ u, m.tasks[i]? = some u ∧ Stays t u := by
  have hmodify : ∀ (f : Task α → Task α) {j : Nat}, (∀ v, Stays v (f v)) →
      m.tasks = l.tasks.modify j f → ∃ u, m.tasks[i]? = some u ∧ Stays t u := by
    intro f j hf htasks
    rw [htasks, List.getElem?_modify, ht]
    refine ⟨_, rfl, ?_⟩
    split
    · exact hf t
    · exact .refl t
  cases h.retasks with
  | come v _ tasks _ =>
    refine ⟨t, ?_, .refl t⟩
    rw [tasks, List.getElem?_append_left (List.getElem?_eq_some_iff.mp ht).1]
    exact ht
  | resume j v known turn =>
    obtain ⟨phase, -, htasks⟩ := Session.resume_turn l.session known
    exact hmodify (fun w => { w with phase }) (fun _ => ⟨rfl, rfl, rfl, rfl, id⟩)
      ((tasks_turn turn).trans htasks)
  | finish j v outcome known parked turn =>
    exact hmodify (fun w => { w with phase := .over }) (fun _ => ⟨rfl, rfl, rfl, rfl, id⟩)
      ((tasks_turn turn).trans (Session.giveBack_eq ..).2)
  | told _ tasks =>
    exact hmodify (fun w => { w with interrupted := true }) (fun _ => ⟨rfl, rfl, rfl, rfl, fun _ => rfl⟩) tasks
  | same tasks => exact ⟨t, tasks ▸ ht, .refl t⟩

/-- What is reported of a task from one ledger to the next: nothing if it stays in its phase. -/
def news (l m : Ledger α) (i : Nat) : List (Event α) :=
  if m.tasks[i]?.map (·.phase) = l.tasks[i]?.map (·.phase) then []
  else m.session.events.drop l.session.events.length

theorem news_eq {es : List (Event α)} (hevents : m.session.events = l.session.events ++ es)
    (hsame : m.tasks[i]?.map (·.phase) = l.tasks[i]?.map (·.phase) → es = []) : l.news m i = es := by
  unfold news
  split
  · next h => exact (hsame h).symm
  · rw [hevents, List.drop_left]

theorem news_eq_nil (ht : l.tasks[i]? = some t) (hu : m.tasks[i]? = some u) (hsame : u.phase = t.phase) :
    l.news m i = [] := by
  refine if_pos ?_
  rw [ht, hu, Option.map_some, Option.map_some, hsame]

theorem news_finish (hsound : Sound capacity l) (ht : l.tasks[i]? = some t) (hparked : t.phase = .gate)
    {outcome : Except Fault α} (hturn : m = l.turn i t (l.session.giveBack i t outcome)) :
    l.news m i = [.ended t.name outcome] := by
  obtain ⟨rest, hrest⟩ := stakes_split ht
  have hserves := hsound.serves.perm hrest
  rw [stake, hparked] at hserves
  refine news_eq ?_ ?_
  · rw [hturn]
    exact Session.events_giveBack l.session i hserves.release.1 outcome
  · rw [(tasks_turn hturn).trans (l.session.giveBack_eq i t outcome).2, List.getElem?_modify_eq,
      show l.session.tasks[i]? = some t from ht, ht]
    simp [hparked]

/-- What a run does in a move. -/
inductive Proceeds (l m : Ledger α) (i : Nat) (t u : Task α) (result : Except Fault α) :
    List (Event α) → Prop
  | rests (same : u.phase = t.phase) : Proceeds l m i t u result []
  | turn {es : List (Event α)} (turn : m = l.turn i t (l.session.resume i t))
      (progress : Session.Progress l.session t result u.phase es) : Proceeds l m i t u result es
  | finish {outcome : Except Fault α} (parked : t.phase = .gate)
      (turn : m = l.turn i t (l.session.giveBack i t outcome)) (ended : u.phase = .over) :
      Proceeds l m i t u result [.ended t.name outcome]

theorem Move.proceeds (h : Move l m) (hsound : Sound capacity l) (hruns : l.Runs i t result)
    (hu : m.tasks[i]? = some u) : Proceeds l m i t u result (l.news m i) := by
  obtain ⟨ht, gated, herrand⟩ := hruns
  have hrests : u.phase = t.phase → Proceeds l m i t u result (l.news m i) := fun hsame => by
    rw [news_eq_nil ht hu hsame]
    exact .rests hsame
  have hother : ∀ {j : Nat} {v : Task α} {phase : Phase}, j ≠ i → l.tasks[j]? = some v →
      m.tasks = l.tasks.modify j (fun w => { w with phase }) → u.phase = t.phase := by
    intro j v phase hj hv htasks
    rcases modify_cases hv (htasks ▸ hu) with ⟨rfl, -⟩ | ⟨-, hsame⟩
    · exact absurd rfl hj
    · exact congrArg Task.phase (Option.some.inj (hsame.symm.trans ht))
  cases h.retasks with
  | come v _ tasks _ =>
    rw [tasks, List.getElem?_append_left (List.getElem?_eq_some_iff.mp ht).1] at hu
    obtain rfl := Option.some.inj (hu.symm.trans ht)
    exact hrests rfl
  | resume j v known turn =>
    by_cases hj : j = i
    · subst hj
      obtain rfl : v = t := Option.some.inj (known.symm.trans ht)
      obtain ⟨rest, hrest⟩ := stakes_split known
      obtain ⟨phase, es, hprogress, htasks, hevents⟩ := Session.progress_resume known herrand
        (hsound.positive v (List.mem_of_getElem? known)) (hsound.serves.perm hrest)
      rcases modify_cases known ((tasks_turn turn).trans htasks ▸ hu) with ⟨-, rfl⟩ | ⟨hne, -⟩
      · have hnews : l.news m j = es := news_eq (turn ▸ hevents) fun hsame => by
          rw [ht, hu, Option.map_some, Option.map_some] at hsame
          exact hprogress.eq_nil (Option.some.inj hsame)
        rw [hnews]
        exact .turn turn hprogress
      · exact absurd rfl hne
    · obtain ⟨phase, -, htasks⟩ := Session.resume_turn l.session known
      exact hrests (hother hj known ((tasks_turn turn).trans htasks))
  | finish j v outcome known parked turn =>
    have htasks := (tasks_turn turn).trans (Session.giveBack_eq l.session j v outcome).2
    by_cases hj : j = i
    · subst hj
      obtain rfl : v = t := Option.some.inj (known.symm.trans ht)
      rw [news_finish hsound known parked turn]
      refine .finish parked turn ?_
      rw [htasks, List.getElem?_modify_eq, show l.session.tasks[j]? = some v from known] at hu
      exact Option.some.inj hu ▸ rfl
    · exact hrests (hother hj known htasks)
  | told j tasks =>
    rw [tasks, List.getElem?_modify, ht] at hu
    obtain rfl := Option.some.inj hu
    refine hrests ?_
    split <;> rfl
  | same tasks =>
    obtain rfl := Option.some.inj ((tasks ▸ hu).symm.trans ht)
    exact hrests rfl

end Ledger

end Pool

end TreeCensus
