import TreeCensus.Proofs.Walk.Measure

/-!
# Walks end

A walk of an image that has its pool for itself comes back, whatever links there are and whatever the
handlers do: it can make only so many steps, and as long as it has not come back it can make one.
-/

namespace TreeCensus.Walk

set_option autoImplicit false

variable {σ : Type} {env : Environment σ} {capacity : Int} {s : State σ}

namespace State

/-- Whether a task has a permit: its call is in progress, or the permit is ready to be collected. -/
def hasPermit (s : State σ) (phase : Phase) : Bool :=
  match phase with
  | .calling _ | .consulting _ _ => true
  | .queued ticket _ => s.admission.pool.settled.any fun
    | (other, .granted) => Nat.beq other ticket
    | _ => false
  | _ => false

theorem hasPermit_queued {ticket : Nat} {job : Job} :
    s.hasPermit (.queued ticket job) = true ↔
      (ticket, Settlement.granted) ∈ s.admission.pool.settled := by
  unfold hasPermit
  rw [List.any_eq_true]
  constructor
  · rintro ⟨⟨other, outcome⟩, hmem, hyes⟩
    cases outcome with
    | granted => rwa [Nat.eq_of_beq_eq_true hyes] at hmem
    | _ => cases hyes
  · exact fun hmem => ⟨_, hmem, Nat.beq_refl ticket⟩

/-- Whether a task waits for a permit. -/
def awaitsPermit (s : State σ) (phase : Phase) : Prop :=
  ∃ ticket job, phase = .queued ticket job ∧ ticket ∈ s.admission.pool.waiting.map (·.ticket)

end State

namespace Live

/-- All permits that are held are tasks' own. -/
theorem held_eq (h : Live capacity s) :
    s.admission.pool.held = (s.tasks.countP fun t => s.hasPermit t.phase : Nat) := by
  have hheld := h.serves.1.held
  have hall : ∀ posts : List (Nat × Phase),
      ((posts.flatMap (·.2.stakes)).map (·.hands)).sum +
        Pool.owed ((posts.flatMap (·.2.stakes)).flatMap (·.claims)) s.admission.pool.settled =
          (posts.countP fun p => s.hasPermit p.2 : Nat) := by
    intro posts
    induction posts with
    | nil => rfl
    | cons p posts ih =>
      rw [List.flatMap_cons, List.map_append, List.sum_append, List.flatMap_append, Pool.owed_append,
        List.countP_cons, Nat.cast_add, ← ih]
      have hone : (p.2.stakes.map (·.hands)).sum +
          Pool.owed (p.2.stakes.flatMap (·.claims)) s.admission.pool.settled =
            ((if s.hasPermit p.2 then 1 else 0 : Nat) : Int) := by
        cases hphase : p.2 with
        | queued ticket job =>
          simp only [State.hasPermit_queued]
          simp [Phase.stakes, Pool.owed, Pool.Stake.claim]
        | _ => simp [Phase.stakes, State.hasPermit, Pool.owed, Pool.Stake.hold]
      omega
  rw [hheld]
  unfold State.stakes
  rw [hall]
  unfold State.posts
  rw [List.countP_map]
  rfl

/-- Who waits for a permit has none. -/
theorem not_hasPermit (h : Live capacity s) {phase : Phase} (hwaits : s.awaitsPermit phase) :
    s.hasPermit phase = false := by
  obtain ⟨ticket, job, rfl, hticket⟩ := hwaits
  obtain ⟨w, hw, rfl⟩ := List.mem_map.mp hticket
  rw [← Bool.not_eq_true, State.hasPermit_queued]
  exact h.serves.1.not_settled_of_waiting hw _

end Live

/-- Who has a permit can go on. -/
theorem State.isSome_stepTask? {i : Nat} {t : Task} (h : s.hasPermit t.phase = true) :
    (s.stepTask? env i t).isSome = true := by
  rw [stepTask?_eq, Option.isSome_map]
  unfold entry?
  cases hphase : t.phase with
  | queued ticket job =>
    rw [hphase] at h
    have hgranted : (ticket, Settlement.granted) ∈ s.admission.pool.settled := hasPermit_queued.mp h
    dsimp only
    rw [Option.isSome_map, Option.isSome_iff_ne_none]
    intro hnone
    exact Pool.collect?_eq_none (Admission.collect?_eq_none.mp hnone) (List.mem_map_of_mem hgranted)
  | calling | consulting => rfl
  | _ => simp [hphase, hasPermit] at h

/-- A walk from `s` ends, and why: each step is one of boundedly many, each directory that is listed and
each link that is followed takes an identity that was not visited yet out of finitely many, nobody who
has a permit waits, and a walk in which nobody can make a step has come back. -/
structure State.Terminates (env : Environment σ) (s : State σ) (ids : Finset Text) (bound : Nat) :
    Prop where
  bounded : ∀ n s', Steps env n s s' → n ≤ bound
  visited : ∀ n s', Steps env n s s' → s'.visited.Nodup ∧ (∀ id ∈ s'.visited, id ∈ ids) ∧
    s'.recursions ≤ s'.visited.length + 1
  permits : ∀ n s', Steps env n s s' →
    s'.admission.pool.held = (s'.tasks.countP fun t => s'.hasPermit t.phase : Nat) ∧
    (∀ t ∈ s'.tasks, s'.awaitsPermit t.phase → s'.hasPermit t.phase = false) ∧
    ∀ i t, s'.tasks[i]? = some t → s'.hasPermit t.phase = true → (s'.step? env (.task i)).isSome = true
  returns : ∀ n s', Steps env n s s' → s'.Stuck env → s'.result?.isSome = true
  finishes : ∀ sweeps, bound ≤ sweeps → (s.run env sweeps).result?.isSome = true

theorem terminates_of_bounded {caller : Caller σ} {ids : Finset Text} {width : Nat}
    (hbounded : env.files.Bounded ids width) (hpool : Pool.Serves caller.pool [])
    (hsize : 1 ≤ caller.pool.capacity) (paths : List Path) :
    (State.start env caller paths).Terminates env ids
      (14 * paths.length + 2 + (14 * width + 16) * ids.card) := by
  have hmeasured := Measured.start env caller paths ids width
  have hlive := Live.start env paths hpool
  have hsteps : ∀ n s', State.Steps env n (State.start env caller paths) s' →
      n ≤ 14 * paths.length + 2 + (14 * width + 16) * ids.card := fun n s' hsteps =>
    (Measured.steps hbounded hsteps hmeasured).1
  refine ⟨hsteps, ?_, ?_, ?_, ?_⟩
  · intro n s' hs
    have hthen := (Measured.steps hbounded hs hmeasured).2
    refine ⟨hthen.distinct, hthen.known, ?_⟩
    have := hthen.recursions
    omega
  · intro n s' hs
    have hthen := hlive.steps hs
    refine ⟨hthen.held_eq, fun t _ hwaits => hthen.not_hasPermit hwaits, ?_⟩
    intro i t ht hpermit
    have hstep : s'.step? env (.task i) = s'.stepTask? env i t := by
      unfold State.step?
      dsimp only
      rw [ht, Option.bind_some]
    rw [hstep]
    exact State.isSome_stepTask? hpermit
  · intro n s' hs hstuck
    exact (hlive.steps hs).result_of_stuck hsize hstuck
  · intro sweeps henough
    exact (hlive.run hsize sweeps fun n s' hs => Nat.le_trans (hsteps n s' hs) henough).1

/-- Whatever links an image has, and whatever its filter and its handlers do, a walk of it ends. -/
theorem terminates (img : Image) (cwd : Path) (options : Options σ) (refusal : Text → Option Fault)
    {caller : Caller σ} (hpool : Pool.Serves caller.pool []) (hsize : 1 ≤ caller.pool.capacity)
    (paths : List Path) : ∃ ids bound,
      (State.start ⟨img.toFileSystem cwd, options, refusal⟩ caller paths).Terminates
        ⟨img.toFileSystem cwd, options, refusal⟩ ids bound := by
  obtain ⟨ids, width, hbounded⟩ := img.bounded_toFileSystem cwd
  exact ⟨ids, _, terminates_of_bounded hbounded hpool hsize paths⟩

/-- A directory with a link to itself and a link to that link, none of which has a device, walked with a
single permit. -/
theorem terminates_of_loop : ∃ (img : Image) (options : Options Unit) (caller : Caller Unit),
    Pool.Serves caller.pool [] ∧ 1 ≤ caller.pool.capacity ∧
      img.nodes.map (fun n => (n.parts, n.target)) =
        [([], []), ([['a']], []), ([['a'], ['l']], ['/', '/', 'a']), ([['a'], ['m']], ['l'])] ∧
      ∃ ids bound, (State.start ⟨img.toFileSystem ['/'], options, fun _ => none⟩ caller
        [['a']]).Terminates ⟨img.toFileSystem ['/'], options, fun _ => none⟩ ids bound := by
  let node (parts : List Text) (kind : ItemKind) (inode : Int) (target : Text) : Node :=
    ⟨parts, kind, none, 0, some inode, 0, target, none, none, none, none, none⟩
  let img : Image := ⟨[node [] .directory 1 [], node [['a']] .directory 2 [],
    node [['a'], ['l']] .link 3 ['/', '/', 'a'], node [['a'], ['m']] .link 4 ['l']]⟩
  let options : Options Unit := ⟨.several [['a']], true, none, none, none, none, defaultPriority⟩
  let caller : Caller Unit := ⟨⟨1, 0, [], [], 0⟩, false, none, ()⟩
  have hserves : Pool.Serves caller.pool [] := by
    refine ⟨⟨?_, ?_, ?_, ?_, ?_, ?_, ?_, ?_⟩, ?_⟩ <;> decide
  exact ⟨img, options, caller, hserves, by decide, rfl,
    terminates img ['/'] options (fun _ => none) hserves (by decide) [['a']]⟩

end TreeCensus.Walk
