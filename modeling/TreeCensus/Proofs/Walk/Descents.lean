import TreeCensus.Proofs.Walk.Scene

/-!
# Who waits for which level

A level is opened by one task, which waits for it from then on, and no other task ever waits for the
same level. The level stands below the level of the task.
-/

namespace TreeCensus.Walk

set_option autoImplicit false

variable {σ : Type}

/-- A task in the phase waits for level `k`. -/
def Phase.Awaits (k : Nat) (phase : Phase) : Prop := ∃ info, phase = .descending k info

/-- No two tasks wait for the same level, and levels are below the tasks that wait for them. -/
structure Forked (posts : List (Nat × Phase)) (count : Nat) : Prop where
  below : ∀ (i : Nat) (p : Nat × Phase) (k : Nat), posts[i]? = some p → p.2.Awaits k →
    p.1 < k ∧ k < count
  once : ∀ (i j : Nat) (p q : Nat × Phase) (k : Nat), posts[i]? = some p → posts[j]? = some q →
    p.2.Awaits k → q.2.Awaits k → i = j

namespace Forked

variable {posts : List (Nat × Phase)} {count : Nat}

theorem replicate (n k count : Nat) : Forked (List.replicate n (k, .fresh)) count := by
  have hfresh : ∀ {i : Nat} {p : Nat × Phase} {j : Nat},
      (List.replicate n (k, Phase.fresh))[i]? = some p → ¬ p.2.Awaits j := by
    rintro i p j hp ⟨info, hinfo⟩
    rw [List.eq_of_mem_replicate (List.mem_of_getElem? hp)] at hinfo
    cases hinfo
  exact ⟨fun i p j hp hj => absurd hj (hfresh hp), fun i j p q m hp _ hj _ => absurd hj (hfresh hp)⟩

/-- A task goes on to a phase in which it waits for no level. -/
theorem rest (h : Forked posts count) (i : Nat) {phase : Phase} (hphase : ∀ k, ¬ phase.Awaits k) :
    Forked (posts.modify i fun p => (p.1, phase)) count := by
  have hold : ∀ {j : Nat} {p : Nat × Phase} {k : Nat},
      (posts.modify i fun p => (p.1, phase))[j]? = some p → p.2.Awaits k → posts[j]? = some p := by
    intro j p k hp hk
    rcases modify_cases hp with ⟨_, hp⟩ | ⟨_, a, _, rfl⟩
    · exact hp
    · exact absurd hk (hphase k)
  exact ⟨fun j p k hp hk => h.below j p k (hold hp hk) hk,
    fun j j' p q k hp hq hpk hqk => h.once j j' p q k (hold hp hpk) (hold hq hqk) hpk hqk⟩

theorem descend (h : Forked posts count) {i : Nat} {p : Nat × Phase} (hi : posts[i]? = some p)
    (hplaced : p.1 < count) (info : FileInfo) (opened : Nat) :
    Forked ((posts ++ List.replicate opened (count, Phase.fresh)).modify i fun p =>
      (p.1, .descending count info)) (count + 1) := by
  have hlt := (List.getElem?_eq_some_iff.mp hi).1
  have hcases : ∀ {j : Nat} {q : Nat × Phase} {k : Nat},
      ((posts ++ List.replicate opened (count, Phase.fresh)).modify i fun p =>
        (p.1, .descending count info))[j]? = some q → q.2.Awaits k →
      posts[j]? = some q ∨ j = i ∧ q.1 = p.1 ∧ k = count := by
    intro j q k hq hk
    rcases modify_cases hq with ⟨_, hq⟩ | ⟨rfl, a, ha, rfl⟩
    · rcases getElem?_append_cases hq with hq | ⟨_, hnew⟩
      · exact .inl hq
      · obtain ⟨found, hfound⟩ := hk
        rw [List.eq_of_mem_replicate hnew] at hfound
        cases hfound
    · obtain ⟨found, hfound⟩ := hk
      rw [List.getElem?_append_left hlt, hi] at ha
      cases ha
      exact .inr ⟨rfl, rfl, (Phase.descending.inj hfound).1.symm⟩
  refine ⟨?_, ?_⟩
  · intro j q k hq hk
    rcases hcases hq hk with hq | ⟨_, hlevel, rfl⟩
    · obtain ⟨hbelow, hcount⟩ := h.below j q k hq hk
      exact ⟨hbelow, Nat.lt_succ_of_lt hcount⟩
    · rw [hlevel]
      exact ⟨hplaced, Nat.lt_succ_self _⟩
  · intro j j' q q' k hq hq' hk hk'
    rcases hcases hq hk with hold | ⟨rfl, _, hnew⟩
    · rcases hcases hq' hk' with hold' | ⟨rfl, _, rfl⟩
      · exact h.once j j' q q' k hold hold' hk hk'
      · exact absurd (h.below j q _ hold hk).2 (Nat.lt_irrefl _)
    · rcases hcases hq' hk' with hold' | ⟨rfl, _, _⟩
      · rw [hnew] at hk'
        exact absurd (h.below j' q' _ hold' hk').2 (Nat.lt_irrefl _)
      · rfl

end Forked

theorem Advances.forked {i level : Nat} {given : List Pool.Stake} {s s' : State σ} {t : Task}
    (ht : s.tasks[i]? = some t) (h : Advances i level given s (.done s'))
    (hnested : Nested s.posts s.stages s.admission.network) (hforked : Forked s.posts s.stages.length) :
    Forked s'.posts s'.stages.length := by
  have hp := State.posts_of_task ht
  cases h with
  | rest phase stays posts stages _ =>
    rw [posts, stages]
    exact hforked.rest i fun k ⟨info, hinfo⟩ => stays k info hinfo
  | descend info count source posts stages _ _ _ =>
    rw [posts, stages, List.length_append]
    exact hforked.descend hp (hnested.placed _ (List.mem_of_getElem? hp)) info count

theorem Turns.forked {k : Nat} {s s' : State σ} (h : Turns s k s')
    (hforked : Forked s.posts s.stages.length) : Forked s'.posts s'.stages.length := by
  cases h with
  | drain _ _ posts stages _ | close _ _ _ posts stages _ =>
    rw [posts, stages, List.length_modify]
    exact hforked

namespace Scene

variable {env : Environment σ} {capacity : Int} {sc sc' : Scene σ}

theorem forked_start (env : Environment σ) (caller : Caller σ) (paths : List Path)
    (others : List Pool.Stake) :
    Forked (start env caller paths others).state.posts (start env caller paths others).state.stages.length := by
  change Forked (State.start env caller paths).posts _
  rw [State.posts_start]
  exact .replicate _ _ _

theorem Sound.forked_move (h : Sound capacity sc) (hmove : Move env sc sc')
    (hforked : Forked sc.state.posts sc.state.stages.length) :
    Forked sc'.state.posts sc'.state.stages.length := by
  cases hmove with
  | @act a s step =>
    cases a with
    | task i =>
      obtain ⟨t, ht, hstep⟩ := Option.bind_eq_some_iff.mp step
      exact (State.advances_stepTask (h.source_ne ht) hstep).2.forked ht h.nested hforked
    | level k =>
      obtain ⟨l, hl, hstep⟩ := Option.bind_eq_some_iff.mp step
      exact (State.turns hl hstep).forked hforked
  | interrupt =>
    change Forked sc.state.interruptAll.posts sc.state.interruptAll.stages.length
    rw [State.posts_interruptAll, State.stages_interruptAll]
    exact hforked
  | deal => exact hforked

end Scene

end TreeCensus.Walk
