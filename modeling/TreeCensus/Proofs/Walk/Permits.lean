import TreeCensus.Proofs.Pool.Trades
import TreeCensus.Proofs.Walk.Cursor

/-!
# Permits on the way

Every task of a walk has a claim in the pool while it waits for a permit, has the permit while it
calls or consults, and otherwise nothing. A move changes what its own task has at stake and the phase
the task is in, and it may open a level below; nothing else of the plan of a walk changes.
-/

namespace TreeCensus.Walk

set_option autoImplicit false

open Pool (Stake)

variable {σ : Type}

/-- What a task in this phase has at stake in the pool. -/
def Phase.stakes : Phase → List Stake
  | queued ticket _ => [.claim ticket 1]
  | calling _ | consulting _ _ => [.hold 1]
  | _ => []

namespace Cursor

def stakes (c : Cursor) : List Stake := if c.hasPermit then [.hold 1] else []

/-- What comes after a permit is given back does without it. -/
def Balanced : Cursor → Prop
  | giveBack next => next.hasPermit = false
  | _ => True

end Cursor

theorem map_modify {α β : Type} {f : α → α} {g : α → β} {h : β → β} (hg : ∀ a, g (f a) = h (g a))
    (l : List α) (i : Nat) : (l.modify i f).map g = (l.map g).modify i h := by
  induction l generalizing i with
  | nil => simp
  | cons a l ih =>
    cases i with
    | zero => simp [hg]
    | succ i => simp [ih]

theorem map_modify_of_eq {α β : Type} {f : α → α} {g : α → β} (hg : ∀ a, g (f a) = g a)
    (l : List α) (i : Nat) : (l.modify i f).map g = l.map g := by
  rw [map_modify (h := id) hg, List.modify_id]

/-- Only one element is changed. -/
theorem map_modify_at {α β : Type} {f : α → α} {g : α → β} {h : β → β} {l : List α} {i : Nat} {a : α}
    (ha : l[i]? = some a) (hg : g (f a) = h (g a)) : (l.modify i f).map g = (l.map g).modify i h := by
  induction l generalizing i with
  | nil => cases ha
  | cons b l ih =>
    cases i with
    | zero =>
      obtain rfl := Option.some.inj ha
      exact congrArg (· :: l.map g) hg
    | succ i => exact congrArg (g b :: ·) (ih ha)

theorem modify_cases {α : Type} {f : α → α} {l : List α} {i j : Nat} {b : α}
    (hb : (l.modify i f)[j]? = some b) :
    j ≠ i ∧ l[j]? = some b ∨ j = i ∧ ∃ a, l[i]? = some a ∧ b = f a := by
  by_cases hij : i = j
  · subst hij
    rw [List.getElem?_modify_eq] at hb
    obtain ⟨a, ha, rfl⟩ := Option.map_eq_some_iff.mp hb
    exact .inr ⟨rfl, a, ha, rfl⟩
  · rw [List.getElem?_modify_ne _ _ hij] at hb
    exact .inl ⟨Ne.symm hij, hb⟩

theorem mem_modify {α : Type} {f : α → α} {l : List α} {i : Nat} {b : α} (hb : b ∈ l.modify i f) :
    b ∈ l ∨ ∃ a, l[i]? = some a ∧ b = f a := by
  obtain ⟨j, hj⟩ := List.getElem?_of_mem hb
  rcases modify_cases hj with ⟨_, hj⟩ | ⟨_, hj⟩
  · exact .inl (List.mem_of_getElem? hj)
  · exact .inr hj

theorem modify_append {α : Type} {l : List α} {i : Nat} (hi : i < l.length) (m : List α) (f : α → α) :
    (l ++ m).modify i f = l.modify i f ++ m := by
  induction l generalizing i with
  | nil => cases hi
  | cons a l ih =>
    cases i with
    | zero => rfl
    | succ i =>
      simp only [List.cons_append, List.modify_succ_cons]
      rw [ih (Nat.lt_of_succ_lt_succ hi)]

theorem perm_modify {α : Type} {l : List α} {i : Nat} {a : α} (ha : l[i]? = some a) (f : α → α) :
    (l.modify i f).Perm (f a :: l.eraseIdx i) := by
  obtain ⟨hi, rfl⟩ := List.getElem?_eq_some_iff.mp ha
  have hi' : i < (l.modify i f).length := by simpa using hi
  have hperm := List.getElem_cons_eraseIdx_perm hi'
  rw [List.getElem_modify_eq, List.eraseIdx_modify_of_eq] at hperm
  exact hperm.symm

theorem perm_eraseIdx {α : Type} {l : List α} {i : Nat} {a : α} (ha : l[i]? = some a) :
    l.Perm (a :: l.eraseIdx i) := by
  obtain ⟨hi, rfl⟩ := List.getElem?_eq_some_iff.mp ha
  exact (List.getElem_cons_eraseIdx_perm hi).symm

theorem modify_of_eq_self {α : Type} {f : α → α} {l : List α} {i : Nat} {a : α} (ha : l[i]? = some a)
    (hf : f a = a) : l.modify i f = l := by
  apply List.ext_getElem?
  intro j
  by_cases hij : i = j
  · subst hij
    rw [List.getElem?_modify_eq, ha]
    exact congrArg some hf
  · rw [List.getElem?_modify_ne _ _ hij]

section Append

variable {α β : Type} {l l' : List α} {a b : α} {j : Nat}

theorem getElem?_append_of_some (h : l[j]? = some b) (l' : List α) : (l ++ l')[j]? = some b :=
  (List.getElem?_append_left (List.getElem?_eq_some_iff.mp h).1).trans h

theorem getElem?_append_cases (h : (l ++ l')[j]? = some b) :
    l[j]? = some b ∨ l.length ≤ j ∧ b ∈ l' := by
  rcases Nat.lt_or_ge j l.length with hlt | hge
  · rw [List.getElem?_append_left hlt] at h
    exact .inl h
  · rw [List.getElem?_append_right hge] at h
    exact .inr ⟨hge, List.mem_of_getElem? h⟩

theorem getElem?_concat_cases (h : (l ++ [a])[j]? = some b) : l[j]? = some b ∨ j = l.length ∧ b = a := by
  rcases getElem?_append_cases h with h | ⟨hge, hb⟩
  · exact .inl h
  · have hlt := (List.getElem?_eq_some_iff.mp h).1
    rw [List.length_append, List.length_singleton] at hlt
    exact .inr ⟨Nat.le_antisymm (Nat.le_of_lt_succ hlt) hge, List.mem_singleton.mp hb⟩

/-- Of two lists of the same length each gets one more. -/
theorem getElem?_concat_both {m : List β} {c d : β} (hlength : l.length = m.length)
    (h : (l ++ [a])[j]? = some b) (h' : (m ++ [c])[j]? = some d) :
    l[j]? = some b ∧ m[j]? = some d ∨ j = m.length ∧ b = a ∧ d = c := by
  rcases getElem?_concat_cases h with h | ⟨hj, hb⟩ <;> rcases getElem?_concat_cases h' with h' | ⟨hj', hd⟩
  · exact .inl ⟨h, h'⟩
  · exact absurd (List.getElem?_eq_some_iff.mp h).1 (by omega)
  · exact absurd (List.getElem?_eq_some_iff.mp h').1 (by omega)
  · exact .inr ⟨hj', hb, hd⟩

end Append

namespace State

/-- The level and the phase of each task. -/
def posts (s : State σ) : List (Nat × Phase) := s.tasks.map fun t => (t.level, t.phase)

/-- The source and the stage of each level. -/
def stages (s : State σ) : List (Nat × Stage) := s.levels.map fun l => (l.source, l.stage)

variable (s : State σ) (i k : Nat)

theorem posts_updateTask {f : Task → Task} (hf : ∀ t, (f t).level = t.level ∧ (f t).phase = t.phase) :
    (s.updateTask i f).posts = s.posts :=
  map_modify_of_eq (fun t => by rw [(hf t).1, (hf t).2]) s.tasks i

theorem posts_setPhase (phase : Phase) :
    (s.setPhase i phase).posts = s.posts.modify i fun p => (p.1, phase) :=
  map_modify (h := fun p => (p.1, phase)) (fun _ => rfl) s.tasks i

@[simp] theorem stages_setPhase (phase : Phase) : (s.setPhase i phase).stages = s.stages := rfl

@[simp] theorem admission_setPhase (phase : Phase) :
    (s.setPhase i phase).admission = s.admission := rfl

@[simp] theorem posts_updateLevel (f : Level → Level) : (s.updateLevel k f).posts = s.posts := rfl

theorem stages_updateLevel {f : Level → Level}
    (hf : ∀ l, (f l).source = l.source ∧ (f l).stage = l.stage) :
    (s.updateLevel k f).stages = s.stages :=
  map_modify_of_eq (fun l => by rw [(hf l).1, (hf l).2]) s.levels k

theorem stages_updateLevel_stage {f : Level → Level} {stage : Stage}
    (hf : ∀ l, (f l).source = l.source ∧ (f l).stage = stage) :
    (s.updateLevel k f).stages = s.stages.modify k fun l => (l.1, stage) :=
  map_modify (fun l => by rw [(hf l).1, (hf l).2]) s.levels k

@[simp] theorem admission_updateLevel (f : Level → Level) :
    (s.updateLevel k f).admission = s.admission := rfl

theorem posts_conclude (t : Task) (result : Except Fault (Option Tally)) :
    (s.conclude i t result).posts = s.posts.modify i fun p => (p.1, .ended result) := by
  rw [← posts_setPhase]
  cases result <;> rfl

theorem stages_conclude (t : Task) (result : Except Fault (Option Tally)) :
    (s.conclude i t result).stages = s.stages := by
  cases result with
  | ok => rfl
  | error f => exact stages_updateLevel (s.setPhase i _) t.level fun _ => ⟨rfl, rfl⟩

theorem admission_conclude (t : Task) (result : Except Fault (Option Tally)) :
    (s.conclude i t result).admission = s.admission := by
  cases result <;> rfl

theorem posts_openLevel (env : Environment σ) (links : List Nat) (depth : Nat) (priority : Priority)
    (paths : List Path) : (s.openLevel env links depth priority paths).posts =
      s.posts ++ List.replicate (visits env paths).length (s.stages.length, .fresh) := by
  unfold openLevel posts stages
  simp only [List.map_append, List.map_map, List.length_map]
  congr 1
  change (visits env paths).map (fun _ => (s.levels.length, Phase.fresh)) = _
  exact List.map_const'

/-- When a task opens a level, whoever is not new and does not wait for that level was there before. -/
theorem mem_posts_of_descended {posts : List (Nat × Phase)} {q : Nat × Phase} {i k n count : Nat} {info : FileInfo}
    (hq : q ∈ (posts ++ List.replicate count (k, Phase.fresh)).modify i fun p => (p.1, .descending n info))
    (hfresh : q.2 ≠ .fresh) (hwaits : q.2 ≠ .descending n info) : q ∈ posts := by
  rcases mem_modify hq with hq | ⟨q, _, rfl⟩
  · rcases List.mem_append.mp hq with hq | hq
    · exact hq
    · rw [List.eq_of_mem_replicate hq] at hfresh
      exact absurd rfl hfresh
  · exact absurd rfl hwaits

/-- The topmost visits are those of the given paths that are not excluded. -/
theorem eq_of_mem_visits {env : Environment σ} {paths : List Path} {v : Visit} (hv : v ∈ visits env paths) :
    ∃ p ∈ paths, v.verdict ≠ .excluded ∧
      v = ⟨Path.resolve env.files.cwd p, Path.resolve env.files.cwd p, v.index,
        match env.options.filter with
        | some f => f (Path.resolve env.files.cwd p)
        | none => .included, []⟩ := by
  unfold visits at hv
  obtain ⟨⟨p, index⟩, hp, hvisit⟩ := List.mem_filterMap.mp hv
  have hmem := List.mem_map_of_mem (f := Prod.fst) hp
  rw [List.zipIdx_map_fst] at hmem
  dsimp only at hvisit
  rw [Option.ite_none_left_eq_some] at hvisit
  obtain rfl := Option.some.inj hvisit.2
  exact ⟨p, hmem, hvisit.1, rfl⟩

theorem mem_visits {env : Environment σ} {paths : List Path} {v : Visit} (hv : v ∈ visits env paths) :
    v.outer = [] ∧ v.name = v.place ∧ ∃ p ∈ paths, v.place = Path.resolve env.files.cwd p := by
  obtain ⟨p, hp, -, heq⟩ := eq_of_mem_visits hv
  rw [heq]
  exact ⟨rfl, rfl, p, hp, rfl⟩

theorem length_visits_le (env : Environment σ) (paths : List Path) :
    (visits env paths).length ≤ paths.length := by
  unfold visits
  refine Nat.le_trans (List.length_filterMap_le _ _) (Nat.le_of_eq ?_)
  exact List.length_zipIdx

theorem stages_openLevel (env : Environment σ) (links : List Nat) (depth : Nat) (priority : Priority)
    (paths : List Path) : (s.openLevel env links depth priority paths).stages =
      s.stages ++ [(s.admission.network.tokens.length, .running)] := by
  unfold openLevel stages
  rw [List.map_append]
  rfl

theorem posts_start (env : Environment σ) (caller : Caller σ) (paths : List Path) :
    (start env caller paths).posts = List.replicate (visits env paths).length (0, .fresh) :=
  posts_openLevel _ env _ _ _ _

theorem stages_start (env : Environment σ) (caller : Caller σ) (paths : List Path) :
    (start env caller paths).stages = [(1, .running)] :=
  stages_openLevel _ env _ _ _ _

theorem level_source_eq : (s.level k).source = (s.stages[k]?.map (·.1)).getD 0 := by
  unfold level stages
  rw [List.getElem?_map]
  cases s.levels[k]? <;> rfl

theorem level_stage_eq : (s.level k).stage = (s.stages[k]?.map (·.2)).getD .running := by
  unfold level stages
  rw [List.getElem?_map]
  cases s.levels[k]? <;> rfl

end State

/-- What a move of a task does to a walk whose task has some stakes before. -/
inductive Advances (i level : Nat) (given : List Stake) (s : State σ) : Course σ → Prop
  | onward {t : Task} {c : Cursor} {s' : State σ} (place : t.level = level) (balanced : c.Balanced)
      (posts : s'.posts = s.posts) (stages : s'.stages = s.stages)
      (trade : Trade (· ≠ callerToken) given c.stakes s.admission s'.admission) :
      Advances i level given s (.goOn t c s')
  | rest {s' : State σ} (phase : Phase) (stays : ∀ k info, phase ≠ .descending k info)
      (posts : s'.posts = s.posts.modify i fun p => (p.1, phase)) (stages : s'.stages = s.stages)
      (trade : Trade (· ≠ callerToken) given phase.stakes s.admission s'.admission) :
      Advances i level given s (.done s')
  | descend {s' : State σ} (info : FileInfo) (count source : Nat)
      (posts : s'.posts = (s.posts ++ List.replicate count (s.stages.length, Phase.fresh)).modify i
        fun p => (p.1, .descending s.stages.length info))
      (stages : s'.stages = s.stages ++ [(source, .running)])
      (unused : s.admission.network.tokens.length ≤ source)
      (grown : source < s'.admission.network.tokens.length)
      (trade : Trade (· ≠ callerToken) given [] s.admission s'.admission) :
      Advances i level given s (.done s')

namespace Advances

variable {i : Nat} {t : Task} {s s' : State σ} {given : List Stake}

/-- A move that leaves posts, stages and admission alone. -/
theorem still {c : Cursor} (hc : c.Balanced) (hgiven : given = c.stakes) (hposts : s'.posts = s.posts)
    (hstages : s'.stages = s.stages) (hadmission : s'.admission = s.admission) :
    Advances i t.level given s (.goOn t c s') := by
  refine .onward rfl hc hposts hstages ?_
  rw [hadmission, hgiven]
  exact .refl _ _ _

theorem settled (phase : Phase) (hphase : ∀ k info, phase ≠ .descending k info)
    (hgiven : given = phase.stakes) (hposts : s'.posts = s.posts.modify i fun p => (p.1, phase))
    (hstages : s'.stages = s.stages) (hadmission : s'.admission = s.admission) :
    Advances i t.level given s (.done s') := by
  refine .rest phase hphase hposts hstages ?_
  rw [hadmission, hgiven]
  exact .refl _ _ _

theorem trans {u : Task} {c : Cursor} {s₁ : State σ} {course : Course σ}
    (h : Advances i t.level given s (.goOn u c s₁)) (h' : Advances i u.level c.stakes s₁ course) :
    Advances i t.level given s course := by
  cases h with
  | onward place balanced posts stages trade =>
    cases h' with
    | onward place' balanced' posts' stages' trade' =>
      exact .onward (place'.trans place) balanced' (posts'.trans posts) (stages'.trans stages)
        (trade.trans trade')
    | rest phase stays posts' stages' trade' =>
      exact .rest phase stays (posts ▸ posts') (stages'.trans stages) (trade.trans trade')
    | descend info count source posts' stages' unused grown trade' =>
      rw [posts, stages] at posts'
      rw [stages] at stages'
      exact .descend info count source posts' stages' (Nat.le_trans trade.follows.length unused) grown
        (trade.trans trade')

theorem conclude (result : Except Fault (Option Tally)) :
    Advances i t.level [] s (.done (s.conclude i t result)) :=
  settled (.ended result) (by simp) rfl (s.posts_conclude i t result)
    (s.stages_conclude i t result) (s.admission_conclude i t result)

end Advances

theorem Job.balanced_forgone (t : Task) (job : Job) : (Cursor.giveBack (job.forgone t)).Balanced := by
  cases job <;> rfl

theorem Cursor.advances_move (env : Environment σ) (i : Nat) (t : Task) {c : Cursor} (hc : c.Balanced)
    (s : State σ) (hsource : (s.level t.level).source ≠ callerToken) :
    Advances i t.level c.stakes s (c.move env i t s) := by
  cases c with
  | conclude result => exact .conclude result
  | log tally =>
    simp only [move]
    split
    · exact .still trivial rfl rfl rfl rfl
    · split
      · split
        · exact .settled (.logging tally) (by simp) rfl (State.posts_setPhase _ i _) rfl rfl
        · exact .still trivial rfl rfl rfl rfl
      · exact .still trivial rfl rfl rfl rfl
  | accept tally => exact .still trivial rfl rfl (s.stages_updateLevel _ fun _ => ⟨rfl, rfl⟩) rfl
  | seek job =>
    simp only [move]
    split
    · exact .still trivial rfl rfl rfl rfl
    · next hask => exact .onward rfl trivial rfl rfl (.grant (by decide) hask)
    · next hask =>
      refine .rest (.queued _ job) (by simp) (State.posts_setPhase _ i _) rfl ?_
      refine .queue (by decide) ?_ hask
      intro u hu
      obtain rfl := Option.some.inj hu
      exact hsource
  | follow o =>
    cases o with
    | «over» result => exact .still trivial rfl rfl rfl rfl
    | counted info tally =>
      simp only [move]
      split <;> exact .still trivial rfl rfl rfl rfl
  | enter info =>
    simp only [move]
    split
    · split <;> exact .still trivial rfl rfl rfl rfl
    · exact .still trivial rfl rfl rfl rfl
    · exact .still trivial rfl rfl rfl rfl
    · exact .still trivial rfl rfl rfl rfl
  | onInfo info =>
    simp only [move]
    split
    · exact .still trivial rfl rfl rfl rfl
    · split <;> exact .still trivial rfl rfl rfl rfl
  | onTarget info target =>
    simp only [move]
    split
    · exact .still trivial rfl rfl rfl rfl
    · refine .onward rfl trivial ?_ rfl (.refl _ _ _)
      exact s.posts_updateTask i fun _ => ⟨rfl, rfl⟩
  | onEntries info names =>
    simp only [move]
    split
    · exact .still trivial rfl rfl rfl rfl
    · refine .descend info (State.visits env (names.map (Path.under t.visit.name))).length
        s.admission.network.tokens.length ?_ ?_ (Nat.le_refl _) ?_ ?_
      · rw [State.posts_setPhase, State.posts_openLevel]
        simp [State.stages]
      · rw [State.stages_setPhase, State.stages_openLevel]
      · refine Nat.lt_of_lt_of_eq (Nat.lt_succ_self _) ?_
        exact (Cancellation.Network.length_addSource _ _).symm
      · refine .addSource s.admission ?_
        intro u hu
        obtain rfl := List.mem_singleton.mp hu
        exact hsource
  | giveBack next =>
    have hrelease : Trade (· ≠ callerToken) [.hold 1] [] s.admission (s.admission.release 1).1 :=
      .release s.admission 1
    have hnone : next.stakes = [] := by
      unfold stakes
      rw [show next.hasPermit = false from hc]
      rfl
    simp only [move]
    split
    · next admission hfine =>
      rw [hfine] at hrelease
      refine .onward rfl ?_ rfl rfl ?_
      · cases next <;> trivial
      · rw [hnone]
        exact hrelease
    · next admission f hfails =>
      rw [hfails] at hrelease
      exact .onward rfl trivial rfl rfl hrelease
  | onAnswer job f answer =>
    cases answer with
    | error g => exact .still rfl rfl rfl rfl rfl
    | ok taken =>
      simp only [move]
      split
      · exact .still (job.balanced_forgone t) rfl rfl rfl rfl
      · exact .still rfl rfl rfl rfl rfl
  | consult job f =>
    simp only [move]
    split <;> exact .still trivial rfl rfl rfl rfl
  | offer job f =>
    simp only [move]
    split
    · exact .still rfl rfl rfl rfl rfl
    · split
      · exact .still trivial rfl rfl rfl rfl
      · split
        · exact .settled (.consulting job f) (by simp) rfl (State.posts_setPhase _ i _) rfl rfl
        · exact .still trivial rfl rfl rfl rfl
  | onReply info tally answer =>
    rcases answer with f | _ | _
    · simp only [move]
      split
      · exact .still rfl rfl rfl rfl rfl
      · exact .still trivial rfl rfl rfl rfl
    · exact .still rfl rfl rfl rfl rfl
    · exact .still rfl rfl rfl rfl rfl
  | stop info tally reply =>
    cases hstop : reply.stop with
    | none =>
      simp only [move, hstop]
      exact .still trivial rfl rfl rfl rfl
    | some r =>
      simp only [move, hstop]
      exact .onward rfl trivial rfl rfl (.cancel _ _ _)
  | report info tally =>
    simp only [move]
    split <;> exact .still trivial rfl rfl rfl rfl
  | begin job =>
    cases job with
    | report info tally =>
      simp only [move]
      split
      · exact .still trivial rfl rfl rfl rfl
      · split
        · exact .settled (.calling _) (by simp) rfl (State.posts_setPhase _ i _) rfl rfl
        · exact .still trivial rfl rfl rfl rfl
    | _ => exact .settled (.calling _) (by simp) rfl (State.posts_setPhase _ i _) rfl rfl
  | answer job =>
    cases job with
    | report info tally => exact .still trivial rfl rfl rfl rfl
    | _ =>
      simp only [move]
      split
      · exact .still rfl rfl rfl rfl rfl
      · exact .still trivial rfl rfl rfl rfl

/-- Whether a task is not over and not waiting for a level below. -/
def State.Ready (s : State σ) (t : Task) : Prop :=
  t.phase.isEnded = false ∧
    ∀ k info, t.phase = .descending k info → (s.level k).stage.isClosed = true

theorem State.advances_entry {env : Environment σ} {s s' : State σ} {t : Task} {c : Cursor} (i : Nat)
    (h : s.entry? env t = some (c, s')) :
    s.Ready t ∧ Advances i t.level t.phase.stakes s (.goOn t c s') := by
  unfold Ready
  unfold entry? at h
  cases hphase : t.phase with
  | fresh =>
    simp only [hphase] at h
    obtain ⟨rfl, rfl⟩ := Prod.mk.inj (Option.some.inj h)
    refine ⟨⟨rfl, nofun⟩, ?_⟩
    split <;> exact .still trivial rfl rfl rfl rfl
  | queued ticket job =>
    simp only [hphase] at h
    obtain ⟨⟨admission, failure⟩, hcollect, heq⟩ := Option.map_eq_some_iff.mp h
    have htrade : Trade (· ≠ callerToken) _ _ s.admission admission := .collect hcollect
    obtain ⟨rfl, rfl⟩ := Prod.mk.inj heq
    refine ⟨⟨rfl, nofun⟩, ?_⟩
    cases failure with
    | some f => exact .onward rfl trivial rfl rfl htrade
    | none =>
      dsimp only
      split
      · exact .onward rfl rfl rfl rfl htrade
      · exact .onward rfl trivial rfl rfl htrade
  | calling job | consulting job f =>
    simp only [hphase] at h
    obtain ⟨rfl, rfl⟩ := Prod.mk.inj (Option.some.inj h)
    refine ⟨⟨rfl, nofun⟩, ?_⟩
    split
    · exact .still rfl rfl rfl rfl rfl
    · exact .still trivial rfl rfl rfl rfl
  | logging tally =>
    simp only [hphase] at h
    obtain ⟨rfl, rfl⟩ := Prod.mk.inj (Option.some.inj h)
    exact ⟨⟨rfl, nofun⟩, .still trivial rfl rfl rfl rfl⟩
  | descending k info =>
    simp only [hphase] at h
    cases hstage : (s.level k).stage with
    | closed result =>
      simp only [hstage] at h
      obtain ⟨rfl, rfl⟩ := Prod.mk.inj (Option.some.inj h)
      refine ⟨⟨rfl, ?_⟩, ?_⟩
      · intro j found hj
        obtain ⟨rfl, rfl⟩ := Phase.descending.inj hj
        rw [hstage]
        rfl
      · split
        · exact .still trivial rfl rfl rfl rfl
        · cases result <;> exact .still trivial rfl rfl rfl rfl
    | _ => simp [hstage] at h
  | ended result => simp [hphase] at h

theorem Advances.move (env : Environment σ) {i : Nat} {t u : Task} {given : List Stake} {s s₁ : State σ}
    {c : Cursor} (hsource : (s.level t.level).source ≠ callerToken)
    (h : Advances i t.level given s (.goOn u c s₁)) :
    Advances i t.level given s (c.move env i u s₁) := by
  refine h.trans ?_
  cases h with
  | onward place balanced posts stages trade =>
    refine Cursor.advances_move env i u balanced s₁ ?_
    rw [State.level_source_eq, stages, place, ← State.level_source_eq]
    exact hsource

/-- What a step of a task does to a walk. -/
theorem State.advances_stepTask {env : Environment σ} {s s' : State σ} {i : Nat} {t : Task}
    (hsource : (s.level t.level).source ≠ callerToken) (h : s.stepTask? env i t = some s') :
    s.Ready t ∧ Advances i t.level t.phase.stakes s (.done s') := by
  obtain ⟨c, s₁, hentry, rfl⟩ := exists_entry h
  obtain ⟨hready, hcourse⟩ := advances_entry i hentry
  refine ⟨hready, ?_⟩
  refine Cursor.run_of_moves (P := fun u c s₁ => Advances i t.level t.phase.stakes s (.goOn u c s₁))
    (Q := fun s' => Advances i t.level t.phase.stakes s (.done s')) ?_ t c s₁ hcourse
  intro u d s₂ hd
  have hnext := hd.move env hsource
  cases hmove : d.move env i u s₂ <;> rw [hmove] at hnext <;> exact hnext

theorem State.allEnded_eq (s : State σ) (k : Nat) :
    s.allEnded k = s.posts.all fun p => p.1 ≠ k || p.2.isEnded := by
  unfold allEnded posts
  rw [List.all_map]
  rfl

/-- What a step of a level does to a walk. -/
inductive Turns (s : State σ) (k : Nat) : State σ → Prop
  | drain {s' : State σ} (f : Fault) (goesOn : (s.level k).stage.isClosed = false)
      (posts : s'.posts = s.posts) (stages : s'.stages = s.stages.modify k fun l => (l.1, .draining f))
      (trade : Trade (· ≠ callerToken) [] [] s.admission s'.admission) : Turns s k s'
  | close {s' : State σ} (result : Except Fault Tally) (goesOn : (s.level k).stage.isClosed = false)
      (ended : s.allEnded k = true) (posts : s'.posts = s.posts)
      (stages : s'.stages = s.stages.modify k fun l => (l.1, .closed result))
      (admission : s'.admission =
        { s.admission with network := s.admission.network.detach (s.level k).source }) : Turns s k s'

theorem State.posts_interrupt (s : State σ) (k : Nat) : (s.interrupt k).posts = s.posts := by
  unfold interrupt posts
  dsimp only
  rw [List.map_map]
  apply List.map_congr_left
  intro t _
  dsimp only [Function.comp_apply]
  split <;> rfl

theorem State.visits_interrupt (s : State σ) (k : Nat) :
    (s.interrupt k).tasks.map (·.visit) = s.tasks.map (·.visit) := by
  unfold interrupt
  dsimp only
  rw [List.map_map]
  apply List.map_congr_left
  intro t _
  dsimp only [Function.comp_apply]
  split <;> rfl

theorem State.stages_interrupt (s : State σ) (k : Nat) : (s.interrupt k).stages = s.stages := by
  unfold interrupt stages
  apply List.ext_getElem?
  intro j
  simp only [List.getElem?_map, List.getElem?_mapIdx, Option.map_map]
  congr 1
  funext l
  dsimp only [Function.comp_apply]
  split <;> rfl

theorem State.turns {s s' : State σ} {k : Nat} {l : Level} (hl : s.levels[k]? = some l)
    (h : s.stepLevel? k l = some s') : Turns s k s' := by
  have hlevel : s.level k = l := by
    unfold level
    rw [hl]
    rfl
  have hclose : ∀ result, l.stage.isClosed = false → s.allEnded k = true →
      Turns s k (s.close k result) := by
    intro result hstage hended
    refine .close result (by rw [hlevel]; exact hstage) hended rfl ?_ rfl
    exact stages_updateLevel_stage _ k fun _ => ⟨rfl, rfl⟩
  unfold stepLevel? at h
  cases hstage : l.stage with
  | closed result => simp [hstage] at h
  | draining f =>
    simp only [hstage] at h
    split at h
    · next hended =>
      rw [← Option.some.inj h]
      exact hclose _ (by rw [hstage]; rfl) hended
    · cases h
  | running =>
    simp only [hstage] at h
    split at h
    · next f _ =>
      rw [← Option.some.inj h]
      refine .drain f (by rw [hlevel, hstage]; rfl) (posts_interrupt _ k) ?_ ?_
      · have hsame := stages_interrupt { s with admission := s.admission.cancel l.source (.fault f) } k
        rw [show s.stages = _ from hsame.symm]
        exact stages_updateLevel_stage _ k fun _ => ⟨rfl, rfl⟩
      · exact (Trade.cancel s.admission l.source (.fault f)).trans (.foldl_abandon _ _)
    · split at h
      · next hended =>
        split at h
        · rw [← Option.some.inj h]
          exact hclose _ (by rw [hstage]; rfl) hended
        · rw [← Option.some.inj h]
          exact hclose _ (by rw [hstage]; rfl) hended
      · cases h

end TreeCensus.Walk
