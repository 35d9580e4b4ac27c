import TreeCensus.Proofs.Walk.Solvency

/-!
# Where no call fails

If the file system answers all that it can be asked and the path handler accepts whatever it is told, every
run is a smooth one.
-/

namespace TreeCensus.Walk

set_option autoImplicit false

variable {σ : Type}

/-- No call fails, wherever it goes, and the path handler accepts whatever it is told. -/
structure Environment.Placid (env : Environment σ) : Prop where
  files : ∀ f, ¬ env.files.Raises f
  handler : ∀ handler, env.options.onPath = some handler → ∀ memory call,
    (handler.act memory call).2.check = false ∧ (handler.act memory call).2.answer = .ok true

/-- No fault comes up here or later in the step. -/
def Cursor.Placid : Cursor → Prop
  | onAnswer _ _ _ | consult _ _ | offer _ _ => False
  | onReply _ _ response => response = .ok true
  | stop _ _ reply => reply.check = false ∧ reply.answer = .ok true
  | giveBack next => next.Placid
  | _ => True

theorem Cursor.Placid.smooth {c : Cursor} (h : c.Placid) : c.Smooth := by
  cases c with
  | onAnswer | consult | offer | onReply => exact h
  | _ => trivial

theorem Cursor.placid_move {env : Environment σ} (henv : env.Placid) {i : Nat} {t : Task} {c : Cursor}
    (hc : c.Placid) (s : State σ) : (c.move env i t s).Meets (fun _ d _ => d.Placid) fun _ => True := by
  cases c with
  | giveBack next =>
    simp only [move]
    split
    · exact hc
    · trivial
  | onAnswer | consult | offer => exact hc.elim
  | onReply info tally response =>
    obtain rfl : response = .ok true := hc
    trivial
  | stop info tally reply =>
    obtain ⟨hcheck, hanswer⟩ := hc
    simp only [move, hcheck, Bool.false_eq_true, if_false]
    exact hanswer
  | report info tally =>
    simp only [move]
    cases hhandler : env.options.onPath with
    | none => rfl
    | some handler => exact henv.handler handler hhandler _ _
  | begin job => cases job <;> simp only [move] <;> (repeat' split) <;> trivial
  | answer job =>
    cases job with
    | report info tally => trivial
    | info =>
      simp only [move]
      split
      · trivial
      · next f hfails => exact absurd ⟨_, .inl hfails⟩ (henv.files f)
    | target i =>
      simp only [move]
      split
      · trivial
      · next f hfails => exact absurd ⟨_, .inr (.inl hfails)⟩ (henv.files f)
    | entries i =>
      simp only [move]
      split
      · trivial
      · next f hfails => exact absurd ⟨_, .inr (.inr hfails)⟩ (henv.files f)
  | follow o => cases o <;> simp only [move] <;> (repeat' split) <;> trivial
  | _ =>
    simp only [move]
    (repeat' split) <;> trivial

/-- The fault handler is not asked about anything. -/
def State.Untroubled (s : State σ) : Prop := ∀ p ∈ s.posts, ∀ job f, p.2 ≠ .consulting job f

variable {env : Environment σ} {s₀ s s' : State σ} {others₀ others : List Pool.Stake} {incidents : List Incident}

theorem Environment.Watch.placid (henv : env.Placid) : env.Watch Cursor.Placid fun _ _ => False := by
  refine ⟨?_, fun _ _ _ s hc => Cursor.placid_move henv hc s, fun _ _ hoffers => hoffers⟩
  intro s t c s₁ henters hasked
  cases henters with
  | @consults job f phase _ => exact hasked job f phase
  | _ => trivial

theorem State.Passes.smooth (henv : env.Placid) (hstart : s₀.Untroubled)
    (h : s₀.Passes env (fun _ => True) others₀ incidents s others) :
    s₀.Passes env Cursor.Smooth others₀ incidents s others ∧ s.Untroubled :=
  h.watched (.placid henv) (fun _ hc => hc.smooth) hstart

theorem State.untroubled_start (env : Environment σ) (caller : Caller σ) (paths : List Path) :
    (State.start env caller paths).Untroubled :=
  consults_start env caller paths

/-- A walk where no call can fail, some turns of which come first. -/
theorem State.smooth_run (henv : env.Placid) (caller : Caller σ) (paths : List Path) (first : List Actor)
    (sweeps : Nat) : ∃ actors : List Actor,
      (State.start env caller paths).Passes env Cursor.Smooth [] (actors.map .act)
        ((first.foldl (stepOr env) (State.start env caller paths)).run env sweeps) [] := by
  obtain ⟨n, hfirst, -⟩ := steps_foldl env first (State.start env caller paths)
  obtain ⟨m, hrest⟩ := steps_run env sweeps (first.foldl (stepOr env) (State.start env caller paths))
  have hstart : (State.start env caller paths).Passes env (fun _ => True) [] []
      (State.start env caller paths) [] := .refl
  obtain ⟨actors, hpasses⟩ := hstart.onward hfirst
  obtain ⟨later, hpasses⟩ := hpasses.onward hrest
  rw [List.append_nil, ← List.map_append] at hpasses
  exact ⟨later ++ actors, (hpasses.smooth henv (State.untroubled_start env caller paths)).1⟩

end TreeCensus.Walk
