import TreeCensus.Proofs.Walk.Steps

/-!
# The end of an undisturbed walk

An undisturbed walk can always go on until it comes back, and what has been done then is what the
recursion comes to. As every step uses up some of a bound, the walk comes back whatever the order of
its steps is.
-/

namespace TreeCensus.Walk

set_option autoImplicit false

variable {σ : Type} {plan : Plan} {env : Environment σ} {fuel bound : Nat} {capacity : Int}
  {total : Tally} {more : List Tally} {goal : List Mark} {s s' : State σ}

namespace Undisturbed

theorem comes (h : Undisturbed plan fuel capacity total goal bound s)
    (hresult : s.result?.isSome = true) : s.result? = some (.ok total) ∧ s.marks.Perm goal := by
  obtain ⟨⟨more, hplacid⟩, hlive⟩ := h
  have hnested := hlive.nested
  obtain ⟨source, result, htop⟩ := State.closed_of_result hresult
  obtain ⟨l, hl, hclosed⟩ := State.level_of_stage htop
  obtain ⟨total', htotal, rfl⟩ := hplacid.closed_eq hnested hl hclosed
  obtain rfl := Option.some.inj htotal
  refine ⟨State.result?_of_level hl hclosed, ?_⟩
  have hover : (s.lefts plan fuel (total :: more)).flatMap (·.2.marks) = [] := by
    rw [List.flatMap_eq_nil_iff]
    intro m hm
    obtain ⟨t, ht, rfl⟩ := List.mem_map.mp hm
    have hended := hnested.isEnded_of_topmost htop (p := (t.level, t.phase)) (List.mem_map_of_mem ht)
    unfold Task.left
    cases hphase : t.phase with
    | ended r => rfl
    | _ => simp [hphase, Phase.isEnded] at hended
  have hmarks := hplacid.balanced.marks
  rw [hover, List.append_nil] at hmarks
  exact hmarks

theorem start {caller : Caller σ} {paths : List Path} {ys : List Yield} (hguides : plan.Guides env)
    (hpool : Pool.create capacity = .ok caller.pool) (hys : plan.recursion? fuel paths = some ys) :
    Undisturbed plan fuel capacity (Yield.total ys) (Yield.trail ys)
      ((paths.map fun p => 9 + plan.work fuel (Path.resolve plan.files.cwd p)).sum + 1)
      (State.start env caller paths) := by
  have hcovers := plan.covers fuel 0 paths 0 hys
  have hlive := Live.start env paths (Pool.serves_create hpool)
  obtain ⟨_, hcaller⟩ := Pool.create_eq hpool
  rw [show caller.pool.capacity = capacity by rw [hcaller]] at hlive
  have htasks : (State.start env caller paths).tasks = plan.newcomers 0 paths := by
    unfold Plan.newcomers
    rw [← hguides.visits_eq]
    rfl
  have hlefts : (State.start env caller paths).lefts plan fuel [Yield.total ys] =
      (plan.prospects fuel 0 0 paths).map fun y => (0, y) := by
    unfold State.lefts
    rw [htasks]
    exact plan.lefts_newcomers (show 0 = ([] : List Nat).length from rfl) 0 _
  refine ⟨⟨[], ?_, ?_, ?_, ?_⟩, hlive⟩
  · intro t ht
    rw [htasks] at ht
    have hcovers' : plan.Covers (fuel - 0) 0 0 paths ys := hcovers
    exact plan.fits_newcomer (show 0 = ([] : List Nat).length from rfl) hcovers' ht
  · refine ⟨?_, ?_⟩
    · change caller.pool.Fair
      rw [hcaller]
      exact .fresh capacity
    · exact State.quiet_start env caller paths
  · intro l hl
    obtain rfl := List.mem_singleton.mp hl
    exact ⟨rfl, rfl, .inl rfl⟩
  · rw [hlefts]
    refine ⟨?_, ?_, ?_⟩
    · have hpay := pay_new [] (plan.prospects fuel 0 0 paths) .zero
      rw [hcovers.shares] at hpay
      exact hpay
    · rw [List.flatMap_map]
      exact .of_eq hcovers.marks
    · rw [List.map_map]
      exact Nat.succ_le_succ hcovers.work

end Undisturbed

end TreeCensus.Walk
