import TreeCensus.Proofs.Walk.Permits

/-!
# Nested levels

Every level but the topmost is awaited by a task above it as long as it is not closed, and a level
closes only when its tasks have ended. So the topmost level is the last one to close, and when it has,
no task is left over anywhere.
-/

namespace TreeCensus.Walk

set_option autoImplicit false

open Cancellation (Network)

structure Nested (posts : List (Nat × Phase)) (stages : List (Nat × Stage)) (net : Network Nat) :
    Prop where
  placed : ∀ p ∈ posts, p.1 < stages.length
  topmost : stages[0]?.map (·.1) = some (callerToken + 1)
  sources : ∀ l ∈ stages, l.1 ≠ callerToken ∧ l.1 < net.tokens.length
  ended : ∀ (k source : Nat) (result : Except Fault Tally), stages[k]? = some (source, Stage.closed result) →
    ∀ p ∈ posts, p.1 = k → p.2.isEnded = true
  unlinked : ∀ (k source : Nat) (result : Except Fault Tally), stages[k]? = some (source, Stage.closed result) →
    net.links source = []
  awaited : ∀ (k source : Nat) (stage : Stage), 0 < k → stages[k]? = some (source, stage) → stage.isClosed = false →
    ∃ p ∈ posts, p.1 < k ∧ ∃ info, p.2 = .descending k info

namespace Nested

variable {posts : List (Nat × Phase)} {stages : List (Nat × Stage)} {net net' : Network Nat}

theorem follows {allowed : Nat → Prop} (h : Nested posts stages net)
    (hnet : Network.Follows allowed net net') : Nested posts stages net' := by
  refine ⟨h.placed, h.topmost, ?_, h.ended, ?_, h.awaited⟩
  · intro l hl
    exact ⟨(h.sources l hl).1, Nat.lt_of_lt_of_le (h.sources l hl).2 hnet.length⟩
  · intro k source result hl
    have hknown := (h.sources _ (List.mem_of_getElem? hl)).2
    exact hnet.links source hknown (h.unlinked k source result hl)

theorem single (count : Nat) (hknown : callerToken + 1 < net.tokens.length) :
    Nested (List.replicate count (0, .fresh)) [(callerToken + 1, .running)] net := by
  have hrunning : ∀ {k : Nat} {l : Nat × Stage}, [(callerToken + 1, Stage.running)][k]? = some l →
      k = 0 ∧ l = (callerToken + 1, .running) := by
    intro k l hl
    cases k with
    | zero => exact ⟨rfl, (Option.some.inj hl).symm⟩
    | succ k => cases hl
  refine ⟨?_, rfl, ?_, ?_, ?_, ?_⟩
  · intro p hp
    rw [List.eq_of_mem_replicate hp]
    exact Nat.zero_lt_one
  · intro l hl
    rw [List.mem_singleton.mp hl]
    exact ⟨Nat.succ_ne_zero callerToken, hknown⟩
  · intro k source result hl
    cases (hrunning hl).2
  · intro k source result hl
    cases (hrunning hl).2
  · intro k source stage hk hl
    rw [(hrunning hl).1] at hk
    cases hk

theorem mem_modify_of_ne {α : Type} {f : α → α} {l : List α} {i : Nat} {a b : α} (ha : l[i]? = some a)
    (hb : b ∈ l) (hne : b ≠ a) : b ∈ l.modify i f := by
  obtain ⟨j, hj⟩ := List.getElem?_of_mem hb
  have hij : i ≠ j := by
    intro heq
    subst heq
    exact hne (Option.some.inj (hj.symm.trans ha))
  apply List.mem_of_getElem? (i := j)
  rw [List.getElem?_modify_ne _ _ hij]
  exact hj

/-- A task that is not over and not waiting for a level below goes on to another phase. -/
theorem post (h : Nested posts stages net) {i : Nat} {p : Nat × Phase} (hp : posts[i]? = some p)
    (hgoes : p.2.isEnded = false)
    (harrived : ∀ k info, p.2 = .descending k info → ∀ source stage, stages[k]? = some (source, stage) →
      stage.isClosed = true) (phase : Phase) :
    Nested (posts.modify i fun p => (p.1, phase)) stages net := by
  have hmem := List.mem_of_getElem? hp
  refine ⟨?_, h.topmost, h.sources, ?_, h.unlinked, ?_⟩
  · intro q hq
    rcases mem_modify hq with hq | ⟨a, ha, rfl⟩
    · exact h.placed q hq
    · exact h.placed a (List.mem_of_getElem? ha)
  · intro k source result hl q hq hqk
    rcases mem_modify hq with hq | ⟨a, ha, rfl⟩
    · exact h.ended k source result hl q hq hqk
    · obtain rfl := Option.some.inj (hp.symm.trans ha)
      have := h.ended k source result hl p hmem hqk
      rw [hgoes] at this
      cases this
  · intro k source stage hk hl hopen
    obtain ⟨q, hq, hlt, info, hinfo⟩ := h.awaited k source stage hk hl hopen
    refine ⟨q, mem_modify_of_ne hp hq ?_, hlt, info, hinfo⟩
    intro heq
    subst heq
    have := harrived k info hinfo source stage hl
    rw [hopen] at this
    cases this

/-- A task that waits for a level below makes room for that level and its tasks. -/
theorem descend (h : Nested posts stages net) {i : Nat} {p : Nat × Phase} {info : FileInfo}
    (hp : posts[i]? = some p) (hwaits : p.2 = .descending stages.length info) {source : Nat}
    (hsource : source ≠ callerToken) (hknown : source < net.tokens.length) (count : Nat) :
    Nested (posts ++ List.replicate count (stages.length, .fresh)) (stages ++ [(source, .running)])
      net := by
  have hmem := List.mem_of_getElem? hp
  have hpos : 0 < stages.length := Nat.lt_of_le_of_lt (Nat.zero_le _) (h.placed p hmem)
  have hold : ∀ {k : Nat} {l : Nat × Stage}, (stages ++ [(source, Stage.running)])[k]? = some l →
      stages[k]? = some l ∨ k = stages.length ∧ l = (source, .running) := getElem?_concat_cases
  refine ⟨?_, ?_, ?_, ?_, ?_, ?_⟩
  · intro q hq
    rw [List.length_append, List.length_singleton]
    rcases List.mem_append.mp hq with hq | hq
    · exact Nat.lt_succ_of_lt (h.placed q hq)
    · rw [List.eq_of_mem_replicate hq]
      exact Nat.lt_succ_self _
  · rw [List.getElem?_append_left hpos]
    exact h.topmost
  · intro l hl
    rcases List.mem_append.mp hl with hl | hl
    · exact h.sources l hl
    · rw [List.mem_singleton.mp hl]
      exact ⟨hsource, hknown⟩
  · intro k src result hl q hq hqk
    rcases hold hl with hl | ⟨_, hl⟩
    · rcases List.mem_append.mp hq with hq | hq
      · exact h.ended k src result hl q hq hqk
      · rw [List.eq_of_mem_replicate hq] at hqk
        have hlt := (List.getElem?_eq_some_iff.mp hl).1
        dsimp only at hqk
        omega
    · cases hl
  · intro k src result hl
    rcases hold hl with hl | ⟨_, hl⟩
    · exact h.unlinked k src result hl
    · cases hl
  · intro k src stage hk hl hopen
    rcases hold hl with hl | ⟨rfl, _⟩
    · obtain ⟨q, hq, hlt, hinfo⟩ := h.awaited k src stage hk hl hopen
      exact ⟨q, List.mem_append_left _ hq, hlt, hinfo⟩
    · exact ⟨p, List.mem_append_left _ hmem, h.placed p hmem, info, hwaits⟩

theorem stage (h : Nested posts stages net) {k : Nat} {l : Nat × Stage} (hl : stages[k]? = some l)
    (hopen : l.2.isClosed = false) {stage : Stage}
    (hended : stage.isClosed = true → ∀ p ∈ posts, p.1 = k → p.2.isEnded = true)
    (hunlinked : stage.isClosed = true → net.links l.1 = []) :
    Nested posts (stages.modify k fun l => (l.1, stage)) net := by
  have hcases : ∀ {j : Nat} {m : Nat × Stage}, (stages.modify k fun l => (l.1, stage))[j]? = some m →
      j ≠ k ∧ stages[j]? = some m ∨ j = k ∧ m = (l.1, stage) := by
    intro j m hm
    rcases modify_cases hm with hm | ⟨hjk, a, ha, rfl⟩
    · exact .inl hm
    · obtain rfl := Option.some.inj (hl.symm.trans ha)
      exact .inr ⟨hjk, rfl⟩
  refine ⟨?_, ?_, ?_, ?_, ?_, ?_⟩
  · intro p hp
    rw [List.length_modify]
    exact h.placed p hp
  · have hsources := map_modify_of_eq (f := fun l => (l.1, stage)) (g := Prod.fst) (fun _ => rfl) stages k
    rw [← List.getElem?_map, hsources, List.getElem?_map]
    exact h.topmost
  · intro m hm
    rcases mem_modify hm with hm | ⟨a, ha, rfl⟩
    · exact h.sources m hm
    · exact h.sources a (List.mem_of_getElem? ha)
  · intro j source result hm p hp hpj
    rcases hcases hm with ⟨_, hm⟩ | ⟨rfl, heq⟩
    · exact h.ended j source result hm p hp hpj
    · obtain ⟨_, rfl⟩ := Prod.mk.inj heq
      exact hended rfl p hp hpj
  · intro j source result hm
    rcases hcases hm with ⟨_, hm⟩ | ⟨rfl, heq⟩
    · exact h.unlinked j source result hm
    · obtain ⟨rfl, rfl⟩ := Prod.mk.inj heq
      exact hunlinked rfl
  · intro j source stage' hj hm hopen'
    rcases hcases hm with ⟨_, hm⟩ | ⟨rfl, _⟩
    · exact h.awaited j source stage' hj hm hopen'
    · exact h.awaited j l.1 l.2 hj hl hopen

theorem isEnded_of_isClosed (h : Nested posts stages net) {k : Nat} {l : Nat × Stage}
    (hl : stages[k]? = some l) (hclosed : l.2.isClosed = true) {p : Nat × Phase} (hp : p ∈ posts)
    (hpk : p.1 = k) : p.2.isEnded = true := by
  obtain ⟨source, stage⟩ := l
  cases stage with
  | closed result => exact h.ended k source result hl p hp hpk
  | _ => cases hclosed

/-- No level is open below a topmost level that is closed. -/
theorem isClosed_of_topmost (h : Nested posts stages net) {source : Nat} {result : Except Fault Tally}
    (htop : stages[0]? = some (source, .closed result)) (k : Nat) :
    ∀ l, stages[k]? = some l → l.2.isClosed = true := by
  induction k using Nat.strongRecOn with
  | ind k ih =>
    intro l hl
    rcases Nat.eq_zero_or_pos k with rfl | hk
    · rw [htop] at hl
      rw [← Option.some.inj hl]
      rfl
    · apply Classical.byContradiction
      intro hopen
      obtain ⟨p, hp, hlt, info, hphase⟩ := h.awaited k l.1 l.2 hk hl (by simpa using hopen)
      have habove := List.getElem?_eq_getElem (h.placed p hp)
      have hended := h.isEnded_of_isClosed habove (ih p.1 hlt _ habove) hp rfl
      rw [hphase] at hended
      cases hended

theorem isEnded_of_topmost (h : Nested posts stages net) {source : Nat} {result : Except Fault Tally}
    (htop : stages[0]? = some (source, .closed result)) {p : Nat × Phase} (hp : p ∈ posts) :
    p.2.isEnded = true := by
  have hplace := List.getElem?_eq_getElem (h.placed p hp)
  exact h.isEnded_of_isClosed hplace (h.isClosed_of_topmost htop p.1 _ hplace) hp rfl

end Nested

end TreeCensus.Walk
