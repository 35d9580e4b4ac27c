import TreeCensus.Proofs.Walk.Exploration

/-!
# Levels and the tasks that wait for them

Each level but the topmost one is awaited by one task, from the moment it is opened until it has closed. A
level that has tasks to wait for has not closed, so whatever they add to its total will be looked at.
-/

namespace TreeCensus.Walk

set_option autoImplicit false

variable {σ : Type}

namespace Sketch

variable {env : Environment σ} {w w' : Sketch} {i j k : Nat} {v u : Visit} {stance stance' : Stance} {f g : FileInfo}

/-- The total of the level is going to be looked at. -/
def Live (w : Sketch) (k : Nat) : Prop := k = 0 ∨ ∃ i v f, w.Works i v (.awaits k f)

/-- How levels and the tasks that wait for them belong together. -/
structure Tiered (w : Sketch) : Prop where
  alone : ∀ i j v u k f g, w.Works i v (.awaits k f) → w.Works j u (.awaits k g) → i = j
  below : ∀ i v k f, w.Works i v (.awaits k f) → 0 < k ∧ k < w.levels.length
  /-- A level does not close before its tasks are finished. -/
  running : ∀ t ∈ w.tasks, t.2.2 ≠ .finished → ∃ sum : Tally, w.levels[t.1]? = some (sum, .running)
  live : ∀ (k : Nat) (sum : Tally), w.levels[k]? = some (sum, .running) → w.Live k
  closed : ∀ (k : Nat) (sum total : Tally), w.levels[k]? = some (sum, .closed (.ok total)) → total = sum

theorem Works.of_set (h : (w.set i stance').Works j u stance) :
    j ≠ i ∧ w.Works j u stance ∨ j = i ∧ stance = stance' ∧ ∃ before, w.Works i u before := by
  obtain ⟨k, h⟩ := h
  rcases modify_cases h with ⟨hne, h⟩ | ⟨hji, t, ht, heq⟩
  · exact .inl ⟨hne, k, h⟩
  · obtain ⟨hvisit, hstance⟩ := Prod.mk.inj (Prod.mk.inj heq).2
    exact .inr ⟨hji, hstance, t.2.2, t.1, hvisit ▸ ht⟩

theorem Works.of_move (h : (w.move i v).Works j u stance) : ∃ u', w.Works j u' stance := by
  obtain ⟨k, h⟩ := h
  rcases modify_cases h with ⟨_, h⟩ | ⟨rfl, t, ht, heq⟩
  · exact ⟨u, k, h⟩
  · obtain ⟨_, hstance⟩ := Prod.mk.inj (Prod.mk.inj heq).2
    exact ⟨t.2.1, t.1, hstance ▸ ht⟩

theorem Works.of_openLevel {visits : List Visit} (h : (w.openLevel visits).Works j u stance) :
    w.Works j u stance ∨ w.tasks.length ≤ j ∧ u ∈ visits ∧ stance = .ahead := by
  obtain ⟨k, h⟩ := h
  rcases getElem?_append_cases h with h | ⟨hge, hnew⟩
  · exact .inl ⟨k, h⟩
  · obtain ⟨x, hx, heq⟩ := List.mem_map.mp hnew
    obtain ⟨rfl, rfl⟩ := Prod.mk.inj (Prod.mk.inj heq).2
    exact .inr ⟨hge, hx, rfl⟩

theorem awaits_of_set (hstance : ∀ j f, stance' ≠ .awaits j f)
    (hj : (w.set i stance').Works j u (.awaits k f)) : w.Works j u (.awaits k f) := by
  rcases hj.of_set with ⟨_, hj⟩ | ⟨_, heq, _⟩
  · exact hj
  · exact absurd heq.symm (hstance k f)

theorem live_set (hi : w.Works i v stance) (hbefore : ∀ j f, stance ≠ .awaits j f)
    (hstance : ∀ j f, stance' ≠ .awaits j f) : (w.set i stance').Live k ↔ w.Live k := by
  refine or_congr_right ⟨?_, ?_⟩
  · rintro ⟨j, u, f, hj⟩
    exact ⟨j, u, f, awaits_of_set hstance hj⟩
  · rintro ⟨j, u, f, hj⟩
    refine ⟨j, u, f, hj.set_ne ?_ _⟩
    rintro rfl
    exact hbefore k f (hi.unique hj).2.symm

theorem live_move (i : Nat) (v : Visit) : (w.move i v).Live k ↔ w.Live k := by
  refine or_congr_right ⟨?_, ?_⟩
  · rintro ⟨j, u, f, hj⟩
    obtain ⟨u', hj⟩ := hj.of_move
    exact ⟨j, u', f, hj⟩
  · rintro ⟨j, u, f, hj⟩
    by_cases hji : j = i
    · subst hji
      exact ⟨j, v, f, hj.move v⟩
    · exact ⟨j, u, f, hj.move_ne hji v⟩

theorem live_descend (hi : w.Works i v (.found f)) (visits : List Visit) :
    ((w.openLevel visits).set i (.awaits w.levels.length f)).Live k ↔ w.Live k ∨ k = w.levels.length := by
  have hopened := hi.openLevel visits
  constructor
  · rintro (hzero | ⟨j, u, g, hj⟩)
    · exact .inl (.inl hzero)
    · rcases hj.of_set with ⟨_, hj⟩ | ⟨_, heq, _⟩
      · rcases hj.of_openLevel with hj | ⟨_, _, heq⟩
        · exact .inl (.inr ⟨j, u, g, hj⟩)
        · cases heq
      · exact .inr (Stance.awaits.inj heq).1
  · rintro ((hzero | ⟨j, u, g, hj⟩) | rfl)
    · exact .inl hzero
    · refine .inr ⟨j, u, g, (hj.openLevel _).set_ne ?_ _⟩
      rintro rfl
      cases (hi.unique hj).2
    · exact .inr ⟨i, v, f, hopened.set _⟩

namespace Tiered

/-- Whoever goes on from a level leaves nobody else who waits for it. -/
theorem live_of_set (h : w.Tiered) (hi : w.Works i v stance) (hstance : ∀ j f, stance' ≠ .awaits j f)
    (hk : (w.set i stance').Live k) : w.Live k ∧ ∀ f, stance ≠ .awaits k f := by
  rcases hk with rfl | ⟨j, u, f, hj⟩
  · refine ⟨.inl rfl, ?_⟩
    rintro f rfl
    exact absurd (h.below _ _ _ _ hi).1 (Nat.lt_irrefl 0)
  · rcases hj.of_set with ⟨hne, hj⟩ | ⟨_, heq, _⟩
    · refine ⟨.inr ⟨j, u, f, hj⟩, ?_⟩
      rintro g rfl
      exact hne (h.alone _ _ _ _ _ _ _ hj hi)
    · exact absurd heq.symm (hstance k f)

/-- A task that waits for no level that is open goes on, and does not wait for one then. -/
theorem set (h : w.Tiered) (hi : w.tasks[i]? = some (k, v, stance)) (hstance : ∀ j f, stance' ≠ .awaits j f)
    (hwaited : ∀ j f, stance = .awaits j f → ∀ sum, w.levels[j]? ≠ some (sum, .running))
    (hfinished : stance = .finished → stance' = .finished) : (w.set i stance').Tiered := by
  have hold : ∀ {j u k f}, (w.set i stance').Works j u (.awaits k f) → w.Works j u (.awaits k f) :=
    awaits_of_set hstance
  refine ⟨?_, fun i v k f hi => h.below i v k f (hold hi), ?_, ?_, h.closed⟩
  · exact fun i j v u k f g hi hj => h.alone i j v u k f g (hold hi) (hold hj)
  · intro t ht hrunning
    obtain ⟨j, hj⟩ := List.getElem?_of_mem ht
    rcases modify_cases hj with ⟨_, hj⟩ | ⟨_, u, hu, rfl⟩
    · exact h.running t (List.mem_of_getElem? hj) hrunning
    · obtain rfl := Option.some.inj (hi.symm.trans hu)
      exact h.running (k, v, stance) (List.mem_of_getElem? hi) fun heq => hrunning (hfinished heq)
  · intro j sum hj
    rcases h.live j sum hj with hzero | ⟨i', u, f, hwaits⟩
    · exact .inl hzero
    · refine .inr ⟨i', u, f, hwaits.set_ne ?_ _⟩
      rintro rfl
      obtain ⟨-, heq⟩ := Works.unique ⟨k, hi⟩ hwaits
      exact hwaited j f heq.symm sum hj

theorem move (h : w.Tiered) (i : Nat) (v : Visit) : (w.move i v).Tiered := by
  refine ⟨?_, ?_, ?_, ?_, h.closed⟩
  · intro i j v u k f g hi hj
    obtain ⟨_, hi⟩ := hi.of_move
    obtain ⟨_, hj⟩ := hj.of_move
    exact h.alone _ _ _ _ _ _ _ hi hj
  · intro i v k f hi
    obtain ⟨_, hi⟩ := hi.of_move
    exact h.below _ _ _ _ hi
  · intro t ht hrunning
    rcases mem_modify ht with ht | ⟨u, hu, rfl⟩
    · exact h.running t ht hrunning
    · exact h.running u (List.mem_of_getElem? hu) hrunning
  · exact fun k sum hk => (live_move i v).mpr (h.live k sum hk)

theorem descend (h : w.Tiered) (hi : w.tasks[i]? = some (k, v, .found f)) (visits : List Visit) :
    ((w.openLevel visits).set i (.awaits w.levels.length f)).Tiered := by
  have hold : ∀ {j u k g}, ((w.openLevel visits).set i (.awaits w.levels.length f)).Works j u (.awaits k g) →
      w.Works j u (.awaits k g) ∨ j = i ∧ k = w.levels.length := by
    intro j u k g hj
    rcases hj.of_set with ⟨_, hj⟩ | ⟨hji, heq, _⟩
    · rcases hj.of_openLevel with hj | ⟨_, _, heq⟩
      · exact .inl hj
      · cases heq
    · exact .inr ⟨hji, (Stance.awaits.inj heq).1⟩
  refine ⟨?_, ?_, ?_, ?_, ?_⟩
  · intro j j' u u' k g g' hj hj'
    rcases hold hj with hwaits | ⟨hji, hk⟩ <;> rcases hold hj' with hwaits' | ⟨hji', hk'⟩
    · exact h.alone _ _ _ _ _ _ _ hwaits hwaits'
    · exact absurd (h.below _ _ _ _ hwaits).2 (by omega)
    · exact absurd (h.below _ _ _ _ hwaits').2 (by omega)
    · exact hji.trans hji'.symm
  · intro j u k g hj
    change 0 < k ∧ k < (w.openLevel visits).levels.length
    rw [length_levels_openLevel]
    rcases hold hj with hj | ⟨rfl, rfl⟩
    · have := h.below _ _ _ _ hj
      omega
    · obtain ⟨sum, hsum⟩ := h.running _ (List.mem_of_getElem? hi) nofun
      have := (List.getElem?_eq_some_iff.mp hsum).1
      omega
  · intro t ht hrunning
    have hstays : ∀ u ∈ w.tasks, u.2.2 ≠ .finished →
        ∃ sum, (w.openLevel visits).levels[u.1]? = some (sum, .running) := by
      intro u hu hne
      obtain ⟨sum, hsum⟩ := h.running u hu hne
      exact ⟨sum, (List.getElem?_append_left (List.getElem?_eq_some_iff.mp hsum).1).trans hsum⟩
    obtain ⟨j, hj⟩ := List.getElem?_of_mem ht
    rcases modify_cases hj with ⟨_, hj⟩ | ⟨_, u, hu, rfl⟩
    · rcases List.mem_append.mp (List.mem_of_getElem? hj) with hmem | hmem
      · exact hstays t hmem hrunning
      · obtain ⟨u, _, rfl⟩ := List.mem_map.mp hmem
        exact ⟨.zero, List.getElem?_concat_length⟩
    · have hlt := (List.getElem?_eq_some_iff.mp hi).1
      obtain rfl := Option.some.inj (hi.symm.trans ((List.getElem?_append_left hlt).symm.trans hu))
      exact hstays (k, v, .found f) (List.mem_of_getElem? hi) nofun
  · intro j sum hj
    refine (live_descend ⟨k, hi⟩ visits).mpr ?_
    rcases level_openLevel visits hj with hj | ⟨rfl, _⟩
    · exact .inl (h.live j sum hj)
    · exact .inr rfl
  · intro j sum total hj
    rcases level_openLevel visits hj with hj | ⟨_, heq⟩
    · exact h.closed j sum total hj
    · cases heq

theorem addTotal (h : w.Tiered) {sum : Tally} (hk : w.levels[k]? = some (sum, .running)) (t : Tally) :
    (w.addTotal k t).Tiered := by
  have hlevel : ∀ {j : Nat} {l : Tally × Stage}, (w.addTotal k t).levels[j]? = some l →
      w.levels[j]? = some l ∨ l = (sum.add t, .running) ∧ j = k := by
    intro j l hj
    rcases modify_cases hj with ⟨_, hj⟩ | ⟨hjk, l₀, hl₀, rfl⟩
    · exact .inl hj
    · obtain rfl := Option.some.inj (hk.symm.trans hl₀)
      exact .inr ⟨rfl, hjk⟩
  refine ⟨h.alone, ?_, ?_, ?_, ?_⟩
  · intro i v j f hi
    rw [length_levels_addTotal]
    exact h.below i v j f hi
  · intro u hu hrunning
    obtain ⟨sum', hu⟩ := h.running u hu hrunning
    by_cases huk : u.1 = k
    · refine ⟨sum.add t, ?_⟩
      unfold Sketch.addTotal
      rw [huk, List.getElem?_modify_eq, hk]
      rfl
    · refine ⟨sum', ?_⟩
      unfold Sketch.addTotal
      rwa [List.getElem?_modify_ne _ _ (Ne.symm huk)]
  · intro j sum' hj
    rcases hlevel hj with hj | ⟨_, rfl⟩
    · exact h.live j sum' hj
    · exact h.live j sum hk
  · intro j sum' total hj
    rcases hlevel hj with hj | ⟨heq, _⟩
    · exact h.closed j sum' total hj
    · cases heq

theorem close (h : w.Tiered) (hfinished : ∀ t ∈ w.tasks, t.1 = k → t.2.2 = .finished) : (w.close k).Tiered := by
  have hlevel : ∀ {j : Nat} {l : Tally × Stage}, (w.close k).levels[j]? = some l →
      w.levels[j]? = some l ∨ ∃ sum, l = (sum, .closed (.ok sum)) := by
    intro j l hj
    rcases modify_cases hj with ⟨_, hj⟩ | ⟨_, l₀, _, rfl⟩
    · exact .inl hj
    · exact .inr ⟨l₀.1, rfl⟩
  refine ⟨h.alone, ?_, ?_, ?_, ?_⟩
  · intro i v j f hi
    rw [length_levels_close]
    exact h.below i v j f hi
  · intro u hu hrunning
    obtain ⟨sum, hsum⟩ := h.running u hu hrunning
    refine ⟨sum, ?_⟩
    have huk : k ≠ u.1 := fun heq => hrunning (hfinished u hu heq.symm)
    unfold Sketch.close
    rwa [List.getElem?_modify_ne _ _ huk]
  · intro j sum hj
    rcases hlevel hj with hj | ⟨_, heq⟩
    · exact h.live j sum hj
    · cases heq
  · intro j sum total hj
    rcases hlevel hj with hj | ⟨_, heq⟩
    · exact h.closed j sum total hj
    · cases heq
      rfl

theorem stroke {a : Actor} (h : w.Tiered) (hstroke : Stroke env w a w') : w'.Tiered := by
  have houtcome : ∀ {o : Outcome} (j f), o.stance ≠ .awaits j f := by
    intro o j f
    cases o <;> nofun
  cases hstroke with
  | skip task => exact h.set task houtcome nofun nofun
  | @meet i k v f task =>
    have hmet : (w.meet (f.identity v.place)).Tiered := ⟨h.alone, h.below, h.running, h.live, h.closed⟩
    exact hmet.set task nofun nofun nofun
  | settle task => exact h.set task houtcome nofun nofun
  | @follow i k v f target task =>
    obtain ⟨k, hk⟩ := Works.move (w := w) ⟨k, task⟩
      { v with place := env.behind v.place target, outer := f :: v.outer }
    exact (h.move _ _).set hk nofun nofun nofun
  | descend task => exact h.descend task _
  | resume task closed =>
    refine h.set task houtcome ?_ nofun
    intro j f heq sum hrunning
    obtain ⟨rfl, -⟩ := Stance.awaits.inj heq
    cases closed.symm.trans hrunning
  | accept task =>
    obtain ⟨sum, hk⟩ := h.running _ (List.mem_of_getElem? task) nofun
    exact (h.addTotal hk _).set task nofun nofun nofun
  | close _ ended => exact h.close ended

end Tiered

section Start

variable (visits : List Visit)

theorem Works.of_start (h : ((Sketch.mk [] [] []).openLevel visits).Works i v stance) :
    v ∈ visits ∧ stance = .ahead := by
  rcases h.of_openLevel with ⟨k, hk⟩ | ⟨_, hnew⟩
  · cases hk
  · exact hnew

theorem not_awaits_start {f : FileInfo} :
    ¬ ((Sketch.mk [] [] []).openLevel visits).Works i v (.awaits k f) :=
  fun h => nomatch (h.of_start visits).2

theorem level_start {l : Tally × Stage} (h : ((Sketch.mk [] [] []).openLevel visits).levels[k]? = some l) :
    k = 0 ∧ l = (.zero, .running) := by
  cases k with
  | zero => exact ⟨rfl, (Option.some.inj h).symm⟩
  | succ k => cases h

theorem tiered_start : ((Sketch.mk [] [] []).openLevel visits).Tiered := by
  refine ⟨fun _ _ _ _ _ _ _ hi => absurd hi (not_awaits_start visits),
    fun _ _ _ _ hi => absurd hi (not_awaits_start visits), ?_, ?_, ?_⟩
  · intro t ht _
    obtain ⟨v, _, rfl⟩ := List.mem_map.mp (show t ∈ visits.map _ from ht)
    exact ⟨.zero, rfl⟩
  · exact fun k sum hk => .inl (level_start visits hk).1
  · intro k sum total hk
    cases (level_start visits hk).2

end Start

end Sketch

end TreeCensus.Walk
