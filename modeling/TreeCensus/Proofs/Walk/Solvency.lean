import TreeCensus.Proofs.Walk.Shares

/-!
# Totals without losses

As long as no call fails, no tally is lost on its way to the total of its level: what a task has found stays
with it until it adds it there, and a level that was awaited hands all it has to the task that waits for it.
Only what the filter does not include is dropped.
-/

namespace TreeCensus.Walk

set_option autoImplicit false

variable {σ : Type}

namespace Inventory

variable (inv : Inventory) {o o' p : Owner}

/-- What the items of an owner make up. -/
def shares (o : Owner) : Tally := Tally.sum ((inv.held o).map Item.share)

theorem held_pass_self (h : o ≠ o') : (inv.pass o o').held o = [] := by
  apply List.eq_nil_iff_forall_not_mem.mpr
  intro x hx
  obtain ⟨e, _, heq⟩ := List.mem_map.mp ((mem_held _).mp hx)
  split at heq
  · exact h (Prod.mk.inj heq).1.symm
  · next hne => exact hne (heq ▸ rfl)

theorem shares_pass (h : o ≠ o') : (inv.pass o o').shares o' = (inv.shares o').add (inv.shares o) := by
  unfold shares
  rw [Tally.sum_perm ((inv.held_pass_perm h).map _), List.map_append, Tally.sum_append, Tally.add_comm]

/-- The objects of an inventory, whoever has them and however they are marked. -/
def objects : List (Path × FileInfo) := inv.map fun e => e.2.object

theorem objects_pass : (inv.pass o o').objects = inv.objects := inv.map_pass Item.object

variable {inv} {inv' : Inventory}

theorem ids_of_objects (h : inv'.objects = inv.objects) : inv'.ids = inv.ids := by
  have := congrArg (List.map fun o : Path × FileInfo => o.2.identity o.1) h
  unfold objects at this
  rw [List.map_map, List.map_map] at this
  exact this

/-- Marking the items of an inventory in another way leaves its objects with their owners. -/
theorem marked (h : inv'.map (fun e => (e.1, e.2.object)) = inv.map (fun e => (e.1, e.2.object))) :
    inv'.objects = inv.objects ∧ ∀ e ∈ inv', ∃ e₀ ∈ inv, e₀.1 = e.1 := by
  refine ⟨?_, ?_⟩
  · have := congrArg (List.map Prod.snd) h
    rw [List.map_map, List.map_map] at this
    exact this
  · intro e he
    have hmem := List.mem_map_of_mem (f := fun e : Owner × Item => (e.1, e.2.object)) he
    rw [h] at hmem
    obtain ⟨e₀, he₀, heq⟩ := List.mem_map.mp hmem
    exact ⟨e₀, he₀, (Prod.mk.inj heq).1⟩

end Inventory

section Solvency

variable {env : Environment σ} {paths : List Path} {inv inv' : Inventory} {w w' : Sketch} {i k : Nat}
  {v : Visit} {stance stance' : Stance} {x : Item} {xs : List Item} {outer : List FileInfo}
  {verdict : Verdict} {total : Tally}

/-- What the items of a task are, depending on what it is up to. -/
def Stance.Holds (env : Environment σ) (xs : List Item) (v : Visit) : Stance → Prop
  | .ahead => Trailing env xs v.outer
  | .found f => ∃ ys, xs = ⟨v.place, f, false, false⟩ :: ys ∧ Trailing env ys v.outer
  | .awaits _ f => ∃ ys, xs = ⟨v.place, f, false, false⟩ :: ys ∧ Trailing env ys v.outer ∧
      ∃ b, env.Leads v.spot f b
  | .made t => t.add .zero = Tally.sum (xs.map Item.share) ∧ ∀ x ∈ xs, x.Whole env
  | .finished => ∀ x ∈ xs, x.Dropped env

/-- Whoever has items needs them, or they can be dropped. -/
structure Solvent (env : Environment σ) (paths : List Path) (inv : Inventory) (w : Sketch) : Prop where
  met : inv.ids = w.visited
  genuine : ∀ o ∈ inv.objects, env.files.info o.1 = .ok o.2 ∧ ∃ name, env.Comes paths ⟨name, o.1⟩
  owners : ∀ e ∈ inv, e.1.Within w.tasks.length w.levels.length
  tasks : ∀ i v stance, w.Works i v stance → stance.Holds env (inv.held (.task i)) v
  totals : ∀ k, w.Live k → ∀ l, w.levels[k]? = some l → l.1 = inv.shares (.level k)
  whole : ∀ k, w.Live k → ∀ x ∈ inv.held (.level k), x.Whole env
  dropped : ∀ k, ¬ w.Live k → ∀ x ∈ inv.held (.level k), x.Dropped env

/-- All items of a visit can be dropped if none of them counts. -/
theorem dropped_of_excluded (hxs : Trailing env xs outer) (hincluded : x.info.kind = .file → verdict = .included)
    (hfilter : verdict ≠ .included → env.options.filter ≠ none) (hverdict : verdict ≠ .included) :
    ∀ y ∈ x :: xs, y.Dropped env := by
  intro y hy
  refine ⟨?_, hfilter hverdict⟩
  rcases List.mem_cons.mp hy with rfl | hy
  · exact fun hkind => hverdict (hincluded hkind)
  · exact (hxs.2 y hy).2.kind_ne

/-- The items of a visit can be marked such that they make up what it comes to with its own tally. -/
theorem exists_own (hheld : inv.held (.task i) = x :: xs) (hxs : Trailing env xs outer)
    (hincluded : x.info.kind = .file → verdict = .included)
    (hfilter : verdict ≠ .included → env.options.filter ≠ none) (v : Visit) :
    ∃ inv' : Inventory, inv'.map (fun e => (e.1, e.2.object)) = inv.map (fun e => (e.1, e.2.object)) ∧
      (∀ o, o ≠ .task i → inv'.held o = inv.held o) ∧
      (settle verdict outer x.info x.info.tally).stance.Holds env (inv'.held (.task i)) v := by
  rw [settle_eq]
  split
  · obtain ⟨inv', hobjects, hmarked, hothers⟩ :=
      inv.exists_held (hheld ▸ object_marked true x xs)
    refine ⟨inv', hobjects, hothers, ?_⟩
    rw [hmarked]
    refine ⟨?_, whole_marked hxs (.inl rfl)⟩
    rw [Tally.foldl_count, share_marked true hxs]
    rfl
  · next hcounts =>
    refine ⟨inv, rfl, fun _ _ => rfl, ?_⟩
    rw [hheld]
    exact dropped_of_excluded hxs hincluded hfilter fun hverdict => hcounts (.inl hverdict)

/-- The same with the total of a level, the items of which go over to the task if they count. -/
theorem exists_total (hheld : inv.held (.task i) = x :: xs) (hxs : Trailing env xs outer) (hleads : x.Leads env)
    (hfilter : verdict ≠ .included → env.options.filter ≠ none) (htotal : total = inv.shares (.level k))
    (hwhole : ∀ y ∈ inv.held (.level k), y.Whole env) (v : Visit) :
    ∃ inv' : Inventory, inv'.objects = inv.objects ∧
      (∀ e ∈ inv', e.1 = .task i ∨ ∃ e₀ ∈ inv, e₀.1 = e.1) ∧
      (∀ o, o ≠ .task i → o ≠ .level k → inv'.held o = inv.held o) ∧
      (∀ y ∈ inv'.held (.level k), y.Dropped env) ∧
      (settle verdict outer x.info total).stance.Holds env (inv'.held (.task i)) v := by
  rw [settle_eq]
  split
  · obtain ⟨inv', hobjects, hmarked, hothers⟩ :=
      inv.exists_held (hheld ▸ object_marked false x xs)
    obtain ⟨hobjects, howners⟩ := Inventory.marked hobjects
    refine ⟨inv'.pass (.level k) (.task i), inv'.objects_pass.trans hobjects, ?_, ?_, ?_, ?_⟩
    · intro e he
      obtain ⟨e', he', rfl⟩ := List.mem_map.mp he
      split
      · exact .inl rfl
      · exact .inr (howners e' he')
    · intro o htask hlevel
      rw [inv'.held_pass_of_ne hlevel htask, hothers o htask]
    · rw [inv'.held_pass_self (by simp)]
      exact fun y hy => absurd hy List.not_mem_nil
    · refine ⟨?_, ?_⟩
      · have hshares : _ = (inv'.shares (.task i)).add (inv'.shares (.level k)) := inv'.shares_pass (by simp)
        have hlevel : inv'.shares (.level k) = total := by
          unfold Inventory.shares
          rw [hothers _ (by simp), htotal]
          rfl
        have htask : inv'.shares (.task i) = Tally.zero.add
            (Tally.sum (((x.info :: outer).map (·.kind)).map fun kind => Tally.zero.count kind)) := by
          unfold Inventory.shares
          rw [hmarked, share_marked false hxs]
          rfl
        rw [Tally.foldl_count]
        refine Eq.trans ?_ hshares.symm
        rw [hlevel, htask, Tally.add_comm Tally.zero, Tally.sum_add_zero, Tally.add_comm]
      · intro y hy
        have hy' := (inv'.held_pass_perm (by simp)).mem_iff.mp hy
        rcases List.mem_append.mp hy' with hy' | hy'
        · rw [hothers _ (by simp)] at hy'
          exact hwhole y hy'
        · rw [hmarked] at hy'
          exact whole_marked hxs (.inr hleads) y hy'
  · next hcounts =>
    have hverdict : verdict ≠ .included := fun hverdict => hcounts (.inl hverdict)
    refine ⟨inv, rfl, fun e he => .inr ⟨e, he, rfl⟩, fun _ _ _ => rfl, ?_, ?_⟩
    · intro y hy
      refine ⟨fun hkind => hcounts (.inr ?_), hfilter hverdict⟩
      rw [htotal]
      exact Item.one_le_items hy (hwhole y hy).1 hkind
    · rw [hheld]
      exact dropped_of_excluded hxs (fun hkind => absurd hkind hleads.kind_ne) hfilter hverdict

theorem Trailing.nil (env : Environment σ) : Trailing env [] [] := ⟨rfl, fun _ hx => absurd hx List.not_mem_nil⟩

namespace Solvent

theorem held_eq_nil (h : Solvent env paths inv w) {o : Owner} (ho : ¬ o.Within w.tasks.length w.levels.length) :
    inv.held o = [] := by
  apply List.eq_nil_iff_forall_not_mem.mpr
  intro x hx
  exact ho (h.owners _ ((inv.mem_held).mp hx))

/-- A task goes on with its items, and takes over those of the level for which it has waited. -/
theorem set (h : Solvent env paths inv w) (htiered : w.Tiered) (hi : w.Works i v stance)
    (hstance : ∀ j f, stance' ≠ .awaits j f) (hobjects : inv'.objects = inv.objects)
    (howners : ∀ e ∈ inv', e.1 = .task i ∨ ∃ e₀ ∈ inv, e₀.1 = e.1)
    (hothers : ∀ o, o ≠ .task i → (∀ j f, stance = .awaits j f → o ≠ .level j) → inv'.held o = inv.held o)
    (hdropped : ∀ j f, stance = .awaits j f → ∀ x ∈ inv'.held (.level j), x.Dropped env)
    (hholds : stance'.Holds env (inv'.held (.task i)) v) : Solvent env paths inv' (w.set i stance') := by
  -- Nobody else waits for the level for which this task has waited, so what is in it afterwards can be dropped.
  have hlive : ∀ {k}, (w.set i stance').Live k → w.Live k ∧ inv'.held (.level k) = inv.held (.level k) := by
    intro k hk
    obtain ⟨hk, hne⟩ := htiered.live_of_set hi hstance hk
    refine ⟨hk, hothers _ nofun ?_⟩
    rintro j f rfl heq
    obtain rfl := Owner.level.inj heq
    exact hne f rfl
  refine ⟨(Inventory.ids_of_objects hobjects).trans h.met, hobjects ▸ h.genuine, ?_, ?_, ?_, ?_, ?_⟩
  · intro e he
    rw [Sketch.length_tasks_set]
    rcases howners e he with heq | ⟨e₀, he₀, heq⟩
    · obtain ⟨k, hk⟩ := hi
      rw [heq]
      exact (List.getElem?_eq_some_iff.mp hk).1
    · rw [← heq]
      exact h.owners e₀ he₀
  · intro j u stance₁ hj
    rcases hj.of_set with ⟨hne, hj⟩ | ⟨rfl, rfl, _, hu⟩
    · rw [hothers _ (by simpa using hne) fun _ _ _ => by simp]
      exact h.tasks j u stance₁ hj
    · obtain ⟨rfl, -⟩ := hi.unique hu
      exact hholds
  · intro k hk l hl
    unfold Inventory.shares
    rw [(hlive hk).2]
    exact h.totals k (hlive hk).1 l hl
  · intro k hk
    rw [(hlive hk).2]
    exact h.whole k (hlive hk).1
  · intro k hk x hx
    by_cases hlost : ∃ f, stance = .awaits k f
    · obtain ⟨f, hf⟩ := hlost
      exact hdropped k f hf x hx
    · rw [hothers _ (by simp) fun j f hf heq => by
        obtain rfl := Owner.level.inj heq
        exact hlost ⟨f, hf⟩] at hx
      refine h.dropped k ?_ x hx
      rintro (hzero | ⟨j, u, f, hj⟩)
      · exact hk (.inl hzero)
      · refine hk (.inr ⟨j, u, f, hj.set_ne ?_ _⟩)
        rintro rfl
        exact hlost ⟨f, (hi.unique hj).2.symm⟩

/-- A task that has waited for no level goes on with its items. -/
theorem remark (h : Solvent env paths inv w) (htiered : w.Tiered) (hi : w.Works i v stance)
    (hstance : ∀ j f, stance' ≠ .awaits j f) (hbefore : ∀ j f, stance ≠ .awaits j f)
    (hobjects : inv'.map (fun e => (e.1, e.2.object)) = inv.map (fun e => (e.1, e.2.object)))
    (hothers : ∀ o, o ≠ .task i → inv'.held o = inv.held o)
    (hholds : stance'.Holds env (inv'.held (.task i)) v) : Solvent env paths inv' (w.set i stance') := by
  obtain ⟨hobjects, howners⟩ := Inventory.marked hobjects
  exact h.set htiered hi hstance hobjects (fun e he => .inr (howners e he)) (fun o ho _ => hothers o ho)
    (fun j f hf => absurd hf (hbefore j f)) hholds

theorem meet (h : Solvent env paths inv w) {f : FileInfo} (hi : w.Works i v .ahead)
    (hinfo : env.files.info v.place = .ok f) (hcomes : env.Comes paths v.spot) :
    Solvent env paths ((.task i, ⟨v.place, f, false, false⟩) :: inv)
      ((w.meet (f.identity v.place)).set i (.found f)) := by
  have hlive : ∀ {k}, ((w.meet (f.identity v.place)).set i (.found f)).Live k ↔ w.Live k :=
    Sketch.live_set (w := w.meet _) hi nofun nofun
  have hheld : ∀ {o : Owner}, o ≠ .task i →
      Inventory.held ((.task i, ⟨v.place, f, false, false⟩) :: inv) o = inv.held o :=
    fun ho => inv.held_cons_of_ne (Ne.symm ho)
  refine ⟨?_, ?_, ?_, ?_, ?_, ?_, ?_⟩
  · exact congrArg (f.identity v.place :: ·) h.met
  · intro o ho
    rcases List.mem_cons.mp ho with rfl | ho
    · exact ⟨hinfo, v.name, hcomes⟩
    · exact h.genuine o ho
  · intro e he
    rw [Sketch.length_tasks_set]
    rcases List.mem_cons.mp he with rfl | he
    · obtain ⟨k, hk⟩ := hi
      exact (List.getElem?_eq_some_iff.mp hk).1
    · exact h.owners e he
  · intro j u stance hj
    rcases hj.of_set with ⟨hne, hj⟩ | ⟨rfl, rfl, _, hu⟩
    · rw [hheld (by simpa using hne)]
      exact h.tasks j u stance hj
    · obtain ⟨rfl, -⟩ := Sketch.Works.unique (w := w) hi hu
      rw [inv.held_cons_self]
      exact ⟨_, rfl, h.tasks _ _ _ hi⟩
  · intro k hk l hl
    unfold Inventory.shares
    rw [hheld (by simp)]
    exact h.totals k (hlive.mp hk) l hl
  · intro k hk
    rw [hheld (by simp)]
    exact h.whole k (hlive.mp hk)
  · intro k hk
    rw [hheld (by simp)]
    exact h.dropped k (mt hlive.mpr hk)

theorem follow (h : Solvent env paths inv w) {f : FileInfo} {target : Text} (hi : w.Works i v (.found f))
    (hleads : env.Leads v.spot f ⟨v.name, env.behind v.place target⟩) : Solvent env paths inv
      ((w.move i { v with place := env.behind v.place target, outer := f :: v.outer }).set i .ahead) := by
  have hmoved := hi.move { v with place := env.behind v.place target, outer := f :: v.outer }
  have hlive : ∀ {k}, ((w.move i { v with place := env.behind v.place target, outer := f :: v.outer }).set i
      .ahead).Live k ↔ w.Live k := by
    intro k
    refine (Sketch.live_set hmoved ?_ ?_).trans (Sketch.live_move _ _) <;> nofun
  refine ⟨h.met, h.genuine, ?_, ?_, fun k hk => h.totals k (hlive.mp hk), fun k hk => h.whole k (hlive.mp hk),
    fun k hk => h.dropped k (mt hlive.mpr hk)⟩
  · intro e he
    rw [Sketch.length_tasks_set, Sketch.length_tasks_move]
    exact h.owners e he
  · intro j u stance hj
    rcases hj.of_set with ⟨hne, k, hj⟩ | ⟨rfl, rfl, _, hu⟩
    · refine h.tasks j u stance ⟨k, ?_⟩
      rwa [← List.getElem?_modify_ne _ _ (Ne.symm hne)]
    · obtain ⟨rfl, -⟩ := hmoved.unique hu
      obtain ⟨ys, hys, hinfos, hall⟩ := h.tasks _ _ _ hi
      rw [hys]
      refine ⟨by rw [List.map_cons, hinfos], ?_⟩
      intro y hy
      rcases List.mem_cons.mp hy with rfl | hy
      · exact ⟨⟨rfl, rfl⟩, v.name, _, hleads⟩
      · exact hall y hy

theorem descend (h : Solvent env paths inv w) {f : FileInfo} (hi : w.Works i v (.found f))
    {visits : List Visit} (hvisits : ∀ u ∈ visits, u.outer = []) (hleads : ∃ b, env.Leads v.spot f b) :
    Solvent env paths inv ((w.openLevel visits).set i (.awaits w.levels.length f)) := by
  have hlive : ∀ {k}, ((w.openLevel visits).set i (.awaits w.levels.length f)).Live k ↔
      w.Live k ∨ k = w.levels.length := Sketch.live_descend hi visits
  have hnew : inv.held (.level w.levels.length) = [] := h.held_eq_nil (Nat.lt_irrefl _)
  refine ⟨h.met, h.genuine, ?_, ?_, ?_, ?_, ?_⟩
  · intro e he
    have hwithin := h.owners e he
    rw [Sketch.length_tasks_set, Sketch.length_tasks_openLevel]
    change e.1.Within _ (w.openLevel visits).levels.length
    rw [Sketch.length_levels_openLevel]
    cases ho : e.1 with
    | task j =>
      rw [ho] at hwithin
      exact Nat.lt_add_right _ hwithin
    | level k =>
      rw [ho] at hwithin
      exact Nat.lt_add_right _ hwithin
  · intro j u stance hj
    rcases hj.of_set with ⟨_, hj⟩ | ⟨rfl, rfl, _, hu⟩
    · rcases hj.of_openLevel with hj | ⟨hge, hu, rfl⟩
      · exact h.tasks j u stance hj
      · rw [h.held_eq_nil (o := .task j) (Nat.not_lt.mpr hge)]
        change Trailing env [] u.outer
        rw [hvisits u hu]
        exact .nil env
    · obtain ⟨rfl, -⟩ := (hi.openLevel visits).unique hu
      obtain ⟨ys, hys, htrailing⟩ := h.tasks _ _ _ hi
      exact ⟨ys, hys, htrailing, hleads⟩
  · intro k hk l hl
    rcases Sketch.level_openLevel visits hl with hl | ⟨rfl, rfl⟩
    · rcases hlive.mp hk with hk | rfl
      · exact h.totals k hk l hl
      · exact absurd (List.getElem?_eq_some_iff.mp hl).1 (Nat.lt_irrefl _)
    · unfold Inventory.shares
      rw [hnew]
      rfl
  · intro k hk
    rcases hlive.mp hk with hk | rfl
    · exact h.whole k hk
    · rw [hnew]
      exact fun x hx => absurd hx List.not_mem_nil
  · exact fun k hk => h.dropped k fun hlive' => hk (hlive.mpr (.inl hlive'))

theorem accept (h : Solvent env paths inv w) (htiered : w.Tiered) {t : Tally}
    (hi : w.tasks[i]? = some (k, v, .made t)) :
    Solvent env paths (inv.pass (.task i) (.level k)) ((w.addTotal k t).set i .finished) := by
  obtain ⟨sum, hk⟩ := htiered.running _ (List.mem_of_getElem? hi) nofun
  have hklive := htiered.live k sum hk
  obtain ⟨hmade, hwhole⟩ := h.tasks i v _ ⟨k, hi⟩
  have hlive : ∀ {j}, ((w.addTotal k t).set i .finished).Live j ↔ w.Live j :=
    Sketch.live_set (w := w.addTotal k t) ⟨k, hi⟩ nofun nofun
  have hheld : ∀ {o : Owner}, o ≠ .task i → o ≠ .level k → (inv.pass (.task i) (.level k)).held o = inv.held o :=
    fun htask hlevel => inv.held_pass_of_ne htask hlevel
  refine ⟨(Inventory.ids_of_objects inv.objects_pass).trans h.met, inv.objects_pass ▸ h.genuine, ?_, ?_, ?_, ?_, ?_⟩
  · intro e he
    change e.1.Within _ (w.addTotal k t).levels.length
    rw [Sketch.length_tasks_set, Sketch.length_levels_addTotal]
    obtain ⟨e₀, he₀, rfl⟩ := List.mem_map.mp he
    split
    · exact (List.getElem?_eq_some_iff.mp hk).1
    · exact h.owners e₀ he₀
  · intro j u stance hj
    rcases hj.of_set with ⟨hne, hj⟩ | ⟨rfl, rfl, _⟩
    · rw [hheld (by simpa using hne) (by simp)]
      exact h.tasks j u stance hj
    · rw [inv.held_pass_self (by simp)]
      exact fun x hx => absurd hx List.not_mem_nil
  · intro j hj l hl
    by_cases hjk : j = k
    · subst hjk
      rw [inv.shares_pass (by simp), ← h.totals j hklive _ hk]
      change (w.levels.modify j _)[j]? = some l at hl
      rw [List.getElem?_modify_eq, hk] at hl
      obtain rfl := Option.some.inj hl
      have hsum := h.totals j hklive _ hk
      dsimp only at hsum ⊢
      have hshares : inv.shares (.task i) = t.add .zero := hmade.symm
      rw [hshares, Tally.add_comm t, ← Tally.add_assoc, hsum]
      unfold Inventory.shares
      rw [Tally.sum_add_zero]
    · change (w.levels.modify k _)[j]? = some l at hl
      rw [List.getElem?_modify_ne _ _ (Ne.symm hjk)] at hl
      unfold Inventory.shares
      rw [hheld (by simp) (by simpa using hjk)]
      exact h.totals j (hlive.mp hj) l hl
  · intro j hj x hx
    by_cases hjk : j = k
    · subst hjk
      rcases List.mem_append.mp ((inv.held_pass_perm (by simp)).mem_iff.mp hx) with hx | hx
      · exact hwhole x hx
      · exact h.whole j hklive x hx
    · rw [hheld (by simp) (by simpa using hjk)] at hx
      exact h.whole j (hlive.mp hj) x hx
  · intro j hj
    have hjk : j ≠ k := by
      rintro rfl
      exact hj (hlive.mpr hklive)
    rw [hheld (by simp) (by simpa using hjk)]
    exact h.dropped j (mt hlive.mpr hj)

theorem close (h : Solvent env paths inv w) (k : Nat) : Solvent env paths inv (w.close k) := by
  refine ⟨h.met, h.genuine, ?_, h.tasks, ?_, h.whole, h.dropped⟩
  · intro e he
    rw [Sketch.length_levels_close]
    exact h.owners e he
  · intro j hj l hl
    rcases modify_cases hl with ⟨_, hl⟩ | ⟨rfl, l₀, hl₀, rfl⟩
    · exact h.totals j hj l hl
    · exact h.totals _ hj l₀ hl₀

/-- No stroke loses anything that counts. -/
theorem stroke {a : Actor} (h : Solvent env paths inv w) (htiered : w.Tiered) (hrooted : w.Rooted env)
    (hcomes : ∀ i v, w.Works i v .ahead → env.Comes paths v.spot) (hstroke : w.Stroke env a w') :
    ∃ inv', Solvent env paths inv' w' := by
  have hfilter : ∀ t ∈ w.tasks, t.2.1.verdict ≠ .included → env.options.filter ≠ none := by
    intro t ht hverdict hnone
    rw [hrooted.verdict t ht] at hverdict
    unfold Environment.verdict at hverdict
    rw [hnone] at hverdict
    exact hverdict rfl
  have houtcome : ∀ {o : Outcome} (j f), o.stance ≠ .awaits j f := by
    intro o j f
    cases o <;> nofun
  cases hstroke with
  | @skip i k v f task info known =>
    have hi : w.Works i v .ahead := ⟨k, task⟩
    have htrailing := h.tasks i v _ hi
    cases houter : v.outer with
    | nil =>
      refine ⟨inv, h.remark htiered hi houtcome nofun rfl (fun _ _ => rfl) ?_⟩
      have hnone : inv.held (.task i) = [] := List.map_eq_nil_iff.mp (htrailing.1.trans houter)
      rw [hnone]
      exact fun x hx => absurd hx List.not_mem_nil
    | cons link rest =>
      obtain ⟨x, xs, hheld, rfl, hxs⟩ := List.map_eq_cons_iff.mp (htrailing.1.trans houter)
      have hleads := (htrailing.2 x (hheld ▸ List.mem_cons_self)).2
      obtain ⟨inv', hobjects, hothers, hholds⟩ := exists_own hheld
        ⟨hxs, fun y hy => htrailing.2 y (hheld ▸ List.mem_cons_of_mem _ hy)⟩
        (fun hkind => absurd hkind hleads.kind_ne) (hfilter _ (List.mem_of_getElem? task)) v
      exact ⟨inv', h.remark htiered hi houtcome nofun hobjects hothers hholds⟩
  | @meet i k v f task info _ _ => exact ⟨_, h.meet ⟨k, task⟩ info (hcomes i v ⟨k, task⟩)⟩
  | @settle i k v f task ends =>
    obtain ⟨xs, hheld, hxs⟩ := h.tasks i v _ ⟨k, task⟩
    have hmem := List.mem_of_getElem? task
    obtain ⟨inv', hobjects, hothers, hholds⟩ :=
      exists_own hheld hxs (hrooted.included _ hmem f rfl) (hfilter _ hmem) v
    exact ⟨inv', h.remark htiered ⟨k, task⟩ houtcome nofun hobjects hothers hholds⟩
  | @follow i k v f target task kind walks reads leads =>
    exact ⟨inv, h.follow ⟨k, task⟩ (.behind kind walks reads leads)⟩
  | @descend i k v f names task kind entries some =>
    obtain ⟨name, hname⟩ := List.exists_mem_of_ne_nil names some
    exact ⟨inv, h.descend ⟨k, task⟩ (fun u hu => (State.mem_visits hu).1) ⟨_, .inside kind entries hname⟩⟩
  | @resume i k j v f sum total task closed =>
    obtain ⟨xs, hheld, hxs, b, hb⟩ := h.tasks i v _ ⟨k, task⟩
    have hlive : w.Live j := .inr ⟨i, v, f, k, task⟩
    obtain rfl := htiered.closed j sum total closed
    obtain ⟨inv', hobjects, howners, hothers, hdropped, hholds⟩ := exists_total hheld hxs ⟨v.name, b, hb⟩
      (hfilter _ (List.mem_of_getElem? task)) (h.totals j hlive _ closed) (h.whole j hlive) v
    refine ⟨inv', h.set htiered ⟨k, task⟩ houtcome hobjects howners ?_ ?_ hholds⟩
    · exact fun o htask hlevel => hothers o htask (hlevel j f rfl)
    · intro j' g heq
      obtain ⟨rfl, -⟩ := Stance.awaits.inj heq
      exact hdropped
  | accept task => exact ⟨_, h.accept htiered task⟩
  | @close k => exact ⟨inv, h.close k⟩

end Solvent

section Start

variable (env : Environment σ) (paths : List Path) (visits : List Visit)

theorem Solvent.start (hvisits : ∀ v ∈ visits, v.outer = []) :
    Solvent env paths [] ((Sketch.mk [] [] []).openLevel visits) := by
  refine ⟨rfl, fun o ho => absurd ho List.not_mem_nil, fun e he => absurd he List.not_mem_nil, ?_, ?_,
    fun k _ x hx => absurd hx List.not_mem_nil, fun k _ x hx => absurd hx List.not_mem_nil⟩
  · intro i v stance hi
    obtain ⟨hv, rfl⟩ := hi.of_start visits
    change Trailing env [] v.outer
    rw [hvisits v hv]
    exact .nil env
  · intro k _ l hl
    rw [(Sketch.level_start visits hl).2]
    rfl

end Start

/-- The items of one owner make up what it has, with all others left blank. -/
theorem Inventory.exists_shares (inv : Inventory) (o : Owner) :
    ∃ items : List Item, items.map (·.object) = inv.objects ∧ Tally.sum (items.map Item.share) = inv.shares o ∧
      ∀ x ∈ items, x ∈ inv.held o ∨
        x.Blank ∧ ∃ o' y, o' ≠ o ∧ y ∈ inv.held o' ∧ y.object = x.object := by
  unfold shares
  induction inv with
  | nil => exact ⟨[], rfl, rfl, fun x hx => absurd hx List.not_mem_nil⟩
  | cons e inv ih =>
    obtain ⟨p, x⟩ := e
    obtain ⟨items, hobjects, hsum, hall⟩ := ih
    have hlater : ∀ {o' : Owner} {y : Item}, y ∈ held inv o' → y ∈ held ((p, x) :: inv) o' :=
      fun hy => (mem_held _).mpr (List.mem_cons_of_mem _ ((mem_held _).mp hy))
    have hrest : ∀ y ∈ items, y ∈ held ((p, x) :: inv) o ∨
        y.Blank ∧ ∃ o' z, o' ≠ o ∧ z ∈ held ((p, x) :: inv) o' ∧ z.object = y.object := by
      intro y hy
      rcases hall y hy with hy | ⟨hblank, o', z, hne, hz, heq⟩
      · exact .inl (hlater hy)
      · exact .inr ⟨hblank, o', z, hne, hlater hz, heq⟩
    by_cases hp : p = o
    · subst hp
      refine ⟨x :: items, congrArg (x.object :: ·) hobjects, ?_, ?_⟩
      · rw [held_cons_self, List.map_cons, List.map_cons, Tally.sum_cons, Tally.sum_cons, hsum]
      · intro y hy
        rcases List.mem_cons.mp hy with rfl | hy
        · exact .inl ((mem_held _).mpr List.mem_cons_self)
        · exact hrest y hy
    · refine ⟨{ x with sized := false, counted := false } :: items, congrArg (x.object :: ·) hobjects, ?_, ?_⟩
      · rw [held_cons_of_ne _ hp, List.map_cons, Tally.sum_cons, Item.Blank.share ⟨rfl, rfl⟩, hsum,
          Tally.add_comm, Tally.sum_add_zero]
      · intro y hy
        rcases List.mem_cons.mp hy with rfl | hy
        · exact .inr ⟨⟨rfl, rfl⟩, p, x, hp, (mem_held _).mpr List.mem_cons_self, rfl⟩
        · exact hrest y hy

/-- What a total is made up of when all tasks are finished. -/
theorem Solvent.total_eq (h : Solvent env paths inv w) (htiered : w.Tiered)
    (hfinished : ∀ t ∈ w.tasks, t.2.2 = .finished) {sum : Tally}
    (hlevel : w.levels[0]? = some (sum, .closed (.ok total))) :
    ∃ items : List Item, items.map (·.object) = inv.objects ∧ total = Tally.sum (items.map Item.share) ∧
      ∀ x ∈ items, x.Whole env ∨ x.Blank ∧ x.Dropped env := by
  have hidle : ∀ {j : Nat} {v : Visit} {stance : Stance}, w.Works j v stance → stance = .finished :=
    fun ⟨_, hj⟩ => hfinished _ (List.mem_of_getElem? hj)
  obtain ⟨items, hobjects, hsum, hall⟩ := inv.exists_shares (.level 0)
  refine ⟨items, hobjects, ?_, ?_⟩
  · rw [hsum, htiered.closed 0 sum total hlevel]
    exact h.totals 0 (.inl rfl) _ hlevel
  · intro x hx
    rcases hall x hx with hx | ⟨hblank, o, y, hne, hy, heq⟩
    · exact .inl (h.whole 0 (.inl rfl) x hx)
    · refine .inr ⟨hblank, ?_⟩
      have hdropped : y.Dropped env := by
        cases o with
        | task i =>
          have hi := h.owners _ ((inv.mem_held).mp hy)
          obtain ⟨⟨k, v, stance⟩, ht⟩ : ∃ t, w.tasks[i]? = some t := ⟨_, List.getElem?_eq_getElem hi⟩
          have hholds := h.tasks i v stance ⟨k, ht⟩
          obtain rfl : stance = .finished := hidle ⟨k, ht⟩
          exact hholds y hy
        | level k =>
          refine h.dropped k ?_ y hy
          rintro (rfl | ⟨j, v, f, hj⟩)
          · exact hne rfl
          · cases hidle hj
      have hinfo : y.info = x.info := (Prod.mk.inj heq).2
      exact ⟨hinfo ▸ hdropped.1, hdropped.2⟩

end Solvency

end TreeCensus.Walk
