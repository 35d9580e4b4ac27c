import TreeCensus.Proofs.Walk.Accounts

/-!
# Objects and their identities

No two items that are looked at any further have the same identity, since the identity is noted at the
moment at which it is found to be new. So no object is listed or reported twice, and the total of a
walk is made up of objects each of which adds its own size and its own count once at most.
-/

namespace TreeCensus.Walk

set_option autoImplicit false

variable {σ : Type}

/-- The accounts of a walk are in order, and the items of the topmost level are as `P` says. -/
def State.Accounted (env : Environment σ) (P : List Item → Prop) (s : State σ) : Prop :=
  ∃ inv, Accounts env (fun _ => True) s.view inv ∧ P (inv.held (.level 0))

/-- The same in the midst of a step of the task `t`. -/
structure Busy (env : Environment σ) (P : List Item → Prop) (i : Nat) (t : Task) (c : Cursor) (s : State σ) :
    Prop where
  task : ∃ phase, s.view.tasks[i]? = some (t.level, t.visit, phase)
  opened : ∃ total stage, s.view.levels[t.level]? = some (total, stage) ∧ stage.isClosed = false
  accounts : ∃ inv, Accounts env (· ≠ i) s.view inv ∧
    c.Keeps inv (s.view.listedIds env) (s.view.reportedIds env) i t.visit env ∧ P (inv.held (.level 0))

theorem State.view_addTotal (s : State σ) (k : Nat) (tally : Tally) :
    (s.updateLevel k fun l => { l with total := l.total.add tally }).view =
      { s.view with levels := s.view.levels.modify k fun l => (l.1.add tally, l.2) } := by
  unfold view updateLevel
  congr 1
  exact map_modify (h := fun l : Tally × Stage => (l.1.add tally, l.2)) (fun _ => rfl) s.levels k

theorem State.view_move (s : State σ) (i : Nat) (visit : Visit) :
    (s.updateTask i fun t => { t with visit }).view =
      { s.view with tasks := s.view.tasks.modify i fun t => (t.1, visit, t.2.2) } := by
  unfold view updateTask
  congr 1
  exact map_modify (h := fun t : Nat × Visit × Phase => (t.1, visit, t.2.2)) (fun _ => rfl) s.tasks i

section Follow

variable {env : Environment σ} {v : View} {inv : Inventory} {i : Nat} {visit : Visit} {info : FileInfo}

/-- An item is settled that nothing was found below. -/
theorem Accounts.follow_own (h : Accounts env (· ≠ i) v inv)
    (hfound : visit.Found inv (v.reportedIds env) i info) :
    ∃ inv', Accounts env (· ≠ i) v inv' ∧
      (Cursor.follow (Walk.settle visit.verdict visit.outer info info.tally)).Keeps inv' (v.listedIds env)
        (v.reportedIds env) i visit env ∧ inv'.held (.level 0) = inv.held (.level 0) := by
  cases ho : Walk.settle visit.verdict visit.outer info info.tally with
  | «over» result => exact ⟨inv, h, trivial, rfl⟩
  | counted first tally =>
    obtain ⟨ys, hobjects, hsum, hlast⟩ :=
      settle_own ho hfound.trail.infos hfound.trail.blank
    obtain ⟨inv', haccounts, hheld, hothers, y, hy, huntold⟩ :=
      h.remark hfound.trail (List.cons_ne_nil _ _) hobjects hlast
    refine ⟨inv', haccounts, ⟨?_, y, hheld ▸ hy, huntold⟩, hothers _ (by simp)⟩
    unfold Inventory.Makes Inventory.worth
    rw [hheld, hsum]

/-- An item is passed over. -/
theorem Accounts.follow_skip (h : Accounts env (· ≠ i) v inv)
    (hahead : visit.Ahead inv (v.reportedIds env) i) :
    ∃ inv', Accounts env (· ≠ i) v inv' ∧
      (Cursor.follow (Walk.unwind visit.verdict none visit.outer)).Keeps inv' (v.listedIds env)
        (v.reportedIds env) i visit env ∧ inv'.held (.level 0) = inv.held (.level 0) := by
  cases ho : Walk.unwind visit.verdict none visit.outer with
  | «over» result => exact ⟨inv, h, trivial, rfl⟩
  | counted first tally =>
    obtain ⟨ys, hobjects, hsum, hlast⟩ :=
      unwind_counted ho hahead.trail.infos hahead.trail.blank
    have hne : visit.outer ≠ [] := by
      intro hnil
      rw [hnil] at ho
      cases ho
    obtain ⟨inv', haccounts, hheld, hothers, y, hy, huntold⟩ := h.remark hahead.trail hne hobjects hlast
    refine ⟨inv', haccounts, ⟨?_, y, hheld ▸ hy, huntold⟩, hothers _ (by simp)⟩
    unfold Inventory.Makes Inventory.worth
    rw [hheld, hsum]

/-- A directory is settled with the total of the level below it. -/
theorem Accounts.follow_total (h : Accounts env (· ≠ i) v inv)
    (hfound : visit.Found inv (v.reportedIds env) i info) {k : Nat} {total : Tally}
    (htotal : total.amounts = inv.worth (.level k)) (hk : k ≠ 0)
    (halone : ∀ j t, j ≠ i → v.tasks[j]? = some t → ¬ t.2.2.Awaits k) (hi : i < v.tasks.length) :
    ∃ inv', Accounts env (· ≠ i) v inv' ∧
      (Cursor.follow (Walk.settle visit.verdict visit.outer info total)).Keeps inv' (v.listedIds env)
        (v.reportedIds env) i visit env ∧ inv'.held (.level 0) = inv.held (.level 0) := by
  cases ho : Walk.settle visit.verdict visit.outer info total with
  | «over» result => exact ⟨inv, h, trivial, rfl⟩
  | counted first tally =>
    obtain ⟨ys, hobjects, hsum, hlast⟩ :=
      settle_counted ho hfound.trail.infos fun x hx => (hfound.trail.blank x hx).2
    obtain ⟨inv', haccounts, hheld, hothers, y, hy, huntold⟩ :=
      h.remark hfound.trail (List.cons_ne_nil _ _) hobjects hlast
    refine ⟨_, haccounts.collect hk halone hi, ⟨?_, y, ?_, huntold⟩, ?_⟩
    · unfold Inventory.Makes
      rw [inv'.worth_pass (by simp)]
      unfold Inventory.worth at htotal ⊢
      rw [hheld, hothers _ (by simp), ← htotal]
      rw [Item.sum_of_blank hfound.trail.blank, add_zero] at hsum
      rw [hsum, add_comm]
    · rw [Inventory.mem_held, Inventory.pass, List.mem_map]
      exact ⟨(.task i, y), (inv'.mem_held).mp (hheld ▸ hy), if_neg (by simp)⟩
    · rw [inv'.held_pass_of_ne (by simpa using Ne.symm hk) (by simp)]
      exact hothers _ (by simp)

end Follow

namespace Busy

variable {env : Environment σ} {P : List Item → Prop} {i : Nat} {t : Task} {c d : Cursor} {s s' : State σ}
  {info : FileInfo} {tally : Tally} {target : Text} {names : List Text}

theorem still (h : Busy env P i t c s) (hview : s'.view = s.view)
    (hkeeps : ∀ inv, c.Keeps inv (s.view.listedIds env) (s.view.reportedIds env) i t.visit env →
      d.Keeps inv (s.view.listedIds env) (s.view.reportedIds env) i t.visit env) :
    Busy env P i t d s' := by
  obtain ⟨inv, haccounts, hcursor, hheld⟩ := h.accounts
  refine ⟨?_, ?_, inv, ?_, ?_, hheld⟩
  · rw [hview]
    exact h.task
  · rw [hview]
    exact h.opened
  · rw [hview]
    exact haccounts
  · rw [hview]
    exact hkeeps inv hcursor

theorem follow (h : Busy env P i t c s) {o : Outcome}
    (hfollow : ∀ inv, Accounts env (· ≠ i) s.view inv →
      c.Keeps inv (s.view.listedIds env) (s.view.reportedIds env) i t.visit env →
      ∃ inv', Accounts env (· ≠ i) s.view inv' ∧
        (Cursor.follow o).Keeps inv' (s.view.listedIds env) (s.view.reportedIds env) i t.visit env ∧
        inv'.held (.level 0) = inv.held (.level 0)) :
    Busy env P i t (.follow o) s := by
  obtain ⟨inv, haccounts, hcursor, hheld⟩ := h.accounts
  obtain ⟨inv', haccounts', hcursor', hsame⟩ := hfollow inv haccounts hcursor
  exact ⟨h.task, h.opened, inv', haccounts', hcursor', hsame ▸ hheld⟩

theorem rest (h : Busy env P i t c s) (hview : s'.view = s.view) {phase : Phase}
    (hstays : ∀ k, ¬ phase.Awaits k)
    (hkeeps : ∀ inv, c.Keeps inv (s.view.listedIds env) (s.view.reportedIds env) i t.visit env →
      phase.Keeps inv (s.view.listedIds env) (s.view.reportedIds env) i t.visit) :
    (s'.setPhase i phase).Accounted env P := by
  obtain ⟨inv, haccounts, hcursor, hheld⟩ := h.accounts
  obtain ⟨before, htask⟩ := h.task
  refine ⟨inv, ?_, hheld⟩
  rw [State.view_setPhase, hview]
  refine haccounts.rest hstays ?_
  intro u hu
  rw [htask] at hu
  cases hu
  exact hkeeps inv hcursor

theorem conclude (h : Busy env P i t c s) (result : Except Fault (Option Tally)) :
    (s.conclude i t result).Accounted env P := by
  unfold State.Accounted
  rw [State.view_conclude, ← State.view_setPhase]
  exact h.rest rfl (by rintro k ⟨info, hinfo⟩; cases hinfo) fun _ _ => trivial

theorem list (h : Busy env P i t (.begin (.entries info)) s) :
    ((s.note (.listed t.visit.place)).setPhase i (.calling (.entries info))).Accounted env P := by
  obtain ⟨inv, haccounts, ⟨hfound, hnew⟩, hheld⟩ := h.accounts
  obtain ⟨before, htask⟩ := h.task
  obtain ⟨x, hx, hplace, hinfo⟩ := hfound.exists_head
  rw [← hplace, ← hinfo] at hnew
  refine ⟨inv, ?_, hheld⟩
  rw [State.view_setPhase]
  refine (haccounts.list hx hplace hnew).rest (by rintro k ⟨found, hphase⟩; cases hphase) ?_
  intro u hu
  obtain rfl := Option.some.inj (htask.symm.trans hu)
  exact hfound

theorem tell (h : Busy env P i t (.begin (.report info tally)) s) :
    Busy env P i t (.report info tally) (s.note (.reported (s.pathCall t info tally))) := by
  obtain ⟨inv, haccounts, ⟨hmakes, x, hx, hplace, hinfo, hnew⟩, hheld⟩ := h.accounts
  have hlevels : (s.note (.reported (s.pathCall t info tally))).view.levels = s.view.levels := rfl
  exact ⟨h.task, h.opened, inv, haccounts.tell hx hplace hinfo hnew, hmakes, hheld⟩

theorem visit (h : Busy env P i t (.onInfo info) s) (hnew : info.identity t.visit.place ∉ s.visited) :
    Busy env P i t (.enter info) { s with visited := info.identity t.visit.place :: s.visited } := by
  obtain ⟨inv, haccounts, ⟨hahead, hinfo⟩, hheld⟩ := h.accounts
  obtain ⟨before, htask⟩ := h.task
  have hi := (List.getElem?_eq_some_iff.mp htask).1
  let x : Item := ⟨t.visit.place, info, false, false⟩
  have hvisited := haccounts.visit (x := x) hnew hi hinfo
  refine ⟨⟨before, htask⟩, h.opened, (.task i, x) :: inv, hvisited, ⟨?_, ?_⟩, ?_⟩
  · refine ⟨⟨?_, ?_, ?_⟩, ?_⟩
    · rw [inv.held_cons_self, List.map_cons, hahead.trail.infos]
    · rw [inv.held_cons_self]
      intro y hy
      rcases List.mem_cons.mp hy with rfl | hy
      · exact ⟨rfl, rfl⟩
      · exact hahead.trail.blank y hy
    · rw [inv.held_cons_self]
      intro y hy
      cases hheld : inv.held (.task i) with
      | nil =>
        have houter := hahead.trail.infos
        rw [hheld] at hy houter
        obtain rfl := Option.some.inj hy
        exact ⟨hahead.start houter.symm, haccounts.reported.not_mem hnew⟩
      | cons z zs =>
        rw [List.getLast?_cons_of_ne_nil (by rw [hheld]; exact List.cons_ne_nil _ _)] at hy
        exact hahead.trail.outermost y hy
    · rw [inv.held_cons_self]
      intro y hy
      obtain rfl := Option.some.inj hy
      rfl
  · exact haccounts.listed.not_mem hnew
  · rw [inv.held_cons_of_ne (by simp)]
    exact hheld

theorem follows (h : Busy env P i t (.onTarget info target) s) (place : Path) :
    Busy env P i { t with visit := { t.visit with place, outer := info :: t.visit.outer } } (.seek .info)
      (s.updateTask i fun u =>
        { u with visit := { t.visit with place, outer := info :: t.visit.outer } }) := by
  obtain ⟨inv, haccounts, hfound, hheld⟩ := h.accounts
  obtain ⟨before, htask⟩ := h.task
  refine ⟨⟨before, ?_⟩, ?_, inv, ?_, ⟨hfound.trail, nofun⟩, hheld⟩
  · rw [State.view_move]
    dsimp only
    rw [List.getElem?_modify_eq, htask]
    rfl
  · rw [State.view_move]
    exact h.opened
  · rw [State.view_move]
    exact haccounts.move _

/-- The item counts for the total of its level. The topmost level gets the items that make up the tally. -/
theorem accept {Q : List Item → Prop} (h : Busy env P i t (.accept tally) s)
    (hbelow : t.level ≠ 0 → ∀ xs, P xs → Q xs)
    (htop : t.level = 0 → ∀ xs ys zs, P xs → Item.sum ys = tally.amounts → zs.Perm (ys ++ xs) → Q zs) :
    Busy env Q i t (.log tally)
      (s.updateLevel t.level fun l => { l with total := l.total.add tally }) := by
  obtain ⟨inv, haccounts, hmakes, hheld⟩ := h.accounts
  obtain ⟨total, stage, hlevel, hopen⟩ := h.opened
  refine ⟨?_, ?_, inv.pass (.task i) (.level t.level), ?_, trivial, ?_⟩
  · rw [State.view_addTotal]
    exact h.task
  · rw [State.view_addTotal]
    dsimp only
    rw [List.getElem?_modify_eq, hlevel]
    exact ⟨_, stage, rfl, hopen⟩
  · rw [State.view_addTotal]
    exact haccounts.accept hmakes hlevel hopen
  · by_cases hzero : t.level = 0
    · rw [hzero]
      exact htop hzero _ _ _ hheld hmakes (inv.held_pass_perm (by simp))
    · rw [inv.held_pass_of_ne (by simp) (by simpa using Ne.symm hzero)]
      exact hbelow hzero _ hheld

/-- The entries of a directory make a level below. -/
theorem descend (h : Busy env P i t (.onEntries info names) s) (links : List Nat) (depth : Nat)
    (priority : Priority) (paths : List Path) :
    ((s.openLevel env links depth priority paths).setPhase i
      (.descending s.levels.length info)).Accounted env P := by
  obtain ⟨inv, haccounts, hfound, hheld⟩ := h.accounts
  obtain ⟨before, htask⟩ := h.task
  refine ⟨inv, ?_, hheld⟩
  rw [State.view_setPhase, State.view_openLevel,
    show s.levels.length = s.view.levels.length from (List.length_map _).symm]
  refine haccounts.descend htask hfound ?_
  intro w hw
  obtain ⟨houter, hname, _⟩ := State.mem_visits hw
  exact ⟨houter, hname.symm⟩

/-- What is known of a job that has begun is enough when its fault has been taken. -/
theorem forgone {job : Job} (h : Busy env P i t c s)
    (hkeeps : ∀ inv, c.Keeps inv (s.view.listedIds env) (s.view.reportedIds env) i t.visit env →
      job.Begun inv (s.view.reportedIds env) i t.visit) :
    Busy env P i t (job.forgone t) s := by
  cases job with
  | info => exact h.follow fun inv haccounts hcursor => haccounts.follow_skip (hkeeps inv hcursor)
  | target | entries =>
    exact h.follow fun inv haccounts hcursor => haccounts.follow_own (hkeeps inv hcursor)
  | report => exact h.still rfl fun _ _ => trivial

theorem Phase.not_awaits {phase : Phase} (h : ∀ k info, phase ≠ .descending k info) (k : Nat) :
    ¬ phase.Awaits k := fun ⟨info, hinfo⟩ => h k info hinfo

/-- Every move keeps the accounts; where the topmost level gets more items, nothing is said of them. -/
theorem move (h : Busy env P i t c s) (htop : ∀ tally, c = .accept tally → t.level = 0 → ∀ xs, P xs) :
    (c.move env i t s).Meets (Busy env P i) (State.Accounted env P) := by
  cases c with
  | conclude result => exact h.conclude result
  | log tally =>
    simp only [Cursor.move]
    split
    · exact h.still rfl fun _ _ => trivial
    · split
      · split
        · exact h.rest (State.view_note _ rfl rfl) (Phase.not_awaits (by simp)) fun _ _ => trivial
        · exact h.still (State.view_note _ rfl rfl) fun _ _ => trivial
      · exact h.still rfl fun _ _ => trivial
  | accept tally =>
    exact h.accept (fun _ _ hxs => hxs) fun hzero _ _ zs _ _ _ => htop tally rfl hzero zs
  | seek job =>
    simp only [Cursor.move]
    split
    · exact h.still rfl fun _ _ => trivial
    · exact h.still rfl fun _ hkeeps => hkeeps
    · exact h.rest rfl (Phase.not_awaits (by simp)) fun _ hkeeps => hkeeps
  | follow o =>
    cases o with
    | «over» result => exact h.still rfl fun _ _ => trivial
    | counted info tally =>
      simp only [Cursor.move]
      split
      · exact h.still rfl fun _ hkeeps => hkeeps.1
      · exact h.still rfl fun _ hkeeps => hkeeps
  | enter info =>
    have hsettle : Busy env P i t (.follow (settle t.visit.verdict t.visit.outer info info.tally)) s :=
      h.follow fun inv haccounts hkeeps => haccounts.follow_own hkeeps.1
    simp only [Cursor.move]
    split
    · split
      · exact h.still rfl fun _ hkeeps => hkeeps.1
      · exact hsettle
    · exact h.still rfl fun _ hkeeps => hkeeps
    · exact hsettle
    · exact hsettle
  | onInfo info =>
    have hskip : Busy env P i t (.follow (unwind t.visit.verdict none t.visit.outer)) s :=
      h.follow fun inv haccounts hkeeps => haccounts.follow_skip hkeeps.1
    simp only [Cursor.move]
    split
    · exact hskip
    · split
      · exact hskip
      · next hnew => exact h.visit hnew
  | onTarget info target =>
    simp only [Cursor.move]
    split
    · exact h.follow fun inv haccounts hkeeps => haccounts.follow_own hkeeps
    · exact h.follows _
  | onEntries info names =>
    simp only [Cursor.move]
    split
    · exact h.follow fun inv haccounts hkeeps => haccounts.follow_own hkeeps
    · exact h.descend _ _ _ _
  | giveBack next =>
    simp only [Cursor.move]
    split
    · exact h.still rfl fun _ hkeeps => hkeeps
    · exact h.still rfl fun _ _ => trivial
  | onAnswer job f answer =>
    cases answer with
    | error g => exact h.still rfl fun _ _ => trivial
    | ok taken =>
      simp only [Cursor.move]
      split
      · exact (h.forgone fun _ hkeeps => hkeeps).still rfl fun _ hkeeps => hkeeps
      · exact h.still rfl fun _ _ => trivial
  | consult job f =>
    simp only [Cursor.move]
    split <;> exact h.still rfl fun _ hkeeps => hkeeps
  | offer job f =>
    simp only [Cursor.move]
    split
    · exact h.still rfl fun _ _ => trivial
    · split
      · exact h.still rfl fun _ hkeeps => hkeeps
      · split
        · exact h.rest (State.view_note _ rfl rfl) (Phase.not_awaits (by simp)) fun _ hkeeps => hkeeps
        · exact h.still (State.view_note _ rfl rfl) fun _ hkeeps => hkeeps
  | onReply info tally answer =>
    rcases answer with f | _ | _
    · simp only [Cursor.move]
      split
      · exact h.still rfl fun _ _ => trivial
      · exact h.still rfl fun _ hkeeps => hkeeps
    · exact h.still rfl fun _ _ => trivial
    · exact h.still rfl fun _ hkeeps => hkeeps
  | stop info tally reply =>
    cases hstop : reply.stop <;> simp only [Cursor.move, hstop] <;>
      exact h.still rfl fun _ hkeeps => hkeeps
  | report info tally =>
    simp only [Cursor.move]
    split <;> exact h.still rfl fun _ hkeeps => hkeeps
  | begin job =>
    cases job with
    | info | target =>
      exact h.rest (State.view_note _ rfl rfl) (Phase.not_awaits (by simp)) fun _ hkeeps => hkeeps
    | entries info => exact h.list
    | report info tally =>
      simp only [Cursor.move]
      split
      · exact h.still rfl fun _ hkeeps => hkeeps.1
      · split
        · exact h.tell.rest rfl (Phase.not_awaits (by simp)) fun _ hkeeps => hkeeps
        · exact h.tell
  | answer job =>
    cases job with
    | info =>
      simp only [Cursor.move]
      split
      · next hinfo => exact h.still rfl fun _ hkeeps => ⟨hkeeps, hinfo⟩
      · exact h.still rfl fun _ hkeeps => hkeeps
    | target | entries =>
      simp only [Cursor.move]
      split <;> exact h.still rfl fun _ hkeeps => hkeeps
    | report info tally => exact h.still rfl fun _ hkeeps => hkeeps

end Busy

/-- Where a step of a task begins, the accounts are in order. -/
theorem State.Accounted.entry {env : Environment σ} {P : List Item → Prop} {s s' : State σ} {i : Nat}
    {t : Task} {c : Cursor}
    (h : s.Accounted env P) (ht : s.tasks[i]? = some t)
    (hopen : ∃ total stage, s.view.levels[t.level]? = some (total, stage) ∧ stage.isClosed = false)
    (hforked : Forked s.posts s.stages.length) (hentry : s.entry? env t = some (c, s')) :
    Busy env P i t c s' := by
  obtain ⟨inv, haccounts, hheld⟩ := h
  have htask : s.view.tasks[i]? = some (t.level, t.visit, t.phase) := by
    unfold view
    rw [List.getElem?_map, ht]
    rfl
  have hkeeps := haccounts.tasks i _ trivial htask
  have hbusy : ∀ {d : Cursor} {s₁ : State σ}, s₁.view = s.view →
      (t.phase.Keeps inv (s.view.listedIds env) (s.view.reportedIds env) i t.visit →
        d.Keeps inv (s.view.listedIds env) (s.view.reportedIds env) i t.visit env) →
      Busy env P i t d s₁ := by
    intro d s₁ hview hd
    refine ⟨?_, ?_, inv, ?_, ?_, hheld⟩
    · rw [hview]
      exact ⟨_, htask⟩
    · rw [hview]
      exact hopen
    · rw [hview]
      exact haccounts.enter i
    · rw [hview]
      exact hd hkeeps
  cases State.enters hentry with
  | ends | drops | refused | called | logged | failed => exact hbusy rfl fun _ => trivial
  | starts phase | admitted phase | answers phase | consults phase =>
    rw [phase] at hbusy
    exact hbusy rfl fun hk => hk
  | @resumes k info total phase closed =>
    have hposts : s.posts[i]? = some (t.level, t.phase) := posts_of_task ht
    have hawaits : t.phase.Awaits k := ⟨info, phase⟩
    obtain ⟨hbelow, hcount⟩ := hforked.below i _ k hposts hawaits
    have hlevel : k < s.levels.length := by simpa [stages] using hcount
    have htotal : total = s.view.total k := by
      rw [total_view]
      refine haccounts.closed ((s.level k).total, (s.level k).stage) ?_ total closed
      unfold view level
      rw [List.getElem?_eq_getElem hlevel]
      exact List.mem_map_of_mem (f := fun l : Level => (l.total, l.stage)) (List.getElem_mem hlevel)
    rw [phase] at hkeeps
    have hworth : total.amounts = inv.worth (.level k) := by
      rw [htotal]
      exact haccounts.totals k (.inr ⟨i, _, trivial, htask, hawaits⟩)
    have halone : ∀ j u, j ≠ i → s.view.tasks[j]? = some u → ¬ u.2.2.Awaits k := by
      intro j u hj hu hk
      refine hj (hforked.once j i (u.1, u.2.2) _ k ?_ hposts hk hawaits)
      rw [posts_view, hu]
      rfl
    obtain ⟨inv', haccounts', hcursor, hsame⟩ := (haccounts.enter i).follow_total hkeeps hworth
      (by omega) halone (List.getElem?_eq_some_iff.mp htask).1
    exact ⟨⟨_, htask⟩, hopen, inv', haccounts', hcursor, hsame ▸ hheld⟩

theorem State.view_stage (s : State σ) (k : Nat) {f : Level → Level} {stage : Stage}
    (hf : ∀ l, (f l).total = l.total ∧ (f l).stage = stage) :
    (s.updateLevel k f).view =
      { s.view with levels := s.view.levels.modify k fun l => (l.1, stage) } := by
  unfold view updateLevel
  congr 1
  exact map_modify (h := fun l : Tally × Stage => (l.1, stage)) (fun l => by rw [(hf l).1, (hf l).2])
    s.levels k

/-- A level that closes without a fault closes with its total. -/
theorem State.Accounted.stage {env : Environment σ} {P : List Item → Prop} {s u : State σ} {k : Nat} {l : Level}
    (h : s.Accounted env P) (hview : u.view = s.view) (hl : s.levels[k]? = some l) {f : Level → Level}
    {stage : Stage} (hf : ∀ l, (f l).total = l.total ∧ (f l).stage = stage)
    (hclosed : ∀ total, stage = .closed (.ok total) → total = l.total) :
    (u.updateLevel k f).Accounted env P := by
  obtain ⟨inv, haccounts, hheld⟩ := h
  have hk : s.view.levels[k]? = some (l.total, l.stage) := by
    unfold view
    rw [List.getElem?_map, hl]
    rfl
  have htotal : ∀ j, View.total { s.view with levels := s.view.levels.modify k fun l => (l.1, stage) } j =
      s.view.total j := by
    intro j
    unfold View.total
    dsimp only
    rw [← List.getElem?_map, ← List.getElem?_map]
    exact congrArg (fun totals : List Tally => totals[j]?.getD .zero)
      (map_modify_of_eq (f := fun l : Tally × Stage => (l.1, stage)) (fun _ => rfl) s.view.levels k)
  refine ⟨inv, ?_, hheld⟩
  rw [view_stage _ k hf, hview]
  refine ⟨haccounts.met, haccounts.distinct, haccounts.genuine, haccounts.listed, haccounts.reported,
    haccounts.told, ?_, ?_, haccounts.tasks, ?_⟩
  · intro j hj
    rw [htotal]
    exact haccounts.totals j hj
  · intro m hm total hm'
    rcases mem_modify hm with hm | ⟨a, ha, rfl⟩
    · exact haccounts.closed m hm total hm'
    · obtain rfl := Option.some.inj (hk.symm.trans ha)
      exact hclosed total hm'
  · intro e he
    have := haccounts.owners e he
    dsimp only
    rw [List.length_modify]
    exact this

theorem State.Accounted.close {env : Environment σ} {P : List Item → Prop} {s : State σ} {k : Nat} {l : Level}
    (h : s.Accounted env P) (hl : s.levels[k]? = some l) {result : Except Fault Tally}
    (hresult : ∀ total, result = .ok total → total = l.total) : (s.close k result).Accounted env P := by
  unfold State.close
  dsimp only
  refine h.stage rfl hl (fun _ => ⟨rfl, rfl⟩) ?_
  intro total htotal
  exact hresult total (Stage.closed.inj htotal)

/-- A step of a level keeps the accounts. -/
theorem State.Accounted.level {env : Environment σ} {P : List Item → Prop} {s s' : State σ} {k : Nat} {l : Level}
    (h : s.Accounted env P) (hl : s.levels[k]? = some l) (hstep : s.stepLevel? k l = some s') :
    s'.Accounted env P := by
  unfold stepLevel? at hstep
  cases hstage : l.stage with
  | closed result => simp [hstage] at hstep
  | draining f =>
    simp only [hstage] at hstep
    split at hstep
    · obtain rfl := Option.some.inj hstep
      exact h.close hl nofun
    · cases hstep
  | running =>
    simp only [hstage] at hstep
    split at hstep
    · obtain rfl := Option.some.inj hstep
      exact h.stage (view_interrupt _ k) hl (fun _ => ⟨rfl, rfl⟩) nofun
    · split at hstep
      · split at hstep
        · obtain rfl := Option.some.inj hstep
          exact h.close hl nofun
        · obtain rfl := Option.some.inj hstep
          exact h.close hl fun total htotal => (Except.ok.inj htotal).symm
      · cases hstep

namespace Scene

variable {env : Environment σ} {capacity : Int} {sc sc' : Scene σ}

theorem Sound.accounted_task (h : Sound capacity sc) {i : Nat} {t : Task} {s : State σ}
    (ht : sc.state.tasks[i]? = some t) (hstep : sc.state.stepTask? env i t = some s)
    (hforked : Forked sc.state.posts sc.state.stages.length)
    (haccounted : sc.state.Accounted env (fun _ => True)) :
    s.Accounted env (fun _ => True) := by
  obtain ⟨c, s₁, hentry, rfl⟩ := State.exists_entry hstep
  have hready := (State.advances_entry i hentry).1
  have hpost := List.mem_of_getElem? (State.posts_of_task ht)
  have hopen : ∃ total stage, sc.state.view.levels[t.level]? = some (total, stage) ∧
      stage.isClosed = false := by
    have hplaced := h.nested.placed _ hpost
    have hlevel : t.level < sc.state.levels.length := by simpa [State.stages] using hplaced
    refine ⟨sc.state.levels[t.level].total, sc.state.levels[t.level].stage, ?_, ?_⟩
    · unfold State.view
      rw [List.getElem?_map, List.getElem?_eq_getElem hlevel]
      rfl
    · apply Classical.byContradiction
      intro hclosed
      have hended := h.nested.isEnded_of_isClosed
        (State.stages_of_level (List.getElem?_eq_getElem hlevel)) (by simpa using hclosed) hpost rfl
      rw [hready.1] at hended
      cases hended
  exact Cursor.run_of_moves (P := Busy env (fun _ => True) i)
    (fun u d s₂ hbusy => hbusy.move fun _ _ _ _ => trivial) t c s₁
    (haccounted.entry ht hopen hforked hentry)

theorem Sound.accounted_move (h : Sound capacity sc) (hmove : Move env sc sc')
    (hforked : Forked sc.state.posts sc.state.stages.length)
    (haccounted : sc.state.Accounted env (fun _ => True)) :
    sc'.state.Accounted env (fun _ => True) := by
  cases hmove with
  | @act a s step =>
    cases a with
    | task i =>
      obtain ⟨t, ht, hstep⟩ := Option.bind_eq_some_iff.mp step
      exact h.accounted_task ht hstep hforked haccounted
    | level k =>
      obtain ⟨l, hl, hstep⟩ := Option.bind_eq_some_iff.mp step
      exact haccounted.level hl hstep
  | interrupt =>
    obtain ⟨inv, haccounts, hheld⟩ := haccounted
    refine ⟨inv, ?_, hheld⟩
    change Accounts env _ sc.state.interruptAll.view inv
    rw [State.view_interruptAll]
    exact haccounts
  | deal => exact haccounted

theorem accounted_start (env : Environment σ) (caller : Caller σ) (paths : List Path) {P : List Item → Prop}
    (hempty : P []) : (State.start env caller paths).Accounted env P := by
  refine ⟨[], ?_, hempty⟩
  unfold State.start
  rw [State.view_openLevel]
  have hnone : ∀ {α : Type} {P : α → Prop}, ∀ a ∈ ([] : List α), P a :=
    fun a ha => absurd ha List.not_mem_nil
  refine ⟨rfl, List.nodup_nil, hnone, ⟨List.nodup_nil, hnone⟩, ⟨List.nodup_nil, hnone⟩, hnone, ?_, ?_,
    ?_, hnone⟩
  · rintro k (rfl | ⟨j, t, _, ht, info, hinfo⟩)
    · rfl
    · obtain ⟨w, _, rfl⟩ := List.mem_map.mp (List.mem_of_getElem? ht)
      cases hinfo
  · intro l hl total hclosed
    obtain rfl := List.mem_singleton.mp hl
    cases hclosed
  · intro j t _ ht
    obtain ⟨w, hw, rfl⟩ := List.mem_map.mp (List.mem_of_getElem? ht)
    obtain ⟨houter, hname, _⟩ := State.mem_visits hw
    refine ⟨⟨houter.symm, hnone, ?_⟩, fun _ => hname.symm⟩
    intro x hx
    cases hx

theorem accounted_of_moves {caller : Caller σ} {paths : List Path} {others : List Pool.Stake}
    (hpool : Pool.Serves caller.pool others) (h : Moves env (start env caller paths others) sc) :
    sc.state.Accounted env (fun _ => True) := by
  have hall : ∀ {a b : Scene σ}, Moves env a b → Sound caller.pool.capacity a →
      Forked a.state.posts a.state.stages.length → a.state.Accounted env (fun _ => True) →
      b.state.Accounted env (fun _ => True) := by
    intro a b hmoves
    induction hmoves with
    | refl => exact fun _ _ h => h
    | cons hmove _ ih =>
      intro hsound hforked haccounted
      exact ih (hsound.move hmove) (hsound.forked_move hmove hforked)
        (hsound.accounted_move hmove hforked haccounted)
  exact hall h (.start env caller paths hpool) (forked_start env caller paths others)
    (accounted_start env caller paths trivial)

end Scene

/-- The items that were found to be new account for what a walk has done: each directory that was listed
and each item that was reported is one of them, and so is what the total is made up of. -/
structure State.Census (env : Environment σ) (s : State σ) (items : List Item) : Prop where
  /-- The items are those that passed the check of their identity. -/
  passed : items.map Item.id = s.visited
  distinct : s.visited.Nodup
  genuine : ∀ x ∈ items, env.files.info x.place = .ok x.info
  listed : Distinct s.visited (s.view.listedIds env)
  reported : Distinct s.visited (s.view.reportedIds env)
  told : ∀ c ∈ s.view.reported, env.files.info c.path = .ok c.info
  total : ∀ total, s.result? = some (.ok total) → total.amounts = Item.sum items

/-- The items of one owner alone add what they add. -/
theorem Inventory.exists_items (inv : Inventory) (o : Owner) :
    ∃ items : List Item, items.map (·.object) = inv.map (·.2.object) ∧ Item.sum items = inv.worth o := by
  unfold worth
  induction inv with
  | nil => exact ⟨[], rfl, rfl⟩
  | cons e inv ih =>
    obtain ⟨p, x⟩ := e
    obtain ⟨items, hobjects, hsum⟩ := ih
    by_cases hp : p = o
    · subst hp
      refine ⟨x :: items, ?_, ?_⟩
      · rw [List.map_cons, List.map_cons, hobjects]
      · rw [held_cons_self, Item.sum_cons, Item.sum_cons, hsum]
    · refine ⟨{ x with sized := false, counted := false } :: items, ?_, ?_⟩
      · rw [List.map_cons, List.map_cons, hobjects]
        rfl
      · rw [held_cons_of_ne _ hp, Item.sum_cons, hsum, Item.Blank.worth ⟨rfl, rfl⟩, zero_add]

theorem State.Accounted.census {env : Environment σ} {s : State σ} (h : s.Accounted env (fun _ => True)) :
    ∃ items, s.Census env items := by
  obtain ⟨inv, haccounts, -⟩ := h
  obtain ⟨items, hobjects, hsum⟩ := inv.exists_items (.level 0)
  have hids : items.map Item.id = inv.ids := by
    have := congrArg (List.map fun o : Path × FileInfo => o.2.identity o.1) hobjects
    rw [List.map_map, List.map_map] at this
    exact this
  refine ⟨items, hids.trans haccounts.met, haccounts.distinct, ?_, haccounts.listed, haccounts.reported,
    haccounts.told, ?_⟩
  · intro x hx
    have := List.mem_map_of_mem (f := Item.object) hx
    rw [hobjects] at this
    obtain ⟨e, he, heq⟩ := List.mem_map.mp this
    obtain ⟨hplace, hinfo⟩ := Prod.mk.inj heq
    rw [← hplace, ← hinfo]
    exact haccounts.genuine e he
  · intro total hresult
    rw [hsum, ← haccounts.totals 0 (.inl rfl), total_view]
    obtain ⟨l, hl, hstage⟩ := State.topmost_of_result hresult
    have hmem := List.mem_map_of_mem (f := fun l : Level => (l.total, l.stage)) (List.mem_of_getElem? hl)
    rw [haccounts.closed _ hmem total hstage, s.level_of_getElem? hl]

namespace Scene

/-- However a walk goes on, no object is found to be new twice, listed twice, reported twice, or adds its
size or its count to the total twice. -/
theorem census_of_moves {env : Environment σ} {caller : Caller σ} {paths : List Path}
    {others : List Pool.Stake} {sc : Scene σ} (hpool : Pool.Serves caller.pool others)
    (h : Moves env (start env caller paths others) sc) : ∃ items, sc.state.Census env items :=
  (accounted_of_moves hpool h).census

/-- A file that is reached by a link, then by its own name, then by another name, is counted once. -/
theorem census_of_names : ∃ (env : Environment Unit) (caller : Caller Unit) (sc : Scene Unit)
    (items : List Item), Pool.Serves caller.pool [] ∧
      Moves env (start env caller [['l'], ['a'], ['b']] []) sc ∧
      sc.state.result? = some (.ok ⟨5, 1, 0, 1, 7⟩) ∧ items.length = 2 ∧
      sc.state.Census env items := by
  let files : FileSystem := ⟨['/'],
    fun p => if p = ['/', 'l'] then .ok ⟨.link, 1, 9, 0, 1⟩ else .ok ⟨.file, 5, 7, 3, 2⟩,
    fun _ => .ok ['a'], fun _ => .ok [], fun _ => .ok []⟩
  let env : Environment Unit :=
    ⟨files, ⟨.several [['l'], ['a'], ['b']], true, none, none, none, none, defaultPriority⟩,
      fun _ => none⟩
  let caller : Caller Unit := ⟨⟨1, 0, [], [], 0⟩, false, none, ()⟩
  let actors : List Actor := [.task 0, .task 0, .task 0, .task 0, .task 1, .task 1, .task 2, .task 2,
    .level 0]
  have hplayed : (play env actors (start env caller [['l'], ['a'], ['b']] [])).map
      (fun sc => (sc.state.result?, sc.state.visited.length)) =
        some (some (.ok ⟨5, 1, 0, 1, 7⟩), 2) := by decide +kernel
  have hserves : Pool.Serves caller.pool [] := by
    refine ⟨⟨?_, ?_, ?_, ?_, ?_, ?_, ?_, ?_⟩, ?_⟩ <;> decide
  obtain ⟨sc, hsc, heq⟩ := Option.map_eq_some_iff.mp hplayed
  obtain ⟨hresult, hlength⟩ := Prod.mk.inj heq
  have hmoves := moves_of_play hsc
  obtain ⟨items, hcensus⟩ := census_of_moves hserves hmoves
  refine ⟨env, caller, sc, items, hserves, hmoves, hresult, ?_, hcensus⟩
  rw [← List.length_map (f := Item.id), hcensus.passed, hlength]

end Scene

end TreeCensus.Walk
