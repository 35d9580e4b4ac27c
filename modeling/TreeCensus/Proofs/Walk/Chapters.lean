import TreeCensus.Proofs.Walk.Register

/-!
# Chapters of a register

The accepted calls fall into chapters, one for each level, and into those whose answers have no effect
yet. The total of a level is what its chapter comes to. A chapter is due as long as nobody has reported the
directory that it is about, and each change that a walk makes to its register keeps that.
-/

namespace TreeCensus.Walk

set_option autoImplicit false

variable {σ : Type}

/-- What is known of a task in its role, from the depths of the levels and the parents of their chapters. -/
def Role.Fits (depths : List Nat) (parents : List Path) (k : Nat) (name : Path) : Role → Prop
  | found i => i.Opens
  | awaits j i => i.Opens ∧ parents[j]? = some name ∧ ∃ d, depths[k]? = some d ∧ depths[j]? = some (d + 1)
  | owes i t | told i t => Counts i t
  | ahead | finished => True

/-- The chapter of the level may be in the hands of a task in the role. -/
def Role.Bears (k : Nat) : Role → Prop
  | awaits j _ => j = k
  | owes _ _ => True
  | ahead | found _ | told _ _ | finished => False

structure Seated (env : Environment σ) (depths : List Nat) (parents : List Path) (k : Nat) (v : Visit)
    (role : Role) : Prop where
  tier : k < depths.length
  verdict : v.verdict = env.verdict v.name
  outer : ∀ i ∈ v.outer, i.Opens
  held : ∀ parent, 0 < k → parents[k]? = some parent → env.Holds parent v.name
  fits : role.Fits depths parents k v.name

theorem Seated.turn {env : Environment σ} {depths : List Nat} {parents : List Path} {k : Nat} {v : Visit}
    {old role : Role} (h : Seated env depths parents k v old) (hfits : role.Fits depths parents k v.name) :
    Seated env depths parents k v role :=
  ⟨h.tier, h.verdict, h.outer, h.held, hfits⟩

/-- Levels that are opened later do not matter to a task. -/
theorem Seated.append {env : Environment σ} {depths : List Nat} {parents : List Path} {k : Nat} {v : Visit}
    {role : Role} (h : Seated env depths parents k v role) (hlength : parents.length = depths.length)
    (ds : List Nat) (ps : List Path) : Seated env (depths ++ ds) (parents ++ ps) k v role := by
  refine ⟨List.length_append ▸ Nat.lt_add_right _ h.tier, h.verdict, h.outer, ?_, ?_⟩
  · intro parent hk hparent
    rw [List.getElem?_append_left (hlength ▸ h.tier)] at hparent
    exact h.held parent hk hparent
  · have hfits := h.fits
    cases role with
    | awaits j i =>
      obtain ⟨hopens, hparent, d, habove, hbelow⟩ := hfits
      exact ⟨hopens, getElem?_append_of_some hparent ps, d, getElem?_append_of_some habove ds,
        getElem?_append_of_some hbelow ds⟩
    | _ => exact hfits

namespace Register

section Due

variable (env : Environment σ) (r : Register)

/-- The call that a task waits to have answered, if it is accepted. -/
def outstanding (accepted : PathCall → Bool) (x : Nat × Visit × Role) : List PathCall :=
  match x.2.2 with
  | .told i t => [r.call x.1 x.2.1 i t].filter accepted
  | _ => []

def pending (accepted : PathCall → Bool) : List PathCall := r.tasks.flatMap (r.outstanding accepted)

/-- What is going to become of a chapter, or has become of it. -/
inductive Due (k : Nat) (ch : Chapter) (closed : Bool) : Prop
  | awaited {i l : Nat} {v : Visit} {f : FileInfo} (task : r.tasks[i]? = some (l, v, .awaits k f))
  | owed {i l d : Nat} {v : Visit} {f : FileInfo} {t : Tally} (shut : closed = true)
      (task : r.tasks[i]? = some (l, v, .owes f t)) (name : v.name = ch.parent)
      (above : r.depths[l]? = some d) (depth : r.depths[k]? = some (d + 1)) (opens : f.Opens)
      (tally : t.TakesIn ch.tallies)
  | told (shut : closed = true) (told : ch.Told r.calls)
  | dropped (shut : closed = true) (dropped : ch.Dropped env)

/-- A call of a chapter is about an item of its level. -/
structure Entered (env : Environment σ) (depths : List Nat) (k : Nat) (parent : Path) (c : PathCall) : Prop where
  level : depths[k]? = some c.level
  counts : Counts c.info c.tally
  held : 0 < k → env.Holds parent c.path

structure Kept (accepted : PathCall → Bool) (chs : List Chapter) : Prop where
  length : chs.length = r.tiers.length
  calls : (r.calls.filter accepted).Perm (chs.flatMap (·.calls) ++ r.pending accepted)
  tasks : ∀ (i k : Nat) v role, r.tasks[i]? = some (k, v, role) → Seated env r.depths (chs.map (·.parent)) k v role
  topmost : r.depths[0]? = some 0
  below : ∀ (k d : Nat), 0 < k → r.depths[k]? = some d → 0 < d
  sums : ∀ (k : Nat) ch l, chs[k]? = some ch → r.tiers[k]? = some l → l.total = Tally.sum ch.tallies
  closed : ∀ l ∈ r.tiers, ∀ total, l.stage = .closed (.ok total) → total = l.total
  entered : ∀ (k : Nat) ch, chs[k]? = some ch → ∀ c ∈ ch.calls, Entered env r.depths k ch.parent c
  due : ∀ (k : Nat) ch l, 0 < k → chs[k]? = some ch → r.tiers[k]? = some l → r.Due env k ch l.stage.isClosed

end Due

variable {env : Environment σ} {r r' : Register} {accepted : PathCall → Bool} {chs : List Chapter}
  {i j k l : Nat} {v w : Visit} {old role : Role} {f : FileInfo} {t : Tally} {ch : Chapter} {closed : Bool}

theorem call_congr (h : r'.depths[k]? = r.depths[k]?) (v : Visit) (f : FileInfo) (t : Tally) :
    r'.call k v f t = r.call k v f t := by
  unfold call
  rw [h]

theorem outstanding_congr (h : r'.depths = r.depths) (accepted : PathCall → Bool) :
    r'.outstanding accepted = r.outstanding accepted := by
  funext x
  unfold outstanding
  split
  · rw [call_congr (congrArg (·[x.1]?) h)]
  · rfl

/-- What is outstanding is what the task waits for and what the others wait for. -/
theorem pending_perm (h : r.tasks[i]? = some (k, v, old)) (accepted : PathCall → Bool) :
    (r.pending accepted).Perm (r.outstanding accepted (k, v, old) ++
      (r.tasks.eraseIdx i).flatMap (r.outstanding accepted)) :=
  (perm_eraseIdx h).flatMap_right _

theorem pending_put (h : r.tasks[i]? = some (k, v, old)) (accepted : PathCall → Bool) (w : Visit) (role : Role) :
    ((r.put i w role).pending accepted).Perm (r.outstanding accepted (k, w, role) ++
      (r.tasks.eraseIdx i).flatMap (r.outstanding accepted)) :=
  (perm_modify h fun x => (x.1, w, role)).flatMap_right _

theorem pending_put_of_eq (h : r.tasks[i]? = some (k, v, old))
    (hsame : r.outstanding accepted (k, w, role) = r.outstanding accepted (k, v, old)) :
    ((r.put i w role).pending accepted).Perm (r.pending accepted) := by
  have hafter := pending_put h accepted w role
  rw [hsame] at hafter
  exact hafter.trans (pending_perm h accepted).symm

/-- The tasks of a new level wait for no answer. -/
theorem pending_openLevel (hplaced : ∀ x ∈ r.tasks, x.1 < r.depths.length) (accepted : PathCall → Bool)
    (d : Nat) (visits : List Visit) :
    (r.openLevel d visits).pending accepted = r.pending accepted := by
  have hnew : (visits.map fun v => (r.tiers.length, v, Role.ahead)).flatMap
      ((r.openLevel d visits).outstanding accepted) = [] := by
    rw [List.flatMap_eq_nil_iff]
    intro x hx
    obtain ⟨w, _, rfl⟩ := List.mem_map.mp hx
    rfl
  have hold : ∀ x ∈ r.tasks, (r.openLevel d visits).outstanding accepted x = r.outstanding accepted x := by
    intro x hx
    unfold outstanding
    split
    · rw [call_congr]
      rw [depths_openLevel, List.getElem?_append_left (hplaced x hx)]
    · rfl
  unfold pending
  change (r.tasks ++ _).flatMap _ = _
  rw [List.flatMap_append, hnew, List.append_nil, List.flatMap_congr hold]

/-- A chapter that does not rely on the task stays due when the task goes on. -/
theorem Due.put (h : r.Due env k ch closed) (hi : r.tasks[i]? = some (l, v, old))
    (hfree : ¬ old.Bears k) (w : Visit) (role : Role) : (r.put i w role).Due env k ch closed := by
  have hother : ∀ {j : Nat} {x : Nat × Visit × Role}, r.tasks[j]? = some x → x.2.2.Bears k →
      (r.put i w role).tasks[j]? = some x :=
    fun hj hbears => getElem?_put_of_ne hi hj (fun heq => hfree (heq ▸ hbears)) w role
  cases h with
  | awaited task => exact .awaited (hother task rfl)
  | owed shut task name above depth opens tally =>
    exact .owed shut (hother task trivial) name above depth opens tally
  | told shut told => exact .told shut told
  | dropped shut dropped => exact .dropped shut dropped

theorem Due.congr (h : r.Due env k ch closed) (htasks : r'.tasks = r.tasks) (hdepths : r'.depths = r.depths)
    (hcalls : r'.calls = r.calls) : r'.Due env k ch closed := by
  cases h with
  | awaited task => exact .awaited (htasks ▸ task)
  | owed shut task name above depth opens tally =>
    exact .owed shut (htasks ▸ task) name (hdepths ▸ above) (hdepths ▸ depth) opens tally
  | told shut told => exact .told shut (hcalls ▸ told)
  | dropped shut dropped => exact .dropped shut dropped

theorem Due.openLevel (h : r.Due env k ch closed) (d : Nat) (visits : List Visit) :
    (r.openLevel d visits).Due env k ch closed := by
  have htask : ∀ {i : Nat} {x : Nat × Visit × Role}, r.tasks[i]? = some x →
      (r.openLevel d visits).tasks[i]? = some x := fun hi => getElem?_append_of_some hi _
  have hdepth : ∀ {j d' : Nat}, r.depths[j]? = some d' → (r.openLevel d visits).depths[j]? = some d' := by
    intro j d' hj
    rw [depths_openLevel]
    exact getElem?_append_of_some hj _
  cases h with
  | awaited task => exact .awaited (htask task)
  | owed shut task name above depth opens tally =>
    exact .owed shut (htask task) name (hdepth above) (hdepth depth) opens tally
  | told shut told => exact .told shut told
  | dropped shut dropped => exact .dropped shut dropped

/-- As long as a level is open a task waits for it, whatever is in its chapter. -/
theorem Due.of_open (h : r.Due env k ch closed) (hopen : closed = false) {ch' : Chapter} {closed' : Bool} :
    r.Due env k ch' closed' := by
  cases h with
  | awaited task => exact .awaited task
  | owed shut | told shut | dropped shut => cases hopen.symm.trans shut

theorem Due.shut (h : r.Due env k ch closed) : r.Due env k ch true := by
  cases h with
  | awaited task => exact .awaited task
  | owed _ task name above depth opens tally => exact .owed rfl task name above depth opens tally
  | told _ told => exact .told rfl told
  | dropped _ dropped => exact .dropped rfl dropped

namespace Kept

/-- The calls of a chapter have been made and accepted. -/
theorem mem_calls (h : r.Kept env accepted chs) (hch : chs[k]? = some ch) {c : PathCall} (hc : c ∈ ch.calls) :
    c ∈ r.calls ∧ accepted c = true := by
  have hmem : c ∈ chs.flatMap (·.calls) ++ r.pending accepted :=
    List.mem_append_left _ (List.mem_flatMap.mpr ⟨ch, List.mem_of_getElem? hch, hc⟩)
  exact List.mem_filter.mp (h.calls.mem_iff.mpr hmem)

theorem proper (h : r.Kept env accepted chs) (hch : chs[k]? = some ch) : ∀ t ∈ ch.tallies, t.Proper := by
  intro t ht
  obtain ⟨c, hc, rfl⟩ := List.mem_map.mp ht
  exact (h.entered k ch hch c hc).counts.1

/-- A task goes on; what it waits to have answered stays the same. -/
theorem put (h : r.Kept env accepted chs) (hi : r.tasks[i]? = some (k, v, old))
    (hseat : Seated env r.depths (chs.map (·.parent)) k w role)
    (hsame : r.outstanding accepted (k, w, role) = r.outstanding accepted (k, v, old))
    (hdue : ∀ (j : Nat) ch l, 0 < j → chs[j]? = some ch → r.tiers[j]? = some l → r.Due env j ch l.stage.isClosed →
      (r.put i w role).Due env j ch l.stage.isClosed) : (r.put i w role).Kept env accepted chs := by
  refine ⟨h.length, ?_, ?_, h.topmost, h.below, h.sums, h.closed, h.entered, ?_⟩
  · exact h.calls.trans ((pending_put_of_eq hi hsame).symm.append_left _)
  · intro j l u role' hj
    rcases put_cases hi hj with ⟨_, hj⟩ | ⟨rfl, heq⟩
    · exact h.tasks j l u role' hj
    · cases heq
      exact hseat
  · exact fun j ch l hj hch hl => hdue j ch l hj hch hl (h.due j ch l hj hch hl)

/-- A task on which no chapter relies goes on, and nothing is accepted. -/
theorem turn (h : r.Kept env accepted chs) (hi : r.tasks[i]? = some (k, v, old))
    (hseat : Seated env r.depths (chs.map (·.parent)) k w role)
    (hnone : r.outstanding accepted (k, v, old) = []) (hnone' : r.outstanding accepted (k, w, role) = [])
    (hfree : ∀ j, ¬ old.Bears j) : (r.put i w role).Kept env accepted chs :=
  h.put hi hseat (hnone'.trans hnone.symm) fun j _ _ _ _ _ hdue => hdue.put hi (hfree j) w role

/-- The level below a task has closed. -/
theorem resume (h : r.Kept env accepted chs) (hi : r.tasks[i]? = some (k, v, .awaits j f)) {l : Tier}
    (hl : r.tiers[j]? = some l) {total : Tally} (hclosed : l.stage = .closed (.ok total)) :
    (r.put i v (settle v.verdict v.outer f total).role).Kept env accepted chs := by
  have hseat := h.tasks i k v _ hi
  obtain ⟨hopens, hparent, d, habove, hdepth⟩ := hseat.fits
  rw [List.getElem?_map] at hparent
  obtain ⟨ch, hch, hname⟩ := Option.map_eq_some_iff.mp hparent
  have htotal : total = Tally.sum ch.tallies :=
    (h.closed l (List.mem_of_getElem? hl) total hclosed).trans (h.sums j ch l hch hl)
  have hover : l.stage.isClosed = true := by rw [hclosed]; rfl
  have hproper := h.proper hch
  have hcases := @settle_takesIn v.verdict v.outer f total hseat.outer hopens ch.tallies htotal
  have hfits : (settle v.verdict v.outer f total).role.Fits r.depths (chs.map (·.parent)) k v.name := by
    cases houtcome : settle v.verdict v.outer f total with
    | «over» share => trivial
    | counted g u => exact counts_settle (htotal ▸ Tally.proper_sum hproper) houtcome
  have hnone : r.outstanding accepted (k, v, (settle v.verdict v.outer f total).role) = [] := by
    cases settle v.verdict v.outer f total <;> rfl
  refine h.put hi (hseat.turn hfits) hnone ?_
  intro m ch' l' _ hch' hl' hdue
  by_cases hmj : m = j
  · subst hmj
    obtain rfl := Option.some.inj (hch.symm.trans hch')
    obtain rfl := Option.some.inj (hl.symm.trans hl')
    rcases hcases with ⟨g, u, houtcome, hg, htakes⟩ | ⟨⟨share, houtcome⟩, hverdict, hitems⟩
    · rw [houtcome]
      exact .owed hover (getElem?_put hi v _) hname.symm habove hdepth hg htakes
    · refine .dropped hover ⟨?_, ?_⟩
      · rw [hname, ← hseat.verdict]
        exact hverdict
      · intro c hc
        rcases (h.entered m ch hch c hc).counts.2 with hkind | hcounted
        · exact hkind
        · have hle := Tally.items_le_sum hproper (List.mem_map_of_mem hc)
          rw [← htotal] at hle
          omega
  · exact hdue.put hi (fun heq => hmj heq.symm) v _

theorem tell (h : r.Kept env accepted chs) (hi : r.tasks[i]? = some (k, v, .owes f t)) :
    ((r.tell (r.call k v f t)).put i v (.told f t)).Kept env accepted chs := by
  have hseat := h.tasks i k v _ hi
  have hi' : (r.tell (r.call k v f t)).tasks[i]? = some (k, v, .owes f t) := hi
  refine ⟨h.length, ?_, ?_, h.topmost, h.below, h.sums, h.closed, h.entered, ?_⟩
  · have hbefore := h.calls.trans ((pending_perm hi accepted).append_left _)
    have hafter := pending_put hi' accepted v (.told f t)
    change ([r.call k v f t] ++ r.calls).filter accepted |>.Perm _
    rw [List.filter_append]
    refine ((hbefore.append_left _).trans ?_).trans (hafter.symm.append_left _)
    exact List.perm_append_comm_assoc ..
  · intro j l u role' hj
    rcases put_cases hi' hj with ⟨_, hj⟩ | ⟨rfl, heq⟩
    · exact h.tasks j l u role' hj
    · cases heq
      exact hseat.turn hseat.fits
  · intro j ch l hj hch hl
    cases h.due j ch l hj hch hl with
    | awaited task => exact .awaited (getElem?_put_of_ne hi' task nofun v _)
    | @owed m l' d u g s shut task name above depth opens tally =>
      by_cases hmi : m = i
      · -- the task itself has owed the call about the parent of this chapter
        subst hmi
        cases hi.symm.trans task
        refine .told shut ⟨[], _, r.calls, rfl, fun c hc => (h.mem_calls hch hc).1, name, ?_, opens, tally⟩
        intro c hc
        have hlevel := (h.entered j ch hch c hc).level
        rw [depth] at hlevel
        unfold call
        rw [above]
        exact (Option.some.inj hlevel).symm
      · have htask : ((r.tell (r.call k v f t)).put i v (.told f t)).tasks[m]? = some (l', u, .owes g s) := by
          rw [getElem?_put_ne hmi]
          exact task
        exact .owed shut htask name above depth opens tally
    | told shut told => exact .told shut (told.cons _)
    | dropped shut dropped => exact .dropped shut dropped

/-- The call that a task has waited to have answered is entered into the chapter. -/
theorem calls_accept (h : r.Kept env accepted chs) (hi : r.tasks[i]? = some (k, v, .told f t))
    (haccepted : accepted (r.call k v f t) = true) (hch : chs[k]? = some ch) :
    (r.calls.filter accepted).Perm ((chs.modify k (.add (r.call k v f t))).flatMap (·.calls) ++
      ((r.addTotal k t).put i v .finished).pending accepted) := by
  have hchs := (perm_modify hch (.add (r.call k v f t))).flatMap_right (·.calls)
  have hold := (perm_eraseIdx hch).flatMap_right (·.calls)
  have hbefore := h.calls.trans (hold.append (pending_perm hi accepted))
  have hi' : (r.addTotal k t).tasks[i]? = some (k, v, .told f t) := hi
  have hpending := pending_put hi' accepted v .finished
  rw [outstanding_congr (r.depths_addTotal k t)] at hpending
  have hown : r.outstanding accepted (k, v, .told f t) = [r.call k v f t] := by
    unfold outstanding
    exact List.filter_cons_of_pos haccepted
  refine hbefore.trans (((hchs.append hpending).trans ?_).symm)
  rw [hown]
  simp only [List.flatMap_cons, Chapter.add]
  exact List.perm_middle.symm

theorem accept (h : r.Kept env accepted chs) (hi : r.tasks[i]? = some (k, v, .told f t))
    (haccepted : accepted (r.call k v f t) = true) {l : Tier} (hl : r.tiers[k]? = some l)
    (hopen : l.stage.isClosed = false) :
    ((r.addTotal k t).put i v .finished).Kept env accepted (chs.modify k (.add (r.call k v f t))) := by
  have hseat := h.tasks i k v _ hi
  have hi' : (r.addTotal k t).tasks[i]? = some (k, v, .told f t) := hi
  have hparents : (chs.modify k (.add (r.call k v f t))).map (·.parent) = chs.map (·.parent) :=
    map_modify_of_eq (f := .add (r.call k v f t)) (g := Chapter.parent) (fun _ => rfl) chs k
  obtain ⟨ch, hch⟩ : ∃ ch, chs[k]? = some ch := by
    have hlt := (List.getElem?_eq_some_iff.mp hl).1
    exact ⟨_, List.getElem?_eq_getElem (h.length ▸ hlt)⟩
  have hdepths : ((r.addTotal k t).put i v .finished).depths = r.depths := by simp
  refine ⟨?_, ?_, ?_, ?_, ?_, ?_, ?_, ?_, ?_⟩
  · change (chs.modify k _).length = (r.tiers.modify k _).length
    rw [List.length_modify, List.length_modify, h.length]
  · exact h.calls_accept hi haccepted hch
  · rw [hdepths, hparents]
    intro j l' u role' hj
    rcases put_cases hi' hj with ⟨_, hj⟩ | ⟨rfl, heq⟩
    · exact h.tasks j l' u role' hj
    · cases heq
      exact hseat.turn trivial
  · rw [hdepths]
    exact h.topmost
  · rw [hdepths]
    exact h.below
  · intro j ch' l' hch' hl'
    rcases modify_cases hl' with ⟨hne, hl'⟩ | ⟨rfl, l₀, hl₀, rfl⟩
    · rcases modify_cases hch' with ⟨_, hch'⟩ | ⟨heq, _⟩
      · exact h.sums j ch' l' hch' hl'
      · exact absurd heq hne
    · rcases modify_cases hch' with ⟨hne, _⟩ | ⟨_, ch₀, hch₀, rfl⟩
      · exact absurd rfl hne
      · change l₀.total.add t = Tally.sum (t :: ch₀.tallies)
        rw [Tally.sum_cons, Tally.add_comm, h.sums j ch₀ l₀ hch₀ hl₀]
  · intro l' hl' total hclosed
    rcases mem_modify hl' with hl' | ⟨l₀, hl₀, rfl⟩
    · exact h.closed l' hl' total hclosed
    · obtain rfl := Option.some.inj (hl.symm.trans hl₀)
      rw [show l.stage = _ from hclosed] at hopen
      cases hopen
  · rw [hdepths]
    intro j ch' hch' c hc
    rcases modify_cases hch' with ⟨_, hch'⟩ | ⟨rfl, ch₀, hch₀, rfl⟩
    · exact h.entered j ch' hch' c hc
    · rcases List.mem_cons.mp hc with rfl | hc
      · have hd : r.depths[j]? = some l.depth := by
          unfold depths
          rw [List.getElem?_map, hl]
          rfl
        refine ⟨?_, hseat.fits, fun hj => hseat.held _ hj ?_⟩
        · unfold call
          rw [hd]
          rfl
        · rw [List.getElem?_map, hch₀]
          rfl
      · exact h.entered j ch₀ hch₀ c hc
  · have hput : ∀ {j : Nat} {ch' : Chapter} {closed : Bool}, r.Due env j ch' closed →
        ((r.addTotal k t).put i v .finished).Due env j ch' closed := by
      intro j ch' closed hdue
      have hdue' : (r.addTotal k t).Due env j ch' closed := hdue.congr rfl (r.depths_addTotal k t) rfl
      exact hdue'.put hi' not_false v .finished
    intro j ch' l' hj hch' hl'
    rcases modify_cases hl' with ⟨hne, hl'⟩ | ⟨rfl, l₀, hl₀, rfl⟩
    · rcases modify_cases hch' with ⟨_, hch'⟩ | ⟨heq, _⟩
      · exact hput (h.due j ch' l' hj hch' hl')
      · exact absurd heq hne
    · -- the level is open, so some task waits for it
      rcases modify_cases hch' with ⟨hne, _⟩ | ⟨_, ch₀, hch₀, rfl⟩
      · exact absurd rfl hne
      · obtain rfl := Option.some.inj (hl.symm.trans hl₀)
        exact (hput (h.due j ch₀ l hj hch₀ hl)).of_open hopen

/-- The tasks of a new level are seated there, and the others stay where they are. -/
theorem seated_descend (h : r.Kept env accepted chs) (hi : r.tasks[i]? = some (k, v, .found f)) {d : Nat}
    (hd : r.depths[k]? = some d) {visits : List Visit} (hvisits : ∀ w ∈ visits,
      w.outer = [] ∧ w.verdict = env.verdict w.name ∧ env.Holds v.name w.name)
    (hj : ((r.openLevel (d + 1) visits).put i v (.awaits r.tiers.length f)).tasks[j]? = some (l, w, role)) :
    Seated env (r.depths ++ [d + 1]) (chs.map (·.parent) ++ [v.name]) l w role := by
  have hseat := h.tasks i k v _ hi
  have hi' : (r.openLevel (d + 1) visits).tasks[i]? = some (k, v, .found f) := getElem?_append_of_some hi _
  have hlength : (chs.map (·.parent)).length = r.depths.length := by
    rw [List.length_map, length_depths, h.length]
  rcases put_cases hi' hj with ⟨_, hj⟩ | ⟨rfl, heq⟩
  · rcases getElem?_append_cases hj with hj | ⟨_, hmem⟩
    · exact (h.tasks j l w role hj).append hlength _ _
    · obtain ⟨u, hu, heq⟩ := List.mem_map.mp hmem
      cases heq
      obtain ⟨houter, hverdict, hheld⟩ := hvisits w hu
      refine ⟨by rw [List.length_append, length_depths]; exact Nat.lt_succ_self _, hverdict, ?_, ?_, trivial⟩
      · rw [houter]
        nofun
      · intro parent _ hparent
        rw [← length_depths, ← hlength, List.getElem?_concat_length] at hparent
        rw [← Option.some.inj hparent]
        exact hheld
  · cases heq
    refine (hseat.append hlength [d + 1] [v.name]).turn ⟨hseat.fits, ?_, d, getElem?_append_of_some hd _, ?_⟩
    · rw [← length_depths, ← hlength, List.getElem?_concat_length]
    · rw [← length_depths, List.getElem?_concat_length]

theorem descend (h : r.Kept env accepted chs) (hi : r.tasks[i]? = some (k, v, .found f)) {d : Nat}
    (hd : r.depths[k]? = some d) {visits : List Visit} (hvisits : ∀ w ∈ visits,
      w.outer = [] ∧ w.verdict = env.verdict w.name ∧ env.Holds v.name w.name) :
    ((r.openLevel (d + 1) visits).put i v (.awaits r.tiers.length f)).Kept env accepted
      (chs ++ [⟨v.name, []⟩]) := by
  have hi' : (r.openLevel (d + 1) visits).tasks[i]? = some (k, v, .found f) := getElem?_append_of_some hi _
  have hplaced : ∀ x ∈ r.tasks, x.1 < r.depths.length := by
    intro x hx
    obtain ⟨j, hj⟩ := List.getElem?_of_mem hx
    exact (h.tasks j x.1 x.2.1 x.2.2 hj).tier
  have hdepths : ((r.openLevel (d + 1) visits).put i v (.awaits r.tiers.length f)).depths = r.depths ++ [d + 1] :=
    r.depths_openLevel (d + 1) visits
  have hold : ∀ {j d' : Nat}, r.depths[j]? = some d' → (r.depths ++ [d + 1])[j]? = some d' :=
    fun hj => getElem?_append_of_some hj _
  refine ⟨?_, ?_, ?_, ?_, ?_, ?_, ?_, ?_, ?_⟩
  · change (chs ++ [_]).length = (r.tiers ++ [_]).length
    rw [List.length_append, List.length_append, h.length]
    rfl
  · have hpending : (((r.openLevel (d + 1) visits).put i v (.awaits r.tiers.length f)).pending accepted).Perm
        ((r.openLevel (d + 1) visits).pending accepted) := pending_put_of_eq hi' rfl
    rw [pending_openLevel hplaced] at hpending
    rw [List.flatMap_append, List.flatMap_singleton, List.append_nil]
    exact h.calls.trans (hpending.symm.append_left _)
  · rw [hdepths, List.map_append]
    exact fun j l w role hj => h.seated_descend hi hd hvisits hj
  · rw [hdepths]
    exact hold h.topmost
  · rw [hdepths]
    intro j d' hj hd'
    rcases getElem?_concat_cases hd' with hd' | ⟨_, rfl⟩
    · exact h.below j d' hj hd'
    · exact Nat.succ_pos d
  · intro j ch l hch hl
    rcases getElem?_concat_both h.length hch hl with ⟨hch, hl⟩ | ⟨_, rfl, rfl⟩
    · exact h.sums j ch l hch hl
    · rfl
  · intro l hl total hclosed
    rcases List.mem_append.mp hl with hl | hl
    · exact h.closed l hl total hclosed
    · rw [List.mem_singleton.mp hl] at hclosed
      cases hclosed
  · rw [hdepths]
    intro j ch hch c hc
    rcases getElem?_concat_cases hch with hch | ⟨_, rfl⟩
    · obtain ⟨hlevel, hcounts, hheld⟩ := h.entered j ch hch c hc
      exact ⟨hold hlevel, hcounts, hheld⟩
    · cases hc
  · intro j ch l hj hch hl
    rcases getElem?_concat_both h.length hch hl with ⟨hch, hl⟩ | ⟨rfl, -, -⟩
    · exact ((h.due j ch l hj hch hl).openLevel _ _).put hi' not_false v _
    · exact .awaited (getElem?_put hi' v _)

/-- A level whose tasks have ended closes with its total. -/
theorem close (h : r.Kept env accepted chs) (k : Nat) : (r.close k).Kept env accepted chs := by
  have hdepths := r.depths_close k
  refine ⟨?_, ?_, ?_, ?_, ?_, ?_, ?_, ?_, ?_⟩
  · change _ = (r.tiers.modify k _).length
    rw [List.length_modify, h.length]
  · unfold pending
    rw [outstanding_congr hdepths]
    exact h.calls
  · rw [hdepths]
    exact h.tasks
  · rw [hdepths]
    exact h.topmost
  · rw [hdepths]
    exact h.below
  · intro j ch l hch hl
    rcases modify_cases hl with ⟨_, hl⟩ | ⟨rfl, l₀, hl₀, rfl⟩
    · exact h.sums j ch l hch hl
    · exact h.sums j ch l₀ hch hl₀
  · intro l hl total hclosed
    rcases mem_modify hl with hl | ⟨l₀, _, rfl⟩
    · exact h.closed l hl total hclosed
    · exact (Except.ok.inj (Stage.closed.inj hclosed)).symm
  · rw [hdepths]
    exact h.entered
  · intro j ch l hj hch hl
    have hcongr : ∀ {closed : Bool}, r.Due env j ch closed → (r.close k).Due env j ch closed :=
      fun hdue => hdue.congr rfl hdepths rfl
    rcases modify_cases hl with ⟨_, hl⟩ | ⟨rfl, l₀, hl₀, rfl⟩
    · exact hcongr (h.due j ch l hj hch hl)
    · exact hcongr (h.due j ch l₀ hj hch hl₀).shut

/-- When all tasks are through, the accepted calls are those of the topmost chapter, which are about items of
the topmost level, and those of the others, which are about items below it. -/
theorem sorted (h : r.Kept env accepted chs) (hfinished : ∀ x ∈ r.tasks, x.2.2 = .finished) :
    ∃ top rest, chs = top :: rest ∧
      (r.calls.filter accepted).Perm (top.calls ++ rest.flatMap (·.calls)) ∧
      (∀ c ∈ top.calls, c.level = 0) ∧ ∀ c ∈ rest.flatMap (·.calls), 0 < c.level := by
  have hnone : r.pending accepted = [] := by
    unfold pending
    rw [List.flatMap_eq_nil_iff]
    intro x hx
    unfold outstanding
    rw [hfinished x hx]
  have hcalls := h.calls
  rw [hnone, List.append_nil] at hcalls
  obtain ⟨top, rest, rfl⟩ : ∃ top rest, chs = top :: rest := by
    refine List.exists_cons_of_length_pos ?_
    rw [h.length, ← length_depths]
    exact (List.getElem?_eq_some_iff.mp h.topmost).1
  refine ⟨top, rest, rfl, hcalls, ?_, ?_⟩
  · intro c hc
    exact (Option.some.inj (h.topmost.symm.trans (h.entered 0 top rfl c hc).level)).symm
  · intro c hc
    obtain ⟨ch, hch, hc⟩ := List.mem_flatMap.mp hc
    obtain ⟨k, hk⟩ := List.getElem?_of_mem hch
    exact h.below (k + 1) c.level k.succ_pos (h.entered (k + 1) ch hk c hc).level

/-- When all tasks are through, the accepted calls below the topmost level make up chapters, of which each
has been handed on to a call about its parent, or dropped. -/
theorem through (h : r.Kept env accepted chs) (hfinished : ∀ x ∈ r.tasks, x.2.2 = .finished) :
    ((r.calls.filter accepted).filter (0 < ·.level)).Perm (chs.tail.flatMap (·.calls)) ∧
      ∀ ch ∈ chs.tail, (∀ c ∈ ch.calls, env.Holds ch.parent c.path ∧ Counts c.info c.tally) ∧
        (ch.Told r.calls ∨ ch.Dropped env) := by
  obtain ⟨top, rest, rfl, hcalls, htopmost, hbelow⟩ := h.sorted hfinished
  have hplace : ∀ ch ∈ rest, ∃ k, (top :: rest)[k + 1]? = some ch := fun ch hch => List.getElem?_of_mem hch
  refine ⟨?_, ?_⟩
  · have hperm := hcalls.filter (0 < ·.level)
    rw [List.filter_append] at hperm
    have htop : top.calls.filter (0 < ·.level) = [] := by
      rw [List.filter_eq_nil_iff]
      intro c hc hlevel
      exact Nat.ne_of_gt (of_decide_eq_true hlevel) (htopmost c hc)
    have hrest : (rest.flatMap (·.calls)).filter (0 < ·.level) = rest.flatMap (·.calls) := by
      rw [List.filter_eq_self]
      exact fun c hc => decide_eq_true (hbelow c hc)
    rwa [htop, hrest, List.nil_append] at hperm
  · intro ch hch
    obtain ⟨k, hk⟩ := hplace ch hch
    have hl : k + 1 < r.tiers.length := h.length ▸ (List.getElem?_eq_some_iff.mp hk).1
    refine ⟨fun c hc => ?_, ?_⟩
    · have hentered := h.entered (k + 1) ch hk c hc
      exact ⟨hentered.held k.succ_pos, hentered.counts⟩
    · cases h.due (k + 1) ch _ k.succ_pos hk (List.getElem?_eq_getElem hl) with
      | awaited task => cases hfinished _ (List.mem_of_getElem? task)
      | owed _ task => cases hfinished _ (List.mem_of_getElem? task)
      | told _ told => exact .inl told
      | dropped _ dropped => exact .inr dropped

end Kept

theorem kept_start (accepted : PathCall → Bool) {visits : List Visit}
    (hvisits : ∀ w ∈ visits, w.outer = [] ∧ w.verdict = env.verdict w.name) :
    ((Register.mk [] [] []).openLevel 0 visits).Kept env accepted [⟨[], []⟩] := by
  have hdepth : ∀ {k d : Nat}, [0][k]? = some d → k = 0 := by
    intro k d hk
    have := (List.getElem?_eq_some_iff.mp hk).1
    simpa using this
  refine ⟨rfl, ?_, ?_, rfl, ?_, ?_, ?_, ?_, ?_⟩
  · rw [pending_openLevel (fun x hx => by cases hx)]
    exact .refl _
  · intro i k v role hi
    obtain ⟨w, hw, heq⟩ := List.mem_map.mp (List.mem_of_getElem? hi)
    cases heq
    obtain ⟨houter, hverdict⟩ := hvisits v hw
    exact ⟨Nat.zero_lt_one, hverdict, by rw [houter]; nofun, fun _ hk => absurd hk (Nat.lt_irrefl 0), trivial⟩
  · intro k d hk hd
    exact absurd (hdepth hd) (Nat.ne_of_gt hk)
  · intro k ch l hch hl
    rw [List.mem_singleton.mp (List.mem_of_getElem? hch), List.mem_singleton.mp (List.mem_of_getElem? hl)]
    rfl
  · intro l hl total hclosed
    rw [List.mem_singleton.mp hl] at hclosed
    cases hclosed
  · intro k ch hch c hc
    rw [List.mem_singleton.mp (List.mem_of_getElem? hch)] at hc
    cases hc
  · intro k ch l hk hch
    have hlt := (List.getElem?_eq_some_iff.mp hch).1
    rw [List.length_singleton] at hlt
    omega

end Register

end TreeCensus.Walk
