import TreeCensus.Proofs.Walk.Branches
import TreeCensus.Proofs.Walk.Register

/-!
# How branches grow

In a walk that follows no links each task that has settled what it found holds a branch, and each level holds
those of its tasks that have added their tallies to its total. A task that has waited for a level puts the
branches of the level inside its own one. So the total of a level is what its branches come to, and a branch
that has grown stays a part of whatever it is put into. Each object that was found is in one branch, or in the
hands of the task that found it.
-/

namespace TreeCensus.Walk

set_option autoImplicit false

variable {σ : Type}

/-- Without links a walk goes on from directories only. -/
theorem Environment.Leads.kind_eq {env : Environment σ} {a b : Spot} {i : FileInfo} (h : env.Leads a i b)
    (hwalks : env.options.walkLinks = false) : i.kind = .directory := by
  cases h with
  | inside kind => exact kind
  | behind _ walks => cases hwalks.symm.trans walks

namespace Branch

/-- Where the item is, and the path under which it is reported: they are one if no links are followed. -/
def spot (b : Branch) : Spot := ⟨b.place, b.place⟩

/-- An item counts if the filter includes it or something inside it counts. What is inside it are entries of the
directory. -/
structure Counts (env : Environment σ) (b : Branch) : Prop where
  rule : env.verdict b.place = .included ∨ 1 ≤ (Tally.sum (b.inside.map tally)).items
  leads : ∀ d ∈ b.inside, env.Leads b.spot b.info d.spot

/-- An item that was found and is in no total: the filter does not include it, or it is of a special kind and in a
directory that the filter does not include. -/
structure Lost (env : Environment σ) (b : Branch) : Prop where
  bare : b.inside = []
  excused : b.info.kind ≠ .file ∧ env.verdict b.place ≠ .included ∨ b.info.kind = .other ∧
    ∃ p i, env.files.info p = .ok i ∧ env.Leads ⟨p, p⟩ i b.spot ∧ env.verdict p ≠ .included

variable {env : Environment σ} {b : Branch} {bs : List Branch}

theorem Counts.plain (h : b.Counts env) (hwalks : env.options.walkLinks = false) : b.Plain := by
  intro hkind
  apply List.eq_nil_iff_forall_not_mem.mpr
  intro d hd
  exact hkind ((h.leads d hd).kind_eq hwalks)

/-- A directory that counts is in a total. -/
theorem Lost.not_directory (h : b.Lost env) (hcounts : b.Counts env) : b.info.kind ≠ .directory := by
  intro hkind
  obtain ⟨-, hverdict⟩ | ⟨hother, -⟩ := h.excused
  · rcases hcounts.rule with hincluded | hitems
    · exact hverdict hincluded
    · rw [h.bare] at hitems
      exact absurd hitems (by decide)
  · cases hkind.symm.trans hother

/-- What an item comes to before it counts itself. -/
theorem proper_own (info : FileInfo) (h : ∀ b ∈ bs, b.tally.Proper) :
    (if info.kind = .directory then Tally.sum (bs.map tally) else info.tally).Proper := by
  split
  · exact Tally.proper_sum (List.forall_mem_map.mpr h)
  · exact info.proper_tally

theorem proper (b : Branch) : b.tally.Proper := by
  induction b with
  | node place info inside ih =>
    rw [tally]
    exact (proper_own info ih).count info.kind

/-- Where nothing has a counter, all items are of a special kind. -/
theorem kind_eq_of_items (hb : b ∈ bs) (hitems : ¬ 1 ≤ (Tally.sum (bs.map tally)).items) : b.info.kind = .other := by
  by_contra hne
  have hle : b.tally.items ≤ (Tally.sum (bs.map tally)).items :=
    Tally.items_le_sum (List.forall_mem_map.mpr fun d _ => d.proper) (List.mem_map_of_mem hb)
  have hown : 1 ≤ b.tally.items := by
    rw [tally_eq]
    exact (proper_own b.info fun d _ => d.proper).count_items hne
  omega

end Branch

/-- The branches there are, each with the task or the level that holds it. -/
abbrev Garden := List (Owner × Branch)

namespace Garden

variable (g : Garden) {o o' : Owner} {b : Branch}

def held (o : Owner) : List Branch := g.filterMap fun e => if e.1 = o then some e.2 else none

/-- What is left when an owner gives its branches away. -/
def without (o : Owner) : Garden := g.filter fun e => e.1 ≠ o

def nodes : List Branch := g.flatMap fun e => e.2.nodes

theorem mem_held : b ∈ g.held o ↔ (o, b) ∈ g := by
  unfold held
  rw [List.mem_filterMap]
  constructor
  · rintro ⟨⟨p, d⟩, he, h⟩
    rw [Option.ite_none_right_eq_some] at h
    obtain ⟨rfl, hd⟩ := h
    exact Option.some.inj hd ▸ he
  · exact fun he => ⟨_, he, if_pos rfl⟩

theorem held_cons (o : Owner) (b : Branch) (o' : Owner) :
    held ((o, b) :: g) o' = if o = o' then b :: g.held o' else g.held o' := by
  unfold held
  rw [List.filterMap_cons]
  split <;> split <;> simp_all

theorem without_cons (e : Owner × Branch) (o : Owner) :
    without (e :: g) o = if e.1 = o then g.without o else e :: g.without o := by
  unfold without
  by_cases he : e.1 = o <;> simp [he]

theorem held_without (o o' : Owner) : (g.without o).held o' = if o = o' then [] else g.held o' := by
  induction g with
  | nil => split <;> rfl
  | cons e g ih =>
    obtain ⟨p, b⟩ := e
    rw [without_cons, held_cons]
    split
    · next hp =>
      obtain rfl : p = o := hp
      rw [ih]
      split <;> rfl
    · next hp =>
      rw [held_cons, ih]
      by_cases hp' : p = o'
      · rw [if_pos hp', if_pos hp', if_neg fun heq => hp (hp'.trans heq.symm),
          if_neg fun heq => hp (hp'.trans heq.symm)]
      · rw [if_neg hp', if_neg hp']

theorem nodes_cons (o : Owner) (b : Branch) : nodes ((o, b) :: g) = b.nodes ++ g.nodes := rfl

/-- The branches of one owner are what is missing if the owner gives them away. -/
theorem nodes_perm (o : Owner) : g.nodes.Perm ((g.held o).flatMap Branch.nodes ++ (g.without o).nodes) := by
  induction g with
  | nil => exact .refl _
  | cons e g ih =>
    obtain ⟨p, b⟩ := e
    rw [nodes_cons, held_cons, without_cons]
    split
    · next hp =>
      obtain rfl : p = o := hp
      rw [List.flatMap_cons, List.append_assoc]
      exact ih.append_left b.nodes
    · next hp =>
      rw [nodes_cons]
      exact (ih.append_left b.nodes).trans (List.perm_append_comm_assoc _ _ _)

/-- A task gives its branch to a level. -/
def handOver (i k : Nat) (b : Branch) : Garden := (.level k, b) :: g.without (.task i)

variable {i k : Nat}

theorem held_handOver_task (b : Branch) (j : Nat) :
    (g.handOver i k b).held (.task j) = if i = j then [] else g.held (.task j) := by
  simp only [handOver, held_cons, held_without, Owner.task.injEq, reduceCtorEq, if_false]

theorem held_handOver_level (b : Branch) (j : Nat) :
    (g.handOver i k b).held (.level j) = if k = j then b :: g.held (.level j) else g.held (.level j) := by
  simp only [handOver, held_cons, held_without, Owner.level.injEq, reduceCtorEq, if_false]

/-- A level has what it had, or was given the branch. -/
theorem held_handOver_cases {d : Branch} {j : Nat} (hd : d ∈ (g.handOver i k b).held (.level j)) :
    d ∈ g.held (.level j) ∨ j = k ∧ d = b := by
  rw [held_handOver_level] at hd
  split at hd
  · next hj => exact (List.mem_cons.mp hd).symm.imp_right fun hd => ⟨hj.symm, hd⟩
  · exact .inl hd

theorem nodes_handOver (hheld : g.held (.task i) = [b]) : (g.handOver i k b).nodes.Perm g.nodes := by
  have hnodes := g.nodes_perm (.task i)
  rw [hheld, List.flatMap_cons, List.flatMap_nil, List.append_nil] at hnodes
  exact hnodes.symm

end Garden

/-- The identity of the object that a task has in its hands. -/
def Stance.hand (v : Visit) (stance : Stance) : Option Text := stance.find?.map fun i => i.identity v.place

namespace Sketch

/-- The objects that the tasks have in their hands. -/
def hands (w : Sketch) : List Text := w.tasks.filterMap fun t => t.2.2.hand t.2.1

/-- An item that is there and of which there is this branch may be one of the level. -/
structure Belongs (env : Environment σ) (paths : List Path) (w : Sketch) (k : Nat) (a : Spot) : Prop where
  top : k = 0 → ∃ p ∈ paths, a = env.spot p
  inside : ∀ i v f, w.Works i v (.awaits k f) → env.Leads v.spot f a

end Sketch

/-- What the branches of a task are, depending on what it is up to. -/
def Stance.Bears (env : Environment σ) (bs : List Branch) (v : Visit) : Stance → Prop
  | .ahead => bs = []
  | .found f => bs = [] ∧ env.files.info v.place = .ok f
  | .awaits _ f => bs = [] ∧ env.files.info v.place = .ok f ∧ f.kind = .directory
  | .made t => ∃ b, bs = [b] ∧ b.place = v.place ∧ b.tally = t ∧ ∀ d ∈ b.nodes, d.Counts env
  | .finished => ∀ b ∈ bs, b.Lost env

/-- The branches make up what the tasks and the levels have. -/
structure Sketch.Grown (env : Environment σ) (paths : List Path) (g : Garden) (w : Sketch) : Prop where
  straight : ∀ t ∈ w.tasks, t.2.1.outer = [] ∧ t.2.1.name = t.2.1.place
  seated : ∀ t ∈ w.tasks, t.2.2 ≠ .finished → w.Belongs env paths t.1 t.2.1.spot
  met : (g.nodes.map Branch.id ++ w.hands).Perm w.visited
  genuine : ∀ b ∈ g.nodes, env.files.info b.place = .ok b.info
  owners : ∀ e ∈ g, e.1.Within w.tasks.length w.levels.length
  tasks : ∀ i v stance, w.Works i v stance → stance.Bears env (g.held (.task i)) v
  totals : ∀ k, w.Live k → ∀ l, w.levels[k]? = some l → l.1 = Tally.sum ((g.held (.level k)).map Branch.tally)
  counts : ∀ k, ∀ b ∈ g.held (.level k), ∀ d ∈ b.nodes, d.Counts env
  belongs : ∀ k, ∀ b ∈ g.held (.level k), w.Belongs env paths k b.spot
  lost : ∀ k, ¬ w.Live k → ∀ b ∈ g.held (.level k), b.Lost env

section Growth

variable {env : Environment σ} {paths : List Path} {g g' : Garden} {w w' : Sketch} {i k : Nat} {v : Visit}
  {stance stance' : Stance} {f : FileInfo} {t : Tally} {b : Branch}

namespace Sketch

/-- What is in the hands of all but one. -/
theorem exists_hands (hi : w.tasks[i]? = some (k, v, stance)) : ∃ rest : List Text,
    w.hands.Perm ((stance.hand v).toList ++ rest) ∧
      ∀ stance', (w.set i stance').hands.Perm ((stance'.hand v).toList ++ rest) := by
  have hcons : ∀ (t : Nat × Visit × Stance) ts,
      (t :: ts).filterMap (fun t => t.2.2.hand t.2.1) =
        (t.2.2.hand t.2.1).toList ++ ts.filterMap fun t => t.2.2.hand t.2.1 := by
    intro t ts
    rw [List.filterMap_cons]
    split <;> simp_all
  refine ⟨(w.tasks.eraseIdx i).filterMap fun t => t.2.2.hand t.2.1, ?_, fun stance' => ?_⟩
  · exact ((perm_eraseIdx hi).filterMap _).trans (.of_eq (hcons _ _))
  · exact ((perm_modify hi _).filterMap _).trans (.of_eq (hcons _ _))

/-- What holds of the visits of all tasks holds when one of them goes on. -/
theorem forall_set {P : Visit → Prop} (h : ∀ t ∈ w.tasks, P t.2.1) (i : Nat) (stance' : Stance) :
    ∀ t ∈ (w.set i stance').tasks, P t.2.1 := by
  intro t ht
  rcases mem_modify ht with ht | ⟨u, hu, rfl⟩
  · exact h t ht
  · exact h u (List.mem_of_getElem? hu)

/-- The same for the tasks that are not finished. -/
theorem forall_going_set {P : Nat → Visit → Prop} (h : ∀ t ∈ w.tasks, t.2.2 ≠ .finished → P t.1 t.2.1)
    (hi : w.tasks[i]? = some (k, v, stance)) (hrunning : stance ≠ .finished) (stance' : Stance) :
    ∀ t ∈ (w.set i stance').tasks, t.2.2 ≠ .finished → P t.1 t.2.1 := by
  intro t ht hgoing
  obtain ⟨j, hj⟩ := List.getElem?_of_mem ht
  rcases modify_cases hj with ⟨_, hj⟩ | ⟨_, u, hu, rfl⟩
  · exact h t (List.mem_of_getElem? hj) hgoing
  · obtain rfl := Option.some.inj (hi.symm.trans hu)
    have hv := h _ (List.mem_of_getElem? hi) hrunning
    exact hv

theorem hands_openLevel (w : Sketch) (visits : List Visit) : (w.openLevel visits).hands = w.hands := by
  unfold hands openLevel
  dsimp only
  rw [List.filterMap_append, List.filterMap_map]
  exact List.append_right_eq_self.mpr (List.filterMap_eq_nil_iff.mpr fun _ _ => rfl)

theorem Belongs.mono {a : Spot} (h : w.Belongs env paths k a)
    (hawaits : ∀ i v f, w'.Works i v (.awaits k f) → w.Works i v (.awaits k f)) : w'.Belongs env paths k a :=
  ⟨h.top, fun i v f hi => h.inside i v f (hawaits i v f hi)⟩

/-- When a task has opened a level and waits for it, all others wait for what they have waited for. -/
theorem awaits_of_descend {visits : List Visit} (hi : w.Works i v (.found f)) {j m : Nat} {u : Visit} {e : FileInfo}
    (hj : ((w.openLevel visits).set i (.awaits w.levels.length f)).Works j u (.awaits m e)) :
    w.Works j u (.awaits m e) ∨ u = v ∧ e = f ∧ m = w.levels.length := by
  rcases hj.of_set with ⟨_, hj⟩ | ⟨rfl, heq, _, hu⟩
  · rcases hj.of_openLevel with hj | ⟨_, _, heq⟩
    · exact .inl hj
    · cases heq
  · obtain ⟨rfl, rfl⟩ := Stance.awaits.inj heq
    exact .inr ⟨((hi.openLevel visits).unique hu).1, rfl, rfl⟩

/-- What is in a directory belongs to the level that was opened for it. -/
theorem belongs_descend (htiered : w.Tiered) (hi : w.Works i v (.found f)) (hkind : f.kind = .directory)
    {names : List Text} (hentries : env.files.entries v.place = .ok names) (hlevels : 0 < w.levels.length)
    {u : Visit} (hu : u ∈ State.visits env (names.map (Path.under v.name))) (visits : List Visit) :
    ((w.openLevel visits).set i (.awaits w.levels.length f)).Belongs env paths w.levels.length u.spot := by
  refine ⟨fun hzero => by omega, fun j u' e hj => ?_⟩
  rcases awaits_of_descend hi hj with hj | ⟨rfl, rfl, -⟩
  · exact absurd (htiered.below _ _ _ _ hj).2 (Nat.lt_irrefl _)
  · obtain ⟨p, hp, hspot, -⟩ := Environment.visit_spot hu
    obtain ⟨name, hname, rfl⟩ := List.mem_map.mp hp
    rw [hspot]
    exact .inside hkind hentries hname

end Sketch

theorem Owner.Within.mono {o : Owner} {tasks tasks' levels levels' : Nat} (h : o.Within tasks levels)
    (htasks : tasks ≤ tasks') (hlevels : levels ≤ levels') : o.Within tasks' levels' := by
  cases o with
  | task i => exact Nat.lt_of_lt_of_le h htasks
  | level k => exact Nat.lt_of_lt_of_le h hlevels

namespace Sketch.Grown

theorem held_eq_nil (h : w.Grown env paths g) {o : Owner} (ho : ¬ o.Within w.tasks.length w.levels.length) :
    g.held o = [] :=
  List.eq_nil_iff_forall_not_mem.mpr fun _ hb => ho (h.owners _ (g.mem_held.mp hb))

/-- A task goes on with what it has in its hands and with its branches, and may take over those of the level for
which it has waited. -/
theorem set (h : w.Grown env paths g) (htiered : w.Tiered) (hi : w.tasks[i]? = some (k, v, stance))
    (hrunning : stance ≠ .finished) (stance' : Stance) (hstance : ∀ j f, stance' ≠ .awaits j f) {visited : List Text}
    (hmet : (g'.nodes.map Branch.id ++ (w.set i stance').hands).Perm visited)
    (hgenuine : ∀ b ∈ g'.nodes, env.files.info b.place = .ok b.info)
    (howners : ∀ e ∈ g', e.1 = .task i ∨ e ∈ g)
    (hothers : ∀ o, o ≠ .task i → (∀ j f, stance = .awaits j f → o ≠ .level j) → g'.held o = g.held o)
    (hlost : ∀ j f, stance = .awaits j f → ∀ b ∈ g'.held (.level j), b.Lost env)
    (hbears : stance'.Bears env (g'.held (.task i)) v) :
    Sketch.Grown env paths g' { w.set i stance' with visited := visited } := by
  have hworks : w.Works i v stance := ⟨k, hi⟩
  have hfewer : ∀ k, ∀ b ∈ g'.held (.level k), b ∈ g.held (.level k) := by
    intro k b hb
    rw [Garden.mem_held] at hb ⊢
    exact (howners _ hb).resolve_left nofun
  have hlive : ∀ {k}, (w.set i stance').Live k → w.Live k ∧ g'.held (.level k) = g.held (.level k) := by
    intro k hk
    obtain ⟨hk, hne⟩ := htiered.live_of_set hworks hstance hk
    refine ⟨hk, hothers _ nofun ?_⟩
    rintro j f rfl heq
    obtain rfl := Owner.level.inj heq
    exact hne f rfl
  have hbelongs : ∀ {k a}, w.Belongs env paths k a →
      Belongs env paths { w.set i stance' with visited := visited } k a :=
    fun ha => ha.mono fun _ _ _ hj => awaits_of_set (w := w) hstance hj
  refine ⟨forall_set (P := fun v => v.outer = [] ∧ v.name = v.place) h.straight i stance', ?_, hmet, hgenuine, ?_, ?_, ?_, ?_, ?_, ?_⟩
  · exact forall_going_set (P := fun k v => Belongs env paths _ k v.spot)
      (fun t ht hgoing => hbelongs (h.seated t ht hgoing)) hi hrunning stance'
  · intro e he
    rw [length_tasks_set]
    rcases howners e he with heq | he
    · rw [heq]
      exact (List.getElem?_eq_some_iff.mp hi).1
    · exact h.owners e he
  · intro j u stance₁ hj
    rcases Works.of_set hj with ⟨hne, hj⟩ | ⟨rfl, rfl, _, hu⟩
    · rw [hothers _ (by simpa using hne) fun _ _ _ => by simp]
      exact h.tasks j u stance₁ hj
    · obtain ⟨rfl, -⟩ := hworks.unique hu
      exact hbears
  · intro k hk l hl
    obtain ⟨hk, hheld⟩ := hlive hk
    rw [hheld]
    exact h.totals k hk l hl
  · exact fun k b hb => h.counts k b (hfewer k b hb)
  · exact fun k b hb => hbelongs (h.belongs k b (hfewer k b hb))
  · intro k hk b hb
    by_cases hwaited : ∃ f, stance = .awaits k f
    · obtain ⟨f, hf⟩ := hwaited
      exact hlost k f hf b hb
    · refine h.lost k ?_ b (hfewer k b hb)
      rintro (hzero | ⟨j, u, f, hj⟩)
      · exact hk (.inl hzero)
      · refine hk (.inr ⟨j, u, f, hj.set_ne ?_ _⟩)
        rintro rfl
        exact hwaited ⟨f, (hworks.unique hj).2.symm⟩

/-- A task makes a branch of what it has in its hands. -/
theorem plant (h : w.Grown env paths g) (htiered : w.Tiered) (hi : w.tasks[i]? = some (k, v, stance))
    (hfind : stance.find? = some f) (hinfo : env.files.info v.place = .ok f) {o : Outcome} {inside : List Branch}
    (hnodes : g'.nodes.Perm (.node v.place f inside :: g.nodes))
    (howners : ∀ e ∈ g', e.1 = .task i ∨ e ∈ g)
    (hothers : ∀ p, p ≠ .task i → (∀ j f, stance = .awaits j f → p ≠ .level j) → g'.held p = g.held p)
    (hlost : ∀ j f, stance = .awaits j f → ∀ b ∈ g'.held (.level j), b.Lost env)
    (hbears : o.stance.Bears env (g'.held (.task i)) v) : (w.set i o.stance).Grown env paths g' := by
  have hhand : stance.hand v = some (f.identity v.place) := by
    unfold Stance.hand
    rw [hfind]
    rfl
  have hempty : o.stance.hand v = none := by
    unfold Stance.hand
    rw [o.stance_find?]
    rfl
  obtain ⟨rest, hbefore, hafter⟩ := exists_hands hi
  refine h.set htiered hi (by rintro rfl; cases hfind) _ (fun j f => by cases o <;> nofun) ?_ ?_ howners hothers
    hlost hbears
  · have hafter := hafter o.stance
    rw [hempty] at hafter
    rw [hhand] at hbefore
    have hmet : (g.nodes.map Branch.id ++ f.identity v.place :: rest).Perm w.visited :=
      (hbefore.symm.append_left _).trans h.met
    exact ((hnodes.map Branch.id).append hafter).trans (List.perm_middle.symm.trans hmet)
  · intro b hb
    rcases List.mem_cons.mp (hnodes.mem_iff.mp hb) with rfl | hb
    · exact hinfo
    · exact h.genuine b hb

/-- The same where nothing is inside it. -/
theorem plant_bare (h : w.Grown env paths g) (htiered : w.Tiered) (hi : w.tasks[i]? = some (k, v, stance))
    (hfind : stance.find? = some f) (hinfo : env.files.info v.place = .ok f) (hnone : g.held (.task i) = [])
    {o : Outcome} (hlost : ∀ j f, stance = .awaits j f → ∀ b ∈ g.held (.level j), b.Lost env)
    (hbears : o.stance.Bears env [.node v.place f []] v) :
    (w.set i o.stance).Grown env paths ((.task i, .node v.place f []) :: g) := by
  have hothers : ∀ p, p ≠ .task i → Garden.held ((.task i, .node v.place f []) :: g) p = g.held p :=
    fun p hp => (g.held_cons _ _ _).trans (if_neg (Ne.symm hp))
  have hnodes : Garden.nodes ((.task i, .node v.place f []) :: g) = .node v.place f [] :: g.nodes := by
    rw [Garden.nodes_cons, Branch.nodes_eq]
    rfl
  refine h.plant htiered hi hfind hinfo (.of_eq hnodes) ?_ (fun p hp _ => hothers p hp) ?_ ?_
  · exact fun e he => (List.mem_cons.mp he).imp (congrArg Prod.fst) id
  · intro j g heq
    rw [hothers _ (by simp)]
    exact hlost j g heq
  · rw [Garden.held_cons, if_pos rfl, hnone]
    exact hbears

/-- A task knows what the filter says of the place that it visits, which it has come to by no link. -/
theorem knows (h : w.Grown env paths g) (hrooted : w.Rooted env) (hi : w.tasks[i]? = some (k, v, stance)) :
    v.outer = [] ∧ v.spot = ⟨v.place, v.place⟩ ∧ v.verdict = env.verdict v.place := by
  have hmem := List.mem_of_getElem? hi
  obtain ⟨houter, hname⟩ := h.straight _ hmem
  refine ⟨houter, congrArg (Spot.mk · v.place) hname, ?_⟩
  rw [hrooted.verdict _ hmem]
  exact congrArg env.verdict hname

/-- A visit that has come by no link counts the item or does not. -/
theorem stance_settle (verdict : Verdict) (f : FileInfo) (t : Tally) : (Walk.settle verdict [] f t).stance =
    if verdict = .included ∨ 1 ≤ t.items then .made (t.count f.kind) else .finished := by
  rw [settle_eq]
  split <;> rfl

/-- What a task has found leads no further. -/
theorem settle (h : w.Grown env paths g) (htiered : w.Tiered) (hrooted : w.Rooted env)
    (hi : w.tasks[i]? = some (k, v, .found f)) :
    (w.set i (Walk.settle v.verdict v.outer f f.tally).stance).Grown env paths
      ((.task i, .node v.place f []) :: g) := by
  obtain ⟨houter, -, hverdict⟩ := h.knows hrooted hi
  obtain ⟨hnone, hinfo⟩ := h.tasks i v _ ⟨k, hi⟩
  have htally : f.tally.items = 0 := by
    unfold FileInfo.tally
    split <;> rfl
  refine h.plant_bare htiered hi rfl hinfo hnone nofun ?_
  rw [houter, stance_settle]
  split
  · next hcounts =>
    have hincluded : v.verdict = .included := hcounts.resolve_right (by omega)
    refine ⟨_, rfl, rfl, ?_, ?_⟩
    · rw [Branch.tally]
      unfold FileInfo.tally
      split <;> rfl
    · rw [Branch.nodes_eq]
      intro d hd
      obtain rfl := List.mem_singleton.mp hd
      exact ⟨.inl (hverdict.symm.trans hincluded), fun _ hd => absurd hd List.not_mem_nil⟩
  · next hcounts =>
    intro b hb
    obtain rfl := List.mem_singleton.mp hb
    have hout : v.verdict ≠ .included := fun heq => hcounts (.inl heq)
    have hfile : f.kind ≠ .file := fun hkind => hout (hrooted.included _ (List.mem_of_getElem? hi) f rfl hkind)
    exact ⟨rfl, .inl ⟨hfile, fun heq => hout (hverdict.trans heq)⟩⟩

/-- The level for which a task has waited has closed with its total. -/
theorem resume (h : w.Grown env paths g) (htiered : w.Tiered) (hrooted : w.Rooted env)
    (hwalks : env.options.walkLinks = false) {j : Nat} {total : Tally}
    (hi : w.tasks[i]? = some (k, v, .awaits j f)) (hclosed : w.levels[j]? = some (total, .closed (.ok total))) :
    ∃ g', (w.set i (Walk.settle v.verdict v.outer f total).stance).Grown env paths g' ∧
      ∀ b ∈ g.nodes, b ∈ g'.nodes := by
  obtain ⟨houter, hspot, hverdict⟩ := h.knows hrooted hi
  obtain ⟨hnone, hinfo, hkind⟩ := h.tasks i v _ ⟨k, hi⟩
  have htotal : total = Tally.sum ((g.held (.level j)).map Branch.tally) :=
    h.totals j (.inr ⟨i, v, f, k, hi⟩) _ hclosed
  by_cases hcounts : v.verdict = .included ∨ 1 ≤ total.items
  · -- The branches of the level go inside that of the task.
    have hperm : (Garden.nodes ((.task i, .node v.place f (g.held (.level j))) :: g.without (.level j))).Perm
        (.node v.place f (g.held (.level j)) :: g.nodes) := by
      rw [Garden.nodes_cons, Branch.nodes_eq]
      exact (g.nodes_perm (.level j)).symm.cons _
    refine ⟨_, h.plant htiered hi rfl hinfo hperm ?_ ?_ ?_ ?_,
      fun b hb => hperm.mem_iff.mpr (List.mem_cons_of_mem _ hb)⟩
    · exact fun e he => (List.mem_cons.mp he).imp (congrArg Prod.fst) List.mem_of_mem_filter
    · intro p hp hlevel
      rw [Garden.held_cons, if_neg (Ne.symm hp), Garden.held_without, if_neg (Ne.symm (hlevel j f rfl))]
    · intro j' f' heq b hb
      obtain ⟨rfl, -⟩ := Stance.awaits.inj heq
      rw [Garden.held_cons, if_neg (by simp), Garden.held_without, if_pos rfl] at hb
      exact absurd hb List.not_mem_nil
    · rw [Garden.held_cons, if_pos rfl, Garden.held_without, if_neg (by simp), hnone, houter, stance_settle,
        if_pos hcounts]
      refine ⟨_, rfl, rfl, ?_, ?_⟩
      · rw [Branch.tally, if_pos hkind, htotal]
      · rw [Branch.nodes_eq]
        intro d hd
        rcases List.mem_cons.mp hd with rfl | hd
        · refine ⟨hcounts.imp hverdict.symm.trans (htotal ▸ ·), fun e he => ?_⟩
          have hleads := (h.belongs j e he).inside i v f ⟨k, hi⟩
          rwa [hspot] at hleads
        · obtain ⟨b, hb, hd⟩ := List.mem_flatMap.mp hd
          exact h.counts j b hb d hd
  · have hout : env.verdict v.place ≠ .included := fun heq => hcounts (.inl (hverdict.trans heq))
    refine ⟨_, h.plant_bare htiered hi rfl hinfo hnone ?_ ?_, fun b hb => List.mem_append_right _ hb⟩
    · intro j' f' heq b hb
      obtain ⟨rfl, -⟩ := Stance.awaits.inj heq
      have hother := Branch.kind_eq_of_items hb fun hitems => hcounts (.inr (htotal ▸ hitems))
      have hleads := (h.belongs j b hb).inside i v f ⟨k, hi⟩
      rw [hspot] at hleads
      exact ⟨(h.counts j b hb b b.mem_nodes_self).plain hwalks (by rw [hother]; decide),
        .inr ⟨hother, v.place, f, hinfo, hleads, hout⟩⟩
    · rw [houter, stance_settle, if_neg hcounts]
      intro b hb
      obtain rfl := List.mem_singleton.mp hb
      exact ⟨rfl, .inl ⟨by rw [show (Branch.node v.place f []).info.kind = _ from hkind]; decide, hout⟩⟩

theorem skip (h : w.Grown env paths g) (htiered : w.Tiered) (hi : w.tasks[i]? = some (k, v, .ahead)) :
    (w.set i .finished).Grown env paths g := by
  obtain ⟨rest, hbefore, hafter⟩ := exists_hands hi
  have hnone : g.held (.task i) = [] := h.tasks i v _ ⟨k, hi⟩
  refine h.set htiered hi nofun .finished nofun ?_ h.genuine (fun e he => .inr he) (fun _ _ _ => rfl) nofun ?_
  · exact (((hafter .finished).trans hbefore.symm).append_left _).trans h.met
  · rw [hnone]
    exact fun b hb => absurd hb List.not_mem_nil

theorem meet (h : w.Grown env paths g) (htiered : w.Tiered) (hi : w.tasks[i]? = some (k, v, .ahead))
    (hinfo : env.files.info v.place = .ok f) :
    ((w.meet (f.identity v.place)).set i (.found f)).Grown env paths g := by
  obtain ⟨rest, hbefore, hafter⟩ := exists_hands hi
  have hnone : g.held (.task i) = [] := h.tasks i v _ ⟨k, hi⟩
  refine h.set htiered hi nofun (.found f) nofun ?_ h.genuine (fun e he => .inr he) (fun _ _ _ => rfl) nofun
    ⟨hnone, hinfo⟩
  have hhands : (w.set i (.found f)).hands.Perm (f.identity v.place :: w.hands) :=
    (hafter (.found f)).trans (hbefore.symm.cons _)
  exact (hhands.append_left _).trans (List.perm_middle.trans (h.met.cons _))

theorem descend (h : w.Grown env paths g) (htiered : w.Tiered) (hi : w.tasks[i]? = some (k, v, .found f))
    (hkind : f.kind = .directory) {names : List Text} (hentries : env.files.entries v.place = .ok names) :
    ((w.openLevel (State.visits env (names.map (Path.under v.name)))).set i
      (.awaits w.levels.length f)).Grown env paths g := by
  obtain ⟨hnone, hinfo⟩ := h.tasks i v _ ⟨k, hi⟩
  have hworks : w.Works i v (.found f) := ⟨k, hi⟩
  have hmem := List.mem_of_getElem? hi
  have hrunning : ∀ {t}, t ∈ w.tasks → t.2.2 ≠ .finished → t.1 < w.levels.length := by
    intro t ht hgoing
    obtain ⟨sum, hsum⟩ := htiered.running t ht hgoing
    exact (List.getElem?_eq_some_iff.mp hsum).1
  have hseated : ∀ u ∈ State.visits env (names.map (Path.under v.name)), ∀ visits,
      ((w.openLevel visits).set i (.awaits w.levels.length f)).Belongs env paths w.levels.length u.spot :=
    fun u hu => belongs_descend htiered hworks hkind hentries (Nat.zero_lt_of_lt (hrunning hmem nofun)) hu
  have hstraight : ∀ u ∈ State.visits env (names.map (Path.under v.name)), u.outer = [] ∧ u.name = u.place :=
    fun u hu => ⟨(State.mem_visits hu).1, (State.mem_visits hu).2.1⟩
  generalize State.visits env (names.map (Path.under v.name)) = visits at hseated hstraight ⊢
  have hopened : (w.openLevel visits).tasks[i]? = some (k, v, .found f) :=
    (List.getElem?_append_left (List.getElem?_eq_some_iff.mp hi).1).trans hi
  have hbelongs : ∀ {m a}, m < w.levels.length → w.Belongs env paths m a →
      ((w.openLevel visits).set i (.awaits w.levels.length f)).Belongs env paths m a := by
    intro m a hm ha
    refine ha.mono fun j u e hj => (awaits_of_descend hworks hj).resolve_right ?_
    rintro ⟨-, -, rfl⟩
    exact Nat.lt_irrefl _ hm
  have hlive : ∀ {m}, ((w.openLevel visits).set i (.awaits w.levels.length f)).Live m ↔
      w.Live m ∨ m = w.levels.length := live_descend hworks visits
  refine ⟨forall_set (P := fun v => v.outer = [] ∧ v.name = v.place) ?_ i _,
    forall_going_set (P := fun k v => Belongs env paths _ k v.spot) ?_ hopened nofun _, ?_, h.genuine, ?_, ?_, ?_,
    h.counts, ?_, ?_⟩
  · intro t ht
    rcases mem_openLevel ht with ht | ⟨u, hu, heq⟩
    · exact h.straight t ht
    · rw [show t.2.1 = u from (Prod.mk.inj heq).1]
      exact hstraight u hu
  · intro t ht hgoing
    rcases List.mem_append.mp ht with ht | ht
    · exact hbelongs (hrunning ht hgoing) (h.seated t ht hgoing)
    · obtain ⟨u, hu, rfl⟩ := List.mem_map.mp ht
      exact hseated u hu visits
  · obtain ⟨rest, hbefore, hafter⟩ := exists_hands hopened
    have hhands := (hafter (.awaits w.levels.length f)).trans hbefore.symm
    rw [hands_openLevel] at hhands
    exact (hhands.append_left _).trans h.met
  · intro e he
    refine (h.owners e he).mono ?_ ?_
    · rw [length_tasks_set, length_tasks_openLevel]
      exact Nat.le_add_right _ _
    · exact (length_levels_openLevel w visits).symm ▸ Nat.le_add_right _ _
  · intro j u stance hj
    rcases hj.of_set with ⟨_, hj⟩ | ⟨rfl, rfl, _, hu⟩
    · rcases hj.of_openLevel with hj | ⟨hge, _, rfl⟩
      · exact h.tasks j u stance hj
      · exact h.held_eq_nil (Nat.not_lt.mpr hge)
    · obtain ⟨rfl, -⟩ := (hworks.openLevel visits).unique hu
      exact ⟨hnone, hinfo, hkind⟩
  · intro m hm l hl
    rcases level_openLevel visits hl with hl | ⟨rfl, rfl⟩
    · refine h.totals m ((hlive.mp hm).resolve_right ?_) l hl
      rintro rfl
      exact Nat.lt_irrefl _ (List.getElem?_eq_some_iff.mp hl).1
    · rw [h.held_eq_nil (Nat.lt_irrefl _)]
      rfl
  · exact fun m b hb => hbelongs (h.owners _ (g.mem_held.mp hb)) (h.belongs m b hb)
  · exact fun m hm => h.lost m fun hlive' => hm (hlive.mpr (.inl hlive'))

theorem accept (h : w.Grown env paths g) (htiered : w.Tiered) (hi : w.tasks[i]? = some (k, v, .made t)) :
    ∃ g', ((w.addTotal k t).set i .finished).Grown env paths g' ∧ ∀ b ∈ g.nodes, b ∈ g'.nodes := by
  have hmem := List.mem_of_getElem? hi
  have hworks : w.Works i v (.made t) := ⟨k, hi⟩
  obtain ⟨b, hheld, hplace, rfl, hcounts⟩ := h.tasks i v _ hworks
  obtain ⟨sum, hk⟩ := htiered.running _ hmem nofun
  have hfinished : ∀ j f, Stance.finished ≠ .awaits j f := nofun
  have hlive : ∀ {j}, ((w.addTotal k b.tally).set i .finished).Live j ↔ w.Live j :=
    live_set (w := w.addTotal k b.tally) hworks nofun hfinished
  have hbelongs : ∀ {j a}, w.Belongs env paths j a →
      ((w.addTotal k b.tally).set i .finished).Belongs env paths j a :=
    fun ha => ha.mono fun _ _ _ hj => awaits_of_set (w := w) hfinished hj
  have hperm : (g.handOver i k b).nodes.Perm g.nodes := g.nodes_handOver hheld
  refine ⟨g.handOver i k b, ⟨?_, ?_, ?_, ?_, ?_, ?_, ?_, ?_, ?_, ?_⟩, fun d hd => hperm.mem_iff.mpr hd⟩
  · exact forall_set (w := w.addTotal k b.tally) (P := fun v => v.outer = [] ∧ v.name = v.place) h.straight i _
  · exact forall_going_set (w := w.addTotal k b.tally) (P := fun k v => Belongs env paths _ k v.spot)
      (fun t ht hgoing => hbelongs (h.seated t ht hgoing)) hi nofun _
  · obtain ⟨rest, hbefore, hafter⟩ := exists_hands hi
    have hhands : ((w.addTotal k b.tally).set i .finished).hands.Perm w.hands := (hafter .finished).trans hbefore.symm
    exact ((hperm.map Branch.id).append hhands).trans h.met
  · exact fun d hd => h.genuine d (hperm.mem_iff.mp hd)
  · intro e he
    change e.1.Within _ (w.addTotal k b.tally).levels.length
    rw [length_tasks_set, length_levels_addTotal]
    rcases List.mem_cons.mp he with rfl | he
    · exact (List.getElem?_eq_some_iff.mp hk).1
    · exact h.owners e (List.mem_of_mem_filter he)
  · intro j u stance hj
    rw [g.held_handOver_task]
    rcases hj.of_set with ⟨hne, hj⟩ | ⟨rfl, rfl, _⟩
    · rw [if_neg (Ne.symm hne)]
      exact h.tasks j u stance hj
    · rw [if_pos rfl]
      exact fun d hd => absurd hd List.not_mem_nil
  · intro j hj l hl
    rw [g.held_handOver_level]
    rcases modify_cases hl with ⟨hne, hl⟩ | ⟨rfl, l₀, hl₀, rfl⟩
    · rw [if_neg (Ne.symm hne)]
      exact h.totals j (hlive.mp hj) l hl
    · rw [if_pos rfl, List.map_cons, Tally.sum_cons, Tally.add_comm b.tally]
      exact congrArg (Tally.add · b.tally) (h.totals j (hlive.mp hj) l₀ hl₀)
  · intro j d hd
    rcases g.held_handOver_cases hd with hd | ⟨_, rfl⟩
    · exact h.counts j d hd
    · exact hcounts
  · intro j d hd
    rcases g.held_handOver_cases hd with hd | ⟨rfl, rfl⟩
    · exact hbelongs (h.belongs j d hd)
    · have hseat := h.seated _ hmem nofun
      have hspot : v.spot = d.spot := by
        unfold Visit.spot Branch.spot
        rw [hplace, show v.name = v.place from (h.straight _ hmem).2]
      exact hbelongs (hspot ▸ hseat)
  · intro j hj d hd
    rcases g.held_handOver_cases hd with hd | ⟨rfl, rfl⟩
    · exact h.lost j (mt hlive.mpr hj) d hd
    · exact absurd (hlive.mpr (htiered.live j sum hk)) hj

theorem close (h : w.Grown env paths g) (k : Nat) : (w.close k).Grown env paths g := by
  refine ⟨h.straight, ?_, h.met, h.genuine, ?_, h.tasks, ?_, h.counts, ?_, h.lost⟩
  · exact fun t ht hgoing => (h.seated t ht hgoing).mono fun _ _ _ => id
  · intro e he
    rw [length_levels_close]
    exact h.owners e he
  · intro j hj l hl
    rcases modify_cases hl with ⟨_, hl⟩ | ⟨rfl, l₀, hl₀, rfl⟩
    · exact h.totals j hj l hl
    · exact h.totals _ hj l₀ hl₀
  · exact fun j b hb => (h.belongs j b hb).mono fun _ _ _ => id

/-- Branches grow in each stroke, and none is broken. -/
theorem stroke {a : Actor} (h : w.Grown env paths g) (htiered : w.Tiered) (hrooted : w.Rooted env)
    (hwalks : env.options.walkLinks = false) (hstroke : w.Stroke env a w') :
    ∃ g', w'.Grown env paths g' ∧ ∀ b ∈ g.nodes, b ∈ g'.nodes := by
  cases hstroke with
  | @skip i k v f task =>
    obtain ⟨houter, -⟩ := h.knows hrooted task
    rw [houter]
    exact ⟨g, h.skip htiered task, fun _ => id⟩
  | @meet i k v f task info => exact ⟨g, h.meet htiered task info, fun _ => id⟩
  | @settle i k v f task =>
    exact ⟨_, h.settle htiered hrooted task, fun b hb => List.mem_append_right _ hb⟩
  | follow _ _ walks => cases hwalks.symm.trans walks
  | @descend i k v f names task kind entries => exact ⟨g, h.descend htiered task kind entries, fun _ => id⟩
  | @resume i k j v f sum total task closed =>
    obtain rfl := htiered.closed j sum total closed
    exact h.resume htiered hrooted hwalks task closed
  | accept task => exact h.accept htiered task
  | @close k => exact ⟨g, h.close k, fun _ => id⟩

theorem strokes {a : Actor} (h : w.Grown env paths g) (htiered : w.Tiered) (hrooted : w.Rooted env)
    (hwalks : env.options.walkLinks = false) (hstrokes : Sketch.Strokes env a w w') :
    w'.Tiered ∧ w'.Rooted env ∧ ∃ g', w'.Grown env paths g' ∧ ∀ b ∈ g.nodes, b ∈ g'.nodes := by
  induction hstrokes with
  | refl => exact ⟨htiered, hrooted, g, h, fun _ => id⟩
  | tail _ hlast ih =>
    obtain ⟨htiered, hrooted, g₁, hg₁, hkept⟩ := ih
    obtain ⟨g', hg', hkept'⟩ := hg₁.stroke htiered hrooted hwalks hlast
    exact ⟨htiered.stroke hlast, hrooted.stroke hlast, g', hg', fun b hb => hkept' b (hkept b hb)⟩

theorem start (env : Environment σ) (paths : List Path) :
    ((Sketch.mk [] [] []).openLevel (State.visits env paths)).Grown env paths [] := by
  have hnone : ∀ {α : Type} {P : α → Prop}, ∀ a ∈ ([] : List α), P a := fun a ha => absurd ha List.not_mem_nil
  refine ⟨?_, ?_, ?_, hnone, hnone, ?_, ?_, fun _ => hnone, fun _ => hnone, fun _ _ => hnone⟩
  · intro t ht
    rcases mem_openLevel ht with ht | ⟨v, hv, heq⟩
    · cases ht
    · rw [show t.2.1 = v from (Prod.mk.inj heq).1]
      exact ⟨(State.mem_visits hv).1, (State.mem_visits hv).2.1⟩
  · intro t ht _
    rcases List.mem_append.mp ht with ht | ht
    · cases ht
    · obtain ⟨v, hv, rfl⟩ := List.mem_map.mp ht
      obtain ⟨p, hp, hspot, -⟩ := Environment.visit_spot hv
      exact ⟨fun _ => ⟨p, hp, hspot⟩, fun _ _ _ hi => absurd hi (not_awaits_start _)⟩
  · rw [hands_openLevel]
    exact .refl _
  · intro i v stance hi
    obtain ⟨-, rfl⟩ := hi.of_start
    rfl
  · intro k _ l hl
    obtain ⟨-, rfl⟩ := level_start _ hl
    rfl

/-- When all tasks are finished, each object that was found is in the branches of the topmost level, or was
lost. -/
theorem harvest (h : w.Grown env paths g) (hfinished : ∀ t ∈ w.tasks, t.2.2 = .finished) :
    (g.nodes.map Branch.id).Perm w.visited ∧ ∃ lost : List Branch, (∀ b ∈ lost, b.Lost env) ∧
      g.nodes.Perm ((g.held (.level 0)).flatMap Branch.nodes ++ lost) := by
  have hidle : ∀ {i v stance}, w.Works i v stance → stance = .finished :=
    fun ⟨_, hi⟩ => hfinished _ (List.mem_of_getElem? hi)
  have hhands : w.hands = [] :=
    List.filterMap_eq_nil_iff.mpr fun t ht => by rw [hfinished t ht]; rfl
  have hlost : ∀ e ∈ g.without (.level 0), e.2.Lost env := by
    rintro ⟨o, b⟩ he
    obtain ⟨he, hne⟩ := List.mem_filter.mp he
    cases o with
    | task i =>
      have hi := h.owners _ he
      obtain ⟨⟨k, v, stance⟩, ht⟩ : ∃ t, w.tasks[i]? = some t := ⟨_, List.getElem?_eq_getElem hi⟩
      have hbears := h.tasks i v stance ⟨k, ht⟩
      obtain rfl : stance = .finished := hidle ⟨k, ht⟩
      exact hbears b (g.mem_held.mpr he)
    | level k =>
      refine h.lost k ?_ b (g.mem_held.mpr he)
      rintro (rfl | ⟨i, v, f, hi⟩)
      · exact absurd rfl (of_decide_eq_true hne)
      · cases hidle hi
  have hnodes : (g.without (.level 0)).nodes = (g.without (.level 0)).map (·.2) := by
    unfold Garden.nodes
    rw [← List.flatMap_singleton' ((g.without (.level 0)).map (·.2)), List.flatMap_map]
    refine List.flatMap_congr fun e he => ?_
    rw [Branch.nodes_eq, (hlost e he).bare]
    rfl
  have hmet := h.met
  rw [hhands, List.append_nil] at hmet
  refine ⟨hmet, (g.without (.level 0)).map (·.2), ?_, hnodes ▸ g.nodes_perm (.level 0)⟩
  intro b hb
  obtain ⟨e, he, rfl⟩ := List.mem_map.mp hb
  exact hlost e he

end Sketch.Grown

end Growth

end TreeCensus.Walk
