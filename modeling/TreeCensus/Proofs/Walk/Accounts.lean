import TreeCensus.Proofs.Walk.Descents
import TreeCensus.Proofs.Walk.Inventory

/-!
# Accounts of a walk

An inventory accounts for a walk if it holds the objects that were visited, each once, if the items of
a level make up its total, and if what is left of them to be listed or reported is theirs alone. Each
change that a walk makes to its objects has an entry here that keeps the accounts.
-/

namespace TreeCensus.Walk

set_option autoImplicit false

variable {σ : Type}

/-- The identity of what there is at a path. -/
def Environment.identity? (env : Environment σ) (p : Path) : Option Text :=
  (env.files.info p).toOption.map (·.identity p)

theorem Environment.identity?_of_info {env : Environment σ} {p : Path} {info : FileInfo}
    (h : env.files.info p = .ok info) : env.identity? p = some (info.identity p) := by
  unfold identity?
  rw [h]
  rfl

def Event.listed? : Event → Option Path
  | .listed p => some p
  | _ => none

def Event.reported? : Event → Option PathCall
  | .reported c => some c
  | _ => none

/-- What the accounts of a walk are about. -/
structure View where
  visited : List Text
  /-- The total and the stage of each level. -/
  levels : List (Tally × Stage)
  /-- The level, the visit and the phase of each task. -/
  tasks : List (Nat × Visit × Phase)
  listed : List Path
  reported : List PathCall

namespace View

variable (v : View)

def total (k : Nat) : Tally := (v.levels[k]?.map (·.1)).getD .zero

/-- The identities of the directories that have been listed. -/
def listedIds (env : Environment σ) : List (Option Text) := v.listed.map env.identity?

/-- The identities of the items that have been reported. -/
def reportedIds (env : Environment σ) : List (Option Text) :=
  v.reported.map fun c => env.identity? c.path

def setPhase (i : Nat) (phase : Phase) : View :=
  { v with tasks := v.tasks.modify i fun t => (t.1, t.2.1, phase) }

end View

namespace State

variable (s : State σ)

def view : View where
  visited := s.visited
  levels := s.levels.map fun l => (l.total, l.stage)
  tasks := s.tasks.map fun t => (t.level, t.visit, t.phase)
  listed := s.trace.filterMap Event.listed?
  reported := s.trace.filterMap Event.reported?

theorem view_setPhase (i : Nat) (phase : Phase) :
    (s.setPhase i phase).view = s.view.setPhase i phase := by
  unfold view View.setPhase
  congr 1
  exact map_modify (h := fun t : Nat × Visit × Phase => (t.1, t.2.1, phase)) (fun _ => rfl) s.tasks i

theorem view_updateLevel (k : Nat) {f : Level → Level}
    (hf : ∀ l, (f l).total = l.total ∧ (f l).stage = l.stage) : (s.updateLevel k f).view = s.view := by
  unfold view updateLevel
  congr 1
  exact map_modify_of_eq (fun l => by rw [(hf l).1, (hf l).2]) s.levels k

theorem view_conclude (i : Nat) (t : Task) (result : Except Fault (Option Tally)) :
    (s.conclude i t result).view = s.view.setPhase i (.ended result) := by
  rw [← view_setPhase]
  cases result with
  | ok => rfl
  | error f => exact view_updateLevel _ _ fun _ => ⟨rfl, rfl⟩

theorem view_interrupt (k : Nat) : (s.interrupt k).view = s.view := by
  unfold view interrupt
  congr 1
  · apply List.ext_getElem?
    intro j
    simp only [List.getElem?_map, List.getElem?_mapIdx, Option.map_map]
    congr 1
    funext l
    dsimp only [Function.comp_apply]
    split <;> rfl
  · rw [List.map_map]
    apply List.map_congr_left
    intro t _
    dsimp only [Function.comp_apply]
    split <;> rfl

theorem view_interruptAll : s.interruptAll.view = s.view := by
  rw [← s.view_interrupt 0]
  exact view_updateLevel _ 0 fun _ => ⟨rfl, rfl⟩

theorem view_openLevel (env : Environment σ) (links : List Nat) (depth : Nat) (priority : Priority)
    (paths : List Path) : (s.openLevel env links depth priority paths).view =
      { s.view with
        levels := s.view.levels ++ [(.zero, .running)]
        tasks := s.view.tasks ++ (visits env paths).map fun v => (s.view.levels.length, v, .fresh) } := by
  unfold view openLevel
  dsimp only
  rw [List.map_append, List.map_append, List.map_map, List.length_map]
  rfl

theorem view_note {e : Event} (hlisted : e.listed? = none) (hreported : e.reported? = none) :
    (s.note e).view = s.view := by
  unfold view note
  dsimp only
  rw [List.filterMap_cons_none hlisted, List.filterMap_cons_none hreported]

theorem total_view (k : Nat) : s.view.total k = (s.level k).total := by
  unfold View.total view level
  rw [List.getElem?_map]
  cases s.levels[k]? <;> rfl

theorem posts_view (j : Nat) : s.posts[j]? = (s.view.tasks[j]?).map fun t => (t.1, t.2.2) := by
  unfold posts view
  rw [List.getElem?_map, List.getElem?_map, Option.map_map]
  rfl

end State

/-- The objects of a task are those it came to by following links. Nothing of them has been added to a
tally, and the first of them, under whose name it will be reported, has not been reported. -/
structure Inventory.Trail (inv : Inventory) (reported : List (Option Text)) (i : Nat) (name : Path)
    (infos : List FileInfo) : Prop where
  infos : (inv.held (.task i)).map (·.info) = infos
  blank : ∀ x ∈ inv.held (.task i), x.Blank
  outermost : ∀ x, (inv.held (.task i)).getLast? = some x → x.place = name ∧ some x.id ∉ reported

section Position

variable (inv : Inventory) (listed reported : List (Option Text)) (i : Nat) (v : Visit)

/-- What is at the place of the visit has not been looked at. -/
structure Visit.Ahead : Prop where
  trail : inv.Trail reported i v.name v.outer
  start : v.outer = [] → v.place = v.name

/-- What is at the place of the visit is the last object of the task. -/
structure Visit.Found (info : FileInfo) : Prop where
  trail : inv.Trail reported i v.name (info :: v.outer)
  place : ∀ x, (inv.held (.task i)).head? = some x → x.place = v.place

/-- The objects of the task make up its tally. -/
def Inventory.Makes (tally : Tally) : Prop := inv.worth (.task i) = tally.amounts

/-- The object of the task that is to be reported has not been reported. -/
def Visit.Untold (info : FileInfo) : Prop :=
  ∃ x ∈ inv.held (.task i), x.place = v.name ∧ x.info = info ∧ some x.id ∉ reported

/-- What is known of a job once it has begun. -/
def Job.Begun : Job → Prop
  | .info => v.Ahead inv reported i
  | .target found | .entries found => v.Found inv reported i found
  | .report _ tally => inv.Makes i tally

/-- What is known of a job before it begins. -/
def Job.Pending : Job → Prop
  | .entries found => v.Found inv reported i found ∧ some (found.identity v.place) ∉ listed
  | .report found tally => inv.Makes i tally ∧ v.Untold inv reported i found
  | job => job.Begun inv reported i v

def Phase.Keeps : Phase → Prop
  | fresh => v.Ahead inv reported i
  | queued _ job => job.Pending inv listed reported i v
  | calling job | consulting job _ => job.Begun inv reported i v
  | descending _ info => v.Found inv reported i info
  | logging _ | ended _ => True

def Cursor.Keeps (env : Environment σ) : Cursor → Prop
  | conclude _ | log _ | follow (.over _) => True
  | accept tally | onReply _ tally _ | stop _ tally _ | report _ tally => inv.Makes i tally
  | seek job | begin job => job.Pending inv listed reported i v
  | answer job | onAnswer job _ _ | consult job _ | offer job _ => job.Begun inv reported i v
  | follow (.counted info tally) => inv.Makes i tally ∧ v.Untold inv reported i info
  | enter info => v.Found inv reported i info ∧ some (info.identity v.place) ∉ listed
  | onInfo info => v.Ahead inv reported i ∧ env.files.info v.place = .ok info
  | onTarget info _ | onEntries info _ => v.Found inv reported i info
  | giveBack next => next.Keeps env

end Position

/-- Identities of which the task `i` has none may be added. -/
def Inventory.Spares (inv : Inventory) (i : Nat) (before after : List (Option Text)) : Prop :=
  ∀ a ∈ after, a ∈ before ∨ ∀ x ∈ inv.held (.task i), a ≠ some x.id

section Frame

variable {inv inv' : Inventory} {listed listed' reported reported' : List (Option Text)} {i : Nat}
  {v : Visit} {info : FileInfo}

theorem Inventory.Spares.refl (inv : Inventory) (i : Nat) (as : List (Option Text)) :
    inv.Spares i as as := fun _ ha => .inl ha

theorem Inventory.Spares.not_mem {as bs : List (Option Text)} (h : inv.Spares i as bs) {x : Item}
    (hx : x ∈ inv.held (.task i)) (hnew : some x.id ∉ as) : some x.id ∉ bs := by
  intro hmem
  rcases h _ hmem with hold | hne
  · exact hnew hold
  · exact hne x hx rfl

theorem Inventory.Trail.frame {name : Path} {infos : List FileInfo}
    (h : inv.Trail reported i name infos) (hheld : inv'.held (.task i) = inv.held (.task i))
    (hreported : inv.Spares i reported reported') : inv'.Trail reported' i name infos := by
  refine ⟨by rw [hheld, h.infos], by rw [hheld]; exact h.blank, ?_⟩
  intro x hx
  rw [hheld] at hx
  obtain ⟨hplace, hnew⟩ := h.outermost x hx
  exact ⟨hplace, hreported.not_mem (List.mem_of_getLast? hx) hnew⟩

theorem Visit.Ahead.frame (h : v.Ahead inv reported i)
    (hheld : inv'.held (.task i) = inv.held (.task i)) (hreported : inv.Spares i reported reported') :
    v.Ahead inv' reported' i := ⟨h.trail.frame hheld hreported, h.start⟩

theorem Visit.Found.frame (h : v.Found inv reported i info)
    (hheld : inv'.held (.task i) = inv.held (.task i)) (hreported : inv.Spares i reported reported') :
    v.Found inv' reported' i info :=
  ⟨h.trail.frame hheld hreported, by rw [hheld]; exact h.place⟩

theorem Visit.Found.exists_head (h : v.Found inv reported i info) :
    ∃ x ∈ inv.held (.task i), x.place = v.place ∧ x.info = info := by
  obtain ⟨x, xs, hxs, hinfo, _⟩ := List.map_eq_cons_iff.mp h.trail.infos
  have hhead : (inv.held (.task i)).head? = some x := by rw [hxs]; rfl
  exact ⟨x, List.mem_of_head? hhead, h.place x hhead, hinfo⟩

theorem Visit.Untold.frame (h : v.Untold inv reported i info)
    (hheld : inv'.held (.task i) = inv.held (.task i)) (hreported : inv.Spares i reported reported') :
    v.Untold inv' reported' i info := by
  obtain ⟨x, hx, hplace, hinfo, hnew⟩ := h
  exact ⟨x, by rw [hheld]; exact hx, hplace, hinfo, hreported.not_mem hx hnew⟩

theorem Inventory.Makes.frame {tally : Tally} (h : inv.Makes i tally)
    (hheld : inv'.held (.task i) = inv.held (.task i)) : inv'.Makes i tally := by
  unfold Makes worth at *
  rw [hheld, h]

theorem Job.Begun.frame {job : Job} (h : job.Begun inv reported i v)
    (hheld : inv'.held (.task i) = inv.held (.task i)) (hreported : inv.Spares i reported reported') :
    job.Begun inv' reported' i v := by
  cases job with
  | info => exact Visit.Ahead.frame h hheld hreported
  | target | entries => exact Visit.Found.frame h hheld hreported
  | report => exact Inventory.Makes.frame h hheld

theorem Job.Pending.begun {job : Job} (h : job.Pending inv listed reported i v) :
    job.Begun inv reported i v := by
  cases job with
  | info | target => exact h
  | entries | report => exact h.1

theorem Job.Pending.frame {job : Job} (h : job.Pending inv listed reported i v)
    (hheld : inv'.held (.task i) = inv.held (.task i)) (hlisted : inv.Spares i listed listed')
    (hreported : inv.Spares i reported reported') : job.Pending inv' listed' reported' i v := by
  cases job with
  | info | target => exact Job.Begun.frame h.begun hheld hreported
  | entries info =>
    obtain ⟨x, hx, hplace, hinfo⟩ := h.1.exists_head
    refine ⟨h.1.frame hheld hreported, ?_⟩
    have hnew := h.2
    rw [← hplace, ← hinfo] at hnew ⊢
    exact hlisted.not_mem hx hnew
  | report => exact ⟨h.1.frame hheld, h.2.frame hheld hreported⟩

theorem Phase.Keeps.frame {phase : Phase} (h : phase.Keeps inv listed reported i v)
    (hheld : inv'.held (.task i) = inv.held (.task i)) (hlisted : inv.Spares i listed listed')
    (hreported : inv.Spares i reported reported') : phase.Keeps inv' listed' reported' i v := by
  cases phase with
  | fresh => exact Visit.Ahead.frame h hheld hreported
  | queued => exact Job.Pending.frame h hheld hlisted hreported
  | calling | consulting => exact Job.Begun.frame h hheld hreported
  | descending => exact Visit.Found.frame h hheld hreported
  | logging | ended => trivial

end Frame

/-- Distinct identities of objects that have been visited. -/
structure Distinct (visited : List Text) (as : List (Option Text)) : Prop where
  nodup : as.Nodup
  known : ∀ a ∈ as, ∃ id ∈ visited, a = some id

namespace Distinct

variable {visited : List Text} {as : List (Option Text)} {id : Text}

theorem cons (h : Distinct visited as) (hid : id ∈ visited) (hnew : some id ∉ as) :
    Distinct visited (some id :: as) := by
  refine ⟨List.nodup_cons.mpr ⟨hnew, h.nodup⟩, ?_⟩
  intro a ha
  rcases List.mem_cons.mp ha with rfl | ha
  · exact ⟨id, hid, rfl⟩
  · exact h.known a ha

theorem not_mem (h : Distinct visited as) (hid : id ∉ visited) : some id ∉ as := by
  intro hmem
  obtain ⟨other, hother, heq⟩ := h.known _ hmem
  exact hid (Option.some.inj heq ▸ hother)

theorem visit (h : Distinct visited as) (id : Text) : Distinct (id :: visited) as := by
  refine ⟨h.nodup, ?_⟩
  intro a ha
  obtain ⟨other, hother, heq⟩ := h.known a ha
  exact ⟨other, List.mem_cons_of_mem _ hother, heq⟩

end Distinct

def Owner.Within (tasks levels : Nat) : Owner → Prop
  | .task i => i < tasks
  | .level k => k < levels

/-- The inventory accounts for a walk of which the tasks in `idle` are between two steps. -/
structure Accounts (env : Environment σ) (idle : Nat → Prop) (v : View) (inv : Inventory) : Prop where
  met : inv.ids = v.visited
  distinct : v.visited.Nodup
  genuine : ∀ e ∈ inv, env.files.info e.2.place = .ok e.2.info
  listed : Distinct v.visited (v.listedIds env)
  reported : Distinct v.visited (v.reportedIds env)
  told : ∀ c ∈ v.reported, env.files.info c.path = .ok c.info
  totals : ∀ k, (k = 0 ∨ ∃ j t, idle j ∧ v.tasks[j]? = some t ∧ t.2.2.Awaits k) →
    (v.total k).amounts = inv.worth (.level k)
  closed : ∀ l ∈ v.levels, ∀ total, l.2 = .closed (.ok total) → total = l.1
  tasks : ∀ j t, idle j → v.tasks[j]? = some t →
    t.2.2.Keeps inv (v.listedIds env) (v.reportedIds env) j t.2.1
  owners : ∀ e ∈ inv, e.1.Within v.tasks.length v.levels.length

namespace Accounts

variable {env : Environment σ} {idle : Nat → Prop} {v : View} {inv inv' : Inventory} {i : Nat}

theorem held_eq_nil (h : Accounts env idle v inv) {o : Owner}
    (ho : ¬ o.Within v.tasks.length v.levels.length) : inv.held o = [] := by
  apply List.eq_nil_iff_forall_not_mem.mpr
  intro x hx
  exact ho (h.owners _ ((inv.mem_held).mp hx))

theorem mem_visited (h : Accounts env idle v inv) {o : Owner} {x : Item} (hx : x ∈ inv.held o) :
    x.id ∈ v.visited := by
  rw [← h.met]
  exact List.mem_map_of_mem (f := fun e : Owner × Item => e.2.id) ((inv.mem_held).mp hx)

theorem genuine_held (h : Accounts env idle v inv) {o : Owner} {x : Item} (hx : x ∈ inv.held o) :
    env.files.info x.place = .ok x.info := h.genuine _ ((inv.mem_held).mp hx)

/-- What a task adds to a list of identities is none of another task's. -/
theorem spares_cons (h : Accounts env idle v inv) {j : Nat} (hj : j ≠ i) {x : Item}
    (hx : x ∈ inv.held (.task i)) (as : List (Option Text)) : inv.Spares j as (some x.id :: as) := by
  intro a ha
  rcases List.mem_cons.mp ha with rfl | ha
  · right
    intro y hy heq
    have hnodup : inv.ids.Nodup := by rw [h.met]; exact h.distinct
    exact Inventory.id_ne hnodup hx hy (by simp [Ne.symm hj]) (Option.some.inj heq)
  · exact .inl ha

theorem enter (h : Accounts env (fun _ => True) v inv) (i : Nat) : Accounts env (· ≠ i) v inv := by
  refine ⟨h.met, h.distinct, h.genuine, h.listed, h.reported, h.told, ?_, h.closed, ?_, h.owners⟩
  · rintro k (hk | ⟨j, t, _, hj, hk⟩)
    · exact h.totals k (.inl hk)
    · exact h.totals k (.inr ⟨j, t, trivial, hj, hk⟩)
  · intro j t _ hj
    exact h.tasks j t trivial hj

theorem rest (h : Accounts env (· ≠ i) v inv) {phase : Phase} (hstays : ∀ k, ¬ phase.Awaits k)
    (hkeeps : ∀ t, v.tasks[i]? = some t →
      phase.Keeps inv (v.listedIds env) (v.reportedIds env) i t.2.1) :
    Accounts env (fun _ => True) (v.setPhase i phase) inv := by
  refine ⟨h.met, h.distinct, h.genuine, h.listed, h.reported, h.told, ?_, h.closed, ?_, ?_⟩
  · rintro k (hk | ⟨j, t, _, hj, hk⟩)
    · exact h.totals k (.inl hk)
    · rcases modify_cases hj with ⟨hne, hj⟩ | ⟨_, u, _, rfl⟩
      · exact h.totals k (.inr ⟨j, t, hne, hj, hk⟩)
      · exact absurd hk (hstays k)
  · intro j t _ hj
    rcases modify_cases hj with ⟨hne, hj⟩ | ⟨rfl, u, hu, rfl⟩
    · exact h.tasks j t hne hj
    · exact hkeeps u hu
  · intro e he
    have := h.owners e he
    unfold View.setPhase
    rw [List.length_modify]
    exact this

theorem visit (h : Accounts env (· ≠ i) v inv) {x : Item} (hx : x.id ∉ v.visited)
    (hi : i < v.tasks.length) (hgenuine : env.files.info x.place = .ok x.info) :
    Accounts env (· ≠ i) { v with visited := x.id :: v.visited } ((.task i, x) :: inv) := by
  have hother : ∀ {o : Owner}, o ≠ .task i → Inventory.held ((.task i, x) :: inv) o = inv.held o :=
    fun ho => inv.held_cons_of_ne (Ne.symm ho)
  refine ⟨congrArg (x.id :: ·) h.met, List.nodup_cons.mpr ⟨hx, h.distinct⟩, ?_, h.listed.visit _,
    h.reported.visit _, h.told, ?_, h.closed, ?_, ?_⟩
  · intro e he
    rcases List.mem_cons.mp he with rfl | he
    · exact hgenuine
    · exact h.genuine e he
  · intro k hk
    unfold Inventory.worth
    rw [hother (by simp)]
    exact h.totals k hk
  · intro j t hj ht
    exact (h.tasks j t hj ht).frame (hother (by simpa using hj)) (.refl _ _ _) (.refl _ _ _)
  · intro e he
    rcases List.mem_cons.mp he with rfl | he
    · exact hi
    · exact h.owners e he

/-- The items of the task are marked anew. -/
theorem settle (h : Accounts env (· ≠ i) v inv)
    (hobjects : inv'.map (fun e => (e.1, e.2.object)) = inv.map (fun e => (e.1, e.2.object)))
    (hothers : ∀ o, o ≠ .task i → inv'.held o = inv.held o) : Accounts env (· ≠ i) v inv' := by
  have hmem : ∀ e ∈ inv', ∃ e₀ ∈ inv, e₀.1 = e.1 ∧ e₀.2.object = e.2.object := by
    intro e he
    have := List.mem_map_of_mem (f := fun e : Owner × Item => (e.1, e.2.object)) he
    rw [hobjects] at this
    obtain ⟨e₀, he₀, heq⟩ := List.mem_map.mp this
    exact ⟨e₀, he₀, Prod.mk.inj heq⟩
  have hids : inv'.ids = inv.ids := by
    have := congrArg (List.map fun o : Owner × Path × FileInfo => o.2.2.identity o.2.1) hobjects
    rw [List.map_map, List.map_map] at this
    exact this
  refine ⟨hids.trans h.met, h.distinct, ?_, h.listed, h.reported, h.told, ?_, h.closed, ?_, ?_⟩
  · intro e he
    obtain ⟨e₀, he₀, _, heq⟩ := hmem e he
    obtain ⟨hplace, hinfo⟩ := Prod.mk.inj heq
    rw [← hplace, ← hinfo]
    exact h.genuine e₀ he₀
  · intro k hk
    unfold Inventory.worth
    rw [hothers _ (by simp)]
    exact h.totals k hk
  · intro j t hj ht
    exact (h.tasks j t hj ht).frame (hothers _ (by simpa using hj)) (.refl _ _ _) (.refl _ _ _)
  · intro e he
    obtain ⟨e₀, he₀, howner, _⟩ := hmem e he
    rw [← howner]
    exact h.owners e₀ he₀

theorem collect (h : Accounts env (· ≠ i) v inv) {k : Nat} (hk : k ≠ 0)
    (halone : ∀ j t, j ≠ i → v.tasks[j]? = some t → ¬ t.2.2.Awaits k) (hi : i < v.tasks.length) :
    Accounts env (· ≠ i) v (inv.pass (.level k) (.task i)) := by
  refine ⟨inv.ids_pass.trans h.met, h.distinct, ?_, h.listed, h.reported, h.told, ?_, h.closed, ?_, ?_⟩
  · intro e he
    obtain ⟨e₀, he₀, rfl⟩ := List.mem_map.mp he
    split <;> exact h.genuine e₀ he₀
  · intro j hj
    unfold Inventory.worth
    rw [inv.held_pass_of_ne ?_ (by simp)]
    · exact h.totals j hj
    · intro heq
      obtain rfl := Owner.level.inj heq
      rcases hj with hj | ⟨j', t, hne, ht, hawaits⟩
      · exact hk hj
      · exact halone j' t hne ht hawaits
  · intro j t hj ht
    refine (h.tasks j t hj ht).frame ?_ (.refl _ _ _) (.refl _ _ _)
    exact inv.held_pass_of_ne (by simp) (by simpa using hj)
  · intro e he
    obtain ⟨e₀, he₀, rfl⟩ := List.mem_map.mp he
    split
    · exact hi
    · exact h.owners e₀ he₀

theorem accept (h : Accounts env (· ≠ i) v inv) {k : Nat} {tally total : Tally} {stage : Stage}
    (htally : inv.Makes i tally) (hk : v.levels[k]? = some (total, stage))
    (hopen : stage.isClosed = false) :
    Accounts env (· ≠ i) { v with levels := v.levels.modify k fun l => (l.1.add tally, l.2) }
      (inv.pass (.task i) (.level k)) := by
  have hlt := (List.getElem?_eq_some_iff.mp hk).1
  refine ⟨inv.ids_pass.trans h.met, h.distinct, ?_, h.listed, h.reported, h.told, ?_, ?_, ?_, ?_⟩
  · intro e he
    obtain ⟨e₀, he₀, rfl⟩ := List.mem_map.mp he
    split <;> exact h.genuine e₀ he₀
  · intro j hj
    have hold := h.totals j hj
    by_cases hjk : j = k
    · subst hjk
      have hadded : ({ v with levels := v.levels.modify j fun l => (l.1.add tally, l.2) } : View).total j =
          (v.total j).add tally := by
        unfold View.total
        rw [List.getElem?_modify_eq, hk]
        rfl
      rw [hadded, Tally.amounts_add, hold, inv.worth_pass (by simp), htally]
    · have hsame : ({ v with levels := v.levels.modify k fun l => (l.1.add tally, l.2) } : View).total j =
          v.total j := by
        unfold View.total
        rw [List.getElem?_modify_ne _ _ (Ne.symm hjk)]
      unfold Inventory.worth
      rw [hsame, inv.held_pass_of_ne (by simp) (by simpa using hjk)]
      exact hold
  · intro l hl t hclosed
    rcases mem_modify hl with hl | ⟨l₀, hl₀, rfl⟩
    · exact h.closed l hl t hclosed
    · rw [hk] at hl₀
      cases hl₀
      rw [show stage = .closed (.ok t) from hclosed] at hopen
      cases hopen
  · intro j t hj ht
    refine (h.tasks j t hj ht).frame ?_ (.refl _ _ _) (.refl _ _ _)
    exact inv.held_pass_of_ne (by simpa using hj) (by simp)
  · intro e he
    obtain ⟨e₀, he₀, rfl⟩ := List.mem_map.mp he
    rw [List.length_modify]
    split
    · exact hlt
    · exact h.owners e₀ he₀

theorem list (h : Accounts env (· ≠ i) v inv) {p : Path} {x : Item} (hx : x ∈ inv.held (.task i))
    (hplace : x.place = p) (hnew : some x.id ∉ v.listedIds env) :
    Accounts env (· ≠ i) { v with listed := p :: v.listed } inv := by
  have hid : env.identity? p = some x.id := by
    rw [← hplace]
    exact Environment.identity?_of_info (h.genuine_held hx)
  have hids : ({ v with listed := p :: v.listed } : View).listedIds env =
      some x.id :: v.listedIds env := congrArg (· :: v.listedIds env) hid
  refine ⟨h.met, h.distinct, h.genuine, ?_, h.reported, h.told, h.totals, h.closed, ?_, h.owners⟩
  · rw [hids]
    exact h.listed.cons (h.mem_visited hx) hnew
  · intro j t hj ht
    rw [hids]
    exact (h.tasks j t hj ht).frame rfl (h.spares_cons hj hx _) (.refl _ _ _)

theorem tell (h : Accounts env (· ≠ i) v inv) {c : PathCall} {x : Item}
    (hx : x ∈ inv.held (.task i)) (hplace : x.place = c.path) (hinfo : x.info = c.info)
    (hnew : some x.id ∉ v.reportedIds env) :
    Accounts env (· ≠ i) { v with reported := c :: v.reported } inv := by
  have hgenuine := h.genuine_held hx
  rw [hplace, hinfo] at hgenuine
  have hid : env.identity? c.path = some x.id := by
    rw [Environment.identity?_of_info hgenuine, ← hplace, ← hinfo]
    rfl
  have hids : ({ v with reported := c :: v.reported } : View).reportedIds env =
      some x.id :: v.reportedIds env := congrArg (· :: v.reportedIds env) hid
  refine ⟨h.met, h.distinct, h.genuine, h.listed, ?_, ?_, h.totals, h.closed, ?_, h.owners⟩
  · rw [hids]
    exact h.reported.cons (h.mem_visited hx) hnew
  · intro d hd
    rcases List.mem_cons.mp hd with rfl | hd
    · exact hgenuine
    · exact h.told d hd
  · intro j t hj ht
    rw [hids]
    exact (h.tasks j t hj ht).frame rfl (.refl _ _ _) (h.spares_cons hj hx _)

theorem move (h : Accounts env (· ≠ i) v inv) (visit : Visit) :
    Accounts env (· ≠ i) { v with tasks := v.tasks.modify i fun t => (t.1, visit, t.2.2) } inv := by
  have hold : ∀ {j : Nat} {t : Nat × Visit × Phase},
      (v.tasks.modify i fun t => (t.1, visit, t.2.2))[j]? = some t → j ≠ i → v.tasks[j]? = some t := by
    intro j t ht hj
    rw [List.getElem?_modify_ne _ _ (Ne.symm hj)] at ht
    exact ht
  refine ⟨h.met, h.distinct, h.genuine, h.listed, h.reported, h.told, ?_, h.closed, ?_, ?_⟩
  · rintro k (hk | ⟨j, t, hj, ht, hk⟩)
    · exact h.totals k (.inl hk)
    · exact h.totals k (.inr ⟨j, t, hj, hold ht hj, hk⟩)
  · intro j t hj ht
    exact h.tasks j t hj (hold ht hj)
  · intro e he
    rw [List.length_modify]
    exact h.owners e he

theorem descend (h : Accounts env (· ≠ i) v inv) {t : Nat × Visit × Phase} (ht : v.tasks[i]? = some t)
    {info : FileInfo} (hfound : t.2.1.Found inv (v.reportedIds env) i info) {visits : List Visit}
    (hvisits : ∀ w ∈ visits, w.outer = [] ∧ w.place = w.name) :
    Accounts env (fun _ => True)
      (View.setPhase { v with
        levels := v.levels ++ [(.zero, .running)]
        tasks := v.tasks ++ visits.map fun w => (v.levels.length, w, .fresh) } i
          (.descending v.levels.length info)) inv := by
  have hi := (List.getElem?_eq_some_iff.mp ht).1
  have htotal : ∀ k, (v.total k).amounts = inv.worth (.level k) →
      ((View.mk v.visited (v.levels ++ [(.zero, .running)]) v.tasks v.listed v.reported).total k).amounts =
        inv.worth (.level k) := by
    intro k hk
    rw [← hk]
    unfold View.total
    dsimp only
    rcases Nat.lt_trichotomy k v.levels.length with hlt | rfl | hgt
    · rw [List.getElem?_append_left hlt]
    · rw [List.getElem?_concat_length, List.getElem?_eq_none (Nat.le_refl _)]
      rfl
    · rw [List.getElem?_eq_none (by simp; omega), List.getElem?_eq_none (by omega)]
  have hnew : (v.total v.levels.length).amounts = inv.worth (.level v.levels.length) := by
    unfold Inventory.worth View.total
    rw [h.held_eq_nil (o := .level v.levels.length) (Nat.lt_irrefl _),
      List.getElem?_eq_none (Nat.le_refl _)]
    rfl
  -- A task of the list is one that was there before, the one that descends, or one of the new level.
  have hcases : ∀ {j : Nat} {u : Nat × Visit × Phase},
      ((v.tasks ++ visits.map fun w => (v.levels.length, w, Phase.fresh)).modify i fun t =>
        (t.1, t.2.1, .descending v.levels.length info))[j]? = some u →
      j ≠ i ∧ v.tasks[j]? = some u ∨ j = i ∧ u = (t.1, t.2.1, .descending v.levels.length info) ∨
        v.tasks.length ≤ j ∧ ∃ w ∈ visits, u = (v.levels.length, w, .fresh) := by
    intro j u hu
    rcases modify_cases hu with ⟨hne, hu⟩ | ⟨rfl, a, ha, rfl⟩
    · rcases getElem?_append_cases hu with hu | ⟨hj, hnew⟩
      · exact .inl ⟨hne, hu⟩
      · obtain ⟨w, hw, rfl⟩ := List.mem_map.mp hnew
        exact .inr (.inr ⟨hj, w, hw, rfl⟩)
    · rw [List.getElem?_append_left hi, ht] at ha
      cases ha
      exact .inr (.inl ⟨rfl, rfl⟩)
  refine ⟨h.met, h.distinct, h.genuine, h.listed, h.reported, h.told, ?_, ?_, ?_, ?_⟩
  · rintro k (rfl | ⟨j, u, _, hu, hk⟩)
    · exact htotal 0 (h.totals 0 (.inl rfl))
    · refine htotal k ?_
      rcases hcases hu with ⟨hne, hu⟩ | ⟨_, rfl⟩ | ⟨_, w, _, rfl⟩
      · exact h.totals k (.inr ⟨j, u, hne, hu, hk⟩)
      · obtain ⟨found, hfound⟩ := hk
        rw [← (Phase.descending.inj hfound).1]
        exact hnew
      · obtain ⟨found, hfound⟩ := hk
        cases hfound
  · intro l hl total hclosed
    rcases List.mem_append.mp hl with hl | hl
    · exact h.closed l hl total hclosed
    · rw [List.mem_singleton.mp hl] at hclosed
      cases hclosed
  · intro j u _ hu
    rcases hcases hu with ⟨hne, hu⟩ | ⟨rfl, rfl⟩ | ⟨hj, w, hw, rfl⟩
    · exact h.tasks j u hne hu
    · exact hfound
    · obtain ⟨houter, hplace⟩ := hvisits w hw
      have hnone : inv.held (.task j) = [] := h.held_eq_nil (Nat.not_lt.mpr hj)
      refine ⟨⟨?_, ?_, ?_⟩, fun _ => hplace⟩
      · rw [hnone, houter]
        rfl
      · rw [hnone]
        intro x hx
        cases hx
      · rw [hnone]
        intro x hx
        cases hx
  · intro e he
    have := h.owners e he
    unfold View.setPhase
    dsimp only
    rw [List.length_modify, List.length_append, List.length_append]
    cases hown : e.1 with
    | task j =>
      rw [hown] at this
      exact Nat.lt_add_right _ this
    | level k =>
      rw [hown] at this
      exact Nat.lt_add_right _ this

/-- The items of the task are marked such that they make up a tally. -/
theorem remark (h : Accounts env (· ≠ i) v inv) {name : Path} {infos : List FileInfo}
    (htrail : inv.Trail (v.reportedIds env) i name infos) (hne : infos ≠ []) {ys : List Item}
    (hobjects : ys.map (·.object) = (inv.held (.task i)).map (·.object)) {info : FileInfo}
    (hlast : ∀ y, ys.getLast? = some y → y.info = info) :
    ∃ inv' : Inventory, Accounts env (· ≠ i) v inv' ∧ inv'.held (.task i) = ys ∧
      (∀ o, o ≠ .task i → inv'.held o = inv.held o) ∧
      ∃ y ∈ ys, y.place = name ∧ y.info = info ∧ some y.id ∉ v.reportedIds env := by
  obtain ⟨inv', hsame, hheld, hothers⟩ := inv.exists_held hobjects
  refine ⟨inv', h.settle hsame hothers, hheld, hothers, ?_⟩
  have hys : ys ≠ [] := by
    rintro rfl
    rw [List.map_nil, eq_comm, List.map_eq_nil_iff] at hobjects
    have := htrail.infos
    rw [hobjects] at this
    exact hne this.symm
  obtain ⟨y, hy⟩ := Option.isSome_iff_exists.mp (List.getLast?_isSome.mpr hys)
  have hobject := congrArg List.getLast? hobjects
  rw [List.getLast?_map, List.getLast?_map, hy, Option.map_some, eq_comm,
    Option.map_eq_some_iff] at hobject
  obtain ⟨x, hx, heq⟩ := hobject
  obtain ⟨hplace, hnew⟩ := htrail.outermost x hx
  rw [Item.id_of_object heq] at hnew
  exact ⟨y, List.mem_of_getLast? hy, (Prod.mk.inj heq).1.symm.trans hplace, hlast y hy, hnew⟩

end Accounts

end TreeCensus.Walk
