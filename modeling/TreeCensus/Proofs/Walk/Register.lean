import TreeCensus.Proofs.Walk.Shares

/-!
# Registers of a walk

A register keeps what a walk has told the path handler, next to its levels and tasks. The accepted calls
about the items of one level make up a chapter. As long as the level is open a task waits for it, and when
it has closed that task reports the directory with a tally that takes the chapter in, unless the filter
does not include the directory and nothing in the chapter has been counted. Each change that a walk makes
to its register has an entry here that keeps the chapters.
-/

namespace TreeCensus

set_option autoImplicit false

namespace Tally

/-- No counter is negative. -/
structure Proper (t : Tally) : Prop where
  files : 0 ≤ t.files
  directories : 0 ≤ t.directories
  links : 0 ≤ t.links

/-- The tally takes in some others: their sizes together, the newest of their times, and all that they
count. -/
structure TakesIn (t : Tally) (ts : List Tally) : Prop where
  size : t.size = (sum ts).size
  newest : t.newest = (sum ts).newest
  files : (sum ts).files ≤ t.files
  directories : (sum ts).directories ≤ t.directories
  links : (sum ts).links ≤ t.links

variable {t u : Tally} {ts : List Tally}

theorem proper_zero : Proper zero := ⟨le_refl _, le_refl _, le_refl _⟩

theorem Proper.add (ht : t.Proper) (hu : u.Proper) : (t.add u).Proper :=
  ⟨Int.add_nonneg ht.files hu.files, Int.add_nonneg ht.directories hu.directories,
    Int.add_nonneg ht.links hu.links⟩

theorem Proper.items_nonneg (h : t.Proper) : 0 ≤ t.items :=
  Int.add_nonneg (Int.add_nonneg h.files h.directories) h.links

theorem Proper.count (h : t.Proper) (kind : ItemKind) : (t.count kind).Proper := by
  obtain ⟨hfiles, hdirectories, hlinks⟩ := h
  cases kind <;> refine ⟨?_, ?_, ?_⟩ <;> simp only [Tally.count] <;> omega

theorem Proper.count_items (h : t.Proper) {kind : ItemKind} (hkind : kind ≠ .other) :
    1 ≤ (t.count kind).items := by
  have hitems := h.items_nonneg
  cases kind with
  | other => exact absurd rfl hkind
  | _ => simp only [Tally.count, items] at hitems ⊢; omega

theorem proper_sum (h : ∀ t ∈ ts, t.Proper) : (sum ts).Proper := by
  induction ts with
  | nil => exact proper_zero
  | cons t ts ih =>
    exact (h t List.mem_cons_self).add (ih fun u hu => h u (List.mem_cons_of_mem _ hu))

theorem items_le_sum (h : ∀ t ∈ ts, t.Proper) (ht : t ∈ ts) : t.items ≤ (sum ts).items := by
  induction ts with
  | nil => cases ht
  | cons u ts ih =>
    have hrest : ∀ t ∈ ts, t.Proper := fun v hv => h v (List.mem_cons_of_mem _ hv)
    rw [sum_cons, items_add]
    rcases List.mem_cons.mp ht with rfl | ht
    · have := (proper_sum hrest).items_nonneg
      omega
    · have := (h u List.mem_cons_self).items_nonneg
      have := ih hrest ht
      omega

theorem takesIn_sum (ts : List Tally) : (sum ts).TakesIn ts := ⟨rfl, rfl, le_refl _, le_refl _, le_refl _⟩

theorem TakesIn.count (h : t.TakesIn ts) (kind : ItemKind) : (t.count kind).TakesIn ts := by
  obtain ⟨hsize, hnewest, hfiles, hdirectories, hlinks⟩ := h
  cases kind <;> refine ⟨hsize, hnewest, ?_, ?_, ?_⟩ <;> simp only [Tally.count] <;> omega

/-- What counting keeps, counting some items keeps. -/
theorem foldl_count_induct {P : Tally → Prop} (hcount : ∀ t kind, P t → P (t.count kind))
    (kinds : List ItemKind) (ht : P t) : P (kinds.foldl (fun t kind => t.count kind) t) := by
  induction kinds generalizing t with
  | nil => exact ht
  | cons kind kinds ih => exact ih (hcount t kind ht)

theorem Proper.one_le_items (h : t.Proper) {kinds : List ItemKind} (hkinds : ∃ kind ∈ kinds, kind ≠ .other) :
    1 ≤ (kinds.foldl (fun t kind => t.count kind) t).items := by
  induction kinds generalizing t with
  | nil => simp at hkinds
  | cons kind kinds ih =>
    by_cases hkind : kind = .other
    · refine ih (h.count kind) ?_
      obtain ⟨counted, hmem, hcounted⟩ := hkinds
      rcases List.mem_cons.mp hmem with rfl | hmem
      · exact absurd hkind hcounted
      · exact ⟨counted, hmem, hcounted⟩
    · exact foldl_count_induct (P := fun t => 1 ≤ t.items)
        (fun t kind ht => le_trans ht (items_le_count kind t)) kinds (h.count_items hkind)

end Tally

namespace FileInfo

/-- Something can be below it: it is a directory or a link. -/
def Opens (i : FileInfo) : Prop := i.kind = .directory ∨ i.kind = .link

theorem proper_tally (i : FileInfo) : i.tally.Proper := by
  unfold tally
  split <;> exact ⟨le_refl _, le_refl _, le_refl _⟩

end FileInfo

namespace Walk

variable {σ : Type}

/-- The path lies under the parent, by a name that is listed somewhere. -/
def Environment.Holds (env : Environment σ) (parent p : Path) : Prop :=
  ∃ place names name, env.files.entries place = .ok names ∧ name ∈ names ∧
    p = (env.spot (Path.under parent name)).name

/-- What a task is going to do for the tally of its level. -/
inductive Role
  /-- Nothing has been found yet at the place of the visit. -/
  | ahead
  /-- This was found there. -/
  | found (i : FileInfo)
  /-- The same, and a level below is waited for. -/
  | awaits (level : Nat) (i : FileInfo)
  /-- The item is to be reported. -/
  | owes (i : FileInfo) (t : Tally)
  /-- The item has been reported, and the answer has no effect yet. -/
  | told (i : FileInfo) (t : Tally)
  | finished

namespace Job

def role : Job → Role
  | info => .ahead
  | target i | entries i => .found i
  | report i t => .owes i t

/-- The role of a task whose job has begun. -/
def begun : Job → Role
  | report i t => .told i t
  | job => job.role

/-- The role of a task whose job has failed. -/
def failed : Job → Role
  | report _ _ => .finished
  | job => job.role

end Job

def Phase.role : Phase → Role
  | fresh => .ahead
  | queued _ job => job.role
  | calling job => job.begun
  | consulting job _ => job.failed
  | descending k i => .awaits k i
  | logging _ | ended _ => .finished

def Outcome.role : Outcome → Role
  | «over» _ => .finished
  | counted i t => .owes i t

structure Tier where
  depth : Nat
  total : Tally
  stage : Stage

structure Register where
  tiers : List Tier
  /-- The level and the visit of each task, and its role. -/
  tasks : List (Nat × Visit × Role)
  /-- What the path handler has been told, the latest first. -/
  calls : List PathCall

/-- The accepted calls about the items of a level. -/
structure Chapter where
  /-- The path below which the items are. -/
  parent : Path
  calls : List PathCall

namespace Chapter

def tallies (ch : Chapter) : List Tally := ch.calls.map (·.tally)

def add (c : PathCall) (ch : Chapter) : Chapter := { ch with calls := c :: ch.calls }

/-- The call about the parent takes the chapter in. -/
structure HandedOn (ch : Chapter) (d : PathCall) : Prop where
  path : d.path = ch.parent
  level : ∀ c ∈ ch.calls, c.level = d.level + 1
  opens : d.info.Opens
  tally : d.tally.TakesIn ch.tallies

/-- After all calls of the chapter there was a call about the parent, which takes the chapter in. -/
def Told (ch : Chapter) (calls : List PathCall) : Prop :=
  ∃ later d earlier, calls = later ++ d :: earlier ∧ ch.calls ⊆ earlier ∧ ch.HandedOn d

/-- The filter does not include the parent, and the chapter is about items that have no counter. -/
def Dropped (env : Environment σ) (ch : Chapter) : Prop :=
  env.verdict ch.parent ≠ .included ∧ ∀ c ∈ ch.calls, c.info.kind = .other

theorem Told.cons {ch : Chapter} {calls : List PathCall} (h : ch.Told calls) (c : PathCall) :
    ch.Told (c :: calls) := by
  obtain ⟨later, d, earlier, rfl, hsubset, hhanded⟩ := h
  exact ⟨c :: later, d, earlier, rfl, hsubset, hhanded⟩

end Chapter

/-- The tally of an item shows that the item was counted, if it has a counter. -/
def Counts (i : FileInfo) (t : Tally) : Prop := t.Proper ∧ (i.kind = .other ∨ 1 ≤ t.items)

section Outcomes

variable {verdict : Verdict} {outer : List FileInfo} {i : FileInfo} {t : Tally}

/-- A visit comes to a tally that shows its item. -/
theorem counts_settle (ht : t.Proper) {j : FileInfo} {u : Tally}
    (h : settle verdict outer i t = .counted j u) : Counts j u := by
  rw [settle_eq] at h
  split at h
  · obtain ⟨rfl, rfl⟩ := Outcome.counted.inj h
    refine ⟨Tally.foldl_count_induct (P := Tally.Proper) (fun _ kind h => h.count kind) _ ht, ?_⟩
    have hlast := List.getLast_mem (List.cons_ne_nil i outer)
    rcases eq_or_ne ((i :: outer).getLast (List.cons_ne_nil _ _)).kind .other with hother | hkind
    · exact .inl hother
    · exact .inr (ht.one_le_items ⟨_, List.mem_map_of_mem hlast, hkind⟩)
  · cases h

theorem counts_unwind {j : FileInfo} {u : Tally} (h : unwind verdict none outer = .counted j u) :
    Counts j u := by
  cases outer with
  | nil => cases h
  | cons link rest => exact counts_settle link.proper_tally h

/-- A directory is counted with a tally that takes in what is below it, or it is not included and
nothing below it has been counted. -/
theorem settle_takesIn (houter : ∀ l ∈ outer, l.Opens) (hi : i.Opens) {ts : List Tally}
    (ht : t = Tally.sum ts) :
    (∃ j u, settle verdict outer i t = .counted j u ∧ j.Opens ∧ u.TakesIn ts) ∨
      (∃ share, settle verdict outer i t = .over share) ∧ verdict ≠ .included ∧ t.items < 1 := by
  rw [settle_eq]
  split
  · refine .inl ⟨_, _, rfl, ?_, ?_⟩
    · rcases List.mem_cons.mp (List.getLast_mem (List.cons_ne_nil i outer)) with heq | hmem
      · rw [heq]
        exact hi
      · exact houter _ hmem
    · rw [ht]
      exact Tally.foldl_count_induct (P := (Tally.TakesIn · ts)) (fun _ kind h => h.count kind) _
        (Tally.takesIn_sum ts)
  · next hcounts =>
    rw [not_or, Int.not_le] at hcounts
    exact .inr ⟨⟨_, rfl⟩, hcounts⟩

end Outcomes

namespace Register

section Changes

variable (r : Register) (i k : Nat)

def depths : List Nat := r.tiers.map (·.depth)

/-- What the path handler is told about a visit. -/
def call (v : Visit) (info : FileInfo) (t : Tally) : PathCall := ⟨v.name, r.depths[k]?.getD 0, info, t⟩

def put (v : Visit) (role : Role) : Register :=
  { r with tasks := r.tasks.modify i fun x => (x.1, v, role) }

def tell (c : PathCall) : Register := { r with calls := c :: r.calls }

def addTotal (t : Tally) : Register :=
  { r with tiers := r.tiers.modify k fun l => { l with total := l.total.add t } }

def close : Register :=
  { r with tiers := r.tiers.modify k fun l => { l with stage := .closed (.ok l.total) } }

def openLevel (depth : Nat) (visits : List Visit) : Register :=
  { r with
    tiers := r.tiers ++ [⟨depth, .zero, .running⟩]
    tasks := r.tasks ++ visits.map fun v => (r.tiers.length, v, .ahead) }

@[simp] theorem put_put (v w : Visit) (a b : Role) : (r.put i v a).put i w b = r.put i w b := by
  unfold put
  dsimp only
  rw [List.modify_modify_eq]
  rfl

theorem tell_put (v : Visit) (role : Role) (c : PathCall) : (r.put i v role).tell c = (r.tell c).put i v role := rfl

theorem addTotal_put (v : Visit) (role : Role) (t : Tally) :
    (r.put i v role).addTotal k t = (r.addTotal k t).put i v role := rfl

theorem openLevel_put (h : i < r.tasks.length) (v : Visit) (role : Role) (depth : Nat) (visits : List Visit) :
    (r.put i v role).openLevel depth visits = (r.openLevel depth visits).put i v role := by
  unfold openLevel put
  dsimp only
  rw [modify_append h]

theorem call_put (w : Visit) (role : Role) (v : Visit) (info : FileInfo) (t : Tally) :
    (r.put i w role).call k v info t = r.call k v info t := rfl

@[simp] theorem depths_put (v : Visit) (role : Role) : (r.put i v role).depths = r.depths := rfl

@[simp] theorem depths_addTotal (t : Tally) : (r.addTotal k t).depths = r.depths :=
  map_modify_of_eq (f := fun l : Tier => { l with total := l.total.add t }) (fun _ => rfl) r.tiers k

@[simp] theorem depths_close : (r.close k).depths = r.depths :=
  map_modify_of_eq (f := fun l : Tier => { l with stage := .closed (.ok l.total) }) (fun _ => rfl) r.tiers k

@[simp] theorem depths_openLevel (depth : Nat) (visits : List Visit) :
    (r.openLevel depth visits).depths = r.depths ++ [depth] := List.map_append

theorem length_depths : r.depths.length = r.tiers.length := List.length_map _

end Changes

variable {r : Register} {i j k : Nat} {v w : Visit} {old role : Role} {f : FileInfo} {t : Tally}

theorem getElem?_put (h : r.tasks[i]? = some (k, v, old)) (w : Visit) (role : Role) :
    (r.put i w role).tasks[i]? = some (k, w, role) := by
  unfold put
  dsimp only
  rw [List.getElem?_modify_eq, h]
  rfl

theorem getElem?_put_ne (h : j ≠ i) (w : Visit) (role : Role) :
    (r.put i w role).tasks[j]? = r.tasks[j]? := List.getElem?_modify_ne _ _ (Ne.symm h)

/-- The tasks in other roles stay as they are. -/
theorem getElem?_put_of_ne {x : Nat × Visit × Role} (hi : r.tasks[i]? = some (k, v, old))
    (hj : r.tasks[j]? = some x) (hne : x.2.2 ≠ old) (w : Visit) (role : Role) :
    (r.put i w role).tasks[j]? = some x := by
  rw [getElem?_put_ne]
  · exact hj
  · rintro rfl
    obtain rfl := Option.some.inj (hj.symm.trans hi)
    exact hne rfl

theorem put_self (h : r.tasks[i]? = some (k, v, role)) : r.put i v role = r := by
  unfold put
  rw [modify_of_eq_self h rfl]

theorem put_cases {x : Nat × Visit × Role} (hi : r.tasks[i]? = some (k, v, old))
    (h : (r.put i w role).tasks[j]? = some x) :
    j ≠ i ∧ r.tasks[j]? = some x ∨ j = i ∧ x = (k, w, role) := by
  rcases modify_cases h with hne | ⟨rfl, y, hy, rfl⟩
  · exact .inl hne
  · obtain rfl := Option.some.inj (hi.symm.trans hy)
    exact .inr ⟨rfl, rfl⟩

end Register

end Walk

end TreeCensus
