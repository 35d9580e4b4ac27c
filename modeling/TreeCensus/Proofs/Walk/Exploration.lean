import TreeCensus.Proofs.Walk.Sketch

/-!
# What a walk explores

A walk that has found an object goes on to what is inside it or behind it. Whatever it has to go on to is
ahead of a task, or was found before, or the filter leaves it out, as long as nobody has the object in
hand. When no task has anything ahead of it, what was found is closed under going on.
-/

namespace TreeCensus.Walk

set_option autoImplicit false

variable {σ : Type}

/-- Where something is, and the path under which it is reported. -/
structure Spot where
  name : Path
  place : Path
  deriving DecidableEq

def Visit.spot (v : Visit) : Spot := ⟨v.name, v.place⟩

/-- An object that was found somewhere. -/
structure Find where
  spot : Spot
  info : FileInfo
  deriving DecidableEq

def Find.id (x : Find) : Text := x.info.identity x.spot.place

namespace Environment

variable (env : Environment σ) {paths : List Path} {finds : List Find} {a b : Spot}

/-- Where the visit of a path begins. -/
def spot (p : Path) : Spot := ⟨Path.resolve env.files.cwd p, Path.resolve env.files.cwd p⟩

/-- What the filter says of a path; without a filter all is included. -/
def verdict (p : Path) : Verdict := (env.options.filter.map fun f => f p).getD .included

/-- From an object that was found somewhere a walk goes on to somewhere else. -/
inductive Leads (a : Spot) (i : FileInfo) : Spot → Prop
  | inside {names : List Text} {name : Text} (kind : i.kind = .directory)
      (entries : env.files.entries a.place = .ok names) (mem : name ∈ names) :
      Leads a i (env.spot (Path.under a.name name))
  | behind {target : Text} (kind : i.kind = .link) (walks : env.options.walkLinks = true)
      (reads : env.files.target a.place = .ok target) (somewhere : target ≠ []) :
      Leads a i ⟨a.name, env.behind a.place target⟩

/-- A walk can come there. -/
inductive Comes (paths : List Path) : Spot → Prop
  | top {p : Path} (mem : p ∈ paths) : Comes paths (env.spot p)
  | on {a b : Spot} {i : FileInfo} (before : Comes paths a) (info : env.files.info a.place = .ok i)
      (leads : env.Leads a i b) : Comes paths b

/-- It is one of the topmost places, or something that was found leads there. -/
def Stems (paths : List Path) (finds : List Find) (b : Spot) : Prop :=
  (∃ p ∈ paths, b = env.spot p) ∨ ∃ x ∈ finds, env.Leads x.spot x.info b

/-- One thing was found after the other, the latest first. -/
inductive Traced (paths : List Path) : List Find → Prop
  | nil : Traced paths []
  | cons {x : Find} {finds : List Find} (before : Traced paths finds) (stems : env.Stems paths finds x.spot)
      (info : env.files.info x.spot.place = .ok x.info) : Traced paths (x :: finds)

/-- Whoever looks there goes no further: it is a file that is not included, or was found before. -/
def Passed (visited : List Text) (b : Spot) : Prop :=
  ∃ i, env.files.info b.place = .ok i ∧
    (i.kind = .file ∧ env.verdict b.name ≠ .included ∨ i.identity b.place ∈ visited)

variable {env}

/-- Only a link is reported under a path where it is not. -/
theorem Comes.place_eq (h : env.Comes paths a) :
    a.place = a.name ∨ ∃ i, env.files.info a.name = .ok i ∧ i.kind = .link := by
  induction h with
  | top => exact .inl rfl
  | @on a b i _ info leads ih =>
    cases leads with
    | inside => exact .inl rfl
    | behind kind =>
      rcases ih with hplace | hlink
      · exact .inr ⟨i, hplace ▸ info, kind⟩
      · exact .inr hlink

theorem Stems.mono {finds' : List Find} (h : env.Stems paths finds a) (hfinds : finds ⊆ finds') :
    env.Stems paths finds' a := by
  rcases h with htop | ⟨x, hx, hleads⟩
  · exact .inl htop
  · exact .inr ⟨x, hfinds hx, hleads⟩

namespace Traced

theorem info {x : Find} (h : env.Traced paths finds) (hx : x ∈ finds) :
    env.files.info x.spot.place = .ok x.info := by
  induction h with
  | nil => cases hx
  | cons _ _ info ih =>
    rcases List.mem_cons.mp hx with rfl | hx
    · exact info
    · exact ih hx

theorem comes_of_stems (h : env.Traced paths finds) (hstems : env.Stems paths finds a) :
    env.Comes paths a := by
  induction h generalizing a with
  | nil =>
    obtain ⟨p, hp, rfl⟩ | ⟨x, hx, _⟩ := hstems
    · exact .top hp
    · cases hx
  | @cons y finds _ stems info ih =>
    obtain ⟨p, hp, rfl⟩ | ⟨x, hx, hleads⟩ := hstems
    · exact .top hp
    · rcases List.mem_cons.mp hx with rfl | hx
      · exact .on (ih stems) info hleads
      · exact ih (.inr ⟨x, hx, hleads⟩)

theorem comes {x : Find} (h : env.Traced paths finds) (hx : x ∈ finds) : env.Comes paths x.spot := by
  induction h with
  | nil => cases hx
  | cons before stems _ ih =>
    rcases List.mem_cons.mp hx with rfl | hx
    · exact before.comes_of_stems stems
    · exact ih hx

end Traced

theorem Passed.mono {visited visited' : List Text} (h : env.Passed visited b) (hvisited : visited ⊆ visited') :
    env.Passed visited' b := by
  obtain ⟨i, hinfo, hskips | hid⟩ := h
  · exact ⟨i, hinfo, .inl hskips⟩
  · exact ⟨i, hinfo, .inr (hvisited hid)⟩

theorem Ends.not_leads {i : FileInfo} (h : env.Ends a.place i) (b : Spot) : ¬ env.Leads a i b := by
  intro hleads
  cases h with
  | plain kind =>
    cases hleads with
    | inside hdirectory => rw [hdirectory] at kind; simp at kind
    | behind hlink => rw [hlink] at kind; simp at kind
  | link kind nowhere =>
    cases hleads with
    | inside hdirectory => rw [kind] at hdirectory; cases hdirectory
    | behind _ walks reads somewhere => exact somewhere (Except.ok.inj (reads.symm.trans (nowhere walks)))
  | directory kind empty =>
    cases hleads with
    | inside _ entries mem =>
      rw [Except.ok.inj (entries.symm.trans empty)] at mem
      cases mem
    | behind hlink => rw [kind] at hlink; cases hlink

/-- A path that the filter does not exclude is visited. -/
theorem exists_visit {p : Path} (hp : p ∈ paths) (hverdict : env.verdict (env.spot p).name ≠ .excluded) :
    ∃ v ∈ State.visits env paths, v.spot = env.spot p := by
  obtain ⟨n, hn⟩ := List.getElem?_of_mem hp
  have hmem : (p, n) ∈ paths.zipIdx := List.mem_zipIdx_iff_getElem?.mpr hn
  unfold State.visits
  unfold verdict at hverdict
  cases hfilter : env.options.filter with
  | none => exact ⟨⟨_, _, n, .included, []⟩, List.mem_filterMap.mpr ⟨_, hmem, rfl⟩, rfl⟩
  | some f =>
    rw [hfilter] at hverdict
    exact ⟨⟨_, _, n, _, []⟩, List.mem_filterMap.mpr ⟨_, hmem, if_neg hverdict⟩, rfl⟩

theorem visit_spot {v : Visit} (hv : v ∈ State.visits env paths) :
    ∃ p ∈ paths, v.spot = env.spot p ∧ v.verdict = env.verdict v.name := by
  obtain ⟨p, hp, -, heq⟩ := State.eq_of_mem_visits hv
  refine ⟨p, hp, ?_⟩
  rw [heq]
  refine ⟨rfl, ?_⟩
  unfold verdict
  cases env.options.filter <;> rfl

end Environment

/-- What was found by a task that has not gone on from it altogether. -/
def Stance.find? : Stance → Option FileInfo
  | found i | awaits _ i => some i
  | _ => none

theorem Outcome.stance_find? (o : Outcome) : o.stance.find? = none := by
  cases o <;> rfl

theorem Outcome.stance_ne_ahead (o : Outcome) : o.stance ≠ .ahead := by
  cases o <;> nofun

namespace Sketch

variable {env : Environment σ} {paths : List Path} {finds : List Find} {w w' : Sketch} {b : Spot}

/-- A task visits something and is up to something there. -/
def Works (w : Sketch) (j : Nat) (v : Visit) (stance : Stance) : Prop := ∃ k, w.tasks[j]? = some (k, v, stance)

/-- Some task is about to look there, or nobody needs to. -/
def Attended (env : Environment σ) (w : Sketch) (b : Spot) : Prop :=
  env.verdict b.name ≠ .excluded →
    (∃ j v, w.Works j v .ahead ∧ v.spot = b) ∨ env.Passed w.visited b

/-- The tasks know what the filter says of what they visit. -/
structure Rooted (env : Environment σ) (w : Sketch) : Prop where
  verdict : ∀ t ∈ w.tasks, t.2.1.verdict = env.verdict t.2.1.name
  included : ∀ t ∈ w.tasks, ∀ i, t.2.2.find? = some i → i.kind = .file → t.2.1.verdict = .included

/-- What was found accounts for what was visited, and for where there is to go on to. -/
structure Explored (env : Environment σ) (paths : List Path) (finds : List Find) (w : Sketch) : Prop where
  met : finds.map Find.id = w.visited
  distinct : w.visited.Nodup
  traced : env.Traced paths finds
  stems : ∀ t ∈ w.tasks, t.2.2 = .ahead → env.Stems paths finds t.2.1.spot
  found : ∀ t ∈ w.tasks, ∀ i, t.2.2.find? = some i → ⟨t.2.1.spot, i⟩ ∈ finds
  tops : ∀ p ∈ paths, w.Attended env (env.spot p)
  /-- A task has the object in hand, or has gone on from it. -/
  expanded : ∀ x ∈ finds, (∃ j v, w.Works j v (.found x.info) ∧ v.spot = x.spot) ∨
    ∀ b, env.Leads x.spot x.info b → w.Attended env b

section Set

variable {i j k : Nat} {u v : Visit} {stance stance' stance'' : Stance} {t : Nat × Visit × Stance}

theorem Works.unique (h : w.Works i v stance) (h' : w.Works i u stance') : u = v ∧ stance' = stance := by
  obtain ⟨k, h⟩ := h
  obtain ⟨k', h'⟩ := h'
  exact Prod.mk.inj (Prod.mk.inj (Option.some.inj (h'.symm.trans h))).2

theorem Works.set_ne (h : w.Works j v stance) (hj : j ≠ i) (stance' : Stance) :
    (w.set i stance').Works j v stance :=
  h.imp fun _ h => (List.getElem?_modify_ne _ _ (Ne.symm hj)).trans h

theorem Works.set (h : w.Works i v stance) (stance' : Stance) : (w.set i stance').Works i v stance' :=
  h.imp fun _ h => getElem?_set h stance'

/-- A task is one of the others that there were, or the one whose stance is set. -/
theorem mem_set (ht : t ∈ (w.set i stance').tasks) (h : w.Works i v stance) :
    (∃ j, j ≠ i ∧ w.tasks[j]? = some t) ∨ t.2 = (v, stance') := by
  obtain ⟨k, h⟩ := h
  obtain ⟨j, hj⟩ := List.getElem?_of_mem ht
  rcases modify_cases hj with hother | ⟨_, u, hu, rfl⟩
  · exact .inl ⟨j, hother⟩
  · obtain rfl := Option.some.inj (h.symm.trans hu)
    exact .inr rfl

theorem Works.move (h : w.Works i v stance) (v' : Visit) : (w.move i v').Works i v' stance := by
  refine h.imp fun k h => ?_
  change (w.tasks.modify i _)[i]? = _
  rw [List.getElem?_modify_eq, h]
  rfl

theorem Works.move_ne (h : w.Works j v stance) (hj : j ≠ i) (v' : Visit) : (w.move i v').Works j v stance :=
  h.imp fun _ h => (List.getElem?_modify_ne _ _ (Ne.symm hj)).trans h

theorem Works.openLevel (h : w.Works j v stance) (visits : List Visit) :
    (w.openLevel visits).Works j v stance := by
  refine h.imp fun k h => ?_
  exact (List.getElem?_append_left (List.getElem?_eq_some_iff.mp h).1).trans h

/-- Each place of a new level is ahead of a task of its own. -/
theorem works_openLevel {visits : List Visit} (hv : v ∈ visits) :
    ∃ j, w.tasks.length ≤ j ∧ (w.openLevel visits).Works j v .ahead := by
  obtain ⟨n, hn⟩ := List.getElem?_of_mem hv
  refine ⟨w.tasks.length + n, Nat.le_add_right _ _, w.levels.length, ?_⟩
  refine (List.getElem?_append_right (Nat.le_add_right _ _)).trans ?_
  rw [Nat.add_sub_cancel_left, List.getElem?_map, hn]
  rfl

theorem mem_openLevel {visits : List Visit} (ht : t ∈ (w.openLevel visits).tasks) :
    t ∈ w.tasks ∨ ∃ v ∈ visits, t.2 = (v, .ahead) := by
  rcases List.mem_append.mp ht with ht | ht
  · exact .inl ht
  · obtain ⟨v, hv, rfl⟩ := List.mem_map.mp ht
    exact .inr ⟨v, hv, rfl⟩

end Set

theorem Attended.mono (h : w.Attended env b) (hvisited : w.visited ⊆ w'.visited)
    (hahead : ∀ j v, w.Works j v .ahead → w'.Works j v .ahead ∨ env.Passed w'.visited v.spot) :
    w'.Attended env b := by
  intro hverdict
  rcases h hverdict with ⟨j, v, hworks, rfl⟩ | hpassed
  · rcases hahead j v hworks with hworks | hpassed
    · exact .inl ⟨j, v, hworks, rfl⟩
    · exact .inr hpassed
  · exact .inr (hpassed.mono hvisited)

namespace Explored

variable {i k : Nat} {v : Visit} {stance stance' : Stance} {f : FileInfo}

/-- Nothing new is found; what was ahead of a task or in its hand is still there or has been dealt with. -/
theorem onward (h : Explored env paths finds w) (hvisited : w'.visited = w.visited)
    (hahead : ∀ j v, w.Works j v .ahead → w'.Works j v .ahead ∨ env.Passed w'.visited v.spot)
    (hfound : ∀ j v f, w.Works j v (.found f) →
      w'.Works j v (.found f) ∨ ∀ b, env.Leads v.spot f b → w'.Attended env b)
    (htasks : ∀ t ∈ w'.tasks, t ∈ w.tasks ∨ (t.2.2 = .ahead → env.Stems paths finds t.2.1.spot) ∧
      ∀ f, t.2.2.find? = some f → ⟨t.2.1.spot, f⟩ ∈ finds) : Explored env paths finds w' := by
  have hattended : ∀ {b}, w.Attended env b → w'.Attended env b :=
    fun hb => hb.mono (hvisited ▸ List.Subset.refl _) hahead
  refine ⟨hvisited ▸ h.met, hvisited ▸ h.distinct, h.traced, ?_, ?_, fun p hp => hattended (h.tops p hp), ?_⟩
  · intro t ht
    rcases htasks t ht with ht | hnew
    · exact h.stems t ht
    · exact hnew.1
  · intro t ht
    rcases htasks t ht with ht | hnew
    · exact h.found t ht
    · exact hnew.2
  · intro x hx
    rcases h.expanded x hx with ⟨j, v, hworks, hspot⟩ | hall
    · rcases hfound j v _ hworks with hworks | hall
      · exact .inl ⟨j, v, hworks, hspot⟩
      · exact .inr (hspot ▸ hall)
    · exact .inr fun b hleads => hattended (hall b hleads)

/-- A task is done with what was ahead of it or in its hand. -/
theorem set (h : Explored env paths finds w) (hi : w.Works i v stance)
    (hpassed : stance = .ahead → env.Passed w.visited v.spot)
    (hdone : ∀ f, stance = .found f → ∀ b, env.Leads v.spot f b → (w.set i stance').Attended env b)
    (hstance : stance' ≠ .ahead) (hfind : ∀ f, stance'.find? = some f → ⟨v.spot, f⟩ ∈ finds) :
    Explored env paths finds (w.set i stance') := by
  refine h.onward rfl ?_ ?_ ?_
  · intro j u hj
    by_cases hne : j = i
    · subst hne
      obtain ⟨rfl, hahead⟩ := hi.unique hj
      exact .inr (hpassed hahead.symm)
    · exact .inl (hj.set_ne hne _)
  · intro j u f hj
    by_cases hne : j = i
    · subst hne
      obtain ⟨rfl, hfound⟩ := hi.unique hj
      exact .inr (hdone f hfound.symm)
    · exact .inl (hj.set_ne hne _)
  · intro t ht
    rcases mem_set ht hi with ⟨j, _, hj⟩ | heq
    · exact .inl (List.mem_of_getElem? hj)
    · rw [heq]
      exact .inr ⟨fun hahead => absurd hahead hstance, hfind⟩

theorem meet (h : Explored env paths finds w) (hi : w.Works i v .ahead)
    (hinfo : env.files.info v.place = .ok f) (hnew : f.identity v.place ∉ w.visited) :
    Explored env paths (⟨v.spot, f⟩ :: finds) ((w.meet (f.identity v.place)).set i (.found f)) := by
  have hstems : env.Stems paths finds v.spot := by
    obtain ⟨k, hk⟩ := hi
    exact h.stems _ (List.mem_of_getElem? hk) rfl
  have hi' : (w.meet (f.identity v.place)).Works i v .ahead := hi
  have hattended : ∀ {b}, w.Attended env b →
      ((w.meet (f.identity v.place)).set i (.found f)).Attended env b := by
    intro b hb
    refine hb.mono (List.subset_cons_self _ _) ?_
    intro j u hj
    by_cases hne : j = i
    · subst hne
      obtain ⟨rfl, -⟩ := hi.unique hj
      exact .inr ⟨f, hinfo, .inr List.mem_cons_self⟩
    · exact .inl (Works.set_ne (w := w.meet _) hj hne _)
  refine ⟨?_, List.nodup_cons.mpr ⟨hnew, h.distinct⟩, .cons h.traced hstems hinfo, ?_, ?_,
    fun p hp => hattended (h.tops p hp), ?_⟩
  · rw [List.map_cons, h.met]
    rfl
  · intro t ht hahead
    rcases mem_set ht hi' with ⟨j, _, hj⟩ | heq
    · exact (h.stems t (List.mem_of_getElem? hj) hahead).mono (List.subset_cons_self _ _)
    · rw [heq] at hahead
      cases hahead
  · intro t ht g hg
    rcases mem_set ht hi' with ⟨j, _, hj⟩ | heq
    · exact List.mem_cons_of_mem _ (h.found t (List.mem_of_getElem? hj) g hg)
    · rw [heq] at hg ⊢
      obtain rfl := Option.some.inj hg
      exact List.mem_cons_self
  · intro x hx
    rcases List.mem_cons.mp hx with rfl | hx
    · exact .inl ⟨i, v, hi'.set _, rfl⟩
    · rcases h.expanded x hx with ⟨j, u, hj, hspot⟩ | hall
      · have hne : j ≠ i := by
          rintro rfl
          cases (hi.unique hj).2
        exact .inl ⟨j, u, Works.set_ne (w := w.meet _) hj hne _, hspot⟩
      · exact .inr fun b hleads => hattended (hall b hleads)

theorem follow (h : Explored env paths finds w) {target : Text} (hi : w.Works i v (.found f))
    (hkind : f.kind = .link) (hwalks : env.options.walkLinks = true)
    (hreads : env.files.target v.place = .ok target) (hsomewhere : target ≠ []) {outer : List FileInfo} :
    Explored env paths finds ((w.move i { v with place := env.behind v.place target, outer }).set i .ahead) := by
  have hmoved := hi.move { v with place := env.behind v.place target, outer }
  have hleads : env.Leads v.spot f ⟨v.name, env.behind v.place target⟩ :=
    .behind hkind hwalks hreads hsomewhere
  refine h.onward rfl ?_ ?_ ?_
  · intro j u hj
    have hne : j ≠ i := by
      rintro rfl
      cases (hi.unique hj).2
    exact .inl ((hj.move_ne hne _).set_ne hne _)
  · intro j u g hj
    by_cases hne : j = i
    · subst hne
      obtain ⟨rfl, heq⟩ := hi.unique hj
      obtain rfl := Stance.found.inj heq
      refine .inr fun b hb _ => .inl ⟨j, _, hmoved.set _, ?_⟩
      cases hb with
      | inside hdirectory => rw [hkind] at hdirectory; cases hdirectory
      | behind _ _ hreads' =>
        obtain rfl := Except.ok.inj (hreads.symm.trans hreads')
        rfl
    · exact .inl ((hj.move_ne hne _).set_ne hne _)
  · intro t ht
    rcases mem_set ht hmoved with ⟨j, hne, hj⟩ | heq
    · refine .inl (List.mem_of_getElem? (i := j) ?_)
      rwa [← List.getElem?_modify_ne _ _ (Ne.symm hne)]
    · rw [heq]
      refine .inr ⟨fun _ => ?_, nofun⟩
      obtain ⟨k, hk⟩ := hi
      exact .inr ⟨_, h.found _ (List.mem_of_getElem? hk) f rfl, hleads⟩

/-- A level is opened for places to which something that was found leads. -/
theorem openLevel (h : Explored env paths finds w) {visits : List Visit}
    (hvisits : ∀ v ∈ visits, env.Stems paths finds v.spot) :
    Explored env paths finds (w.openLevel visits) := by
  refine h.onward rfl (fun j u hj => .inl (hj.openLevel _)) (fun j u f hj => .inl (hj.openLevel _)) ?_
  intro t ht
  rcases mem_openLevel ht with ht | ⟨v, hv, heq⟩
  · exact .inl ht
  · rw [heq]
    exact .inr ⟨fun _ => hvisits v hv, nofun⟩

theorem finish (h : Explored env paths finds w) (hi : w.Works i v stance)
    (hpassed : stance = .ahead → env.Passed w.visited v.spot)
    (hends : ∀ f, stance = .found f → ∀ b, ¬ env.Leads v.spot f b) (o : Outcome) :
    Explored env paths finds (w.set i o.stance) := by
  refine h.set hi hpassed (fun f hf b hleads => absurd hleads (hends f hf b)) o.stance_ne_ahead ?_
  intro f hf
  rw [o.stance_find?] at hf
  cases hf

theorem descend (h : Explored env paths finds w) {names : List Text} (hi : w.Works i v (.found f))
    (hkind : f.kind = .directory) (hentries : env.files.entries v.place = .ok names) (level : Nat) :
    Explored env paths finds
      ((w.openLevel (State.visits env (names.map (Path.under v.name)))).set i (.awaits level f)) := by
  have hlt : i < w.tasks.length := by
    obtain ⟨k, hk⟩ := hi
    exact (List.getElem?_eq_some_iff.mp hk).1
  have hfound : ⟨v.spot, f⟩ ∈ finds := by
    obtain ⟨k, hk⟩ := hi
    exact h.found _ (List.mem_of_getElem? hk) f rfl
  have hleads : ∀ p ∈ names.map (Path.under v.name), env.Leads v.spot f (env.spot p) := by
    intro p hp
    obtain ⟨name, hname, rfl⟩ := List.mem_map.mp hp
    exact .inside hkind hentries hname
  have hstems : ∀ u ∈ State.visits env (names.map (Path.under v.name)), env.Stems paths finds u.spot := by
    intro u hu
    obtain ⟨p, hp, hspot, _⟩ := Environment.visit_spot hu
    exact .inr ⟨_, hfound, hspot ▸ hleads p hp⟩
  refine (h.openLevel hstems).set (hi.openLevel _) nofun ?_ nofun ?_
  · intro g hg b hb hverdict
    obtain rfl := Stance.found.inj hg
    cases hb with
    | behind hlink => rw [hkind] at hlink; cases hlink
    | @inside names' name _ hentries' mem =>
      obtain rfl := Except.ok.inj (hentries.symm.trans hentries')
      obtain ⟨u, hu, hspot⟩ := Environment.exists_visit (List.mem_map_of_mem mem) hverdict
      obtain ⟨j, hj, hworks⟩ := works_openLevel (w := w) hu
      exact .inl ⟨j, u, hworks.set_ne (Nat.ne_of_gt (Nat.lt_of_lt_of_le hlt hj)) _, hspot⟩
  · intro g hg
    obtain rfl := Option.some.inj hg
    exact hfound

end Explored

/-- No stroke leaves anything out. What it finds has the name of what its task visits. -/
theorem Explored.stroke {a : Actor} (h : Explored env paths finds w) (hrooted : w.Rooted env)
    (hstroke : Stroke env w a w') :
    ∃ new, Explored env paths (new ++ finds) w' ∧ ∀ x ∈ new, ∃ i v stance,
      a = .task i ∧ w.Works i v stance ∧ v.name = x.spot.name := by
  have hold : Explored env paths finds w' → ∃ new, Explored env paths (new ++ finds) w' ∧ ∀ x ∈ new,
      ∃ i v stance, a = .task i ∧ w.Works i v stance ∧ v.name = x.spot.name :=
    fun h' => ⟨[], h', fun _ hx => absurd hx List.not_mem_nil⟩
  cases hstroke with
  | @skip i k v f task info known =>
    rw [hrooted.verdict _ (List.mem_of_getElem? task)] at known
    exact hold (h.finish ⟨k, task⟩ (fun _ => ⟨f, info, known⟩) nofun _)
  | @meet i k v f task info _ new =>
    refine ⟨[⟨v.spot, f⟩], h.meet ⟨k, task⟩ info new, ?_⟩
    intro x hx
    obtain rfl := List.mem_singleton.mp hx
    exact ⟨i, v, _, rfl, ⟨k, task⟩, rfl⟩
  | @settle i k v f task ends =>
    refine hold (h.finish ⟨k, task⟩ nofun ?_ _)
    intro g hg
    obtain rfl := Stance.found.inj hg
    exact ends.not_leads
  | @follow i k v f target task kind walks reads leads =>
    exact hold (h.follow ⟨k, task⟩ kind walks reads leads)
  | @descend i k v f names task kind entries _ => exact hold (h.descend ⟨k, task⟩ kind entries _)
  | @resume i k j v f sum total task _ => exact hold (h.finish ⟨k, task⟩ nofun nofun _)
  | @accept i k v t task =>
    have hadded : Explored env paths finds (w.addTotal k t) :=
      ⟨h.met, h.distinct, h.traced, h.stems, h.found, h.tops, h.expanded⟩
    exact hold (hadded.set ⟨k, task⟩ nofun nofun nofun nofun)
  | close => exact hold ⟨h.met, h.distinct, h.traced, h.stems, h.found, h.tops, h.expanded⟩

/-- The places of new tasks come with what the filter says of them. -/
theorem Rooted.onward (h : w.Rooted env) (htasks : ∀ t ∈ w'.tasks, t ∈ w.tasks ∨
      t.2.1.verdict = env.verdict t.2.1.name ∧
        ∀ i, t.2.2.find? = some i → i.kind = .file → t.2.1.verdict = .included) : w'.Rooted env := by
  refine ⟨?_, ?_⟩
  · intro t ht
    rcases htasks t ht with ht | hnew
    · exact h.verdict t ht
    · exact hnew.1
  · intro t ht
    rcases htasks t ht with ht | hnew
    · exact h.included t ht
    · exact hnew.2

theorem Rooted.set (h : w.Rooted env) {i k : Nat} {v : Visit} {stance stance' : Stance}
    (hi : w.tasks[i]? = some (k, v, stance))
    (hincluded : ∀ f, stance'.find? = some f → f.kind = .file → v.verdict = .included) :
    (w.set i stance').Rooted env := by
  refine h.onward fun t ht => ?_
  rcases mem_set ht ⟨k, hi⟩ with ⟨j, _, hj⟩ | heq
  · exact .inl (List.mem_of_getElem? hj)
  · rw [heq]
    exact .inr ⟨h.verdict _ (List.mem_of_getElem? hi), hincluded⟩

theorem Rooted.stroke {a : Actor} (h : w.Rooted env) (hstroke : Stroke env w a w') : w'.Rooted env := by
  have hnone : ∀ {v : Visit} {o : Outcome}, ∀ f, o.stance.find? = some f → f.kind = .file →
      v.verdict = .included := by
    intro v o f hf
    rw [o.stance_find?] at hf
    cases hf
  cases hstroke with
  | skip task => exact h.set task hnone
  | @meet i k v f task _ counts _ =>
    have hmet : (w.meet (f.identity v.place)).Rooted env := ⟨h.verdict, h.included⟩
    refine hmet.set task fun g hg hkind => ?_
    obtain rfl := Option.some.inj hg
    exact Decidable.byContradiction fun hexcluded => counts ⟨hkind, hexcluded⟩
  | settle task => exact h.set task hnone
  | @follow i k v f target task =>
    refine h.onward fun t ht => ?_
    rcases mem_set ht (Works.move ⟨k, task⟩ _) with ⟨j, hne, hj⟩ | heq
    · refine .inl (List.mem_of_getElem? (i := j) ?_)
      rwa [← List.getElem?_modify_ne _ _ (Ne.symm hne)]
    · rw [heq]
      exact .inr ⟨h.verdict _ (List.mem_of_getElem? task), nofun⟩
  | @descend i k v f names task =>
    have hopened : (w.openLevel (State.visits env (names.map (Path.under v.name)))).Rooted env := by
      refine h.onward fun t ht => ?_
      rcases mem_openLevel ht with ht | ⟨u, hu, heq⟩
      · exact .inl ht
      · rw [heq]
        obtain ⟨_, _, _, hverdict⟩ := Environment.visit_spot hu
        exact .inr ⟨hverdict, nofun⟩
    refine hopened.set ((List.getElem?_append_left (List.getElem?_eq_some_iff.mp task).1).trans task) ?_
    intro g hg hkind
    exact h.included _ (List.mem_of_getElem? task) g hg hkind
  | resume task => exact h.set task hnone
  | @accept i k v t task =>
    have hadded : (w.addTotal k t).Rooted env := ⟨h.verdict, h.included⟩
    exact hadded.set task nofun
  | close => exact ⟨h.verdict, h.included⟩

/-- A task keeps the path under which it reports what it visits. -/
theorem Stroke.name {i : Nat} (h : Stroke env w (.task i) w') :
    ∃ v stance v' stance', w.Works i v stance ∧ w'.Works i v' stance' ∧ v.name = v'.name := by
  cases h with
  | @skip _ k v _ task | @settle _ k v _ task | @resume _ k _ v _ _ _ task =>
    exact ⟨v, _, v, _, ⟨k, task⟩, Works.set ⟨k, task⟩ _, rfl⟩
  | @meet _ k v f task => exact ⟨v, _, v, _, ⟨k, task⟩, Works.set (w := w.meet _) ⟨k, task⟩ _, rfl⟩
  | @follow _ k v _ _ task => exact ⟨v, _, _, _, ⟨k, task⟩, (Works.move ⟨k, task⟩ _).set _, rfl⟩
  | @descend _ k v _ _ task => exact ⟨v, _, v, _, ⟨k, task⟩, (Works.openLevel ⟨k, task⟩ _).set _, rfl⟩
  | @accept _ k v t task => exact ⟨v, _, v, _, ⟨k, task⟩, Works.set (w := w.addTotal k t) ⟨k, task⟩ _, rfl⟩

/-- Whatever is found in a step has the name of what its task visits, and was not visited before. -/
theorem Explored.strokes {a : Actor} (h : Explored env paths finds w) (hrooted : w.Rooted env)
    (hstrokes : Strokes env a w w') :
    ∃ new, Explored env paths (new ++ finds) w' ∧ w'.Rooted env ∧ ∀ x ∈ new, x.id ∉ w.visited ∧
      ∃ i v stance, a = .task i ∧ w.Works i v stance ∧ v.name = x.spot.name := by
  induction hstrokes using Relation.ReflTransGen.head_induction_on generalizing finds with
  | refl => exact ⟨[], h, hrooted, fun _ hx => absurd hx List.not_mem_nil⟩
  | @head w w₁ hfirst _ ih =>
    obtain ⟨new, hexplored, hnew⟩ := h.stroke hrooted hfirst
    obtain ⟨later, hlater, hrooted', hnames⟩ := ih hexplored (hrooted.stroke hfirst)
    refine ⟨later ++ new, by rwa [List.append_assoc], hrooted', ?_⟩
    intro x hx
    refine ⟨?_, ?_⟩
    · have hdistinct := hlater.distinct
      rw [← hlater.met, ← List.append_assoc, List.map_append, h.met] at hdistinct
      exact fun hmem => (List.nodup_append.mp hdistinct).2.2 _ (List.mem_map_of_mem hx) _ hmem rfl
    · rcases List.mem_append.mp hx with hx | hx
      · obtain ⟨-, i, v, stance, rfl, hworks, hname⟩ := hnames x hx
        obtain ⟨u, before, u', after, hbefore, hafter, hsame⟩ := hfirst.name
        obtain ⟨rfl, -⟩ := hafter.unique hworks
        exact ⟨i, u, before, rfl, hbefore, hsame.trans hname⟩
      · exact hnew x hx

/-- When all tasks are finished, nothing is left to go on to. -/
theorem Explored.passed (h : Explored env paths finds w) (hfinished : ∀ t ∈ w.tasks, t.2.2 = .finished)
    (hb : env.Stems paths finds b) (hverdict : env.verdict b.name ≠ .excluded) : env.Passed w.visited b := by
  have hidle : ∀ {j : Nat} {v : Visit} {stance : Stance}, w.Works j v stance → stance = .finished :=
    fun ⟨_, hj⟩ => hfinished _ (List.mem_of_getElem? hj)
  have hattended : w.Attended env b := by
    rcases hb with ⟨p, hp, rfl⟩ | ⟨x, hx, hleads⟩
    · exact h.tops p hp
    · rcases h.expanded x hx with ⟨j, v, hworks, _⟩ | hall
      · cases hidle hworks
      · exact hall b hleads
  rcases hattended hverdict with ⟨j, v, hworks, _⟩ | hpassed
  · cases hidle hworks
  · exact hpassed

end Sketch

section Start

variable (env : Environment σ) (paths : List Path)

theorem Sketch.rooted_start : ((Sketch.mk [] [] []).openLevel (State.visits env paths)).Rooted env := by
  refine ⟨?_, ?_⟩
  · intro t ht
    rcases mem_openLevel ht with ht | ⟨v, hv, heq⟩
    · cases ht
    · rw [heq]
      obtain ⟨_, _, _, hverdict⟩ := Environment.visit_spot hv
      exact hverdict
  · intro t ht
    rcases mem_openLevel ht with ht | ⟨v, hv, heq⟩
    · cases ht
    · rw [heq]
      nofun

theorem Sketch.explored_start :
    ((Sketch.mk [] [] []).openLevel (State.visits env paths)).Explored env paths [] := by
  refine ⟨rfl, List.nodup_nil, .nil, ?_, ?_, ?_, fun x hx => absurd hx List.not_mem_nil⟩
  · intro t ht _
    rcases mem_openLevel ht with ht | ⟨v, hv, heq⟩
    · cases ht
    · rw [heq]
      obtain ⟨p, hp, hspot, _⟩ := Environment.visit_spot hv
      exact .inl ⟨p, hp, hspot⟩
  · intro t ht
    rcases mem_openLevel ht with ht | ⟨v, hv, heq⟩
    · cases ht
    · rw [heq]
      nofun
  · intro p hp hverdict
    obtain ⟨v, hv, hspot⟩ := Environment.exists_visit hp hverdict
    obtain ⟨j, _, hworks⟩ := works_openLevel (w := Sketch.mk [] [] []) hv
    exact .inl ⟨j, v, hworks, hspot⟩

end Start

end TreeCensus.Walk
