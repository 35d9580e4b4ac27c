import TreeCensus.Proofs.Walk.Smoothness

/-!
# No file is lost

If no call fails and the path handler accepts whatever it is told, a walk comes to its total with each file
that the filter includes and that lies below a topmost path in directories that the filter does not exclude.
The one exception is a directory that was found under another name first, by a link or by a path that leads
there as well: what it holds was looked at under that name, and the filter was asked about that name.
-/

namespace TreeCensus.Walk

set_option autoImplicit false

variable {σ : Type}

/-- There is a way down from a topmost path to a path, through directories that the filter does not exclude. -/
inductive Environment.Below (env : Environment σ) (paths : List Path) : List Path → Path → Prop
  | top {p : Path} (mem : p ∈ paths) : Below env paths [] (Path.resolve env.files.cwd p)
  | inside {dirs : List Path} {dir : Path} {i : FileInfo} {names : List Text} {name : Text}
      (above : Below env paths dirs dir) (verdict : env.verdict dir ≠ .excluded)
      (info : env.files.info dir = .ok i) (kind : i.kind = .directory)
      (entries : env.files.entries dir = .ok names) (mem : name ∈ names) :
      Below env paths (dir :: dirs) (Path.resolve env.files.cwd (Path.under dir name))

theorem Environment.Below.inside_of_eq {env : Environment σ} {paths dirs : List Path} {dir p : Path}
    {i : FileInfo} {names : List Text} {name : Text} (h : env.Below paths dirs dir)
    (hverdict : env.verdict dir ≠ .excluded) (hinfo : env.files.info dir = .ok i) (hkind : i.kind = .directory)
    (hentries : env.files.entries dir = .ok names) (hname : name ∈ names)
    (hp : Path.resolve env.files.cwd (Path.under dir name) = p) : env.Below paths (dir :: dirs) p :=
  hp ▸ .inside h hverdict hinfo hkind hentries hname

/-- In the course of a run a task that visits something under a name has found an object to be new. -/
def State.FoundAs (env : Environment σ) (s₀ : State σ) (others₀ : List Pool.Stake) (incidents : List Incident)
    (id : Text) (name : Path) : Prop :=
  ∃ earlier s others i t s', .act (.task i) :: earlier <:+ incidents ∧
    s₀.Passes env Cursor.Smooth others₀ earlier s others ∧ s.tasks[i]? = some t ∧ t.visit.name = name ∧
    s.step? env (.task i) = some s' ∧ id ∉ s.visited ∧ id ∈ s'.visited

theorem State.FoundAs.later {env : Environment σ} {s₀ : State σ} {others₀ : List Pool.Stake}
    {incidents : List Incident} {id : Text} {name : Path} (h : FoundAs env s₀ others₀ incidents id name)
    (x : Incident) : FoundAs env s₀ others₀ (x :: incidents) id name := by
  obtain ⟨earlier, s, others, i, t, s', hsuffix, hrest⟩ := h
  exact ⟨earlier, s, others, i, t, s', hsuffix.trans (List.suffix_cons _ _), hrest⟩

/-- What a total is made up of: all objects that were found, each once. -/
structure State.Reckons (env : Environment σ) (paths : List Path) (s : State σ) (items : List Item)
    (total : Tally) : Prop where
  passed : items.map Item.id = s.visited
  distinct : s.visited.Nodup
  genuine : ∀ x ∈ items, env.files.info x.place = .ok x.info ∧ ∃ name, env.Comes paths ⟨name, x.place⟩
  total : total = Tally.sum (items.map Item.share)
  /-- An item that does not count is not a file, and there is a filter that does not include it. -/
  whole : ∀ x ∈ items, x.Whole env ∨ x.Blank ∧ x.Dropped env

/-- No stroke loses anything that counts. -/
theorem Solvent.strokes {env : Environment σ} {paths : List Path} {finds : List Find} {inv : Inventory}
    {w w' : Sketch} {a : Actor} (h : Solvent env paths inv w) (htiered : w.Tiered) (hrooted : w.Rooted env)
    (hexplored : w.Explored env paths finds) (hstrokes : Sketch.Strokes env a w w') :
    w'.Tiered ∧ ∃ inv', Solvent env paths inv' w' := by
  induction hstrokes using Relation.ReflTransGen.head_induction_on generalizing finds inv with
  | refl => exact ⟨htiered, inv, h⟩
  | head hfirst _ ih =>
    have hcomes : ∀ i v, Sketch.Works _ i v .ahead → env.Comes paths v.spot := fun i v ⟨k, hk⟩ =>
      hexplored.traced.comes_of_stems (hexplored.stems _ (List.mem_of_getElem? hk) rfl)
    obtain ⟨inv', hinv'⟩ := h.stroke htiered hrooted hcomes hfirst
    obtain ⟨new, hnew, _⟩ := hexplored.stroke hrooted hfirst
    exact ih hinv' (htiered.stroke hfirst) (hrooted.stroke hfirst) hnew

section Runs

variable {env : Environment σ} {caller : Caller σ} {paths : List Path} {others₀ others : List Pool.Stake}
  {incidents : List Incident} {s s₀ : State σ} {total : Tally}

/-- What holds all the way in a run without faults that is not bound to fail. -/
structure State.Surveyed (env : Environment σ) (paths : List Path) (s₀ : State σ) (others₀ : List Pool.Stake)
    (incidents : List Incident) (s : State σ) : Prop where
  rooted : s.sketch.Rooted env
  tiered : s.sketch.Tiered
  explored : ∃ finds, s.sketch.Explored env paths finds ∧
    ∀ x ∈ finds, FoundAs env s₀ others₀ incidents x.id x.spot.name
  solvent : ∃ inv, Solvent env paths inv s.sketch

theorem State.Passes.surveyed (hpool : Pool.Serves caller.pool others₀)
    (h : (State.start env caller paths).Passes env Cursor.Smooth others₀ incidents s others)
    (hfine : ¬ s.Doomed) : (State.start env caller paths).Surveyed env paths others₀ incidents s := by
  refine h.induct_sketch (P := fun incidents s => (State.start env caller paths).Surveyed env paths others₀ incidents s)
    (.start env paths hpool) (State.grounded_start env caller paths) ?_ ?_ ?_ hfine
  · have hsketch := State.sketch_start env caller paths
    refine ⟨?_, ?_, ⟨[], ?_, fun x hx => absurd hx List.not_mem_nil⟩, [], ?_⟩
    all_goals rw [hsketch]
    · exact Sketch.rooted_start env paths
    · exact Sketch.tiered_start _
    · exact Sketch.explored_start env paths
    · exact .start env paths _ fun v hv => (State.mem_visits hv).1
  · intro incidents s others a s' hbefore hstep hstrokes hsurveyed
    obtain ⟨finds, hexplored, hnames⟩ := hsurveyed.explored
    obtain ⟨inv, hsolvent⟩ := hsurveyed.solvent
    obtain ⟨htiered, hsolvent'⟩ := hsolvent.strokes hsurveyed.tiered hsurveyed.rooted hexplored hstrokes
    obtain ⟨new, hexplored', hrooted, hnew⟩ := hexplored.strokes hsurveyed.rooted hstrokes
    refine ⟨hrooted, htiered, ⟨new ++ finds, hexplored', ?_⟩, hsolvent'⟩
    intro x hx
    have hmet : x.id ∈ s'.visited := by
      have := List.mem_map_of_mem (f := Find.id) hx
      rwa [hexplored'.met] at this
    rcases List.mem_append.mp hx with hx | hx
    · obtain ⟨hfresh, i, v, stance, rfl, ⟨k, hk⟩, hname⟩ := hnew x hx
      obtain ⟨t, ht, heq⟩ := State.exists_of_sketch hk
      have hvisit : t.visit = v := (Prod.mk.inj (Prod.mk.inj heq).2).1.symm
      exact ⟨incidents, s, others, i, t, s', List.suffix_refl _, hbefore, ht, hvisit ▸ hname, hstep, hfresh, hmet⟩
    · exact (hnames x hx).later _
  · intro x incidents s s' hsketch hsurveyed
    obtain ⟨finds, hexplored, hnames⟩ := hsurveyed.explored
    obtain ⟨inv, hsolvent⟩ := hsurveyed.solvent
    refine ⟨?_, ?_, ⟨finds, ?_, fun y hy => (hnames y hy).later x⟩, inv, ?_⟩
    all_goals rw [hsketch]
    · exact hsurveyed.rooted
    · exact hsurveyed.tiered
    · exact hexplored
    · exact hsolvent

/-- A walk without faults that has come to a total has found a closed set of objects, and reckons them all. -/
theorem State.Passes.reckons (hpool : Pool.Serves caller.pool others₀)
    (h : (State.start env caller paths).Passes env Cursor.Smooth others₀ incidents s others)
    (hresult : s.result? = some (.ok total)) : ∃ finds items,
      s.Reckons env paths items total ∧ env.Traced paths finds ∧ finds.map Find.id = s.visited ∧
      (∀ x ∈ finds, FoundAs env (State.start env caller paths) others₀ incidents x.id x.spot.name) ∧
      ∀ b, env.Stems paths finds b → env.verdict b.name ≠ .excluded → env.Passed s.visited b := by
  have hshared := h.shared (.start env paths hpool)
  have hsurveyed := h.surveyed hpool (hshared.not_doomed hresult)
  have hfinished := hshared.finished (by rw [hresult]; rfl)
  obtain ⟨finds, hexplored, hnames⟩ := hsurveyed.explored
  obtain ⟨inv, hsolvent⟩ := hsurveyed.solvent
  obtain ⟨sum, hlevel⟩ := State.level_of_result hresult
  obtain ⟨items, hobjects, htotal, hwhole⟩ := hsolvent.total_eq hsurveyed.tiered hfinished hlevel
  refine ⟨finds, items, ⟨?_, hexplored.distinct, ?_, htotal, hwhole⟩, hexplored.traced, hexplored.met, hnames,
    fun b hb hverdict => hexplored.passed hfinished hb hverdict⟩
  · have hids := congrArg (List.map fun o : Path × FileInfo => o.2.identity o.1) hobjects
    unfold Inventory.objects at hids
    rw [List.map_map, List.map_map] at hids
    exact hids.trans hsolvent.met
  · intro x hx
    have := List.mem_map_of_mem (f := Item.object) hx
    rw [hobjects] at this
    exact hsolvent.genuine _ this

/-- What lies below the topmost paths is looked at, unless a directory on the way was found under another
name. -/
theorem Environment.Below.stems {dirs : List Path} {p : Path} {visited : List Text} {finds : List Find}
    (h : env.Below paths dirs p) (htraced : env.Traced paths finds) (hmet : finds.map Find.id = visited)
    (hclosed : ∀ b, env.Stems paths finds b → env.verdict b.name ≠ .excluded → env.Passed visited b) :
    env.Stems paths finds ⟨p, p⟩ ∨ ∃ dir ∈ dirs, ∃ j, env.files.info dir = .ok j ∧
      ∃ x ∈ finds, x.id = j.identity dir ∧ x.spot.name ≠ dir := by
  -- From the top down, as far as each directory was found under its own name.
  induction h with
  | top mem => exact .inl (.inl ⟨_, mem, rfl⟩)
  | @inside dirs dir i names name _ verdict info kind entries mem ih =>
    rcases ih with hstems | ⟨other, hother, hrest⟩
    · obtain ⟨j, hinfo, hpassed⟩ := hclosed _ hstems verdict
      obtain rfl := Except.ok.inj (info.symm.trans hinfo)
      have hvisited : i.identity dir ∈ visited := by
        refine hpassed.resolve_left fun hfile => ?_
        rw [kind] at hfile
        cases hfile.1
      rw [← hmet] at hvisited
      obtain ⟨x, hx, hid⟩ := List.mem_map.mp hvisited
      by_cases hname : x.spot.name = dir
      · have hplace : x.spot.place = dir := by
          rcases (htraced.comes hx).place_eq with hplace | ⟨j, hlink, hkind⟩
          · exact hplace.trans hname
          · rw [hname] at hlink
            rw [← Except.ok.inj (info.symm.trans hlink), kind] at hkind
            cases hkind
        have hfound := htraced.info hx
        rw [hplace] at hfound
        obtain hsame := Except.ok.inj (info.symm.trans hfound)
        refine .inl (.inr ⟨x, hx, ?_⟩)
        rw [← hsame]
        have hleads : env.Leads x.spot i (env.spot (Path.under x.spot.name name)) :=
          .inside kind (hplace ▸ entries) mem
        rw [hname] at hleads
        exact hleads
      · exact .inr ⟨dir, List.mem_cons_self, i, info, x, hx, hid, hname⟩
    · exact .inr ⟨other, List.mem_cons_of_mem _ hother, hrest⟩

/-- A walk without faults that is not cancelled does not fail, and as long as it has its pool for itself it can
go on until it comes back. -/
structure State.Returns (env : Environment σ) (others₀ : List Pool.Stake) (incidents : List Incident)
    (s : State σ) : Prop where
  comesBack : others₀ = [] → (∀ q others, .share q others ∉ incidents) → s.Stuck env → s.result?.isSome = true
  fine : (∀ line, env.refusal line = none) → (∀ r, .cancel r ∉ incidents) →
    (∀ handler, env.options.onPath = some handler → ∀ memory call, (handler.act memory call).2.stop = none) →
      ∀ f, s.result? ≠ some (.error f)

theorem State.Passes.returns (hpool : Pool.Serves caller.pool others₀) (hsize : 1 ≤ caller.pool.capacity)
    (h : (State.start env caller paths).Passes env Cursor.Smooth others₀ incidents s others) :
    s.Returns env others₀ incidents := by
  refine ⟨?_, fun hlog hcancels hstops => h.not_fails hpool hsize hlog hcancels hstops⟩
  intro hnone halone hstuck
  subst hnone
  exact (h.live (.start env paths hpool) halone).result_of_stuck hsize hstuck

/-- Whatever the order of its steps, a walk without faults reckons each file that is included and that lies
below a topmost path, with its size and its count, unless a directory on the way down was found under
another name, or something that is no file has the identity of the file. -/
theorem State.Passes.no_file_lost (hpool : Pool.Serves caller.pool others₀)
    (h : (State.start env caller paths).Passes env Cursor.Smooth others₀ incidents s others) :
    (1 ≤ caller.pool.capacity → s.Returns env others₀ incidents) ∧
    ∀ total, s.result? = some (.ok total) → ∃ items, s.Reckons env paths items total ∧
      ∀ dirs p i, env.Below paths dirs p → env.files.info p = .ok i → i.kind = .file →
        env.verdict p = .included →
          (∃ x ∈ items, x.id = i.identity p ∧ x.info.kind = .file ∧ x.sized = true ∧ x.counted = true) ∨
          (∃ dir ∈ dirs, ∃ j name, env.files.info dir = .ok j ∧ name ≠ dir ∧
            FoundAs env (State.start env caller paths) others₀ incidents (j.identity dir) name) ∨
          ∃ x ∈ items, x.id = i.identity p ∧ x.info.kind ≠ .file := by
  refine ⟨fun hsize => h.returns hpool hsize, ?_⟩
  intro total hresult
  obtain ⟨finds, items, hreckons, htraced, hmet, hnames, hclosed⟩ := h.reckons hpool hresult
  refine ⟨items, hreckons, ?_⟩
  intro dirs p i hbelow hinfo hkind hverdict
  rcases hbelow.stems htraced hmet hclosed with hstems | ⟨dir, hdir, j, hj, x, hx, hid, hname⟩
  · obtain ⟨i', hi', hpassed⟩ := hclosed _ hstems (hverdict ▸ nofun)
    obtain rfl := Except.ok.inj (hinfo.symm.trans hi')
    have hvisited : i.identity p ∈ s.visited :=
      hpassed.resolve_left fun hskips => hskips.2 hverdict
    rw [← hreckons.passed] at hvisited
    obtain ⟨x, hx, hid⟩ := List.mem_map.mp hvisited
    by_cases hfile : x.info.kind = .file
    · rcases hreckons.whole x hx with ⟨hcounted, hsized | hleads⟩ | ⟨_, hdropped⟩
      · exact .inl ⟨x, hx, hid, hfile, hsized, hcounted⟩
      · exact absurd hfile hleads.kind_ne
      · exact absurd hfile hdropped.1
    · exact .inr (.inr ⟨x, hx, hid, hfile⟩)
  · exact .inr (.inl ⟨dir, hdir, j, x.spot.name, hj, hname, hid ▸ hnames x hx⟩)

/-- A link in a directory leads to a file beside it. The filter includes the file, but not the link. -/
theorem State.Passes.no_file_lost_beside_link : ∃ (env : Environment Unit) (caller : Caller Unit)
    (incidents : List Incident) (s : State Unit) (items : List Item) (dir file : Path) (i : FileInfo),
    Pool.Serves caller.pool [] ∧
    (State.start env caller [dir]).Passes env Cursor.Smooth [] incidents s [] ∧
    s.result? = some (.ok ⟨5, 1, 1, 0, 7⟩) ∧ s.Reckons env [dir] items ⟨5, 1, 1, 0, 7⟩ ∧
    env.Below [dir] [dir] file ∧ env.files.info file = .ok i ∧ i.kind = .file ∧ env.verdict file = .included ∧
    ((∃ x ∈ items, x.id = i.identity file ∧ x.info.kind = .file ∧ x.sized = true ∧ x.counted = true) ∨
      (∃ d ∈ [dir], ∃ j name, env.files.info d = .ok j ∧ name ≠ d ∧
        FoundAs env (State.start env caller [dir]) [] incidents (j.identity d) name) ∨
      ∃ x ∈ items, x.id = i.identity file ∧ x.info.kind ≠ .file) := by
  let files : FileSystem := ⟨['/'],
    fun p => if p = ['/', 'r'] then .ok ⟨.directory, 0, 0, 1, 1⟩
      else if p = ['/', 'r', '/', 'l'] then .ok ⟨.link, 3, 9, 1, 2⟩
      else .ok ⟨.file, 5, 7, 1, 3⟩,
    fun _ => .ok ['f'], fun _ => .ok [['l'], ['f']], fun _ => .ok []⟩
  let options : Options Unit := ⟨.several [['/', 'r']], true,
    some fun p => if p = ['/', 'r', '/', 'f'] then .included else .unmatched,
    some ⟨true, fun _ _ => ((), ⟨none, false, .ok true⟩)⟩, none, none, defaultPriority⟩
  let env : Environment Unit := ⟨files, options, fun _ => none⟩
  let caller : Caller Unit := ⟨⟨2, 0, [], [], 0⟩, false, none, ()⟩
  have hplacid : env.Placid := by
    refine ⟨?_, ?_⟩
    · rintro f ⟨p, hf | hf | hf⟩
      · change (if _ then _ else if _ then _ else _) = _ at hf
        split at hf
        · cases hf
        · split at hf <;> cases hf
      · cases hf
      · cases hf
    · intro handler hhandler memory call
      obtain rfl := Option.some.inj hhandler
      exact ⟨rfl, rfl⟩
  have hserves : Pool.Serves caller.pool [] := @Pool.serves_create 2 _ rfl
  obtain ⟨actors, hpasses⟩ := State.smooth_run hplacid caller [['/', 'r']] [] 20
  have hresult : ((State.start env caller [['/', 'r']]).run env 20).result? = some (.ok ⟨5, 1, 1, 0, 7⟩) := by
    decide +kernel
  have htop : env.Below [['/', 'r']] [] (Path.resolve ['/'] ['/', 'r']) := .top List.mem_cons_self
  rw [show Path.resolve ['/'] ['/', 'r'] = ['/', 'r'] by decide] at htop
  have hbelow : env.Below [['/', 'r']] [['/', 'r']] ['/', 'r', '/', 'f'] :=
    htop.inside_of_eq (by decide) rfl rfl rfl (List.mem_cons_of_mem _ List.mem_cons_self) (by decide)
  obtain ⟨-, htotal⟩ := State.Passes.no_file_lost hserves hpasses
  obtain ⟨items, hreckons, hall⟩ := htotal _ hresult
  exact ⟨env, caller, _, _, items, _, _, _, hserves, hpasses, hresult, hreckons, hbelow, rfl, rfl, by decide,
    hall _ _ _ hbelow rfl rfl (by decide)⟩

/-- A link leads to a directory further down. What is in it is looked at under the path of the link, about
which the filter has nothing to say, and the file that the filter includes under its own path is lost. -/
theorem State.Passes.file_lost_behind_link : ∃ (env : Environment Unit) (caller : Caller Unit)
    (incidents : List Incident) (s : State Unit) (top : Path) (dirs : List Path) (file : Path) (i : FileInfo),
    Pool.Serves caller.pool [] ∧
    (State.start env caller [top]).Passes env Cursor.Smooth [] incidents s [] ∧
    (∀ r, .cancel r ∉ incidents) ∧ env.options.onPath = none ∧ env.Below [top] dirs file ∧
    env.files.info file = .ok i ∧ i.kind = .file ∧ env.verdict file = .included ∧
    s.result? = some (.ok .zero) := by
  let files : FileSystem := ⟨['/'],
    fun p => if p = ['/', 'r'] then .ok ⟨.directory, 0, 0, 1, 1⟩
      else if p = ['/', 'r', '/', 'l'] then .ok ⟨.link, 8, 3, 1, 2⟩
      else if p = ['/', 'r', '/', 'x'] then .ok ⟨.directory, 0, 0, 1, 3⟩
      else if p = ['/', 'r', '/', 'x', '/', 'y'] then .ok ⟨.directory, 0, 0, 1, 4⟩
      else if p = ['/', 'r', '/', 'x', '/', 'y', '/', 'd'] then .ok ⟨.directory, 0, 0, 1, 5⟩
      else .ok ⟨.file, 5, 7, 1, 6⟩,
    fun _ => .ok ['/', 'r', '/', 'x', '/', 'y', '/', 'd'],
    fun p => if p = ['/', 'r'] then .ok [['l'], ['x']] else if p = ['/', 'r', '/', 'x'] then .ok [['y']]
      else if p = ['/', 'r', '/', 'x', '/', 'y'] then .ok [['d']] else .ok [['f']],
    fun _ => .ok []⟩
  let file : Path := ['/', 'r', '/', 'x', '/', 'y', '/', 'd', '/', 'f']
  let options : Options Unit := ⟨.several [['/', 'r']], true,
    some fun p => if p = file then .included else .unmatched, none, none, none, defaultPriority⟩
  let env : Environment Unit := ⟨files, options, fun _ => none⟩
  let caller : Caller Unit := ⟨⟨10, 0, [], [], 0⟩, false, none, ()⟩
  have hplacid : env.Placid := by
    refine ⟨?_, nofun⟩
    rintro f ⟨p, hf | hf | hf⟩
    · change (if _ then _ else if _ then _ else if _ then _ else if _ then _ else if _ then _ else _) = _ at hf
      repeat' split at hf
      all_goals cases hf
    · cases hf
    · change (if _ then _ else if _ then _ else if _ then _ else _) = _ at hf
      repeat' split at hf
      all_goals cases hf
  have hserves : Pool.Serves caller.pool [] := @Pool.serves_create 10 _ rfl
  obtain ⟨actors, hpasses⟩ := State.smooth_run hplacid caller [['/', 'r']] [] 20
  have hresult : ((State.start env caller [['/', 'r']]).run env 20).result? = some (.ok .zero) := by
    decide +kernel
  have htop : env.Below [['/', 'r']] [] (Path.resolve ['/'] ['/', 'r']) := .top List.mem_cons_self
  rw [show Path.resolve ['/'] ['/', 'r'] = ['/', 'r'] by decide] at htop
  have hx : env.Below [['/', 'r']] _ ['/', 'r', '/', 'x'] :=
    htop.inside_of_eq (by decide) rfl rfl rfl (List.mem_cons_of_mem _ List.mem_cons_self) (by decide)
  have hy : env.Below [['/', 'r']] _ ['/', 'r', '/', 'x', '/', 'y'] :=
    hx.inside_of_eq (by decide) rfl rfl rfl List.mem_cons_self (by decide)
  have hd : env.Below [['/', 'r']] _ ['/', 'r', '/', 'x', '/', 'y', '/', 'd'] :=
    hy.inside_of_eq (by decide) rfl rfl rfl List.mem_cons_self (by decide)
  have hfile : env.Below [['/', 'r']] _ file :=
    hd.inside_of_eq (by decide) rfl rfl rfl List.mem_cons_self (by decide)
  exact ⟨env, caller, _, _, _, _, file, _, hserves, hpasses, by simp, rfl, hfile, rfl, rfl, by decide, hresult⟩

end Runs

end TreeCensus.Walk
