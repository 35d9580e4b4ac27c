import TreeCensus.Proofs.Path.Normal
import TreeCensus.Proofs.Walk.Exploration

/-!
# What a filter shuts out

A walk goes on only to what its filter does not exclude, so it comes to a place only under a name above
which nothing is excluded. All that it asks about, reports and logs lies there, also when it is being torn
down, and nothing else in the file system has an influence on it.
-/

namespace TreeCensus

set_option autoImplicit false

/-- The current directory is absolute, and directories hold names that lead down. -/
structure FileSystem.Proper (files : FileSystem) : Prop where
  cwd : Path.isAbsolute files.cwd = true
  entries : ∀ p names, files.entries p = .ok names → ∀ n ∈ names, Path.IsName n

namespace Walk

variable {σ : Type}

section Logging

theorem colon_not_mem_spaceThousands {t : Text} (h : ':' ∉ t) : ':' ∉ Text.spaceThousands t := by
  fun_induction Text.spaceThousands t with
  | case1 a b c d r ih => simp_all
  | case2 r => exact h

theorem colon_not_mem_toDigits (n : Nat) : ':' ∉ Nat.toDigits 10 n := by
  intro h
  have hdigit := Nat.isDigit_of_mem_toDigits (by omega) (by omega) h
  revert hdigit
  decide

theorem colon_not_mem_formatSize (size : Int) : ':' ∉ formatSize size := by
  have hdigits : ':' ∉ (Text.spaceThousands (Nat.toDigits 10 size.natAbs).reverse).reverse := by
    rw [List.mem_reverse]
    apply colon_not_mem_spaceThousands
    rw [List.mem_reverse]
    exact colon_not_mem_toDigits _
  unfold formatSize Text.padLeft Text.ofIntGrouped
  rw [List.mem_append, not_or]
  refine ⟨?_, ?_⟩
  · intro h
    have := List.eq_of_mem_replicate h
    revert this
    decide
  · split
    · rw [List.mem_cons, not_or]
      exact ⟨by decide, hdigits⟩
    · exact hdigits

/-- A line of the log tells which path it is about. -/
theorem logLine_name {name name' : Path} {tally tally' : Tally} (h : logLine name tally = logLine name' tally') :
    name = name' := by
  have hpieces := congrArg (Text.pieces ':') h
  unfold logLine at hpieces h
  rw [Glob.pieces_append (colon_not_mem_formatSize _), Glob.pieces_append (colon_not_mem_formatSize _)] at hpieces
  rw [(List.cons.inj hpieces).1] at h
  have := List.append_cancel_left h
  exact (List.cons.inj (List.cons.inj this).2).2

end Logging

namespace Environment

variable (env : Environment σ) {paths : List Path} {a b : Spot}

/-- From one of the topmost paths down to a path nothing is excluded, neither of the two nor between them. -/
def Clear (paths : List Path) (p : Path) : Prop :=
  ∃ top ∈ paths, ∃ names, (∀ n ∈ names, Path.IsName n) ∧
    p = names.foldl Path.under (Path.resolve env.files.cwd top) ∧
    ∀ above, above <+: names →
      env.verdict (above.foldl Path.under (Path.resolve env.files.cwd top)) ≠ .excluded

/-- A walk can come there if it goes on only to what the filter does not exclude. -/
inductive Admits (paths : List Path) : Spot → Prop
  | top {p : Path} (mem : p ∈ paths) (verdict : env.verdict (env.spot p).name ≠ .excluded) :
      Admits paths (env.spot p)
  | on {a b : Spot} {i : FileInfo} (before : Admits paths a) (info : env.files.info a.place = .ok i)
      (leads : env.Leads a i b) (verdict : env.verdict b.name ≠ .excluded) : Admits paths b

/-- A file system with the same answers wherever a walk can come under a name above which nothing is
excluded. -/
structure Agrees (paths : List Path) (files : FileSystem) : Prop where
  cwd : files.cwd = env.files.cwd
  info : ∀ a, env.Comes paths a → env.Clear paths a.name → files.info a.place = env.files.info a.place
  target : ∀ a, env.Comes paths a → env.Clear paths a.name → files.target a.place = env.files.target a.place
  entries : ∀ a, env.Comes paths a → env.Clear paths a.name → files.entries a.place = env.files.entries a.place

variable {env}

theorem verdict_of_mem_visits {v : Visit} (hv : v ∈ State.visits env paths) : v.verdict ≠ .excluded := by
  obtain ⟨p, -, hverdict, -⟩ := State.eq_of_mem_visits hv
  exact hverdict

namespace Admits

theorem verdict (h : env.Admits paths a) : env.verdict a.name ≠ .excluded := by
  cases h with
  | top _ verdict => exact verdict
  | on _ _ _ verdict => exact verdict

theorem comes (h : env.Admits paths a) : env.Comes paths a := by
  induction h with
  | top mem => exact .top mem
  | on _ info leads _ ih => exact .on ih info leads

/-- Where links are not followed, everything is reported under the path where it is. -/
theorem place_eq (h : env.Admits paths a) (hlinks : env.options.walkLinks = false) : a.place = a.name := by
  cases h with
  | top => rfl
  | on _ _ leads =>
    cases leads with
    | inside => rfl
    | behind _ walks =>
      rw [hlinks] at walks
      cases walks

/-- The names on the way down from a topmost path are all that is between the two. -/
theorem clear (h : env.Admits paths a) (hfiles : env.files.Proper) : env.Clear paths a.name := by
  induction h with
  | @top p mem verdict =>
    refine ⟨p, mem, [], by simp, rfl, ?_⟩
    intro above habove
    rw [List.prefix_nil.mp habove]
    exact verdict
  | @on a b i _ info leads verdict ih =>
    cases leads with
    | behind => exact ih
    | @inside entries name kind reads mem =>
      obtain ⟨top, htop, names, hnames, hname, hclear⟩ := ih
      have hn : Path.IsName name := hfiles.entries _ _ reads _ mem
      obtain ⟨ns, hbase⟩ := Path.exists_isBase_resolve hfiles.cwd top
      have hspot : (env.spot (Path.under a.name name)).name =
          (names ++ [name]).foldl Path.under (Path.resolve env.files.cwd top) := by
        rw [List.foldl_concat, ← hname]
        have hdir := hbase.foldl_under hnames
        rw [← hname] at hdir
        exact (hdir.under_name hn).resolve_eq _
      refine ⟨top, htop, names ++ [name], ?_, hspot, ?_⟩
      · intro n hmem
        rcases List.mem_append.mp hmem with hmem | hmem
        · exact hnames n hmem
        · rw [List.mem_singleton.mp hmem]
          exact hn
      · intro above habove
        rcases List.prefix_concat_iff.mp habove with rfl | habove
        · rw [← hspot]
          exact verdict
        · exact hclear above habove

end Admits

end Environment

section Grounds

variable (env : Environment σ) (paths : List Path) (p : Path)

/-- What a job is about was found at its place. -/
def Job.Founded : Job → Prop
  | target i => env.files.info p = .ok i ∧ i.kind = .link ∧ env.options.walkLinks = true
  | entries i => env.files.info p = .ok i ∧ i.kind = .directory
  | _ => True

def Phase.Founded : Phase → Prop
  | queued _ job | calling job => job.Founded env p
  | _ => True

def Cursor.Founded : Cursor → Prop
  | seek job | begin job | answer job => job.Founded env p
  | enter i | onInfo i => env.files.info p = .ok i
  | onTarget i target => (Job.target i).Founded env p ∧ env.files.target p = .ok target
  | onEntries i names => (Job.entries i).Founded env p ∧ env.files.entries p = .ok names
  | giveBack next => next.Founded
  | _ => True

/-- It is about something to which a walk can come. -/
def Event.Allowed : Event → Prop
  | stated q | linkRead q | listed q => ∃ a, env.Admits paths a ∧ a.place = q
  | reported c => ∃ a, env.Admits paths a ∧ a.name = c.path
  | logged line => ∃ a tally, env.Admits paths a ∧ line = logLine a.name tally
  | offered _ => True

end Grounds

/-- The tasks are where a walk can come, and nothing has happened elsewhere. -/
structure State.Screened (env : Environment σ) (paths : List Path) (s : State σ) : Prop where
  visits : ∀ t ∈ s.tasks, env.Admits paths t.visit.spot
  phases : ∀ t ∈ s.tasks, t.phase.Founded env t.visit.place
  events : ∀ e ∈ s.trace, e.Allowed env paths

/-- The same in the midst of a step of the task `u`. -/
structure Screening (env : Environment σ) (paths : List Path) (i : Nat) (u : Task) (c : Cursor) (s : State σ) :
    Prop where
  spot : env.Admits paths u.visit.spot
  founded : c.Founded env u.visit.place
  own : ∃ t, s.tasks[i]? = some t ∧ t.visit = u.visit
  visits : ∀ t ∈ s.tasks, env.Admits paths t.visit.spot
  phases : ∀ j t, j ≠ i → s.tasks[j]? = some t → t.phase.Founded env t.visit.place
  events : ∀ e ∈ s.trace, e.Allowed env paths

variable {env : Environment σ} {paths : List Path} {i : Nat} {u : Task} {c d : Cursor} {s s' : State σ}

theorem Job.founded_forgone (job : Job) (t : Task) (p : Path) : (job.forgone t).Founded env p := by
  cases job <;> trivial

namespace Screening

theorem still (h : Screening env paths i u c s) (htasks : s'.tasks = s.tasks) (htrace : s'.trace = s.trace)
    (hd : d.Founded env u.visit.place) : Screening env paths i u d s' := by
  refine ⟨h.spot, hd, ?_, ?_, ?_, ?_⟩
  · rw [htasks]
    exact h.own
  · rw [htasks]
    exact h.visits
  · rw [htasks]
    exact h.phases
  · rw [htrace]
    exact h.events

theorem noted (h : Screening env paths i u c s) {e : Event} (he : e.Allowed env paths) :
    Screening env paths i u c (s.note e) := by
  refine ⟨h.spot, h.founded, h.own, h.visits, h.phases, ?_⟩
  intro e' he'
  rcases List.mem_cons.mp he' with rfl | hold
  · exact he
  · exact h.events e' hold

theorem rest (h : Screening env paths i u c s) {phase : Phase} (hphase : phase.Founded env u.visit.place) :
    (s.setPhase i phase).Screened env paths := by
  have hcases : ∀ t ∈ (s.setPhase i phase).tasks,
      env.Admits paths t.visit.spot ∧ t.phase.Founded env t.visit.place := by
    intro t ht
    obtain ⟨j, hj⟩ := List.getElem?_of_mem (show t ∈ s.tasks.modify i _ from ht)
    rcases modify_cases hj with ⟨hne, hold⟩ | ⟨_, t', ht', rfl⟩
    · exact ⟨h.visits t (List.mem_of_getElem? hold), h.phases j t hne hold⟩
    · obtain ⟨_, hown, hvisit⟩ := h.own
      obtain rfl := Option.some.inj (hown.symm.trans ht')
      have hadmits := h.visits _ (List.mem_of_getElem? ht')
      refine ⟨hadmits, ?_⟩
      dsimp only
      rw [hvisit]
      exact hphase
  exact ⟨fun t ht => (hcases t ht).1, fun t ht => (hcases t ht).2, h.events⟩

theorem conclude (h : Screening env paths i u c s) (result : Except Fault (Option Tally)) :
    (s.conclude i u result).Screened env paths := by
  have hrest : (s.setPhase i (.ended result)).Screened env paths := h.rest trivial
  cases result with
  | ok => exact hrest
  | error f => exact ⟨hrest.visits, hrest.phases, hrest.events⟩

theorem follow {found : FileInfo} {target : Text} (h : Screening env paths i u (.onTarget found target) s)
    (hsomewhere : target ≠ []) (outer : List FileInfo) :
    let visit := { u.visit with place := env.behind u.visit.place target, outer }
    Screening env paths i { u with visit } (.seek .info) (s.updateTask i fun t => { t with visit }) := by
  intro visit
  obtain ⟨⟨hinfo, hkind, hwalks⟩, htarget⟩ := h.founded
  have hspot : env.Admits paths visit.spot :=
    .on h.spot hinfo (.behind hkind hwalks htarget hsomewhere) h.spot.verdict
  refine ⟨hspot, trivial, ?_, ?_, ?_, h.events⟩
  · obtain ⟨t, hown, _⟩ := h.own
    refine ⟨{ t with visit }, ?_, rfl⟩
    change (s.tasks.modify i _)[i]? = _
    rw [List.getElem?_modify_eq, hown]
    rfl
  · intro t ht
    rcases mem_modify ht with hold | ⟨t', _, rfl⟩
    · exact h.visits t hold
    · exact hspot
  · intro j t hne hj
    rcases modify_cases hj with ⟨_, hold⟩ | ⟨heq, _⟩
    · exact h.phases j t hne hold
    · exact absurd heq hne

/-- A directory opens a level for those of its entries that are not excluded. -/
theorem descend {found : FileInfo} {names : List Text} (h : Screening env paths i u (.onEntries found names) s)
    (links : List Nat) (depth : Nat) (priority : Priority) :
    ((s.openLevel env links depth priority (names.map (Path.under u.visit.name))).setPhase i
      (.descending s.levels.length found)).Screened env paths := by
  obtain ⟨⟨hinfo, hkind⟩, hentries⟩ := h.founded
  have hnew : ∀ v ∈ State.visits env (names.map (Path.under u.visit.name)), env.Admits paths v.spot := by
    intro v hv
    obtain ⟨p, hp, hspot, hverdict⟩ := Environment.visit_spot hv
    obtain ⟨name, hname, rfl⟩ := List.mem_map.mp hp
    have hallowed : env.verdict v.spot.name ≠ .excluded := hverdict ▸ Environment.verdict_of_mem_visits hv
    rw [hspot] at hallowed ⊢
    exact .on h.spot hinfo (.inside hkind hentries hname) hallowed
  have hopened : Screening env paths i u (.conclude (.ok none))
      (s.openLevel env links depth priority (names.map (Path.under u.visit.name))) := by
    obtain ⟨t, hown, hvisit⟩ := h.own
    have hlength := (List.getElem?_eq_some_iff.mp hown).1
    refine ⟨h.spot, trivial, ⟨t, (List.getElem?_append_left hlength).trans hown, hvisit⟩, ?_, ?_, h.events⟩
    · intro t' ht'
      rcases List.mem_append.mp ht' with hold | ht'
      · exact h.visits t' hold
      · obtain ⟨v, hv, rfl⟩ := List.mem_map.mp ht'
        exact hnew v hv
    · intro j t' hne hj
      rcases getElem?_append_cases hj with hj | ⟨_, hmem⟩
      · exact h.phases j t' hne hj
      · obtain ⟨v, _, rfl⟩ := List.mem_map.mp hmem
        trivial
  exact hopened.rest trivial

/-- Each move keeps to where a walk can come. -/
theorem move (h : Screening env paths i u c s) :
    (c.move env i u s).Meets (Screening env paths i) (State.Screened env paths) := by
  have hfounded := h.founded
  cases c with
  | conclude result => exact h.conclude result
  | log tally =>
    simp only [Cursor.move]
    split
    · exact h.still rfl rfl trivial
    · split
      · have hnoted := h.noted (e := .logged (logLine u.visit.name tally)) ⟨_, tally, h.spot, rfl⟩
        split
        · exact hnoted.rest trivial
        · exact hnoted.still rfl rfl trivial
      · exact h.still rfl rfl trivial
  | accept tally => exact h.still rfl rfl trivial
  | seek job =>
    simp only [Cursor.move]
    split
    · exact h.still rfl rfl trivial
    · exact h.still rfl rfl hfounded
    · next admission ticket _ =>
      have hasked : Screening env paths i u (.seek job) { s with admission } := h.still rfl rfl hfounded
      have hqueued : (Phase.queued ticket job).Founded env u.visit.place := hfounded
      exact hasked.rest hqueued
  | follow o =>
    cases o with
    | «over» result => exact h.still rfl rfl trivial
    | counted info tally =>
      simp only [Cursor.move]
      split <;> exact h.still rfl rfl trivial
  | enter found =>
    simp only [Cursor.move]
    split
    · next hkind =>
      split
      · next hwalks => exact h.still rfl rfl ⟨hfounded, hkind, hwalks⟩
      · exact h.still rfl rfl trivial
    · next hkind => exact h.still rfl rfl ⟨hfounded, hkind⟩
    · exact h.still rfl rfl trivial
    · exact h.still rfl rfl trivial
  | onInfo found =>
    simp only [Cursor.move]
    split
    · exact h.still rfl rfl trivial
    · split
      · exact h.still rfl rfl trivial
      · exact h.still rfl rfl hfounded
  | onTarget found target =>
    simp only [Cursor.move]
    split
    · exact h.still rfl rfl trivial
    · next hsomewhere => exact h.follow hsomewhere _
  | onEntries found names =>
    simp only [Cursor.move]
    split
    · exact h.still rfl rfl trivial
    · exact h.descend _ _ _
  | giveBack next =>
    simp only [Cursor.move]
    split
    · exact h.still rfl rfl hfounded
    · exact h.still rfl rfl trivial
  | onAnswer job f answer =>
    cases answer with
    | error g => exact h.still rfl rfl trivial
    | ok taken =>
      simp only [Cursor.move]
      split
      · exact h.still rfl rfl (job.founded_forgone u _)
      · exact h.still rfl rfl trivial
  | consult job f =>
    simp only [Cursor.move]
    split <;> exact h.still rfl rfl trivial
  | offer job f =>
    simp only [Cursor.move]
    split
    · exact h.still rfl rfl trivial
    · split
      · exact h.still rfl rfl trivial
      · have hnoted := h.noted (e := .offered f) trivial
        split
        · exact hnoted.rest trivial
        · exact hnoted.still rfl rfl trivial
  | onReply info tally answer =>
    rcases answer with f | _ | _
    · simp only [Cursor.move]
      split <;> exact h.still rfl rfl trivial
    · exact h.still rfl rfl trivial
    · exact h.still rfl rfl trivial
  | stop info tally reply => exact h.still (by split <;> rfl) (by split <;> rfl) trivial
  | report info tally =>
    simp only [Cursor.move]
    split <;> exact h.still rfl rfl trivial
  | begin job =>
    cases job with
    | info => exact (h.noted (e := .stated _) ⟨_, h.spot, rfl⟩).rest trivial
    | target found => exact (h.noted (e := .linkRead _) ⟨_, h.spot, rfl⟩).rest hfounded
    | entries found => exact (h.noted (e := .listed _) ⟨_, h.spot, rfl⟩).rest hfounded
    | report info tally =>
      simp only [Cursor.move]
      split
      · exact h.still rfl rfl trivial
      · have hnoted := h.noted (e := .reported (s.pathCall u info tally)) ⟨_, h.spot, rfl⟩
        split
        · exact hnoted.rest trivial
        · exact hnoted.still rfl rfl trivial
  | answer job =>
    cases job with
    | info =>
      simp only [Cursor.move]
      split
      · next hinfo => exact h.still rfl rfl hinfo
      · exact h.still rfl rfl trivial
    | target found =>
      simp only [Cursor.move]
      split
      · next htarget => exact h.still rfl rfl ⟨hfounded, htarget⟩
      · exact h.still rfl rfl trivial
    | entries found =>
      simp only [Cursor.move]
      split
      · next hentries => exact h.still rfl rfl ⟨hfounded, hentries⟩
      · exact h.still rfl rfl trivial
    | report info tally => exact h.still rfl rfl trivial

end Screening

namespace State.Screened

theorem enter (h : s.Screened env paths) (hu : s.tasks[i]? = some u) (henters : s.Enters env u c s') :
    Screening env paths i u c s' := by
  have hmem := List.mem_of_getElem? hu
  have hphase := h.phases u hmem
  have hbegins : ∀ {d : Cursor} {b : Admission}, d.Founded env u.visit.place →
      Screening env paths i u d { s with admission := b } := fun hd =>
    ⟨h.visits u hmem, hd, ⟨u, hu, rfl⟩, h.visits, fun _ t _ ht => h.phases t (List.mem_of_getElem? ht), h.events⟩
  cases henters with
  | admitted phase =>
    rw [phase] at hphase
    exact hbegins hphase
  | answers phase =>
    rw [phase] at hphase
    exact hbegins hphase
  | _ => exact hbegins trivial

/-- It does not matter who has been told to end, nor what becomes of the levels and of the pool. -/
theorem unmoved (h : s.Screened env paths) (htrace : s'.trace = s.trace)
    (htasks : ∀ t' ∈ s'.tasks, ∃ t ∈ s.tasks, t'.visit = t.visit ∧ t'.phase = t.phase) : s'.Screened env paths := by
  refine ⟨?_, ?_, ?_⟩
  · intro t' ht'
    obtain ⟨t, ht, hvisit, _⟩ := htasks t' ht'
    rw [hvisit]
    exact h.visits t ht
  · intro t' ht'
    obtain ⟨t, ht, hvisit, hphase⟩ := htasks t' ht'
    rw [hvisit, hphase]
    exact h.phases t ht
  · rw [htrace]
    exact h.events

theorem interrupt (h : s.Screened env paths) (k : Nat) : (s.interrupt k).Screened env paths := by
  refine h.unmoved rfl ?_
  intro t' ht'
  obtain ⟨t, ht, rfl⟩ := List.mem_map.mp ht'
  refine ⟨t, ht, ?_⟩
  split <;> exact ⟨rfl, rfl⟩

theorem level {k : Nat} {l : Level} (h : s.Screened env paths) (hstep : s.stepLevel? k l = some s') :
    s'.Screened env paths := by
  cases State.fate hstep with
  | @fails f =>
    have hcancelled : State.Screened env paths { s with admission := s.admission.cancel l.source (.fault f) } :=
      ⟨h.visits, h.phases, h.events⟩
    have hinterrupted := hcancelled.interrupt k
    exact ⟨hinterrupted.visits, hinterrupted.phases, hinterrupted.events⟩
  | closes => exact ⟨h.visits, h.phases, h.events⟩

theorem task (h : s.Screened env paths) (hu : s.tasks[i]? = some u) (hstep : s.stepTask? env i u = some s') :
    s'.Screened env paths :=
  (along_step (P := Screening env paths i) hu (fun _ _ henters => h.enter hu henters)
    fun _ _ _ _ hscreening => hscreening.move).2 s' hstep

theorem start (env : Environment σ) (caller : Caller σ) (paths : List Path) :
    (State.start env caller paths).Screened env paths := by
  refine ⟨?_, ?_, by simp [State.start, State.openLevel]⟩
  · intro t ht
    obtain ⟨v, hv, rfl⟩ := List.mem_map.mp (show t ∈ (State.visits env paths).map _ from ht)
    obtain ⟨p, hp, hspot, hverdict⟩ := Environment.visit_spot hv
    have hallowed : env.verdict v.spot.name ≠ .excluded := hverdict ▸ Environment.verdict_of_mem_visits hv
    dsimp only
    rw [hspot] at hallowed ⊢
    exact .top hp hallowed
  · intro t ht
    obtain ⟨v, hv, rfl⟩ := List.mem_map.mp (show t ∈ (State.visits env paths).map _ from ht)
    trivial

end State.Screened

section Agreement

variable {files : FileSystem} {a : Actor}

/-- A task asks only about the place where it is, and there another file system may answer as well. -/
theorem Screening.move_eq (h : Screening env paths i u c s) (hfiles : env.files.Proper)
    (hagrees : env.Agrees paths files) : c.move { env with files } i u s = c.move env i u s := by
  obtain ⟨cwd, info, target, entries, content⟩ := files
  obtain ⟨hcwd, hinfo, htarget, hentries⟩ := hagrees
  dsimp only at hcwd hinfo htarget hentries
  subst hcwd
  have hcomes := h.spot.comes
  have hclear := h.spot.clear hfiles
  cases c with
  | answer job =>
    cases job with
    | info =>
      simp only [Cursor.move]
      rw [show info u.visit.place = env.files.info u.visit.place from hinfo _ hcomes hclear]
    | target found =>
      simp only [Cursor.move]
      rw [show target u.visit.place = env.files.target u.visit.place from htarget _ hcomes hclear]
    | entries found =>
      simp only [Cursor.move]
      rw [show entries u.visit.place = env.files.entries u.visit.place from hentries _ hcomes hclear]
    | report => rfl
  | begin job => cases job <;> rfl
  | follow o => cases o <;> rfl
  | onAnswer job f answer => cases answer <;> rfl
  | onReply info tally answer => rcases answer with f | _ | _ <;> rfl
  | _ => rfl

theorem Screening.run_eq (h : Screening env paths i u c s) (hfiles : env.files.Proper)
    (hagrees : env.Agrees paths files) : c.run { env with files } i u s = c.run env i u s := by
  have hmoves : ∀ u' d s₁, Screening env paths i u' d s₁ ∧
      d.run { env with files } i u' s₁ = c.run { env with files } i u s →
      (d.move env i u' s₁).Meets (fun u' d s₁ => Screening env paths i u' d s₁ ∧
        d.run { env with files } i u' s₁ = c.run { env with files } i u s)
        fun s₁ => c.run { env with files } i u s = s₁ := by
    rintro u' d s₁ ⟨hscreening, hrun⟩
    have hnext := hscreening.move
    rw [← Cursor.last_move, hscreening.move_eq hfiles hagrees] at hrun
    cases hcourse : d.move env i u' s₁ with
    | goOn v e s₂ =>
      rw [hcourse] at hnext hrun
      exact ⟨hnext, hrun⟩
    | done s₂ =>
      rw [hcourse] at hrun
      exact hrun.symm
  exact Cursor.run_of_moves hmoves u c s ⟨h, rfl⟩

theorem State.Screened.step_eq (h : s.Screened env paths) (hfiles : env.files.Proper)
    (hagrees : env.Agrees paths files) : s.step? { env with files } a = s.step? env a := by
  cases a with
  | level k => rfl
  | task i =>
    change s.tasks[i]?.bind _ = s.tasks[i]?.bind _
    cases hu : s.tasks[i]? with
    | none => rfl
    | some u =>
      change s.stepTask? _ i u = s.stepTask? _ i u
      rw [State.stepTask?_eq, State.stepTask?_eq]
      change Option.map _ (s.entry? env u) = Option.map _ (s.entry? env u)
      cases hentry : s.entry? env u with
      | none => rfl
      | some x => exact congrArg some ((h.enter hu (State.enters hentry)).run_eq hfiles hagrees)

end Agreement

namespace Scene

variable {sc sc' : Scene σ} {caller : Caller σ} {others : List Pool.Stake} {files : FileSystem}

theorem screened_move (h : sc.state.Screened env paths) (hmove : Move env sc sc') :
    sc'.state.Screened env paths := by
  cases hmove with
  | @act a s step =>
    cases a with
    | task i =>
      obtain ⟨t, ht, hstep⟩ := Option.bind_eq_some_iff.mp step
      exact h.task ht hstep
    | level k =>
      obtain ⟨l, _, hstep⟩ := Option.bind_eq_some_iff.mp step
      exact h.level hstep
  | interrupt =>
    have hinterrupted := h.interrupt 0
    exact ⟨hinterrupted.visits, hinterrupted.phases, hinterrupted.events⟩
  | deal => exact ⟨h.visits, h.phases, h.events⟩

theorem screened_moves (hmoves : Moves env sc sc') (h : sc.state.Screened env paths) :
    sc'.state.Screened env paths := by
  induction hmoves with
  | refl => exact h
  | cons hmove _ ih => exact ih (screened_move h hmove)

/-- A walk goes on in the same way in another file system that agrees where it can come. -/
theorem moves_agree (hfiles : env.files.Proper) (hagrees : env.Agrees paths files) (hmoves : Moves env sc sc')
    (h : sc.state.Screened env paths) : Moves { env with files } sc sc' := by
  induction hmoves with
  | refl => exact .refl _
  | cons hmove _ ih =>
    refine .cons ?_ (ih (screened_move h hmove))
    cases hmove with
    | act step =>
      rw [← h.step_eq hfiles hagrees] at step
      exact .act step
    | interrupt => exact .interrupt _
    | deal dealing => exact .deal dealing

theorem start_agree (hagrees : env.Agrees paths files) :
    start { env with files } caller paths others = start env caller paths others := by
  obtain ⟨cwd, info, target, entries, content⟩ := files
  obtain ⟨hcwd, _, _, _⟩ := hagrees
  dsimp only at hcwd
  subst hcwd
  rfl

/-- What lies below an excluded path is left alone. -/
structure Spares (env : Environment σ) (paths : List Path) (sc : Scene σ) : Prop where
  touched : env.options.walkLinks = false → ∀ p, .stated p ∈ sc.state.trace ∨ .linkRead p ∈ sc.state.trace ∨
    .listed p ∈ sc.state.trace → env.Clear paths p
  reported : ∀ c, .reported c ∈ sc.state.trace → env.Clear paths c.path
  logged : ∀ name tally, .logged (logLine name tally) ∈ sc.state.trace → env.Clear paths name
  /-- The total is made up of what was found under names above which nothing is excluded. -/
  total : ∀ total, sc.state.result? = some (.ok total) → ∃ items : List Item, total.amounts = Item.sum items ∧
    ∀ x ∈ items, env.files.info x.place = .ok x.info ∧
      ∃ name, env.Comes paths ⟨name, x.place⟩ ∧ env.Clear paths name

/-- However a walk goes on, and whether it comes back or is torn down, what lies below an excluded path is left
alone, and the walk could go on in the same way whatever there is. -/
theorem spares_of_moves (hfiles : env.files.Proper) (hpool : Pool.Serves caller.pool others)
    (h : Moves env (start env caller paths others) sc) : sc.Spares env paths ∧
      ∀ files, env.Agrees paths files →
        Moves { env with files } (start { env with files } caller paths others) sc := by
  have hscreened := screened_moves h (.start env caller paths)
  have hsame : ∀ files, env.Agrees paths files →
      Moves { env with files } (start { env with files } caller paths others) sc := by
    intro files hagrees
    rw [start_agree hagrees]
    exact moves_agree hfiles hagrees h (.start env caller paths)
  have hclear : ∀ {a : Spot}, env.Admits paths a → env.Clear paths a.name := fun ha => ha.clear hfiles
  refine ⟨⟨?_, ?_, ?_, ?_⟩, hsame⟩
  · intro hlinks p hp
    have hspot : ∃ a, env.Admits paths a ∧ a.place = p := by
      rcases hp with hp | hp | hp <;> exact hscreened.events _ hp
    obtain ⟨a, ha, rfl⟩ := hspot
    rw [ha.place_eq hlinks]
    exact hclear ha
  · intro c hc
    obtain ⟨a, ha, hname⟩ := hscreened.events _ hc
    rw [← hname]
    exact hclear ha
  · intro name tally hlogged
    obtain ⟨a, _, ha, hline⟩ := hscreened.events _ hlogged
    rw [logLine_name hline]
    exact hclear ha
  · intro total hresult
    -- A file system in which there is nothing but what a walk can come to makes no difference.
    classical
    let reached (p : Path) : Prop := ∃ name, env.Comes paths ⟨name, p⟩ ∧ env.Clear paths name
    let files : FileSystem :=
      { env.files with info := fun p => if reached p then env.files.info p else .error .interrupted }
    have hagrees : env.Agrees paths files :=
      ⟨rfl, fun a hcomes hname => if_pos ⟨a.name, hcomes, hname⟩, fun _ _ _ => rfl, fun _ _ _ => rfl⟩
    obtain ⟨items, hcensus⟩ := (accounted_of_moves hpool (hsame files hagrees)).census
    refine ⟨items, hcensus.total total hresult, ?_⟩
    intro x hx
    have hinfo : (if reached x.place then env.files.info x.place else .error .interrupted) = .ok x.info :=
      hcensus.genuine x hx
    split at hinfo
    · next hreached => exact ⟨hinfo, hreached⟩
    · cases hinfo

/-- A directory holds an excluded directory and a file. -/
theorem spares_of_excluded_directory : ∃ (env : Environment Unit) (caller : Caller Unit) (sc : Scene Unit),
    env.files.Proper ∧ Pool.Serves caller.pool [] ∧ Moves env (start env caller [['r']] []) sc ∧
    env.verdict ['/', 'r', '/', 'x'] = .excluded ∧ sc.state.result? = some (.ok ⟨5, 1, 1, 0, 7⟩) ∧
    sc.state.trace = [.stated ['/', 'r', '/', 'k'], .listed ['/', 'r'], .stated ['/', 'r']] ∧
    sc.Spares env [['r']] ∧ ∀ files, env.Agrees [['r']] files →
      Moves { env with files } (start { env with files } caller [['r']] []) sc := by
  let files : FileSystem := ⟨['/'],
    fun p => if p = ['/', 'r'] then .ok ⟨.directory, 0, 0, 1, 1⟩
      else if p = ['/', 'r', '/', 'x'] then .ok ⟨.directory, 0, 0, 1, 2⟩
      else .ok ⟨.file, 5, 7, 1, 3⟩,
    fun _ => .ok [], fun p => if p = ['/', 'r'] then .ok [['x'], ['k']] else .ok [['f']], fun _ => .ok []⟩
  let filter (p : Path) : Verdict := if p = ['/', 'r', '/', 'x'] then .excluded else .included
  let env : Environment Unit :=
    ⟨files, ⟨.several [['r']], false, some filter, none, none, none, defaultPriority⟩, fun _ => none⟩
  let caller : Caller Unit := ⟨⟨2, 0, [], [], 0⟩, false, none, ()⟩
  let actors : List Actor :=
    [.task 0, .task 0, .task 0, .task 1, .task 1, .level 1, .task 0, .level 0]
  have hplayed : (play env actors (start env caller [['r']] [])).map
      (fun sc => (sc.state.result?, sc.state.trace)) =
        some (some (.ok ⟨5, 1, 1, 0, 7⟩),
          [.stated ['/', 'r', '/', 'k'], .listed ['/', 'r'], .stated ['/', 'r']]) := by decide +kernel
  have hproper : env.files.Proper := by
    refine ⟨rfl, ?_⟩
    intro p names hentries n hn
    have hnames : ∀ m ∈ [['x'], ['k'], ['f']], Path.IsName m := by
      intro m hm
      refine ⟨?_, ?_, ?_, ?_⟩ <;> revert m <;> decide
    apply hnames n
    change (if _ then _ else _) = _ at hentries
    split at hentries
    · obtain rfl := Except.ok.inj hentries
      exact List.mem_append_left [['f']] hn
    · obtain rfl := Except.ok.inj hentries
      exact List.mem_append_right [['x'], ['k']] hn
  have hserves : Pool.Serves caller.pool [] := @Pool.serves_create 2 _ rfl
  obtain ⟨sc, hsc, heq⟩ := Option.map_eq_some_iff.mp hplayed
  obtain ⟨hresult, htrace⟩ := Prod.mk.inj heq
  have hmoves := moves_of_play hsc
  obtain ⟨hspares, hsame⟩ := spares_of_moves hproper hserves hmoves
  exact ⟨env, caller, sc, hproper, hserves, hmoves, by decide, hresult, htrace, hspares, hsame⟩

end Scene

end Walk

end TreeCensus
