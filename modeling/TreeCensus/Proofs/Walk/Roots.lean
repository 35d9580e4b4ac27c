import TreeCensus.Proofs.Walk.Ascent
import TreeCensus.Survey

/-!
# What the roots come to

Where several trees are measured in one walk, the handler notes what it is told about each root, and the walk
adds the tallies of the roots to its total. No other call comes between a note and its addition, so the notes
about the roots divide the items of the topmost level among themselves: each item is part of one root alone,
however the roots overlap or lead to each other.
-/

namespace TreeCensus

set_option autoImplicit false

namespace Survey

open Walk (Options)

/-- The options of a walk that measures several trees at once. -/
def treeOptions (roots : List Path) (filter : Option (Path → Verdict)) (walkLinks : Bool) :
    Options (List Walk.PathCall) :=
  { plainOptions walkLinks with paths := .several roots, filter, onPath := some noting }

theorem measureTrees_eq (img : Image) (cwd : Path) (roots : List Path) (globs : List GlobSource)
    (walkLinks : Bool) :
    measureTrees img cwd roots globs walkLinks =
      (Filter.ofSources? (img.toFileSystem cwd) Path.here .heeded globs).map fun filter =>
        img.walk cwd (treeOptions roots (filterWith filter) walkLinks) (plainCaller []) := rfl

end Survey

namespace Walk

variable {σ : Type}

/-- A root that counts: what the path handler was told about it, and the items it stands for. -/
structure Lot where
  call : PathCall
  items : List Item
  /-- The items make up the tally of the root. -/
  made : call.tally.amounts = Item.sum items

/-- All that the roots stand for. -/
def Lot.joined (lots : List Lot) : List Item := lots.flatMap (·.items)

/-- The task waits until it may tell the path handler something. -/
def Phase.tells : Phase → Bool
  | calling (.report _ _) => true
  | _ => false

namespace State

/-- The calls of the path handler about items of the topmost level, the latest first. -/
def rootCalls (s : State σ) : List PathCall := s.view.reported.filter (·.level = 0)

/-- Nobody waits until it may tell the path handler something. -/
def Prompt (s : State σ) : Prop := ∀ t ∈ s.view.tasks, t.2.2.tells = false

/-- The handler has noted all that it was told, and nothing is known of the roots but the given calls. -/
structure Noted (calls : List PathCall) (s : State (List PathCall)) : Prop where
  calls : calls = s.rootCalls
  memory : s.memory = s.view.reported.reverse
  prompt : s.Prompt

/-- The roots divide the items of the topmost level. -/
def Divided (env : Environment (List PathCall)) (s : State (List PathCall)) : Prop :=
  ∃ lots : List Lot, s.Noted (lots.map (·.call)) ∧ s.Accounted env (·.Perm (Lot.joined lots))

end State

namespace Cursor

/-- The call about the task's item that is accepted in this step, until its tally is added. -/
def Owes (call : FileInfo → Tally → PathCall) : Cursor → List PathCall → Prop
  | accept t, cs => ∃ i, cs = [call i t]
  | report i t, cs => cs = [call i t]
  | stop i t reply, cs => cs = [call i t] ∧ reply = ⟨none, false, .ok true⟩
  | onReply i t response, cs => cs = [call i t] ∧ response = .ok true
  | giveBack next, cs => next.Owes call cs
  | answer (.report _ _), _ => False
  | _, cs => cs = []

/-- The call that the handler is about to note. -/
def unnoted (call : FileInfo → Tally → PathCall) : Cursor → List PathCall
  | report i t => [call i t]
  | giveBack next => next.unnoted call
  | _ => []

end Cursor

/-- What the handler has noted in the midst of a step of the task `u`; the tallies of the given calls have been
added to the total, and what is owed is still to be added. -/
structure Noting (u : Task) (c : Cursor) (calls cs : List PathCall) (s : State (List PathCall)) : Prop where
  owed : c.Owes (s.pathCall u) cs
  calls : cs.filter (·.level = 0) ++ calls = s.rootCalls
  memory : s.memory ++ c.unnoted (s.pathCall u) = s.view.reported.reverse
  prompt : s.Prompt

section Prompt

variable {s s' : State σ}

theorem State.Prompt.congr (h : s.Prompt) (htasks : s'.view.tasks = s.view.tasks) : s'.Prompt := by
  unfold Prompt
  rw [htasks]
  exact h

theorem State.Prompt.setPhase (h : s.Prompt) (i : Nat) {phase : Phase} (hphase : phase.tells = false) :
    (s.setPhase i phase).Prompt := by
  unfold Prompt
  rw [view_setPhase]
  intro t ht
  rcases mem_modify ht with ht | ⟨before, _, rfl⟩
  · exact h t ht
  · exact hphase

end Prompt

namespace Noting

variable {env : Environment (List PathCall)} {i : Nat} {u v : Task} {c d : Cursor} {calls cs : List PathCall}
  {s s' : State (List PathCall)} {phase : Phase} {info : FileInfo} {tally : Tally}

theorem still (h : Noting u c calls [] s) (hc : c.unnoted (s.pathCall u) = [])
    (hreported : s'.view.reported = s.view.reported) (htasks : s'.Prompt) (hmemory : s'.memory = s.memory)
    (howes : d.Owes (s'.pathCall v) []) (hd : d.unnoted (s'.pathCall v) = []) :
    ∃ cs', Noting v d calls cs' s' := by
  refine ⟨[], howes, ?_, ?_, htasks⟩
  · unfold State.rootCalls
    rw [hreported]
    exact h.calls
  · rw [hd, hmemory, hreported, ← h.memory, hc]

theorem done (h : Noting u c calls [] s) (hc : c.unnoted (s.pathCall u) = [])
    (hreported : s'.view.reported = s.view.reported) (hprompt : s'.Prompt) (hmemory : s'.memory = s.memory) :
    s'.Noted calls := by
  refine ⟨?_, ?_, hprompt⟩
  · unfold State.rootCalls
    rw [hreported]
    exact h.calls
  · rw [hmemory, hreported, ← h.memory, hc, List.append_nil]

theorem rest (h : Noting u c calls [] s) (s' : State (List PathCall)) (hc : c.unnoted (s.pathCall u) = [])
    (hreported : s'.view.reported = s.view.reported) (htasks : s'.view.tasks = s.view.tasks)
    (hmemory : s'.memory = s.memory) (hphase : phase.tells = false) :
    (s'.setPhase i phase).Noted calls := by
  refine h.done hc ?_ ((h.prompt.congr htasks).setPhase _ hphase) hmemory
  rw [State.view_setPhase]
  exact hreported

theorem tell (h : Noting u (.begin (.report info tally)) calls [] s) :
    Noting u (.report info tally) calls [s.pathCall u info tally] (s.note (.reported (s.pathCall u info tally))) := by
  refine ⟨rfl, ?_, ?_, h.prompt.congr rfl⟩
  · change _ = (s.pathCall u info tally :: s.view.reported).filter (·.level = 0)
    rw [List.filter_cons, List.filter_cons, List.filter_nil]
    have hcalls : calls = s.view.reported.filter (·.level = 0) := h.calls
    rw [hcalls]
    split <;> rfl
  · change _ = (s.pathCall u info tally :: s.view.reported).reverse
    rw [List.reverse_cons, ← h.memory]
    exact congrArg (· ++ _) (List.append_nil _).symm

theorem accept (h : Noting u (.accept tally) calls cs s) :
    Noting u (.log tally) (cs.filter (·.level = 0) ++ calls) []
      (s.updateLevel u.level fun l => { l with total := l.total.add tally }) := by
  exact ⟨rfl, h.calls, h.memory, h.prompt.congr rfl⟩

/-- Every other move of a task that does not end with a fault keeps the notes. -/
theorem move (h : Noting u c calls cs s) (honPath : env.options.onPath = some Survey.noting)
    (honFault : env.options.onFault = none) (hother : ∀ t, c ≠ .accept t) (hfine : ¬ c.Sinks) :
    (c.move env i u s).Meets (fun v d s' => ¬ d.Sinks → ∃ cs', Noting v d calls cs' s') (State.Noted calls) := by
  have howed := h.owed
  cases c with
  | accept tally => exact absurd rfl (hother tally)
  | conclude result =>
    obtain rfl : cs = [] := howed
    refine h.done rfl ?_ ?_ ?_
    · rw [State.view_conclude]
      rfl
    · have hended : (Phase.ended result).tells = false := rfl
      refine (h.prompt.setPhase i hended).congr ?_
      rw [State.view_conclude, State.view_setPhase]
    · cases result <;> rfl
  | log tally =>
    obtain rfl : cs = [] := howed
    simp only [Cursor.move]
    split
    · exact fun _ => h.still rfl rfl h.prompt rfl rfl rfl
    · split
      · split
        · exact h.rest (s.note (.logged (logLine u.visit.name tally))) rfl rfl rfl rfl rfl
        · exact fun _ => h.still rfl rfl (h.prompt.congr rfl) rfl rfl rfl
      · exact fun _ => h.still rfl rfl h.prompt rfl rfl rfl
  | seek job =>
    obtain rfl : cs = [] := howed
    simp only [Cursor.move]
    split
    · exact fun hsinks => absurd trivial hsinks
    · exact fun _ => h.still rfl rfl (h.prompt.congr rfl) rfl rfl rfl
    · next admission ticket _ =>
      exact h.rest { s with admission } rfl rfl rfl rfl rfl
  | follow o =>
    obtain rfl : cs = [] := howed
    cases o with
    | «over» result => exact fun _ => h.still rfl rfl h.prompt rfl rfl rfl
    | counted info tally =>
      simp only [Cursor.move, honPath]
      exact fun _ => h.still rfl rfl h.prompt rfl rfl rfl
  | enter info =>
    obtain rfl : cs = [] := howed
    simp only [Cursor.move]
    split
    · split <;> exact fun _ => h.still rfl rfl h.prompt rfl rfl rfl
    all_goals exact fun _ => h.still rfl rfl h.prompt rfl rfl rfl
  | onInfo info =>
    obtain rfl : cs = [] := howed
    simp only [Cursor.move]
    split
    · exact fun _ => h.still rfl rfl h.prompt rfl rfl rfl
    · split <;> exact fun _ => h.still rfl rfl (h.prompt.congr rfl) rfl rfl rfl
  | onTarget info target =>
    obtain rfl : cs = [] := howed
    simp only [Cursor.move]
    split
    · exact fun _ => h.still rfl rfl h.prompt rfl rfl rfl
    · refine fun _ => h.still rfl rfl ?_ rfl rfl rfl
      unfold State.Prompt
      rw [State.view_move]
      intro t ht
      rcases mem_modify ht with ht | ⟨before, hbefore, rfl⟩
      · exact h.prompt t ht
      · exact h.prompt before (List.mem_of_getElem? hbefore)
  | onEntries info names =>
    obtain rfl : cs = [] := howed
    simp only [Cursor.move]
    split
    · exact fun _ => h.still rfl rfl h.prompt rfl rfl rfl
    · have hopened : ∀ links depth priority paths, (s.openLevel env links depth priority paths).Prompt := by
        intro links depth priority paths
        unfold State.Prompt
        rw [State.view_openLevel]
        intro t ht
        rcases List.mem_append.mp ht with ht | ht
        · exact h.prompt t ht
        · obtain ⟨w, _, rfl⟩ := List.mem_map.mp ht
          rfl
      exact h.done rfl (by rw [State.view_setPhase]; rfl) ((hopened _ _ _ _).setPhase _ rfl) rfl
  | giveBack next =>
    simp only [Cursor.move]
    split
    · exact fun _ => ⟨cs, howed, h.calls, h.memory, h.prompt.congr rfl⟩
    · exact fun hsinks => absurd trivial hsinks
  | onAnswer job f response =>
    obtain rfl : cs = [] := howed
    cases response with
    | error g => exact fun hsinks => absurd trivial hsinks
    | ok taken =>
      simp only [Cursor.move]
      split
      · refine fun _ => h.still rfl rfl h.prompt rfl ?_ ?_
        · cases job <;> rfl
        · cases job <;> rfl
      · exact fun hsinks => absurd trivial hsinks
  | consult job f =>
    obtain rfl : cs = [] := howed
    simp only [Cursor.move, honFault]
    exact fun _ => h.still rfl rfl h.prompt rfl rfl rfl
  | offer job f =>
    obtain rfl : cs = [] := howed
    simp only [Cursor.move, honFault]
    split
    · exact fun hsinks => absurd trivial hsinks
    · exact fun _ => h.still rfl rfl h.prompt rfl rfl rfl
  | onReply info tally response =>
    obtain ⟨rfl, rfl⟩ := howed
    exact fun _ => ⟨_, ⟨info, rfl⟩, h.calls, h.memory, h.prompt⟩
  | stop info tally reply =>
    obtain ⟨rfl, rfl⟩ := howed
    exact fun _ => ⟨_, ⟨rfl, rfl⟩, h.calls, h.memory, h.prompt⟩
  | report info tally =>
    obtain rfl : cs = [s.pathCall u info tally] := howed
    simp only [Cursor.move, honPath]
    exact fun _ => ⟨_, ⟨rfl, rfl⟩, h.calls, (List.append_nil _).trans h.memory, h.prompt.congr rfl⟩
  | begin job =>
    obtain rfl : cs = [] := howed
    cases job with
    | report info tally =>
      simp only [Cursor.move, honPath]
      exact fun _ => ⟨_, h.tell⟩
    | info => exact h.rest (s.note (.stated u.visit.place)) rfl rfl rfl rfl rfl
    | target => exact h.rest (s.note (.linkRead u.visit.place)) rfl rfl rfl rfl rfl
    | entries => exact h.rest (s.note (.listed u.visit.place)) rfl rfl rfl rfl rfl
  | answer job =>
    cases job with
    | report => exact howed.elim
    | info | target | entries =>
      obtain rfl : cs = [] := howed
      simp only [Cursor.move]
      split <;> exact fun _ => h.still rfl rfl h.prompt rfl rfl rfl

end Noting

/-- Where a step begins, nothing is owed. -/
theorem State.Noted.enter {env : Environment (List PathCall)} {calls : List PathCall} {s s₁ : State (List PathCall)}
    {i : Nat} {t : Task} {c : Cursor} (h : s.Noted calls) (ht : s.tasks[i]? = some t)
    (henters : s.Enters env t c s₁) (hfine : ¬ c.Sinks) : ∃ cs, Noting t c calls cs s₁ := by
  have hnow : ∀ {d : Cursor} {s' : State (List PathCall)}, s'.view = s.view → s'.memory = s.memory →
      d.Owes (s'.pathCall t) [] → d.unnoted (s'.pathCall t) = [] → ∃ cs, Noting t d calls cs s' := by
    intro d s' hview hmemory howes hnone
    refine ⟨[], howes, ?_, ?_, ?_⟩
    · unfold State.rootCalls
      rw [hview]
      exact h.calls
    · rw [hnone, hmemory, hview, List.append_nil]
      exact h.memory
    · unfold State.Prompt
      rw [hview]
      exact h.prompt
  cases henters with
  | ends | drops | refused | called | failed => exact absurd trivial hfine
  | starts | consults | logged | resumes => exact hnow rfl rfl rfl rfl
  | admitted => exact hnow rfl rfl rfl rfl
  | @answers job phase =>
    cases job with
    | report info tally =>
      have htells := h.prompt (t.level, t.visit, t.phase)
        (List.mem_map_of_mem (f := fun t : Task => (t.level, t.visit, t.phase)) (List.mem_of_getElem? ht))
      rw [phase] at htells
      cases htells
    | info | target | entries => exact hnow rfl rfl rfl rfl

/-- The roots divide the items of the topmost level, in the midst of a step. -/
def Cursor.Divides (env : Environment (List PathCall)) (i : Nat) (u : Task) (c : Cursor)
    (s : State (List PathCall)) : Prop :=
  ∃ (lots : List Lot) (cs : List PathCall), Noting u c (lots.map (·.call)) cs s ∧
    Busy env (·.Perm (Lot.joined lots)) i u c s

theorem Busy.exists {α : Type} {env : Environment σ} {P : α → List Item → Prop} {i : Nat} {u : Task}
    {c : Cursor} {s : State σ} (h : Busy env (fun xs => ∃ a, P a xs) i u c s) : ∃ a, Busy env (P a) i u c s := by
  obtain ⟨inv, haccounts, hkeeps, a, ha⟩ := h.accounts
  exact ⟨a, h.task, h.opened, inv, haccounts, hkeeps, ha⟩

section Steps

variable {env : Environment (List PathCall)} {i : Nat} {t u : Task} {c : Cursor} {s s' : State (List PathCall)}
  {capacity : Int} {others others₀ : List Pool.Stake} {incidents : List Incident}

theorem Ascending.depth_eq_zero {env : Environment σ} {s : State σ} {reply : PathCall → PathReply} {role : Role}
    (h : Ascending env reply i u role s) : (s.level u.level).depth = 0 ↔ u.level = 0 := by
  obtain ⟨chs, hkept⟩ := h.kept
  have htier := (hkept.tasks i _ _ _ (h.task role)).tier
  rw [← s.depths_register]
  rw [Register.depths_put] at htier
  have hdepth := List.getElem?_eq_getElem htier
  refine ⟨fun hzero => ?_, fun hzero => ?_⟩
  · rw [hdepth] at hzero
    by_contra hlevel
    have := hkept.below u.level _ (Nat.pos_of_ne_zero hlevel) hdepth
    exact Nat.ne_of_gt this hzero
  · rw [hzero, show s.register.depths[0]? = some 0 from hkept.topmost]
    rfl

/-- The tally of a root is added to the total, and its items to those of the topmost level. -/
theorem Cursor.Divides.accept {tally : Tally} (h : Cursor.Divides env i u (.accept tally) s)
    (hdepth : (s.level u.level).depth = 0 ↔ u.level = 0) :
    Cursor.Divides env i u (.log tally)
      (s.updateLevel u.level fun l => { l with total := l.total.add tally }) := by
  obtain ⟨lots, cs, hnoting, hbusy⟩ := h
  obtain ⟨f, rfl⟩ := hnoting.owed
  have hnoted := hnoting.accept
  by_cases hzero : u.level = 0
  · obtain ⟨lot, hlot⟩ := Busy.exists (hbusy.accept
      (Q := fun zs => ∃ lot : Lot, lot.call = s.pathCall u f tally ∧ zs.Perm (Lot.joined (lot :: lots)))
      (fun hne => absurd hzero hne) fun _ xs ys zs hxs hys hzs =>
        ⟨⟨s.pathCall u f tally, ys, hys.symm⟩, rfl, hzs.trans (List.Perm.append_left ys hxs)⟩)
    obtain ⟨inv, haccounts, hkeeps, hcall, hheld⟩ := hlot.accounts
    refine ⟨lot :: lots, [], ?_, hlot.task, hlot.opened, inv, haccounts, hkeeps, hheld⟩
    have hroot : [s.pathCall u f tally].filter (·.level = 0) = [s.pathCall u f tally] := by
      rw [List.filter_eq_self]
      intro c hc
      rw [List.mem_singleton.mp hc]
      exact decide_eq_true (hdepth.mpr hzero)
    rw [hroot, ← hcall] at hnoted
    exact hnoted
  · refine ⟨lots, [], ?_, hbusy.accept (fun _ _ hxs => hxs) fun heq => absurd heq hzero⟩
    have hnone : [s.pathCall u f tally].filter (·.level = 0) = [] := by
      rw [List.filter_eq_nil_iff]
      intro c hc
      rw [List.mem_singleton.mp hc]
      exact fun hd => hzero (hdepth.mp (of_decide_eq_true hd))
    rw [hnone] at hnoted
    exact hnoted

/-- Every move of a task that does not end with a fault keeps the division. -/
theorem Cursor.Divides.move (h : c.Divides env i u s) (honPath : env.options.onPath = some Survey.noting)
    (honFault : env.options.onFault = none) (hdepth : (s.level u.level).depth = 0 ↔ u.level = 0)
    (hfine : ¬ c.Sinks) :
    (c.move env i u s).Meets (fun v d s' => ¬ d.Sinks → d.Divides env i v s') (State.Divided env) := by
  by_cases haccept : ∃ tally, c = .accept tally
  · obtain ⟨tally, rfl⟩ := haccept
    exact fun _ => h.accept hdepth
  · obtain ⟨lots, cs, hnoting, hbusy⟩ := h
    have hnoted := hnoting.move (i := i) honPath honFault (fun tally heq => haccept ⟨tally, heq⟩) hfine
    have hkept := hbusy.move fun tally heq => absurd ⟨tally, heq⟩ haccept
    cases hcourse : c.move env i u s with
    | goOn v d s' =>
      rw [hcourse] at hnoted hkept
      intro hup
      obtain ⟨cs', hnoting'⟩ := hnoted hup
      exact ⟨lots, cs', hnoting', hkept⟩
    | done s' =>
      rw [hcourse] at hnoted hkept
      exact ⟨lots, hnoted, hkept⟩

theorem State.Divided.congr (h : s.Divided env) (hview : s'.view = s.view) (hmemory : s'.memory = s.memory) :
    s'.Divided env := by
  obtain ⟨lots, hnoted, inv, haccounts, hheld⟩ := h
  refine ⟨lots, ⟨?_, ?_, ?_⟩, inv, hview ▸ haccounts, hheld⟩
  · unfold State.rootCalls
    rw [hview]
    exact hnoted.calls
  · rw [hmemory, hview]
    exact hnoted.memory
  · exact hnoted.prompt.congr (by rw [hview])

/-- A step of a walk that is not bound to fail keeps the division. -/
theorem Shared.divided_step {reply : PathCall → PathReply} (h : Shared capacity others s)
    (honPath : env.options.onPath = some Survey.noting) (honFault : env.options.onFault = none)
    (hpure : ∀ memory call, (Survey.noting.act memory call).2 = reply call) {a : Actor}
    (hstep : s.step? env a = some s') (hfine : ¬ s'.Doomed) (hchaptered : s.Chaptered env reply)
    (hdivided : s.Divided env) : s'.Divided env := by
  cases a with
  | task i =>
    obtain ⟨t, ht, hstep⟩ := Option.bind_eq_some_iff.mp hstep
    have hascends := (h.ascends_task honPath hpure ht hstep hfine hchaptered).1
    refine (h.along_fine (P := fun u c s₁ => c.Divides env i u s₁) (Q := fun s' => s'.Divided env) ht hstep hfine
      ?_ ?_).2
    · intro c s₁ hentry hup
      obtain ⟨lots, hnoted, haccounted⟩ := hdivided
      obtain ⟨l, hl, hopen⟩ := h.level_open ht (State.advances_entry i hentry).1.1
      obtain ⟨cs, hnoting⟩ := hnoted.enter ht (State.enters hentry) hup
      refine ⟨lots, cs, hnoting, haccounted.entry ht ⟨l.total, l.stage, ?_, hopen⟩ h.forked hentry⟩
      unfold State.view
      rw [List.getElem?_map, hl]
      rfl
    · intro u c s₁ hamid hup hnow
      obtain ⟨role, -, hascending⟩ := hascends u c s₁ hamid
      exact hnow.move honPath honFault hascending.depth_eq_zero hup
  | level k =>
    obtain ⟨l, hl, hstep⟩ := Option.bind_eq_some_iff.mp hstep
    obtain ⟨rfl, -, -⟩ := h.closes hl hstep hfine
    obtain ⟨lots, hnoted, haccounted⟩ := hdivided
    exact ⟨lots, ⟨hnoted.calls, hnoted.memory, hnoted.prompt.congr rfl⟩, haccounted.level hl hstep⟩

theorem State.Passes.divided {reply : PathCall → PathReply} {s₀ : State (List PathCall)}
    (hshared : Shared capacity others₀ s₀) (honPath : env.options.onPath = some Survey.noting)
    (honFault : env.options.onFault = none)
    (hpure : ∀ memory call, (Survey.noting.act memory call).2 = reply call) (hchaptered : s₀.Chaptered env reply)
    (hstart : s₀.Divided env) (h : s₀.Passes env (fun _ => True) others₀ incidents s others)
    (hfine : ¬ s.Doomed) : s.Divided env := by
  suffices hall : s.Chaptered env reply ∧ s.Divided env from hall.2
  refine h.induct_fine (P := fun _ s => s.Chaptered env reply ∧ s.Divided env) hshared ⟨hchaptered, hstart⟩ ?_ ?_
    hfine
  · rintro incidents s others a s' before step - hfine ⟨hch, hdivided⟩
    have hbefore := before.shared hshared
    exact ⟨hbefore.chaptered_step honPath hpure step hfine hch,
      hbefore.divided_step honPath honFault hpure step hfine hch hdivided⟩
  · rintro _ _ _ _ ⟨hch, hdivided⟩
    exact ⟨hch, hdivided.congr rfl rfl⟩

theorem State.divided_start (env : Environment (List PathCall)) {caller : Caller (List PathCall)}
    (hmemory : caller.memory = []) (paths : List Path) : (State.start env caller paths).Divided env := by
  refine ⟨[], ⟨rfl, hmemory, ?_⟩, Scene.accounted_start env caller paths (.refl [])⟩
  intro t ht
  unfold State.start at ht
  rw [State.view_openLevel] at ht
  obtain ⟨w, _, rfl⟩ := List.mem_map.mp ht
  rfl

end Steps

/-- When a walk has come back, its total is what was accepted about the items of the topmost level. -/
theorem State.Chaptered.total {env : Environment σ} {reply : PathCall → PathReply} {s : State σ} {total : Tally}
    (h : s.Chaptered env reply) (hfinished : ∀ x ∈ s.register.tasks, x.2.2 = .finished)
    (hresult : s.result? = some (.ok total)) :
    total = Tally.sum (((s.accepted reply).filter (·.level = 0)).map (·.tally)) := by
  obtain ⟨chs, hkept⟩ := h
  obtain ⟨top, rest, rfl, hcalls, htopmost, hbelow⟩ := hkept.sorted hfinished
  have hperm : ((s.accepted reply).filter (·.level = 0)).Perm top.calls := by
    have hfilter := hcalls.filter (·.level = 0)
    have htop : top.calls.filter (·.level = 0) = top.calls := by
      rw [List.filter_eq_self]
      exact fun c hc => decide_eq_true (htopmost c hc)
    have hrest : (rest.flatMap (·.calls)).filter (·.level = 0) = [] := by
      rw [List.filter_eq_nil_iff]
      exact fun c hc hlevel => Nat.ne_of_gt (hbelow c hc) (of_decide_eq_true hlevel)
    rwa [List.filter_append, htop, hrest, List.append_nil] at hfilter
  obtain ⟨l, hl, hstage⟩ := State.topmost_of_result hresult
  have htier := State.tier_register hl
  rw [Tally.sum_perm (hperm.map _), hkept.closed _ (List.mem_of_getElem? htier) total hstage]
  exact hkept.sums 0 top _ rfl htier

end Walk

namespace Survey

open Walk

/-- Tallies of different paths do not replace each other. -/
theorem foldl_setTally {calls : List PathCall} {before : List (Path × Tally)}
    (hpaths : (calls.map (·.path)).Nodup) (hnew : ∀ c ∈ calls, ∀ b ∈ before, b.1 ≠ c.path) :
    calls.foldl setTally before = before ++ calls.map fun c => (c.path, c.tally) := by
  induction calls generalizing before with
  | nil => exact (List.append_nil before).symm
  | cons c calls ih =>
    rw [List.map_cons, List.nodup_cons] at hpaths
    have hkept : before.filter (·.1 ≠ c.path) = before := by
      rw [List.filter_eq_self]
      exact fun b hb => decide_eq_true (hnew c List.mem_cons_self b hb)
    rw [List.foldl_cons, setTally, hkept, ih hpaths.2, List.append_assoc]
    · rfl
    · intro d hd b hb
      rcases List.mem_append.mp hb with hb | hb
      · exact hnew d (List.mem_cons_of_mem _ hd) b hb
      · rw [List.mem_singleton.mp hb]
        intro heq
        have hmem := List.mem_map_of_mem (f := PathCall.path) hd
        rw [← heq] at hmem
        exact hpaths.1 hmem

/-- What comes back are the tallies of the roots. -/
theorem treeTallies_perm {s : State (List PathCall)} (hmemory : s.memory = s.view.reported.reverse)
    (hpaths : (s.rootCalls.map (·.path)).Nodup) :
    (treeTallies s.leaves).Perm (s.rootCalls.map fun c => (c.path, c.tally)) := by
  have hnotes : s.leaves.memory.filter (·.level = 0) = s.rootCalls.reverse := by
    rw [State.rootCalls, ← List.filter_reverse, ← hmemory]
    rfl
  have hfold : s.rootCalls.reverse.foldl setTally [] = s.rootCalls.reverse.map fun c => (c.path, c.tally) := by
    refine foldl_setTally ?_ fun _ _ _ hb => absurd hb List.not_mem_nil
    rw [List.map_reverse]
    exact List.nodup_reverse.mpr hpaths
  refine (List.mergeSort_perm _ _).trans ?_
  rw [hnotes, hfold]
  exact (List.reverse_perm _).map _

/-- What comes back for the roots, the total of the walk, and the items that each root stands for. -/
structure Partition (env : Environment (List PathCall)) (s : State (List PathCall)) (total : Tally)
    (lots : List Lot) : Prop where
  /-- There is one lot for each call about an item of the topmost level. -/
  calls : lots.map (·.call) = s.rootCalls
  /-- The tally of each comes back under its own path. -/
  values : (treeTallies s.leaves).Perm (lots.map fun x => (x.call.path, x.call.tally))
  /-- Together they come to the total. -/
  total : total = Tally.sum ((treeTallies s.leaves).map (·.2))
  /-- Nothing counts for two of the roots, or twice for one of them. -/
  once : ((Lot.joined lots).map Item.id).Nodup
  met : ∀ x ∈ Lot.joined lots, x.id ∈ s.visited ∧ env.files.info x.place = .ok x.info

end Survey

namespace Walk

/-- What comes back for the roots adds up to the total of the walk, and each object that counts in the walk
counts for one root, whatever the file system is like, however the roots overlap or lead to each other, and
however the tasks take turns. The newest time of nothing is the zero of time, so it is this sum that the total
is, not the newest of times that all lie before it. -/
theorem State.Passes.partition {env : Environment (List PathCall)} {roots : List Path}
    {filter : Option (Path → Verdict)} {walkLinks : Bool} {caller : Caller (List PathCall)}
    {others₀ others : List Pool.Stake} {incidents : List Incident} {s : State (List PathCall)} {total : Tally}
    (hoptions : env.options = Survey.treeOptions roots filter walkLinks) (hmemory : caller.memory = [])
    (hpool : Pool.Serves caller.pool others₀)
    (h : (State.start env caller roots).Passes env (fun _ => True) others₀ incidents s others)
    (hresult : s.result? = some (.ok total)) : ∃ lots, Survey.Partition env s total lots := by
  have honPath : env.options.onPath = some Survey.noting := by rw [hoptions]; rfl
  have honFault : env.options.onFault = none := by rw [hoptions]; rfl
  have hshared := Shared.start env roots hpool
  have hfine := (h.shared hshared).not_doomed hresult
  let reply : PathCall → PathReply := fun _ => ⟨none, false, .ok true⟩
  have hpure : ∀ memory call, (Survey.noting.act memory call).2 = reply call := fun _ _ => rfl
  have hchaptered := State.chaptered_start env reply caller roots
  obtain ⟨lots, hnoted, inv, haccounts, hheld⟩ := h.divided hshared honPath honFault hpure hchaptered
    (State.divided_start env hmemory roots) hfine
  have htotal := (h.chaptered hshared honPath hpure hchaptered hfine).total
    ((h.shared hshared).registered (by rw [hresult]; rfl)) hresult
  have hall : s.accepted reply = s.view.reported := List.filter_eq_self.mpr fun _ _ => rfl
  have hpaths : (s.rootCalls.map (·.path)).Nodup := by
    have hnodup := haccounts.reported.nodup
    rw [View.reportedIds, ← Function.comp_def env.identity? PathCall.path, ← List.map_map] at hnodup
    exact hnodup.of_map.sublist (List.filter_sublist.map _)
  have hvalues := Survey.treeTallies_perm hnoted.memory hpaths
  have hitems : ∀ x ∈ Lot.joined lots, x ∈ inv.held (.level 0) := fun x hx => hheld.symm.subset hx
  refine ⟨lots, hnoted.calls, ?_, ?_, ?_, ?_⟩
  · rw [← hnoted.calls, List.map_map] at hvalues
    exact hvalues
  · rw [htotal, hall, Tally.sum_perm (hvalues.map _), List.map_map]
    rfl
  · have hids : inv.ids.Nodup := haccounts.met ▸ haccounts.distinct
    exact (hheld.map Item.id).nodup_iff.mp (inv.nodup_held hids _)
  · exact fun x hx => ⟨haccounts.mem_visited (hitems x hx), haccounts.genuine_held (hitems x hx)⟩

/-- A link to a directory, a file in the directory, which has a second name there, and the directory itself: the
link counts for the first root, the file for the second, and the third is left with the directory alone. -/
theorem State.Passes.partition_of_overlapping : ∃ (env : Environment (List PathCall)) (roots : List Path)
    (filter : Option (Path → Verdict)) (walkLinks : Bool) (caller : Caller (List PathCall))
    (incidents : List Incident) (s : State (List PathCall)) (total : Tally),
    env.options = Survey.treeOptions roots filter walkLinks ∧ caller.memory = [] ∧
    Pool.Serves caller.pool [] ∧
    (State.start env caller roots).Passes env (fun _ => True) [] incidents s [] ∧
    s.result? = some (.ok total) ∧
    Survey.treeTallies s.leaves =
      [(['/', 'd'], ⟨0, 0, 1, 0, 0⟩), (['/', 'd', '/', 'f'], ⟨5, 1, 0, 0, 9⟩),
        (['/', 'l'], ⟨1, 0, 0, 1, 4⟩)] ∧
    ∃ lots, Survey.Partition env s total lots := by
  let files : FileSystem := {
    cwd := ['/']
    info := fun p =>
      if p = ['/', 'd'] then .ok ⟨.directory, 0, 3, 1, 1⟩
      else if p = ['/', 'l'] then .ok ⟨.link, 1, 4, 1, 2⟩
      else .ok ⟨.file, 5, 9, 1, 3⟩
    target := fun _ => .ok ['d']
    entries := fun _ => .ok [['f'], ['g']]
    content := fun _ => .ok [] }
  let roots : List Path := [['l'], ['d', '/', 'f'], ['d']]
  let caller : Caller (List PathCall) := ⟨⟨2, 0, [], [], 0⟩, true, none, []⟩
  let env : Environment (List PathCall) := ⟨files, Survey.treeOptions roots none true, fun _ => none⟩
  have hserves : Pool.Serves caller.pool [] := by
    refine ⟨⟨?_, ?_, ?_, ?_, ?_, ?_, ?_, ?_⟩, ?_⟩ <;> decide
  have hstart : (State.start env caller roots).Passes env (fun _ => True) [] []
      (State.start env caller roots) [] := .refl
  obtain ⟨n, hrun⟩ := State.steps_run env 16 (State.start env caller roots)
  obtain ⟨actors, hpasses⟩ := hstart.onward hrun
  have hresult : ((State.start env caller roots).run env 16).result? = some (.ok ⟨6, 1, 1, 1, 9⟩) := by cbv
  refine ⟨env, roots, none, true, caller, _, _, _, rfl, rfl, hserves, hpasses, hresult, ?_,
    hpasses.partition rfl rfl hserves hresult⟩
  cbv

end Walk

end TreeCensus
