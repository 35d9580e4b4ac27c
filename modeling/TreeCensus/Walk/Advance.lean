import TreeCensus.Walk.State

/-!
# The steps of a walk

A task goes on from one place where it waits to the next in one step, and so does a level that waits
for its tasks. A fault that is not taken ends its task. The first such fault of a level cancels the
level's source and tells all its tasks to end; when they have, the level closes with that fault.
-/

namespace TreeCensus.Walk

set_option autoImplicit false

structure Environment (σ : Type) where
  files : FileSystem
  options : Options σ
  /-- Why the log does not take a line. -/
  refusal : Text → Option Fault

variable {σ : Type}

/-- What an item is logged as. -/
def logLine (name : Path) (tally : Tally) : Text :=
  formatSize tally.size ++ ':' :: ' ' :: name

/-- How a visit ends whose item has been logged. -/
def Environment.logged (env : Environment σ) (name : Path) (tally : Tally) :
    Except Fault (Option Tally) :=
  match env.refusal (logLine name tally) with
  | some f => .error f
  | none => .ok (some tally)

/-- Counts items on the way back from a visit through the links that led to it. -/
inductive Outcome
  /-- The visit is over. -/
  | over (result : Option Tally)
  /-- The item is to be reported. -/
  | counted (i : FileInfo) (t : Tally)

/-- An item counts if the filter includes it or something below it was counted. A link that was
followed takes over the tally of its target, and only the outermost item is reported. -/
def settle (verdict : Verdict) : (outer : List FileInfo) → FileInfo → Tally → Outcome
  | outer, i, t =>
    let counts := verdict = .included ∨ 1 ≤ t.items
    let t := if counts then t.count i.kind else t
    match outer with
    | [] => if counts then .counted i t else .over (some t)
    | link :: rest => settle verdict rest link t

/-- The visit of `place` is over; a target that gave nothing leaves a link with its own tally. -/
def unwind (verdict : Verdict) (result : Option Tally) : (outer : List FileInfo) → Outcome
  | [] => .over result
  | link :: rest => settle verdict rest link (result.getD link.tally)

/-- The priority of a job on the item at a place among its siblings. -/
def Job.priority (level : Priority) (index : Nat) : Job → Priority
  | .info => .create index (.create Tier.metadata.place level)
  | .target i | .report i _ =>
    let tier : Tier := if i.kind = .directory then .directory else .file
    .create index (.create tier.place level)
  | .entries _ => level

namespace State

/-- A task ends; a fault counts as the failure of its level if it is the first one. -/
def conclude (s : State σ) (i : Nat) (t : Task) (result : Except Fault (Option Tally)) : State σ :=
  let s := s.setPhase i (.ended result)
  match result with
  | .ok _ => s
  | .error f => s.updateLevel t.level fun l => { l with failure := l.failure.or (some f) }

/-- Gives the permit of a task back and goes on. -/
def giveBack (s : State σ) (i : Nat) (t : Task) (next : State σ → State σ) : State σ :=
  match s.admission.release 1 with
  | (admission, none) => next { s with admission }
  | (admission, some f) => { s with admission }.conclude i t (.error f)

/-- Adds an item to the total of its level, and logs it if it is to be logged. -/
def accept (env : Environment σ) (s : State σ) (i : Nat) (t : Task) (tally : Tally) : State σ :=
  let s := s.updateLevel t.level fun l => { l with total := l.total.add tally }
  match env.options.log with
  | none => s.conclude i t (.ok (some tally))
  | some log =>
    if log.rule.allows (s.level t.level).depth tally.size then
      let s := s.note (.logged (logLine t.visit.name tally))
      if log.yields then s.setPhase i (.logging tally)
      else s.conclude i t (env.logged t.visit.name tally)
    else s.conclude i t (.ok (some tally))

/-- The fault handler has answered. A fault that it does not take is left to the default policy; if
the fault is taken, the task goes on with `next`. -/
def onAnswer (s : State σ) (i : Nat) (t : Task) (f : Fault) (next : State σ → State σ) :
    Except Fault Bool → State σ
  | .error g => s.giveBack i t fun s => s.conclude i t (.error g)
  | .ok taken =>
    if taken || f.isMissing then s.giveBack i t next
    else s.giveBack i t fun s => s.conclude i t (.error f)

/-- The fault handler acts; without a handler the default policy decides. -/
def consult (env : Environment σ) (s : State σ) (i : Nat) (t : Task) (f : Fault)
    (next : State σ → State σ) : State σ :=
  match env.options.onFault with
  | none => s.onAnswer i t f next (.ok false)
  | some handler =>
    let (memory, answer) := handler.act s.memory f
    { s with memory }.onAnswer i t f next answer

/-- Offers a fault to the fault handler. That a task was told to end is nothing to be offered. -/
def offer (env : Environment σ) (s : State σ) (i : Nat) (t : Task) (job : Job) (f : Fault)
    (next : State σ → State σ) : State σ :=
  if f = .interrupted then s.giveBack i t fun s => s.conclude i t (.error f)
  else
    match env.options.onFault with
    | none => s.consult env i t f next
    | some handler =>
      let s := s.note (.offered f)
      if handler.yields then s.setPhase i (.consulting job f) else s.consult env i t f next

/-- The path handler has answered. Cancellations are not offered to the fault handler. -/
def onReply (env : Environment σ) (s : State σ) (i : Nat) (t : Task) (info : FileInfo)
    (tally : Tally) : Except Fault Bool → State σ
  | .ok true => s.giveBack i t fun s => s.accept env i t tally
  | .ok false => s.giveBack i t fun s => s.conclude i t (.ok (some tally))
  | .error f =>
    if f.isCancellation then s.giveBack i t fun s => s.conclude i t (.error f)
    else s.offer env i t (.report info tally) f fun s => s.conclude i t (.ok (some tally))

def pathCall (s : State σ) (t : Task) (info : FileInfo) (tally : Tally) : PathCall :=
  ⟨t.visit.name, (s.level t.level).depth, info, tally⟩

/-- The path handler acts and answers. -/
def report (env : Environment σ) (s : State σ) (i : Nat) (t : Task) (info : FileInfo)
    (tally : Tally) : State σ :=
  match env.options.onPath with
  | none => s.onReply env i t info tally (.ok true)
  | some handler =>
    let (memory, reply) := handler.act s.memory (s.pathCall t info tally)
    let s := { s with memory }
    let s := match reply.stop with
      | some r => { s with admission := s.admission.cancel callerToken r }
      | none => s
    let answer :=
      if reply.check then
        match s.admission.called? (some (s.level t.level).source) with
        | some f => .error f
        | none => reply.answer
      else reply.answer
    s.onReply env i t info tally answer

/-- Begins a job for which the task has a permit. A path handler that lets no one go on before it acts
does so at once. -/
def begin (env : Environment σ) (s : State σ) (i : Nat) (t : Task) (job : Job) : State σ :=
  match job with
  | .info => (s.note (.stated t.visit.place)).setPhase i (.calling job)
  | .target _ => (s.note (.linkRead t.visit.place)).setPhase i (.calling job)
  | .entries _ => (s.note (.listed t.visit.place)).setPhase i (.calling job)
  | .report info tally =>
    match env.options.onPath with
    | none => s.report env i t info tally
    | some handler =>
      let s := s.note (.reported (s.pathCall t info tally))
      if handler.yields then s.setPhase i (.calling job) else s.report env i t info tally

/-- Asks for a permit for a job. -/
def seek (env : Environment σ) (s : State σ) (i : Nat) (t : Task) (job : Job) : State σ :=
  let level := s.level t.level
  match s.admission.ask (job.priority level.priority t.visit.index) 1 (some level.source) with
  | .error f => s.conclude i t (.error f)
  | .ok (admission, none) => { s with admission }.begin env i t job
  | .ok (admission, some ticket) => { s with admission }.setPhase i (.queued ticket job)

def follow (env : Environment σ) (s : State σ) (i : Nat) (t : Task) : Outcome → State σ
  | .over result => s.conclude i t (.ok result)
  | .counted info tally =>
    match env.options.onPath with
    | none => s.accept env i t tally
    | some _ => s.seek env i t (.report info tally)

def settle (env : Environment σ) (s : State σ) (i : Nat) (t : Task) (info : FileInfo)
    (tally : Tally) : State σ :=
  s.follow env i t (Walk.settle t.visit.verdict t.visit.outer info tally)

/-- The item is not looked at any further. -/
def skip (env : Environment σ) (s : State σ) (i : Nat) (t : Task) : State σ :=
  s.follow env i t (unwind t.visit.verdict none t.visit.outer)

/-- The items of a level, without those that the filter excludes. -/
def visits (env : Environment σ) (paths : List Path) : List Visit :=
  paths.zipIdx.filterMap fun (p, index) =>
    let place := Path.resolve env.files.cwd p
    let verdict := match env.options.filter with
      | some f => f place
      | none => .included
    if verdict = .excluded then none else some ⟨place, place, index, verdict, []⟩

/-- Opens a level for the given paths, its source linked to the given tokens. -/
def openLevel (env : Environment σ) (s : State σ) (links : List Nat) (depth : Nat)
    (priority : Priority) (paths : List Path) : State σ :=
  let k := s.levels.length
  { s with
    admission := { s.admission with network := s.admission.network.addSource links }
    levels := s.levels ++
      [⟨s.admission.network.tokens.length, depth, priority, .zero, none, false, .running⟩]
    tasks := s.tasks ++ (visits env paths).map fun v => ⟨k, v, .fresh, false⟩ }

/-- The file system said what the item is. An item that was visited before, and a file that is not
included, are passed over. -/
def onInfo (env : Environment σ) (s : State σ) (i : Nat) (t : Task) (info : FileInfo) : State σ :=
  let id := info.identity t.visit.place
  if info.kind = .file ∧ t.visit.verdict ≠ .included then s.skip env i t
  else if id ∈ s.visited then s.skip env i t
  else
    let s := { s with visited := id :: s.visited }
    match info.kind with
    | .link =>
      if env.options.walkLinks then s.seek env i t (.target info)
      else s.settle env i t info info.tally
    | .directory => s.seek env i t (.entries info)
    | .file | .other => s.settle env i t info info.tally

/-- The file system said where a link leads; the target is visited next. -/
def onTarget (env : Environment σ) (s : State σ) (i : Nat) (t : Task) (info : FileInfo)
    (target : Text) : State σ :=
  if target = [] then s.settle env i t info info.tally
  else
    let place := Path.resolve env.files.cwd (Path.under (Path.directory t.visit.place) target)
    let visit := { t.visit with place, outer := info :: t.visit.outer }
    let s := s.updateTask i fun t => { t with visit }
    s.seek env i { t with visit } .info

/-- The file system said what a directory holds; its entries make the level below it. -/
def onEntries (env : Environment σ) (s : State σ) (i : Nat) (t : Task) (info : FileInfo)
    (names : List Text) : State σ :=
  if names = [] then s.settle env i t info info.tally
  else
    let level := s.level t.level
    let k := s.levels.length
    let priority := (Job.report info .zero).priority level.priority t.visit.index
    (s.openLevel env [level.source] (level.depth + 1) priority
      (names.map (Path.under t.visit.name))).setPhase i (.descending k info)

/-- What a job comes to when its fault has been taken. -/
def forgo (env : Environment σ) (s : State σ) (i : Nat) (t : Task) : Job → State σ
  | .info => s.skip env i t
  | .target info | .entries info => s.settle env i t info info.tally
  | .report _ tally => s.conclude i t (.ok (some tally))

/-- The call comes back. -/
def answer (env : Environment σ) (s : State σ) (i : Nat) (t : Task) (job : Job) : State σ :=
  match job with
  | .info =>
    match env.files.info t.visit.place with
    | .ok info => s.giveBack i t fun s => s.onInfo env i t info
    | .error f => s.offer env i t job f fun s => s.forgo env i t job
  | .target info =>
    match env.files.target t.visit.place with
    | .ok target => s.giveBack i t fun s => s.onTarget env i t info target
    | .error f => s.offer env i t job f fun s => s.forgo env i t job
  | .entries info =>
    match env.files.entries t.visit.place with
    | .ok names => s.giveBack i t fun s => s.onEntries env i t info names
    | .error f => s.offer env i t job f fun s => s.forgo env i t job
  | .report info tally => s.report env i t info tally

/-- A step of a task; none if it has ended or waits for something that has not come about. -/
def stepTask? (env : Environment σ) (s : State σ) (i : Nat) (t : Task) : Option (State σ) :=
  match t.phase with
  | .ended _ => none
  | .fresh =>
    if t.interrupted then some (s.conclude i t (.error .interrupted))
    else some (s.seek env i t .info)
  | .queued ticket job =>
    let token := some (s.level t.level).source
    (s.admission.collect? ticket 1 token t.interrupted).map fun (admission, failure) =>
      let s := { s with admission }
      match failure with
      | some f => s.conclude i t (.error f)
      | none =>
        match s.admission.called? token with
        | some f => s.giveBack i t fun s => s.conclude i t (.error f)
        | none => s.begin env i t job
  | .calling job =>
    if t.interrupted then some (s.giveBack i t fun s => s.conclude i t (.error .interrupted))
    else some (s.answer env i t job)
  | .consulting job f =>
    if t.interrupted then some (s.giveBack i t fun s => s.conclude i t (.error .interrupted))
    else some (s.consult env i t f fun s => s.forgo env i t job)
  | .logging tally =>
    if t.interrupted then some (s.conclude i t (.error .interrupted))
    else some (s.conclude i t (env.logged t.visit.name tally))
  | .descending k info =>
    match (s.level k).stage with
    | .closed result =>
      if t.interrupted then some (s.conclude i t (.error .interrupted))
      else
        match result with
        | .error f => some (s.conclude i t (.error f))
        | .ok total => some (s.settle env i t info total)
    | _ => none

/-- The level below a task that is not closed yet. -/
def openBelow? (s : State σ) (t : Task) : Option Nat :=
  match t.phase with
  | .descending j _ => if (s.level j).stage.isClosed then none else some j
  | _ => none

/-- A level and all levels below it that are not closed. -/
def subtree (s : State σ) (k : Nat) : List Nat :=
  s.tasks.foldl
    (fun ks t =>
      match s.openBelow? t with
      | some j => if t.level ∈ ks then j :: ks else ks
      | none => ks) [k]

/-- The tickets with which tasks of some levels wait. -/
def ticketsOf (s : State σ) (ks : List Nat) : List Nat :=
  s.tasks.filterMap fun t =>
    match t.phase with
    | .queued ticket _ => if t.level ∈ ks then some ticket else none
    | _ => none

/-- Tells the tasks of a level, and of the levels below it, to end. -/
def interrupt (s : State σ) (k : Nat) : State σ :=
  let ks := s.subtree k
  { s with
    admission := (s.ticketsOf ks).foldl (fun a ticket => a.abandon ticket) s.admission
    tasks := s.tasks.map fun t =>
      if t.level ∈ ks ∧ ¬ t.phase.isEnded ∧ (s.openBelow? t).isNone then { t with interrupted := true }
      else t
    levels := s.levels.mapIdx fun j l =>
      if j ∈ ks ∧ j ≠ k then { l with interrupted := true } else l }

/-- A level has nothing more to wait for. -/
def close (s : State σ) (k : Nat) (result : Except Fault Tally) : State σ :=
  let source := (s.level k).source
  { s with
    admission := { s.admission with network := s.admission.network.detach source } }.updateLevel k
      fun l => { l with stage := .closed result }

/-- A step of a level; none if it is closed or waits for its tasks. -/
def stepLevel? (s : State σ) (k : Nat) (l : Level) : Option (State σ) :=
  match l.stage with
  | .closed _ => none
  | .running =>
    match l.failure with
    | some f =>
      let s := { s with admission := s.admission.cancel l.source (.fault f) }.interrupt k
      some (s.updateLevel k fun l => { l with stage := .draining f, interrupted := false })
    | none =>
      if s.allEnded k then
        if l.interrupted then some (s.close k (.error .interrupted))
        else some (s.close k (.ok l.total))
      else none
  | .draining f =>
    if s.allEnded k then some (s.close k (.error (if l.interrupted then .interrupted else f)))
    else none

end State

/-- Who can make a step. -/
inductive Actor
  | task (i : Nat)
  | level (k : Nat)
  deriving DecidableEq

def State.step? (env : Environment σ) (s : State σ) : Actor → Option (State σ)
  | .task i => s.tasks[i]?.bind (s.stepTask? env i)
  | .level k => s.levels[k]?.bind (s.stepLevel? k)

end TreeCensus.Walk
