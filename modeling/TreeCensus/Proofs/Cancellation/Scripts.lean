import TreeCensus.Cancellation.Script
import TreeCensus.Proofs.Cancellation.Withdrawal

/-!
# Scripts are chronicles

What a script does to its network happens in a chronicle as well, and the clients are told of the same
cancellations in the same order. So what holds for every chronicle holds for every script, as long as its
steps work on names that are known.
-/

namespace TreeCensus.Cancellation

set_option autoImplicit false

namespace State

/-- The names that a step works on are known. -/
def Binds (st : State) : Step → Prop
  | .cancel id _ | .close id | .leave id => (st.sources.lookup id).isSome
  | .subscribe _ token _ _ => (st.token? token).isSome
  | _ => True

/-- A script does its tasks, as many as `n`, until none is left or one fails. -/
inductive Plays : Nat → State → List Task → State → Prop
  | done (st : State) : Plays 0 st [] st
  | step {n : Nat} {st st' st'' : State} {task : Task} {more rest : List Task}
      (bound : ∀ s, task = .perform s → st.Binds s) (advance : st.advance task = .ok (st', more))
      (later : Plays n st' (more ++ rest) st'') : Plays (n + 1) st (task :: rest) st''
  | fail {st : State} {task : Task} {rest : List Task} {f : Fault}
      (bound : ∀ s, task = .perform s → st.Binds s)
      (advance : st.advance task = .error f) : Plays 1 st (task :: rest) st

theorem Plays.run_eq {n : Nat} {st st' : State} {tasks : List Task} (h : Plays n st tasks st')
    {fuel : Nat} (hfuel : n ≤ fuel) : (st.run fuel tasks).1 = st' := by
  induction h generalizing fuel with
  | done => cases fuel <;> rfl
  | step _ hadvance _ ih =>
    obtain ⟨fuel, rfl⟩ : ∃ k, fuel = k + 1 := ⟨fuel - 1, by omega⟩
    rw [run, hadvance]
    exact ih (by omega)
  | fail _ hadvance =>
    obtain ⟨fuel, rfl⟩ : ∃ k, fuel = k + 1 := ⟨fuel - 1, by omega⟩
    rw [run, hadvance]

end State

/-- What can be taken back through a handle is a subscription that was made. -/
inductive Handle.Made (trace : List (Event Text)) : Handle → Prop
  | listed {t n : Nat} {id : Text} (made : .subscribe (.listed t n) id ∈ trace) : Made trace (some (t, id))
  | late : Made trace none

/-- The tasks of a script are those of an agenda. A program that has to come to its end may have a step left to
perform, and so may whoever is outside. -/
inductive Matches (trace : List (Event Text)) : List Task → List (Item Text) → Prop
  | done : Matches trace [] []
  | outside (s : Step) : Matches trace [.perform s] []
  | perform (s : Step) {tasks : List Task} {items : List (Item Text)} (later : Matches trace tasks items) :
      Matches trace (.perform s :: tasks) (.program :: items)
  | program {tasks : List Task} {items : List (Item Text)} (later : Matches trace tasks items) :
      Matches trace tasks (.program :: items)
  | notice {i : Item Text} {n : Notice Text} (same : i.notice? = some n) {tasks : List Task}
      {items : List (Item Text)} (later : Matches trace tasks items) :
      Matches trace (.notice n :: tasks) (i :: items)
  | keep (name : Text) {h : Handle} (made : h.Made trace) {tasks : List Task} {items : List (Item Text)}
      (later : Matches trace tasks items) : Matches trace (.keep name h :: tasks) items

/-- A chronicle tells what has happened in a script. -/
structure State.Told (st : State) (p : Chronicle Text) : Prop where
  network : st.network = p.network
  sources : ∀ e ∈ st.sources, e.2 < p.network.tokens.length
  tokens : ∀ e ∈ st.tokens, e.2 < p.network.tokens.length
  handles : ∀ e ∈ st.handles, e.2.Made p.trace

theorem Handle.Made.mono {trace trace' : List (Event Text)} {h : Handle} (hmade : h.Made trace)
    (hsub : trace ⊆ trace') : h.Made trace' := by
  cases hmade with
  | listed made => exact .listed (hsub made)
  | late => exact .late

namespace Matches

variable {trace trace' : List (Event Text)} {tasks : List Task} {items : List (Item Text)}

theorem mono (h : Matches trace tasks items) (hsub : trace ⊆ trace') : Matches trace' tasks items := by
  induction h with
  | done => exact .done
  | outside s => exact .outside s
  | perform s _ ih => exact .perform s ih
  | program _ ih => exact .program ih
  | notice same _ ih => exact .notice same ih
  | keep name made _ ih => exact .keep name (made.mono hsub) ih

/-- Notices come before what was to be done already. -/
theorem notices {new : List (Item Text)} (hnew : .program ∉ new) (h : Matches trace tasks items) :
    Matches trace ((new.filterMap Item.notice?).map .notice ++ tasks) (new ++ items) := by
  induction new with
  | nil => exact h
  | cons i new ih =>
    rw [List.mem_cons, not_or] at hnew
    cases i with
    | program => exact absurd rfl hnew.1
    | tell tie l r => exact .notice rfl (ih hnew.2)
    | close s => exact .notice rfl (ih hnew.2)

/-- When all tasks are done only programs are left that have nothing more to do. -/
theorem finishes {p : Chronicle Text} (h : Matches trace [] p.agenda) :
    Chronicle.Moves p { p with agenda := [] } := by
  generalize hitems : p.agenda = items at h
  generalize htasks : ([] : List Task) = tasks at h
  induction h generalizing p with
  | done =>
    rw [← hitems]
    exact .refl p
  | outside | perform | notice | keep => cases htasks
  | program _ ih => exact .cons (.finish p _ hitems) (ih (p := { p with agenda := _ }) rfl htasks)

end Matches

open Chronicle

namespace State

variable {st st' : State} {p q : Chronicle Text} {rest : List Task}

/-- What a task comes to, told by a chronicle that goes on. -/
def Follows (st : State) (p : Chronicle Text) (rest : List Task) : Except Fault (State × List Task) → Prop
  | .ok (st', more) => ∃ q, Moves p q ∧ st'.Told q ∧ Matches q.trace (more ++ rest) q.agenda ∧
      st'.heard = st.heard ++ (q.since p).filterMap Event.heard?
  | .error _ => ∃ q, Moves p q ∧ st.Told q ∧ q.agenda = [] ∧ (q.since p).filterMap Event.heard? = []

theorem Follows.of_move {out : Except Fault (State × List Task)} (h : st.Follows q rest out)
    (hmove : Move p q) (htrace : q.trace = p.trace) : st.Follows p rest out := by
  have hsince : ∀ m : Chronicle Text, m.since q = m.since p := by
    intro m
    unfold since
    rw [htrace]
  cases out with
  | ok out =>
    obtain ⟨m, hmoves, htold, hmatches, hheard⟩ := h
    exact ⟨m, .cons hmove hmoves, htold, hmatches, hsince m ▸ hheard⟩
  | error f =>
    obtain ⟨m, hmoves, htold, hend, hheard⟩ := h
    exact ⟨m, .cons hmove hmoves, htold, hend, hsince m ▸ hheard⟩

theorem Told.known (h : st.Told p) {id : Text} {t : Nat} (ht : st.token? id = some t) :
    t < p.network.tokens.length :=
  h.tokens (id, t) (mem_of_lookup ht)

theorem Told.tokens_bind (h : st.Told p) {id : Text} {t n : Nat} (ht : t < n)
    (hn : p.network.tokens.length ≤ n) : ∀ e ∈ (st.bind id t).tokens, e.2 < n := by
  have hold : ∀ e ∈ st.tokens, e.2 < n := fun e he => Nat.lt_of_lt_of_le (h.tokens e he) hn
  intro e he
  unfold bind at he
  dsimp only at he
  split at he
  · obtain ⟨e', he', rfl⟩ := List.mem_map.mp he
    split
    · exact ht
    · exact hold e' he'
  · rcases List.mem_append.mp he with he | he
    · exact hold e he
    · obtain rfl := List.mem_singleton.mp he
      exact ht

theorem Told.source_known (h : st.Told p) {id : Text} (hbound : (st.sources.lookup id).isSome) :
    ∃ s, st.source id = s ∧ s < p.network.tokens.length := by
  obtain ⟨s, hs⟩ := Option.isSome_iff_exists.mp hbound
  refine ⟨s, ?_, h.sources (id, s) (mem_of_lookup hs)⟩
  unfold source
  rw [hs]
  rfl

/-- A new source of which a script has the name of the token, and maybe that of the source. -/
theorem Told.create (h : st.Told p) (id : Text) {sources : List (Text × Nat)} {linked : List (Option Nat)}
    (hsources : ∀ e ∈ sources, e.2 < p.network.tokens.length + 1) :
    ({ st with sources }.addToken id linked.reduceOption).Told (p.create linked) := by
  have hlength : (p.network.addSource linked.reduceOption).tokens.length = p.network.tokens.length + 1 :=
    Network.length_addSource _ _
  refine ⟨?_, ?_, ?_, fun e he => (h.handles e he).mono (List.subset_append_left _ _)⟩
  · change st.network.addSource _ = _
    rw [h.network]
    rfl
  · change ∀ e ∈ sources, e.2 < (p.network.addSource _).tokens.length
    rwa [hlength]
  · change ∀ e ∈ (st.bind id st.network.tokens.length).tokens, e.2 < (p.network.addSource _).tokens.length
    rw [hlength, h.network]
    exact h.tokens_bind (Nat.lt_succ_self _) (Nat.le_succ _)

/-- The tokens that are meant by names. -/
def meant (st : State) (ids : List (Option Text)) : List (Option Nat) := ids.map (·.bind st.token?)

theorem reduceOption_meant (st : State) (ids : List (Option Text)) :
    (st.meant ids).reduceOption = st.present ids := by
  unfold meant present List.reduceOption
  rw [List.filterMap_map]
  rfl

theorem Told.meant_known (h : st.Told p) {ids : List (Option Text)} {t : Nat} (ht : some t ∈ st.meant ids) :
    t < p.network.tokens.length := by
  obtain ⟨id, -, heq⟩ := List.mem_map.mp ht
  cases id with
  | none => cases heq
  | some id => exact h.known heq

theorem Told.later (h : st.Told p) {agenda : List (Item Text)} {trace : List (Event Text)}
    (hsub : p.trace ⊆ trace) : st.Told ⟨p.network, agenda, trace⟩ :=
  ⟨h.network, h.sources, h.tokens, fun e he => (h.handles e he).mono hsub⟩

/-- The network of a script is changed, and its tokens stay. -/
theorem Told.change (h : st.Told p) {net : Network Text}
    (hlength : net.tokens.length = p.network.tokens.length) {agenda : List (Item Text)}
    {trace : List (Event Text)} (hsub : p.trace ⊆ trace) :
    State.Told { st with network := net } ⟨net, agenda, trace⟩ :=
  ⟨rfl, fun e he => hlength ▸ h.sources e he, fun e he => hlength ▸ h.tokens e he,
    fun e he => (h.handles e he).mono hsub⟩

/-- A task that is done by one move, and no client is told. -/
theorem follows_of_move {more : List Task} {net : Network Text} {agenda : List (Item Text)} {e : Event Text}
    (hmove : Move p ⟨net, agenda, p.trace ++ [e]⟩) (htold : st'.Told ⟨net, agenda, p.trace ++ [e]⟩)
    (hmatches : Matches (p.trace ++ [e]) (more ++ rest) agenda) (hsilent : e.heard? = none)
    (hheard : st'.heard = st.heard) : st.Follows p rest (.ok (st', more)) := by
  refine ⟨_, .single hmove, htold, hmatches, ?_⟩
  rw [since_eq (p := p) rfl, List.filterMap_cons_none hsilent, hheard]
  exact (List.append_nil _).symm

/-- A task that changes nothing. -/
theorem Told.still (h : st.Told p) (hrest : Matches p.trace rest p.agenda) :
    st.Follows p rest (.ok (st, [])) :=
  ⟨p, .refl p, h, hrest, by simp⟩

theorem follows_perform (h : st.Told p) (hidle : Idle p.agenda) (hrest : Matches p.trace rest p.agenda)
    (s : Step) (hbound : st.Binds s) : st.Follows p rest (st.advance (.perform s)) := by
  have hmore : ∀ e, p.trace ⊆ p.trace ++ [e] := fun _ => List.subset_append_left _ _
  have hlater : ∀ e, Matches (p.trace ++ [e]) rest p.agenda := fun e => hrest.mono (hmore _)
  cases s with
  | source id linked =>
    have hmove := Move.create p (st.meant linked) hidle fun t ht => h.meant_known ht
    refine follows_of_move hmove ?_ (hlater _) rfl rfl
    change State.Told ({ st with sources := (id, st.network.tokens.length) :: st.sources }.addToken id _) _
    rw [← reduceOption_meant]
    refine h.create id fun e he => ?_
    rcases List.mem_cons.mp he with rfl | he
    · rw [h.network]
      exact Nat.lt_succ_self _
    · exact Nat.lt_succ_of_lt (h.sources e he)
  | combine id tokens =>
    dsimp only [advance]
    split
    · next t ht =>
      have hmem : some t ∈ st.meant tokens := by
        refine List.reduceOption_mem_iff.mp ?_
        rw [reduceOption_meant, ht]
        exact List.mem_cons_self
      refine ⟨p, .refl p, ⟨h.network, h.sources, h.tokens_bind (h.meant_known hmem) (Nat.le_refl _),
        h.handles⟩, hrest, ?_⟩
      rw [since_self]
      exact (List.append_nil _).symm
    · have hmove := Move.create p (st.meant tokens) hidle fun t ht => h.meant_known ht
      refine follows_of_move hmove ?_ (hlater _) rfl rfl
      rw [← reduceOption_meant]
      exact h.create id fun e he => Nat.lt_succ_of_lt (h.sources e he)
  | cancel id r =>
    obtain ⟨t, ht, hknown⟩ := h.source_known hbound
    dsimp only [advance]
    rw [ht]
    exact follows_of_move (.cancel p t r hidle hknown) (h.later (hmore _)) (.notice rfl (hlater _)) rfl rfl
  | close id | leave id =>
    obtain ⟨t, ht, hknown⟩ := h.source_known hbound
    dsimp only [advance]
    rw [ht]
    exact follows_of_move (.close p t hidle hknown) (h.later (hmore _)) (.notice rfl (hlater _)) rfl rfl
  | subscribe id token handle reaction =>
    obtain ⟨t, ht⟩ := Option.isSome_iff_exists.mp hbound
    have htoken : st.token token = t := by
      unfold State.token
      rw [ht]
      rfl
    dsimp only [advance]
    generalize hst' : (if st.hasReaction id then st
      else { st with reactions := (id, reaction) :: st.reactions }) = st'
    have hsame : st'.Told p ∧ st'.token token = t ∧ st'.heard = st.heard := by
      rw [← hst', ← htoken]
      split
      · exact ⟨h, rfl, rfl⟩
      · exact ⟨⟨h.network, h.sources, h.tokens, h.handles⟩, rfl, rfl⟩
    obtain ⟨h', htoken', hheard⟩ := hsame
    rw [htoken', h'.network]
    split
    · next r hr =>
      exact follows_of_move (.late p t id r hidle hr) (h'.later (hmore _))
        (.notice rfl (.keep _ .late (hlater _))) rfl hheard
    · next hquiet =>
      exact follows_of_move (.subscribe p t id hidle (h.known ht) hquiet)
        (h'.change (Network.length_subscribe _ _ _) (hmore _))
        (.keep _ (.listed (List.mem_append_right _ List.mem_cons_self)) (hlater _)) rfl hheard
  | unsubscribe handle =>
    dsimp only [advance]
    split
    · next t id heq =>
      have hmade := h.handles (handle, some (t, id)) (mem_of_lookup heq)
      obtain @⟨_, n, _, hmade⟩ := hmade
      rw [h.network]
      exact follows_of_move (.unsubscribe p (.listed t n) id hidle hmade)
        (h.change (Network.Thins.unsubscribe p.network t (.client id)).length (hmore _)) (hlater _) rfl rfl
    · exact h.still hrest
  | raiseIfCancelled token =>
    dsimp only [advance]
    split
    -- A program that raises fails; outside of all programs nothing changes.
    · cases hagenda : p.agenda with
      | nil => exact ⟨p, .refl p, h, hagenda, by simp⟩
      | cons i items =>
        rw [hagenda] at hidle
        cases hidle
        refine ⟨_, .single (.fail p items [] hagenda List.nil_suffix .done), h.later (hmore _), rfl, ?_⟩
        rw [since_eq (p := p) rfl]
        rfl
    · exact h.still hrest
  | enter | isCancelled | fault | quote => exact h.still hrest

/-- Each task is done by moves of a chronicle. -/
theorem follows_advance {trace : List (Event Text)} {tasks : List Task} {items : List (Item Text)}
    (hmatches : Matches trace tasks items) (htrace : p.trace = trace) (hitems : p.agenda = items)
    (h : st.Told p) {task : Task} (htasks : tasks = task :: rest)
    (hbound : ∀ s, task = .perform s → st.Binds s) : st.Follows p rest (st.advance task) := by
  induction hmatches generalizing p with
  | done => cases htasks
  | outside s =>
    cases htasks
    exact follows_perform h (hitems ▸ .done) (hitems ▸ .done) s (hbound s rfl)
  | perform s later =>
    cases htasks
    exact follows_perform h (hitems ▸ .program _) (hitems ▸ htrace ▸ .program later) s (hbound s rfl)
  | @program _ items _ ih =>
    -- The program comes to its end first.
    have hrest := ih (p := ⟨p.network, items, p.trace⟩) htrace rfl
      ⟨h.network, h.sources, h.tokens, h.handles⟩ htasks
    exact hrest.of_move (.finish p items hitems) rfl
  | @notice i n same _ items later =>
    cases htasks
    subst htrace
    have hmore : ∀ e, p.trace ⊆ p.trace ++ [e] := fun _ => List.subset_append_left _ _
    have hlater : ∀ e, Matches (p.trace ++ [e]) rest items := fun e => later.mono (hmore e)
    cases i with
    | program => cases same
    | close s =>
      cases same
      dsimp only [advance]
      rw [h.network]
      refine ⟨_, .single (.detach p s items hitems), h.change (Network.length_detach _ s) (List.Subset.refl _),
        later, ?_⟩
      have hnothing : Chronicle.since ⟨p.network.detach s, items, p.trace⟩ p = [] := since_self p
      rw [hnothing]
      exact (List.append_nil _).symm
    | tell tie l r =>
      cases same
      cases l with
      | source s =>
        dsimp only [advance]
        rw [h.network]
        refine follows_of_move (.strike p tie s r items hitems)
          (h.change (Network.length_strike _ s r) (hmore _)) ?_ rfl rfl
        rw [← Network.notices_dues]
        exact (hlater _).notices not_program_mem_dues
      | client c =>
        dsimp only [advance]
        refine ⟨_, .single (.tell p tie c r items hitems),
          ⟨h.network, h.sources, h.tokens, fun e he => (h.handles e he).mono (hmore _)⟩, ?_, ?_⟩
        · split
          · exact .perform _ (hlater _)
          · exact .program (hlater _)
        · rw [since_eq (p := p) rfl]
          rfl
  | @keep name h' made _ items later =>
    cases htasks
    refine ⟨p, .refl p, ⟨h.network, h.sources, h.tokens, fun e he => ?_⟩, hitems ▸ htrace ▸ later, ?_⟩
    · rcases List.mem_cons.mp he with rfl | he
      · exact htrace ▸ made
      · exact h.handles e he
    · rw [since_self]
      exact (List.append_nil _).symm

/-- All tasks of a script are done by moves of a chronicle. -/
theorem Plays.moves {n : Nat} {tasks : List Task} (hplays : Plays n st tasks st') (h : st.Told p)
    (hmatches : Matches p.trace tasks p.agenda) :
    ∃ q, Moves p q ∧ q.agenda = [] ∧ st'.Told q ∧
      st'.heard = st.heard ++ (q.since p).filterMap Event.heard? := by
  induction hplays generalizing p with
  | done st =>
    refine ⟨_, hmatches.finishes, rfl, ⟨h.network, h.sources, h.tokens, h.handles⟩, ?_⟩
    have hnothing : Chronicle.since { p with agenda := [] } p = [] := since_self p
    rw [hnothing]
    exact (List.append_nil _).symm
  | step hbound hadvance _ ih =>
    have hfollows := follows_advance hmatches rfl rfl h rfl hbound
    rw [hadvance] at hfollows
    obtain ⟨m, hmoves, htold, hmatches', hheard⟩ := hfollows
    obtain ⟨q, hrest, hend, htold', hheard'⟩ := ih htold hmatches'
    refine ⟨q, hmoves.trans hrest, hend, htold', ?_⟩
    rw [hheard', hheard, hmoves.since hrest, List.filterMap_append, List.append_assoc]
  | fail hbound hadvance =>
    have hfollows := follows_advance hmatches rfl rfl h rfl hbound
    rw [hadvance] at hfollows
    obtain ⟨q, hmoves, htold, hend, hheard⟩ := hfollows
    exact ⟨q, hmoves, hend, htold, by rw [hheard, List.append_nil]⟩

/-- A step of a script that comes to its end. -/
theorem moves_perform {s : Step} {n : Nat} (h : st.Told p) (hend : p.agenda = []) (hn : n ≤ patience)
    (hplays : Plays n { st with heard := [] } [.perform s] st') : (st.perform s).1 = st' ∧
      ∃ q, Moves p q ∧ q.agenda = [] ∧ st'.Told q ∧ st'.heard = (q.since p).filterMap Event.heard? := by
  have hrun := hplays.run_eq hn
  have hperform : (st.perform s).1 = ({ st with heard := [] }.run patience [.perform s]).1 := by
    unfold perform
    dsimp only
    split <;> next heq => rw [heq]
  refine ⟨hperform.trans hrun, ?_⟩
  exact hplays.moves ⟨h.network, h.sources, h.tokens, h.handles⟩ (hend ▸ .outside s)

/-- The states that a script leads to, one step after the other, and the clients that were told. -/
inductive Script : State → List (Text × Reason) → Prop
  | start : Script .empty []
  | step {st st' : State} {heard : List (Text × Reason)} (before : Script st heard) {s : Step} {n : Nat}
      (plays : Plays n { st with heard := [] } [.perform s] st') (patient : n ≤ patience) :
      Script (st.perform s).1 (heard ++ (st.perform s).1.heard)

/-- What a script does happens in a chronicle. -/
theorem Script.chronicle {heard : List (Text × Reason)} (h : Script st heard) :
    ∃ p : Chronicle Text, Moves Chronicle.start p ∧ p.agenda = [] ∧ st.Told p ∧
      p.trace.filterMap Event.heard? = heard := by
  induction h with
  | start =>
    refine ⟨Chronicle.start, .refl _, rfl, ⟨rfl, ?_, ?_, ?_⟩, rfl⟩ <;> exact fun e he => absurd he List.not_mem_nil
  | step _ plays patient ih =>
    obtain ⟨p, hmoves, hend, htold, hheard⟩ := ih
    obtain ⟨hst, q, hmore, hend', htold', hheard'⟩ := moves_perform htold hend patient plays
    refine ⟨q, hmoves.trans hmore, hend', hst ▸ htold', ?_⟩
    rw [hmore.trace, List.filterMap_append, hheard, hst, hheard']

/-- So a token that was cancelled in a script keeps its reason in every step after that. -/
theorem Script.reason? {heard : List (Text × Reason)} (h : Script st heard) {s : Step} {n : Nat}
    (hplays : Plays n { st with heard := [] } [.perform s] st') (hn : n ≤ patience) {t : Nat} {r : Reason}
    (ht : st.network.reason? t = some r) : (st.perform s).1.network.reason? t = some r := by
  obtain ⟨p, hmoves, hend, htold, -⟩ := h.chronicle
  obtain ⟨hst, q, hmore, -, htold', -⟩ := moves_perform htold hend hn hplays
  rw [htold.network] at ht
  rw [hst, htold'.network]
  exact hmore.reason? (hmoves.sound start_sound) ht

end State

end TreeCensus.Cancellation
