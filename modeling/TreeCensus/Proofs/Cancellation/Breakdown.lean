import TreeCensus.Proofs.Cancellation.Withdrawal

/-!
# Cancellations that break down

When a client fails on being told of a cancellation, the cancellation breaks down: whatever was still to be
done is dropped, down to the program that asked for it. Up to then all has gone as if nobody failed. But a
token that is cancelled has given its list away, so whoever stood on it and has not been told never will be,
and the source that was cancelled has not let go of its links.
-/

namespace TreeCensus.Cancellation

set_option autoImplicit false

variable {κ : Type} [DecidableEq κ]

/-- What may come of the cancellation of a token before its source is closed: clients and younger sources are
told, and younger sources are closed. -/
def Item.Follows (t : Nat) : Item κ → Prop
  | tell _ (.source s) _ => t < s
  | tell _ (.client _) _ => True
  | close s => t < s
  | program => False

namespace Chronicle

variable {p q m : Chronicle κ}

/-- Sources are linked to older ones only. -/
def Aged (p : Chronicle κ) : Prop := ∀ s linked, .source s linked ∈ p.trace → ∀ t ∈ linked, t < s

theorem Move.aged (h : Move p q) (hp : p.Aged) : q.Aged := by
  intro s linked hmem
  rw [(Moves.single h).trace] at hmem
  rcases List.mem_append.mp hmem with hmem | hmem
  · exact hp s linked hmem
  · cases h with
    | cancel | close | subscribe | late | unsubscribe | strike | tell | fail => cases eq_of_mem_since rfl hmem
    | create linked' idle known =>
      cases eq_of_mem_since rfl hmem
      exact known_of_mem known
    | detach | finish => simp [Chronicle.since] at hmem

theorem Moves.aged (h : Moves start p) : p.Aged :=
  h.induct (fun _ _ hmem => absurd hmem List.not_mem_nil) fun _ ha hone => hone.aged ha

theorem Moves.lt_of_hears (h : Moves start p) {t s : Nat} (hhears : p.network.Hears t (.source s)) : t < s := by
  obtain ⟨⟨n, l⟩, hsub, rfl⟩ := hhears
  obtain ⟨linked, hsource, ht⟩ := (h.orderly start_orderly).genuine.stands hsub
  exact h.aged s linked hsource t ht

/-- Moves in which nothing of `rest` is touched. -/
inductive Above (rest : List (Item κ)) : Chronicle κ → Chronicle κ → Prop
  | refl (p : Chronicle κ) : Above rest p p
  | step {p q m : Chronicle κ} {i : Item κ} {items : List (Item κ)}
      (ahead : p.agenda = i :: items) (behind : rest <:+ items) (move : Move p q)
      (more : Above rest q m) : Above rest p m

theorem Above.moves {rest : List (Item κ)} (h : Above rest p q) : Moves p q := by
  induction h with
  | refl => exact .refl _
  | step _ _ hone _ ih => exact .cons hone ih

theorem Above.worksOff {rest : List (Item κ)} (h : Above rest p q) (hworks : WorksOff rest q m) :
    WorksOff rest p m := by
  induction h with
  | refl => exact hworks
  | step ahead behind hone _ ih => exact .step ahead behind hone (ih hworks)

theorem WorksOff.above {rest : List (Item κ)} (h : WorksOff rest p q) : Above rest p q := by
  induction h with
  | done => exact .refl _
  | step ahead behind hone _ ih => exact .step ahead behind hone ih

/-- The cancellation of `t` has begun, and it is not over. A client may just have been told. -/
def Pending (t : Nat) (rest : List (Item κ)) (p : Chronicle κ) : Prop :=
  ∃ front, (∀ i ∈ front, i.Follows t) ∧
    (p.agenda = front ++ .close t :: rest ∨ p.agenda = .program :: (front ++ .close t :: rest))

theorem follows_dues (h : Moves start p) {s t : Nat} (hts : t ≤ s) (r : Reason) (rest : List (Item κ)) :
    ∃ front, (∀ i ∈ front, i.Follows t) ∧ p.network.dues s r ++ rest = front ++ .close s :: rest := by
  unfold Network.dues
  split
  · refine ⟨_, fun i hi => ?_, List.append_assoc _ _ _⟩
    obtain ⟨⟨n, l⟩, hsub, rfl⟩ := List.mem_map.mp hi
    cases l with
    | client => trivial
    | source u => exact Nat.lt_of_le_of_lt hts (h.lt_of_hears ⟨_, hsub, rfl⟩)
  · exact ⟨[], fun i hi => absurd hi List.not_mem_nil, rfl⟩

omit [DecidableEq κ] in
theorem Pending.agenda_ne {t : Nat} {rest : List (Item κ)} (h : p.Pending t rest) : p.agenda ≠ rest := by
  intro heq
  obtain ⟨front, -, hagenda | hagenda⟩ := h
  all_goals
    have hlength := congrArg List.length (hagenda.symm.trans heq)
    simp at hlength
    omega

omit [DecidableEq κ] in
/-- What is to be done next before the cancellation of `t` is over. -/
theorem Pending.next_cases {t : Nat} {rest : List (Item κ)} (h : p.Pending t rest) {i : Item κ}
    {items : List (Item κ)} (next : p.agenda = i :: items) :
    (∃ front, (∀ j ∈ front, j.Follows t) ∧ items = front ++ .close t :: rest ∧ (i.Follows t ∨ i = .program)) ∨
      i = .close t ∧ items = rest := by
  obtain ⟨front, hfront, hagenda | hagenda⟩ := h
  · rcases List.cons_eq_append_iff.mp (next.symm.trans hagenda) with ⟨-, heq⟩ | ⟨front', rfl, hitems⟩
    · obtain ⟨rfl, rfl⟩ := List.cons.inj heq
      exact .inr ⟨rfl, rfl⟩
    · exact .inl ⟨front', fun j hj => hfront j (List.mem_cons_of_mem _ hj), hitems,
        .inl (hfront i List.mem_cons_self)⟩
  · obtain ⟨rfl, rfl⟩ := List.cons.inj (next.symm.trans hagenda)
    exact .inl ⟨front, hfront, rfl, .inr rfl⟩

/-- As long as the clients do nothing, a cancellation that has begun goes on, and its source keeps its links; or
it has just come to its end, and its source has let go of them. -/
theorem Pending.step {t : Nat} {rest : List (Item κ)} (h : p.Pending t rest) (hp : Moves start p)
    (hone : Move p q) (hsilent : p.Silent q) (ht : t < p.network.tokens.length) :
    (q.Pending t rest ∧ q.network.links t = p.network.links t ∧
      ∀ u, p.network.Hears u (.source t) → q.network.Hears u (.source t)) ∨
      q.agenda = rest ∧ q.network.Loose t := by
  have hnot : ∀ {e : Event κ}, q.since p = [e] → ∃ tie l r, e = .told tie l r :=
    fun he => hsilent _ (he ▸ List.mem_cons_self)
  cases hone with
  | create | cancel | close | subscribe | late | unsubscribe | fail =>
    obtain ⟨_, _, _, heq⟩ := hnot (since_eq rfl)
    cases heq
  | strike tie s r items next =>
    obtain ⟨front, hfront, rfl, hts | heq⟩ | ⟨heq, -⟩ := h.next_cases next
    · have hts : t < s := hts
      refine .inl ⟨?_, p.network.links_strike s r t, ?_⟩
      · obtain ⟨new, hnew, hdues⟩ := follows_dues hp (Nat.le_of_lt hts) r (front ++ .close t :: rest)
        refine ⟨new ++ .close s :: front, fun i hi => ?_, .inl ?_⟩
        · rcases List.mem_append.mp hi with hi | hi
          · exact hnew i hi
          · rcases List.mem_cons.mp hi with rfl | hi
            · exact hts
            · exact hfront i hi
        · rw [List.append_assoc]
          exact hdues
      · rintro u ⟨sub, hsub, heq⟩
        have hut := hp.lt_of_hears ⟨sub, hsub, heq⟩
        refine ⟨sub, ?_, heq⟩
        change sub ∈ (p.network.strike s r).1.subscriptions u
        rwa [Network.subscriptions_strike_ne _ (by omega)]
    all_goals cases heq
  | tell tie c r items next =>
    obtain ⟨front, hfront, rfl, -⟩ | ⟨heq, -⟩ := h.next_cases next
    · exact .inl ⟨⟨front, hfront, .inr rfl⟩, rfl, fun _ => id⟩
    · cases heq
  | detach s items next =>
    obtain ⟨front, hfront, rfl, hts | heq⟩ | ⟨heq, rfl⟩ := h.next_cases next
    · have hts : t < s := hts
      refine .inl ⟨⟨front, hfront, .inl rfl⟩, ?_, ?_⟩
      · change (p.network.detach s).links t = _
        rw [Network.links_detach, if_neg (Nat.ne_of_gt hts)]
      · rintro u ⟨sub, hsub, heq⟩
        refine ⟨sub, Network.mem_detach hsub ?_, heq⟩
        rw [heq]
        simpa using Nat.ne_of_lt hts
    · cases heq
    · cases heq
      exact .inr ⟨rfl, (hp.sound start_sound).linked.loose ht⟩
  | finish items next =>
    obtain ⟨front, hfront, rfl, -⟩ | ⟨heq, -⟩ := h.next_cases next
    · exact .inl ⟨⟨front, hfront, .inl rfl⟩, rfl, fun _ => id⟩
    · cases heq

theorem Silent.split (h : Moves p q) (h' : Moves q m) (hsilent : p.Silent m) : p.Silent q ∧ q.Silent m := by
  unfold Silent at hsilent ⊢
  rw [h.since h'] at hsilent
  exact ⟨fun e he => hsilent e (List.mem_append_left _ he), fun e he => hsilent e (List.mem_append_right _ he)⟩

/-- How far a cancellation has come that has begun. -/
theorem Above.pending {t : Nat} {rest : List (Item κ)} (h : Above rest p q) (hp : Moves start p)
    (hpending : p.Pending t rest) (ht : t < p.network.tokens.length) (hsilent : p.Silent q) :
    (q.Pending t rest ∧ q.network.links t = p.network.links t ∧
      ∀ u, p.network.Hears u (.source t) → q.network.Hears u (.source t)) ∨
      q.agenda = rest ∧ q.network.Loose t := by
  induction h with
  | refl => exact .inl ⟨hpending, rfl, fun _ => id⟩
  | @step p q m i items ahead behind hone hmore ih =>
    obtain ⟨hnow, hlater⟩ := hsilent.split (.single hone) hmore.moves
    rcases hpending.step hp hone hnow ht with ⟨hpending, hlinks, hhears⟩ | ⟨hend, hloose⟩
    · refine (ih (hp.tail hone) hpending (Nat.lt_of_lt_of_le ht hone.length_le) hlater).imp_left ?_
      exact fun ⟨h, hlinks', hhears'⟩ => ⟨h, hlinks'.trans hlinks, fun u hu => hhears' u (hhears u hu)⟩
    · cases hmore with
      | refl => exact .inr ⟨hend, hloose⟩
      | step ahead' behind' =>
        have hle := behind'.length_le
        rw [ahead'] at hend
        rw [← hend] at hle
        exact absurd hle (Nat.not_succ_le_self _)

/-- How far the cancellation of a token has come since it was about to come. -/
theorem Above.started {t : Nat} {r : Reason} {rest : List (Item κ)} (h : Above rest p q) (hp : Moves start p)
    (hstarts : p.Starts t r rest) (hsilent : p.Silent q) : q = p ∨
      (q.Pending t rest ∧ q.network.links t = p.network.links t ∧
        ∀ u, p.network.Hears u (.source t) → q.network.Hears u (.source t)) ∨
        q.agenda = rest ∧ q.network.Loose t := by
  obtain ⟨tie, hnext⟩ := hstarts
  cases h with
  | refl => exact .inl rfl
  | @step _ m _ _ _ ahead behind hone hmore =>
    have hregular := hp.regular start_sound start_regular
    have ht : t < p.network.tokens.length := hregular.known (hnext ▸ List.mem_cons_self)
    have hlater := (hsilent.split (.single hone) hmore.moves).2
    have hm := hp.tail hone
    obtain rfl := hone.strike_of_next hnext
    have hpending : Pending t rest
        ⟨(p.network.strike t r).1, p.network.dues t r ++ rest, p.trace ++ [.told tie (.source t) r]⟩ := by
      obtain ⟨front, hfront, hdues⟩ := follows_dues hp (Nat.le_refl t) r rest
      exact ⟨front, hfront, .inl hdues⟩
    refine .inr ((hmore.pending hm hpending (Nat.lt_of_lt_of_le ht hone.length_le) hlater).imp_left ?_)
    rintro ⟨hpending, hlinks, hhears⟩
    refine ⟨hpending, hlinks.trans (p.network.links_strike t r t), fun u hu => hhears u ?_⟩
    obtain ⟨sub, hsub, heq⟩ := id hu
    refine ⟨sub, ?_, heq⟩
    change sub ∈ (p.network.strike t r).1.subscriptions u
    rwa [Network.subscriptions_strike_ne _ (Nat.ne_of_lt (hp.lt_of_hears hu))]

theorem Move.failed_cases (h : Move p q) (hfailed : q.since p = [.failed]) :
    ∃ rest, p.agenda = .program :: rest ∧ q.network = p.network ∧ q.agenda <:+ rest ∧ Idle q.agenda := by
  cases h with
  | create | cancel | close | subscribe | late | unsubscribe | strike | tell =>
    rw [since_eq rfl] at hfailed
    cases hfailed
  | detach | finish => simp [Chronicle.since] at hfailed
  | fail rest kept next suffix idle => exact ⟨rest, next, rfl, suffix, idle⟩

/-- From `p` to `q` a cancellation of a token has come to a client that fails in the move to `m`. Those who were
told before have done nothing. -/
structure Breaks (p q m : Chronicle κ) (t : Nat) (r : Reason) (rest : List (Item κ)) : Prop where
  starts : p.Starts t r rest
  quiet : p.network.reason? t = none
  above : Above rest p q
  silent : p.Silent q
  reached : rest <:+ q.agenda.tail
  fails : Move q m
  failed : m.since q = [.failed]

namespace Breaks

variable {t : Nat} {r : Reason} {rest : List (Item κ)}

/-- The program of the client that fails is on top of what is left of the cancellation. -/
theorem exists_front (h : p.Breaks q m t r rest) (hp : Moves start p) :
    ∃ front, (∀ i ∈ front, i.Follows t) ∧ q.agenda = .program :: (front ++ .close t :: rest) ∧
      q.network.links t = p.network.links t ∧
        ∀ u, p.network.Hears u (.source t) → q.network.Hears u (.source t) := by
  obtain ⟨items, hitems, -⟩ := h.fails.failed_cases h.failed
  rcases h.above.started hp h.starts h.silent with rfl | ⟨hpending, hkept⟩ | ⟨hend, -⟩
  · obtain ⟨tie, hnext⟩ := h.starts
    rw [hnext] at hitems
    cases hitems
  · obtain ⟨front, hfront, rfl, -⟩ | ⟨heq, -⟩ := hpending.next_cases hitems
    · exact ⟨front, hfront, hitems, hkept⟩
    · cases heq
  · have hle := h.reached.length_le
    rw [← hend, hitems] at hle
    exact absurd hle (Nat.not_succ_le_self _)

/-- The failure drops all that was left of the cancellation, and touches nothing else. -/
theorem dropped (h : p.Breaks q m t r rest) (hp : Moves start p) :
    m.network = q.network ∧ m.agenda <:+ rest := by
  obtain ⟨front, hfront, hagenda, -⟩ := h.exists_front hp
  obtain ⟨items, next, hnetwork, hsuffix, hidle⟩ := h.fails.failed_cases h.failed
  refine ⟨hnetwork, ?_⟩
  obtain rfl : items = front ++ .close t :: rest := (List.cons.inj (next.symm.trans hagenda)).2
  -- No program is above `rest` any more that could go on.
  have hdown : ∀ above : List (Item κ), .program ∉ above → m.agenda <:+ above ++ rest → m.agenda <:+ rest := by
    intro above habove hkept
    induction above with
    | nil => exact hkept
    | cons i above ih =>
      rw [List.mem_cons, not_or] at habove
      refine (List.suffix_cons_iff.mp hkept).elim (fun heq => ?_) (ih habove.2)
      rw [heq] at hidle
      cases hidle
      exact absurd rfl habove.1
  refine hdown (front ++ [.close t]) ?_ (by rwa [List.append_assoc])
  rw [List.mem_append, not_or]
  exact ⟨fun hmem => hfront _ hmem, by simp⟩

/-- If the client had not failed, the cancellation would have gone on from there to its end. -/
theorem exists_cancels (h : p.Breaks q m t r rest) (hp : Moves start p) :
    ∃ n, p.Cancels n t r ∧ p.Silent n ∧ n.agenda = rest ∧ q.since p <+: n.since p := by
  obtain ⟨front, hfront, hagenda, -⟩ := h.exists_front hp
  have hfinish := Move.finish q _ hagenda
  obtain ⟨n, hworks, hend, htold⟩ :=
    exists_worksOff (p := { q with agenda := front ++ .close t :: rest }) (front ++ [.close t]) rest
      (List.append_cons _ _ _) (by
        rw [List.mem_append, not_or]
        exact ⟨fun hmem => hfront _ hmem, by simp⟩)
  have hbehind : rest <:+ front ++ .close t :: rest := ⟨front ++ [.close t], List.append_assoc _ _ _⟩
  have hmore : WorksOff rest q n := .step hagenda hbehind hfinish hworks
  have hsince := h.above.moves.since hmore.moves
  have hsilent : p.Silent n := by
    intro e he
    rw [hsince] at he
    rcases List.mem_append.mp he with he | he
    · exact h.silent e he
    · rw [(Moves.single hfinish).since hworks.moves] at he
      rcases List.mem_append.mp he with he | he
      · have hnothing : Chronicle.since { q with agenda := front ++ .close t :: rest } q = [] := since_self q
        rw [hnothing] at he
        cases he
      · exact htold e he
  refine ⟨n, ⟨hend ▸ h.starts, h.quiet, hend ▸ h.above.worksOff hmore, fun hfail => ?_⟩, hsilent, hend, ?_⟩
  · obtain ⟨_, _, _, heq⟩ := hsilent _ hfail
    cases heq
  · exact hsince ▸ List.prefix_append _ _

end Breaks

/-- Where nobody does anything but hear what is due, no subscription is made, -/
theorem Silent.subscriptions (hsilent : p.Silent q) (h : Moves p q) (hp : p.network.Sound) {t : Nat}
    {sub : Subscription κ} (hsub : sub ∈ q.network.subscriptions t) : sub ∈ p.network.subscriptions t := by
  refine h.induct (motive := fun a => p.Silent a → sub ∈ a.network.subscriptions t →
    sub ∈ p.network.subscriptions t) (fun _ => id) (fun {a b} hpa ha hone hsilent hsub => ?_) hsilent hsub
  obtain ⟨hbefore, hnow⟩ := hsilent.split hpa (.single hone)
  rcases hone.subscription_cases (hpa.sound hp) hsub with
    hsub | ⟨-, -, ⟨c, -, he⟩ | ⟨s, linked, -, -, he, -⟩⟩
  · exact ha hbefore hsub
  · obtain ⟨_, _, _, heq⟩ := hnow _ (he ▸ List.mem_cons_self)
    cases heq
  · obtain ⟨_, _, _, heq⟩ := hnow _ (he ▸ List.mem_cons_self)
    cases heq

/-- and only sources that are told are cancelled. -/
theorem Silent.reason? (hsilent : p.Silent q) (h : Moves p q) (hp : p.network.Sound) (s : Nat) :
    q.network.reason? s = p.network.reason? s ∨ ∃ tie r, .told tie (.source s) r ∈ q.since p := by
  refine h.induct (motive := fun a => p.Silent a → a.network.reason? s = p.network.reason? s ∨
    ∃ tie r, .told tie (.source s) r ∈ a.since p) (fun _ => .inl rfl)
    (fun {a b} hpa ha hone hsilent => ?_) hsilent
  obtain ⟨hbefore, hnow⟩ := hsilent.split hpa (.single hone)
  have hsince := hpa.since (.single hone)
  rcases hone.reason_cases (hpa.sound hp) s with hsame | ⟨tie, r, he, -, -⟩ | ⟨linked, he, -, -⟩
  · rw [hsame, hsince]
    exact (ha hbefore).imp_right fun ⟨tie, r, htold⟩ => ⟨tie, r, List.mem_append_left _ htold⟩
  · refine .inr ⟨tie, r, ?_⟩
    rw [hsince, he]
    exact List.mem_append_right _ List.mem_cons_self
  · obtain ⟨_, _, _, heq⟩ := hnow _ (he ▸ List.mem_cons_self)
    cases heq

/-- Whoever stood on the list of a token that is cancelled, and has not been told before the failure, never is. -/
theorem Breaks.never {t : Nat} {r : Reason} {rest : List (Item κ)} (h : p.Breaks q m t r rest)
    (hp : Moves start p) {u : Nat} (hstruck : m.network.reason? u ≠ none) {sub : Subscription κ}
    (hsub : sub ∈ p.network.subscriptions u) (hnot : .listed u sub.serial ∉ q.fired) {n : Chronicle κ}
    (hn : Moves m n) : .listed u sub.serial ∉ n.fired := by
  obtain ⟨hnetwork, hdropped⟩ := h.dropped hp
  have horderly := hp.orderly start_orderly
  have hmoves := h.above.moves.tail h.fails
  have hsound := hmoves.sound horderly.sound
  have hspent : m.Spent (.listed u sub.serial) := by
    refine ⟨⟨?_, fun v sub' hsub' heq => ?_⟩, fun hdue => ?_⟩
    · have hserial : p.network.serial ≤ m.network.serial :=
        hmoves.induct (Nat.le_refl _) fun hpa ha hone =>
          Nat.le_trans ha (hone.serial_le (hpa.sound horderly.sound))
      exact Nat.lt_of_lt_of_le (horderly.sound.numbered u sub hsub) hserial
    · have hold := h.silent.subscriptions h.above.moves horderly.sound (hnetwork ▸ hsub')
      obtain rfl := horderly.sound.apart v u sub' hold sub hsub heq
      rw [hsound.spent v hstruck] at hsub'
      cases hsub'
    · obtain ⟨tie, hnext⟩ := h.starts
      have hbefore : .listed u sub.serial ∈ p.due := by
        obtain ⟨i, hi, htie⟩ := List.mem_filterMap.mp hdue
        exact List.mem_filterMap.mpr ⟨i, hnext ▸ List.mem_cons_of_mem _ (hdropped.subset hi), htie⟩
      exact (horderly.numbered.used _ (List.mem_append_left _ hbefore)).2 u sub hsub rfl
  intro hfired
  obtain ⟨e, he, htie⟩ := List.mem_filterMap.mp hfired
  rw [hn.trace, (Moves.single h.fails).trace, h.failed] at he
  rcases List.mem_append.mp he with he | he
  · rcases List.mem_append.mp he with he | he
    · exact hnot (List.mem_filterMap.mpr ⟨e, he, htie⟩)
    · rw [List.mem_singleton.mp he] at htie
      cases htie
  · cases e with
    | told tie l r' =>
      obtain rfl : tie = some _ := htie
      exact hn.not_told hsound hspent he
    | source | cancel | close | subscribe | unsubscribe | failed => cases htie

/-- What becomes of a cancellation in a state of a run, with clients that do nothing or fail. -/
structure BreaksDown (p : Chronicle κ) : Prop where
  /-- If nobody fails, all clients that hear the token are told, the cancellation comes to all sources that can be
  reached from it, and its own source lets go of its links. -/
  whole : ∀ {q t r}, p.Cancels q t r → p.Silent q → q.reached p t = p.network.clients t ∧
    (∀ s, Relation.ReflTransGen (fun a b => p.network.Hears a (.source b)) t s → q.network.reason? s ≠ none) ∧
      q.network.Loose t
  /-- If somebody fails, all that has happened before would have happened anyway. -/
  before : ∀ {q m t r rest}, p.Breaks q m t r rest →
    ∃ n, p.Cancels n t r ∧ p.Silent n ∧ n.agenda = rest ∧ q.since p <+: n.since p
  /-- Nothing that was left of the cancellation is done: only the sources are cancelled that were told before, -/
  dropped : ∀ {q m t r rest}, p.Breaks q m t r rest → m.agenda <:+ rest ∧
    ∀ s, m.network.reason? s = p.network.reason? s ∨ ∃ tie r', .told tie (.source s) r' ∈ q.since p
  /-- whoever stood on the list of one of them, and was not told before, is not told ever after, -/
  never : ∀ {q m t r rest u sub}, p.Breaks q m t r rest → m.network.reason? u ≠ none →
    sub ∈ p.network.subscriptions u →
      .listed u sub.serial ∈ q.fired ∨ ∀ n, Moves m n → .listed u sub.serial ∉ n.fired
  /-- and the source of the token, which is cancelled, does not let go of its links. -/
  holds : ∀ {q m t r rest}, p.Breaks q m t r rest → m.network.reason? t = some r ∧
    m.network.links t = p.network.links t ∧ ∀ u, p.network.Hears u (.source t) → m.network.Hears u (.source t)

theorem breaksDown_of_moves (h : Moves start p) : p.BreaksDown := by
  have hsound := h.sound start_sound
  have horderly := h.orderly start_orderly
  have hregular := h.regular start_sound start_regular
  refine ⟨fun {q t r} hcancels hsilent => ⟨hcancels.reached hsound hregular, fun s hpath => ?_, ?_⟩,
    fun hbreaks => hbreaks.exists_cancels h, fun {q m t r rest} hbreaks => ?_,
    fun {q m t r rest u sub} hbreaks hstruck hsub => ?_, fun {q m t r rest} hbreaks => ?_⟩
  · refine hcancels.reaches horderly hregular
      (Relation.ReflTransGen.mono (fun a b hhears => ⟨hhears, ?_⟩) _ _ hpath)
    intro hclose
    obtain ⟨_, _, _, heq⟩ := hsilent _ hclose
    cases heq
  · rcases hcancels.works.above.started h hcancels.starts hsilent with
      rfl | ⟨hpending, -⟩ | ⟨-, hloose⟩
    · obtain ⟨tie, hnext⟩ := hcancels.starts
      exact absurd hnext.symm (List.cons_ne_self _ _)
    · exact absurd rfl hpending.agenda_ne
    · exact hloose
  · obtain ⟨hnetwork, hdropped⟩ := hbreaks.dropped h
    rw [hnetwork]
    exact ⟨hdropped, hbreaks.silent.reason? hbreaks.above.moves hsound⟩
  · by_cases hfired : .listed u sub.serial ∈ q.fired
    · exact .inl hfired
    · exact .inr fun n hn => hbreaks.never h hstruck hsub hfired hn
  · obtain ⟨hnetwork, -⟩ := hbreaks.dropped h
    obtain ⟨front, -, hagenda, hlinks, hhears⟩ := hbreaks.exists_front h
    refine ⟨?_, hnetwork ▸ hlinks, hnetwork ▸ hhears⟩
    rw [hnetwork, hbreaks.above.moves.struck hsound hregular hbreaks.starts, hbreaks.quiet]
    · rfl
    · obtain ⟨tie, hnext⟩ := hbreaks.starts
      rw [hagenda, hnext]
      nofun

/-- A source with two clients, linked to one source and followed by another one, is cancelled, and the first client
fails. The second one is not told, the source that follows is not cancelled, and the link stays. -/
theorem breaksDown_at_first : ∃ p q m : Chronicle Nat, Moves start p ∧ p.BreaksDown ∧ p.Breaks q m 1 .none [] ∧
    m.fired = [.listed 1 1] ∧ p.network.clients 1 = [(1, 7), (2, 8)] ∧ m.network.reason? 2 = none ∧
      m.network.Hears 0 (.source 1) := by
  have hmoves := Moves.cons (.create (start : Chronicle Nat) [] .done (by simp)) <|
    .cons (.create _ [some 0] .done (by simp; decide)) <|
    .cons (.subscribe _ 1 7 .done (by decide) rfl) <|
    .cons (.subscribe _ 1 8 .done (by decide) rfl) <|
    .cons (.create _ [some 1] .done (by simp; decide)) <|
    .cons (.cancel _ 1 .none .done (by decide)) <| .refl _
  refine ⟨_, _, _, hmoves, breaksDown_of_moves hmoves, ⟨⟨_, rfl⟩, rfl,
    .step rfl List.nil_suffix (.strike _ _ _ _ _ rfl) <|
      .step rfl List.nil_suffix (.tell _ _ _ _ _ rfl) <| .refl _,
    fun e he => ?_, List.nil_suffix, .fail _ _ [] rfl List.nil_suffix .done, rfl⟩, rfl, rfl, rfl,
    ⟨⟨0, .source 1⟩, by decide, rfl⟩⟩
  have htold : e ∈ [.told none (.source 1) .none, .told (some (.listed 1 1)) (.client 7) .none] := he
  rcases List.mem_cons.mp htold with rfl | htold
  · exact ⟨_, _, _, rfl⟩
  · rw [List.mem_singleton.mp htold]
    exact ⟨_, _, _, rfl⟩

end Chronicle

end TreeCensus.Cancellation
