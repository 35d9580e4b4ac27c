import TreeCensus.Proofs.Cancellation.Propagation

/-!
# How far detaching goes

Whoever detaches from a token before the token is cancelled is not told of it. Once a token is being
cancelled, those who have yet to be told are told all the same: the token has given its list away, and what
is taken off the list does not count any more. There is one more gap, since a subscription is known by its
listener alone: what is taken back is the first subscription that the client has there, not the one that was
meant.
-/

namespace TreeCensus.Cancellation

set_option autoImplicit false

variable {κ : Type} [DecidableEq κ]

/-- If a subscription stands still after its listener was taken off the list once, an older one was taken. -/
theorem Network.Tidy.exists_older {net : Network κ} (h : net.Tidy) {t : Nat} {sub : Subscription κ}
    (hsub : sub ∈ (net.unsubscribe t sub.listener).subscriptions t) :
    ∃ older ∈ net.subscriptions t, older.listener = sub.listener ∧ older.serial < sub.serial := by
  rw [subscriptions_unsubscribe, if_pos rfl] at hsub
  obtain ⟨older, front, back, hfront, holder, hlist, herased⟩ :=
    List.exists_of_eraseP (List.mem_of_mem_eraseP hsub) (p := (·.listener = sub.listener)) (by simp)
  rw [herased] at hsub
  have hordered := h.ordered t
  rw [hlist] at hordered
  refine ⟨older, hlist ▸ List.mem_append_right _ List.mem_cons_self, by simpa using holder, ?_⟩
  rcases List.mem_append.mp hsub with hsub | hsub
  · exact absurd (hfront sub hsub) (by simp)
  · exact List.rel_of_pairwise_cons (List.pairwise_append.mp hordered).2.1 hsub

/-- A source that is there and hears no token. -/
structure Network.Loose (net : Network κ) (s : Nat) : Prop where
  known : s < net.tokens.length
  deaf : ∀ t, ¬ net.Hears t (.source s)

theorem Network.Linked.loose {net : Network κ} (h : net.Linked) {s : Nat} (hs : s < net.tokens.length) :
    (net.detach s).Loose s := by
  refine ⟨by rwa [length_detach], fun t hhears => ?_⟩
  have hsome := hears_source_iff.mp hhears
  rw [heard_detach h] at hsome
  exact Nat.lt_irrefl 0 hsome

namespace Chronicle

variable {p q m : Chronicle κ}

/-- Somebody who has subscribed has got a number that nobody else has. -/
structure Registered (p : Chronicle κ) : Prop where
  listed : ∀ {t n c}, .subscribe (.listed t n) c ∈ p.trace → n < p.network.serial ∧
    ∀ {u sub}, sub ∈ p.network.subscriptions u → sub.serial = n → u = t ∧ sub.listener = .client c
  late : ∀ {t k c}, .subscribe (.late t k) c ∈ p.trace → k < p.trace.length

omit [DecidableEq κ] in
theorem start_registered : (start : Chronicle κ).Registered :=
  ⟨fun h => absurd h List.not_mem_nil, fun h => absurd h List.not_mem_nil⟩

theorem Move.subscribe_cases (h : Move p q) {tie : Tie} {c : κ} (hmem : .subscribe tie c ∈ q.since p) :
    (∃ t, tie = .listed t p.network.serial ∧ p.network.serial < q.network.serial) ∨
      ∃ t, tie = .late t p.trace.length := by
  cases h with
  | create | cancel | close | unsubscribe | strike | tell | fail => cases eq_of_mem_since rfl hmem
  | subscribe t =>
    cases eq_of_mem_since rfl hmem
    exact .inl ⟨t, rfl, Nat.lt_succ_self _⟩
  | late t =>
    cases eq_of_mem_since rfl hmem
    exact .inr ⟨t, rfl⟩
  | detach | finish => simp [Chronicle.since] at hmem

theorem Move.registered (h : Move p q) (hp : p.network.Sound) (hr : p.Registered) : q.Registered := by
  have htrace := (Moves.single h).trace
  refine ⟨fun {t n c} hmem => ?_, fun {t k c} hmem => ?_⟩
  · rw [htrace] at hmem
    rcases List.mem_append.mp hmem with hmem | hmem
    · obtain ⟨hlt, howner⟩ := hr.listed hmem
      refine ⟨Nat.lt_of_lt_of_le hlt (h.serial_le hp), fun {u sub} hsub heq => ?_⟩
      rcases h.subscription_cases hp hsub with hsub | ⟨hle, -⟩
      · exact howner hsub heq
      · omega
    · rcases h.subscribe_cases hmem with ⟨_, heq, hlt⟩ | ⟨_, heq⟩
      · cases heq
        refine ⟨hlt, fun {u sub} hsub heq => ?_⟩
        rcases h.subscription_cases hp hsub with
          hsub | ⟨-, -, ⟨c', hlistener, he⟩ | ⟨s, linked, -, -, he, -⟩⟩
        · have := hp.numbered u sub hsub
          omega
        · rw [he] at hmem
          obtain ⟨htie, rfl⟩ := Event.subscribe.inj (List.mem_singleton.mp hmem)
          exact ⟨(Tie.listed.inj htie).1.symm, hlistener⟩
        · rw [he] at hmem
          cases List.mem_singleton.mp hmem
      · cases heq
  · rw [htrace, List.length_append]
    rw [htrace] at hmem
    rcases List.mem_append.mp hmem with hmem | hmem
    · have := hr.late hmem
      omega
    · rcases h.subscribe_cases hmem with ⟨_, heq, -⟩ | ⟨_, heq⟩
      · cases heq
      · cases heq
        have := List.length_pos_of_mem hmem
        omega

theorem Moves.registered (h : Moves start p) : p.Registered :=
  h.induct start_registered fun hpa ha hone => hone.registered (hpa.sound start_sound) ha

/-- Nobody is told through a subscription that is spent. -/
theorem Moves.not_told (h : Moves p q) (hp : p.network.Sound) {tie : Tie} (hspent : p.Spent tie)
    {l : Listener κ} {r : Reason} : .told (some tie) l r ∉ q.since p := by
  refine (h.induct (motive := fun m => m.Spent tie ∧ .told (some tie) l r ∉ m.since p) ⟨hspent, ?_⟩
    fun {a b} hpa ha hone => ⟨hone.spent (hpa.sound hp) ha.1, ?_⟩).2
  · rw [since_self]
    exact List.not_mem_nil
  · rw [hpa.since (.single hone), List.mem_append, not_or]
    refine ⟨ha.2, fun htold => ?_⟩
    obtain ⟨-, rest, hnext⟩ := hone.told_cases htold
    exact ha.1.settled (mem_due (hnext ▸ List.mem_cons_self))

/-- Whoever is due is told in the end, unless somebody fails. -/
theorem Moves.told (h : Moves p q) {tie : Option Tie} {l : Listener κ} {r : Reason}
    (hdue : .tell tie l r ∈ p.agenda) (hcalm : .failed ∉ q.since p) :
    .tell tie l r ∈ q.agenda ∨ .told tie l r ∈ q.since p := by
  refine h.induct (motive := fun m => .failed ∉ m.since p →
    .tell tie l r ∈ m.agenda ∨ .told tie l r ∈ m.since p) (fun _ => .inl hdue)
    (fun {a b} hpa ha hone => ?_) hcalm
  rw [hpa.since (.single hone), List.mem_append, List.mem_append, not_or]
  rintro ⟨hcalm, hfails⟩
  rcases ha hcalm with hdue | htold
  · rcases hone.stays_due hdue with hdue | htold | hfail
    · exact .inl hdue
    · exact .inr (.inr (htold ▸ List.mem_cons_self))
    · rw [hfail] at hfails
      exact absurd List.mem_cons_self hfails
  · exact .inr (.inl htold)

/-- An equal subscription, made earlier, stands before this one. -/
def Shadowed (p : Chronicle κ) (tie : Tie) (c : κ) : Prop :=
  ∃ t n k, tie = .listed t n ∧ k < n ∧ ⟨k, .client c⟩ ∈ p.network.subscriptions t

/-- A subscription that is taken back is spent, unless it is due already or another one is taken for it. -/
theorem Move.withdraws (h : Move p q) (hp : p.network.Sound) (hr : p.Registered) {tie : Tie} {c : κ}
    (hmem : .unsubscribe tie c ∈ q.since p) : tie ∈ p.due ∨ p.Shadowed tie c ∨ q.Spent tie := by
  cases h with
  | create | cancel | close | subscribe | late | strike | tell | fail => cases eq_of_mem_since rfl hmem
  | detach | finish => simp [Chronicle.since] at hmem
  | unsubscribe tie' c' idle made =>
    cases eq_of_mem_since rfl hmem
    by_cases hdue : tie ∈ p.due
    · exact .inl hdue
    cases tie with
    | late t k =>
      refine .inr (.inr ⟨?_, hdue⟩)
      have hlt : k < p.trace.length := hr.late made
      change k < (p.trace ++ [_]).length
      rw [List.length_append]
      omega
    | listed t n =>
      obtain ⟨hlt, howner⟩ := hr.listed made
      by_cases hstands : ⟨n, .client c⟩ ∈ (p.network.unsubscribe t (.client c)).subscriptions t
      · obtain ⟨⟨k, l⟩, hsub, rfl, hkn⟩ := hp.toTidy.exists_older hstands
        exact .inr (.inl ⟨t, n, k, rfl, hkn, hsub⟩)
      · refine .inr (.inr ⟨⟨hlt, fun u sub hsub heq => hstands ?_⟩, hdue⟩)
        have hthins := Network.Thins.unsubscribe p.network t (.client c)
        obtain ⟨rfl, hlistener⟩ := howner ((hthins.subscriptions u).subset hsub) heq
        obtain ⟨k, l⟩ := sub
        cases heq
        cases hlistener
        exact hsub

/-- Only a new source gets links. -/
theorem Move.loose (h : Move p q) (hp : p.network.Sound) {s : Nat} (hs : p.network.Loose s) :
    q.network.Loose s := by
  refine ⟨Nat.lt_of_lt_of_le hs.known h.length_le, fun t => ?_⟩
  rintro ⟨sub, hsub, heq⟩
  rcases h.subscription_cases hp hsub with
    hsub | ⟨-, -, ⟨c, hlistener, -⟩ | ⟨u, linked, hlistener, hnew, -, -⟩⟩
  · exact hs.deaf t ⟨sub, hsub, heq⟩
  · rw [hlistener] at heq
    cases heq
  · rw [hlistener] at heq
    cases heq
    exact Nat.ne_of_lt hs.known hnew

/-- Since a source has let go of its links in `p`, it is told only if it was due then or if it is cancelled
itself. -/
structure Severed (p : Chronicle κ) (s : Nat) (q : Chronicle κ) : Prop where
  due : ∀ {tie r}, .tell (some tie) (.source s) r ∈ q.agenda → .tell (some tie) (.source s) r ∈ p.agenda
  asked : ∀ {r}, .tell none (.source s) r ∈ q.agenda → .cancel s r ∈ q.since p
  struck : q.network.reason? s ≠ none → (∃ r, .cancel s r ∈ q.since p) ∨
    ∃ tie r, .tell (some tie) (.source s) r ∈ p.agenda ∧ .told (some tie) (.source s) r ∈ q.since p

theorem Severed.step {s : Nat} (h : p.Severed s q) (hmoves : Moves p q) (hone : Move q m) (hq : q.network.Sound)
    (hs : q.network.Loose s) : p.Severed s m := by
  have hsince := hmoves.since (.single hone)
  have hbefore : ∀ {e}, e ∈ q.since p → e ∈ m.since p := by
    intro e he
    rw [hsince]
    exact List.mem_append_left _ he
  have hnow : ∀ {e}, m.since q = [e] → e ∈ m.since p := by
    intro e he
    rw [hsince, he]
    exact List.mem_append_right _ List.mem_cons_self
  refine ⟨fun hmem => ?_, fun hmem => ?_, fun hstruck => ?_⟩
  · rcases hone.tell_cases hmem with hmem | ⟨_, _, _, heq, _⟩ | ⟨t, n, _, hsub, _⟩
    · exact h.due hmem
    · cases heq
    · exact absurd ⟨_, hsub, rfl⟩ (hs.deaf t)
  · rcases hone.asked_cases hmem with hmem | ⟨u, heq, -, he⟩
    · exact hbefore (h.asked hmem)
    · cases heq
      exact hnow he
  · rcases hone.reason_cases hq s with hsame | ⟨tie, r, he, -, -⟩ | ⟨_, _, hnew, _⟩
    · rw [hsame] at hstruck
      refine (h.struck hstruck).imp (fun ⟨r, hmem⟩ => ⟨r, hbefore hmem⟩) ?_
      exact fun ⟨tie, r, hdue, htold⟩ => ⟨tie, r, hdue, hbefore htold⟩
    · obtain ⟨-, rest, hnext⟩ := hone.told_cases (he ▸ List.mem_cons_self)
      have hmem : .tell tie (.source s) r ∈ q.agenda := hnext ▸ List.mem_cons_self
      cases tie with
      | none => exact .inl ⟨r, hbefore (h.asked hmem)⟩
      | some tie => exact .inr ⟨tie, r, h.due hmem, hnow he⟩
    · exact absurd hnew (Nat.ne_of_lt hs.known)

theorem Moves.severed (h : Moves p q) (hp : p.network.Sound) {s : Nat} (hs : p.network.Loose s)
    (hquiet : p.network.reason? s = none) (hasked : ∀ r, .tell none (.source s) r ∉ p.agenda) :
    p.Severed s q := by
  have hfirst : p.Severed s p :=
    ⟨fun hmem => hmem, fun hmem => absurd hmem (hasked _), fun hstruck => absurd hquiet hstruck⟩
  exact (h.induct (motive := fun m => m.network.Loose s ∧ p.Severed s m) ⟨hs, hfirst⟩
    fun hpa ha hone => ⟨hone.loose (hpa.sound hp) ha.1, ha.2.step hpa hone (hpa.sound hp) ha.1⟩).2

omit [DecidableEq κ] in
/-- Where a call can be made, no earlier call is still to cancel its source. -/
theorem Regular.not_asked (h : p.Regular) (hidle : Idle p.agenda) (s : Nat) (r : Reason) :
    .tell none (.source s) r ∉ p.agenda := by
  intro hmem
  have hprompt := h.prompt (l := .source s) (r := r)
  generalize p.agenda = items at hidle hmem hprompt
  cases hidle with
  | done => cases hmem
  | program rest =>
    rcases List.mem_cons.mp hmem with heq | hmem
    · cases heq
    · exact hprompt hmem

/-- After a source was closed it is cancelled only by a call of its own, or through a link over which a
cancellation was under way already. -/
theorem Move.severs (h : Move p q) (hp : p.network.Sound) (hregular : p.Regular) {s : Nat}
    (hclose : .close s ∈ q.since p) (hquiet : p.network.reason? s = none) (hmoves : Moves q m)
    (hstruck : m.network.reason? s ≠ none) : (∃ r, .cancel s r ∈ m.since q) ∨
      ∃ tie r, .tell (some tie) (.source s) r ∈ p.agenda ∧ .told (some tie) (.source s) r ∈ m.since q := by
  cases h with
  | create | cancel | subscribe | late | unsubscribe | strike | tell | fail =>
    cases eq_of_mem_since rfl hclose
  | detach | finish => simp [Chronicle.since] at hclose
  | close u idle known =>
    cases eq_of_mem_since rfl hclose
    cases hmoves with
    | refl => exact absurd hquiet hstruck
    | cons hone hrest =>
      obtain rfl := hone.detach_of_next rfl
      have hquiet' : (p.network.detach s).reason? s = none := by rwa [Network.reason?_detach]
      exact (hrest.severed (hp.detach s) (hp.linked.loose known) hquiet'
        fun r => hregular.not_asked idle s r).struck hstruck

/-- What it means, in a state of a run, to detach from a token. -/
structure Detaches (p : Chronicle κ) : Prop where
  /-- A client that has taken a subscription back is not told through it, unless it was due or an equal
  subscription was taken for it. -/
  client : ∀ {q m tie c l r}, Move p q → .unsubscribe tie c ∈ q.since p → Moves q m →
    .told (some tie) l r ∈ m.since q → tie ∈ p.due ∨ p.Shadowed tie c
  /-- A source that was closed is cancelled only by a call of its own, or if it was due. -/
  source : ∀ {q m s}, Move p q → .close s ∈ q.since p → p.network.reason? s = none → Moves q m →
    m.network.reason? s ≠ none → (∃ r, .cancel s r ∈ m.since q) ∨
      ∃ tie r, .tell (some tie) (.source s) r ∈ p.agenda ∧ .told (some tie) (.source s) r ∈ m.since q
  /-- Somebody is due only while a token is being cancelled, -/
  firing : ∀ {tie}, tie ∈ p.due → p.network.reason? tie.token ≠ none
  /-- and is told then whatever happens, unless somebody fails. -/
  due : ∀ {m tie l r}, .tell (some tie) l r ∈ p.agenda → Moves p m → m.agenda = [] → .failed ∉ m.since p →
    .told (some tie) l r ∈ m.since p

theorem detaches_of_moves (h : Moves start p) : p.Detaches := by
  have hp := h.orderly start_orderly
  refine ⟨fun {q m tie c l r} hmove hcall hmoves htold => ?_,
    fun hmove hclose hquiet hmoves hstruck =>
      hmove.severs hp.sound (h.regular start_sound start_regular) hclose hquiet hmoves hstruck,
    fun {tie} hdue => ?_, fun {m tie l r} hdue hmoves hend hcalm => ?_⟩
  · rcases hmove.withdraws hp.sound h.registered hcall with hdue | hshadowed | hspent
    · exact .inl hdue
    · exact .inr hshadowed
    · exact absurd htold (hmoves.not_told (hmove.sound hp.sound) hspent)
  · obtain ⟨i, hmem, htie⟩ := List.mem_filterMap.mp hdue
    cases i with
    | close | program => cases htie
    | tell tie' l r =>
      obtain rfl : tie' = some tie := htie
      rw [hp.heeded.due hmem]
      exact Option.some_ne_none r
  · refine (hmoves.told hdue hcalm).resolve_left ?_
    rw [hend]
    exact List.not_mem_nil

/-- The first client that is told of a cancellation takes the subscription of the second one back and closes a
source that is linked to the token. Both are told. -/
theorem detaches_in_vain : ∃ p q m : Chronicle Nat, Moves start p ∧ p.Detaches ∧ Move p q ∧
    .unsubscribe (.listed 0 1) 8 ∈ q.since p ∧ Moves q m ∧ .close 1 ∈ m.since q ∧
      .told (some (.listed 0 1)) (.client 8) .none ∈ m.since q ∧ m.network.reason? 1 = some .none := by
  have hmoves := Moves.cons (.create (start : Chronicle Nat) [] .done (by simp)) <|
    .cons (.subscribe _ 0 7 .done (by decide) rfl) <|
    .cons (.subscribe _ 0 8 .done (by decide) rfl) <|
    .cons (.create _ [some 0] .done (by simp; decide)) <|
    .cons (.cancel _ 0 .none .done (by decide)) <|
    .cons (.strike _ _ _ _ _ rfl) <| .cons (.tell _ _ _ _ _ rfl) <| .refl _
  refine ⟨_, _, _, hmoves, detaches_of_moves hmoves,
    .unsubscribe _ (.listed 0 1) 8 (.program _) (by decide), by decide,
    .cons (.close _ 1 (.program _) (by decide)) <| .cons (.detach _ _ _ rfl) <|
      .cons (.finish _ _ rfl) <| .cons (.tell _ _ _ _ _ rfl) <| .cons (.finish _ _ rfl) <|
      .cons (.strike _ _ _ _ _ rfl) <| .refl _, by decide, by decide, rfl⟩

end Chronicle

end TreeCensus.Cancellation
