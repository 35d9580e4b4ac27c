import TreeCensus.Proofs.Cancellation.Withdrawal

/-!
# What is left of a source

A source that is closed, or cancelled by a call or over a link, lets go of its links, and nothing is left of it on
the lists of the tokens that it was linked to. But a new source that is linked to a cancelled token is cancelled
and closed at once, in the middle of being linked, and then it is linked to the tokens that are still to come. It
stays on their lists although it is cancelled.
-/

namespace TreeCensus.Cancellation

set_option autoImplicit false

variable {κ : Type}

namespace Network

variable {net : Network κ}

/-- Those of some tokens that come after the last one which is cancelled. -/
def beyond (net : Network κ) (tokens : List Nat) : List Nat := tokens.rtakeWhile (!net.isCancelled ·)

theorem beyond_of_struck {t : Nat} (ht : net.reason? t ≠ none) (tokens : List Nat) :
    net.beyond (tokens ++ [t]) = [] :=
  List.rtakeWhile_concat_neg _ _ _ (by simpa [isCancelled, Option.isSome_iff_ne_none] using ht)

theorem beyond_of_quiet {t : Nat} (ht : net.reason? t = none) (tokens : List Nat) :
    net.beyond (tokens ++ [t]) = net.beyond tokens ++ [t] :=
  List.rtakeWhile_concat_pos _ _ _ (by simp [isCancelled, ht])

variable [DecidableEq κ]

theorem heard_subscribe_self {t : Nat} (ht : t < net.tokens.length) (u s : Nat) :
    (net.subscribe t (.source s)).heard u s = net.heard u s + if t = u then 1 else 0 := by
  unfold heard
  rw [subscriptions_subscribe]
  by_cases htu : t = u
  · subst htu
    simp [ht]
  · simp [htu]

theorem heard_new (h : Linked net) (t : Nat) : net.heard t net.tokens.length = 0 := by
  have hle := h t net.tokens.length
  rw [links_eq_nil (Nat.le_refl _)] at hle
  exact Nat.le_zero.mp hle

theorem heard_strike_self (h : Tidy net) (t : Nat) (r : Reason) (s : Nat) : (net.strike t r).1.heard t s = 0 := by
  unfold heard
  rw [subscriptions_strike_self net h]
  rfl

theorem heard_strike_ne {t u : Nat} (htu : t ≠ u) (r : Reason) (s : Nat) :
    (net.strike u r).1.heard t s = net.heard t s := by
  unfold heard
  rw [subscriptions_strike_ne net htu]

/-- Other sources hear what they heard before. -/
theorem heard_addSource_ne (h : Tidy net) (hlinked : Linked net) (linked : List Nat)
    (hknown : ∀ t ∈ linked, t < net.tokens.length) (t : Nat) {s : Nat} (hs : s ≠ net.tokens.length) :
    (net.addSource linked).heard t s = net.heard t s := by
  obtain ⟨new, hnew, hall⟩ := (joined h hlinked linked hknown).subscriptions t
  have hothers : new.countP (·.listener = .source s) = 0 := by
    refine List.countP_eq_zero.mpr fun sub hsub => ?_
    rw [(hall sub hsub).1]
    simpa using hs.symm
  unfold heard
  rw [hnew, List.countP_append, hothers, Nat.add_zero]

/-- A new source hears those tokens that come after the last cancelled one. -/
theorem heard_addSource (h : Tidy net) (hlinked : Linked net) (linked : List Nat)
    (hknown : ∀ t ∈ linked, t < net.tokens.length) (t : Nat) :
    (net.addSource linked).heard t net.tokens.length = (net.beyond linked).count t := by
  induction linked using List.reverseRecOn with
  | nil =>
    unfold addSource heard
    rw [List.foldl_nil, subscriptions_append_fresh]
    exact heard_new hlinked t
  | append_singleton linked u ih =>
    have hbefore : ∀ v ∈ linked, v < net.tokens.length := fun v hv => hknown v (List.mem_append_left _ hv)
    have hu := hknown u (List.mem_append_right _ List.mem_cons_self)
    have hjoined := joined h hlinked linked hbefore
    have hreason : (net.addSource linked).reason? u = net.reason? u := hjoined.reasons u (Nat.ne_of_lt hu)
    rw [addSource_append]
    cases hown : net.reason? u with
    | none =>
      rw [beyond_of_quiet hown, List.count_append, List.count_singleton, ← ih hbefore,
        link_of_quiet (hreason.trans hown), heard_update_of_eq (f := fun tok =>
          { tok with links := tok.links ++ [u] }) _ _ _ _ fun _ => rfl,
        heard_subscribe_self (by rw [hjoined.length]; omega)]
      simp only [beq_iff_eq]
    | some r =>
      rw [beyond_of_struck (hown ▸ Option.some_ne_none r), link_of_struck (hreason.trans hown)]
      exact heard_detach ((hlinked.addSource linked).update_reason _ r) _ _

end Network

/-- By what a source is made to let go of its links. -/
def Event.Releases (s : Nat) : Event κ → Prop
  | cancel u _ | close u | told _ (.source u) _ => u = s
  | source _ _ | subscribe _ _ | unsubscribe _ _ | told _ (.client _) _ | failed => False

namespace Chronicle

variable [DecidableEq κ] {p q m : Chronicle κ}

namespace Move

/-- A source that is made to let go is told first, or is closed. -/
theorem releases (h : Move p q) {s : Nat} {e : Event κ} (he : e ∈ q.since p) (hs : e.Releases s) :
    (∃ r, .tell none (.source s) r ∈ q.agenda) ∨ .close s ∈ q.agenda := by
  cases h with
  | create | subscribe | late | unsubscribe | tell | fail =>
    cases eq_of_mem_since rfl he
    exact hs.elim
  | cancel u r =>
    cases eq_of_mem_since rfl he
    exact .inl ⟨r, hs ▸ List.mem_cons_self⟩
  | close u =>
    cases eq_of_mem_since rfl he
    exact .inr (hs ▸ List.mem_cons_self)
  | strike tie u r rest =>
    cases eq_of_mem_since rfl he
    obtain rfl : u = s := hs
    refine .inr (List.mem_append_left _ ?_)
    unfold Network.dues
    split <;> simp
  | detach | finish => simp [Chronicle.since] at he

/-- A source that has to be closed lets go of its links sooner or later, unless somebody fails. -/
theorem stays_closing (h : Move p q) (hp : p.network.Sound) {s : Nat} (hs : s < p.network.tokens.length)
    (hmem : .close s ∈ p.agenda) :
    .close s ∈ q.agenda ∨ q.network.Loose s ∨ q.since p = [.failed] := by
  have hrest : ∀ {i rest}, p.agenda = i :: rest → .close s ≠ i → .close s ∈ rest := by
    intro i rest hnext hne
    rw [hnext] at hmem
    exact (List.mem_cons.mp hmem).resolve_left hne
  cases h with
  | create | subscribe | unsubscribe => exact .inl hmem
  | cancel | close | late => exact .inl (List.mem_cons_of_mem _ hmem)
  | strike tie u r rest next => exact .inl (List.mem_append_right _ (hrest next nofun))
  | tell tie c r rest next => exact .inl (List.mem_cons_of_mem _ (hrest next nofun))
  | detach u rest next =>
    by_cases hsu : s = u
    · subst hsu
      exact .inr (.inl (hp.linked.loose hs))
    · exact .inl (hrest next (by simpa using hsu))
  | finish rest next => exact .inl (hrest next nofun)
  | fail rest kept next suffix => exact .inr (.inr (since_eq rfl))

/-- A source goes on hearing the tokens that it hears, until it is closed or one of them is struck. -/
theorem heard_cases (h : Move p q) (hp : p.network.Sound) {s : Nat} (hs : s < p.network.tokens.length)
    (t : Nat) : q.network.heard t s = p.network.heard t s ∨ .close s ∈ p.agenda ∨
      ∃ tie r, .tell tie (.source s) r ∈ q.agenda := by
  cases h with
  | cancel | close | late | tell | finish | fail => exact .inl rfl
  | create linked idle known =>
    exact .inl (Network.heard_addSource_ne hp.toTidy hp.linked _ (known_of_mem known) t (Nat.ne_of_lt hs))
  | subscribe u c => exact .inl (Network.heard_subscribe_other _ u t s nofun)
  | unsubscribe tie c =>
    cases tie with
    | listed u k => exact .inl (Network.heard_unsubscribe_other _ u t s nofun)
    | late => exact .inl rfl
  | strike tie u r rest next =>
    by_cases htu : t = u
    · subst htu
      by_cases hhears : p.network.Hears t (.source s)
      · obtain ⟨⟨n, l⟩, hsub, rfl⟩ := hhears
        rcases (Move.strike p tie t r rest next).stands hsub hp with hsub | ⟨r', hdue⟩ | ⟨⟨_, hnext⟩, -⟩
        · change _ ∈ (p.network.strike t r).1.subscriptions t at hsub
          rw [Network.subscriptions_strike_self _ hp.toTidy] at hsub
          cases hsub
        · exact .inr (.inr ⟨_, r', hdue⟩)
        · exact .inr (.inl (hnext ▸ List.mem_cons_self))
      · refine .inl ((Network.heard_strike_self hp.toTidy t r s).trans (Eq.symm ?_))
        exact Nat.eq_zero_of_not_pos fun hpos => hhears (Network.hears_source_iff.mpr hpos)
    · exact .inl (Network.heard_strike_ne htu r s)
  | detach u rest next =>
    by_cases hus : u = s
    · exact .inr (.inl (next ▸ hus ▸ List.mem_cons_self))
    · exact .inl (Network.heard_detach_other _ hus t)

end Move

/-- A source has been made to let go of its links since an earlier time. -/
def Released (p : Chronicle κ) (s : Nat) (q : Chronicle κ) : Prop := ∃ e ∈ q.since p, e.Releases s

theorem Moves.released_iff (h : Moves p q) (hone : Move q m) {s : Nat} :
    p.Released s m ↔ p.Released s q ∨ ∃ e ∈ m.since q, e.Releases s := by
  unfold Released
  rw [h.since (.single hone)]
  simp only [List.mem_append, or_and_right, exists_or]

/-- How a source stands by its links, of which it had `links t` to each token `t` at an earlier time. -/
inductive Stance (p : Chronicle κ) (s : Nat) (links : Nat → Nat) (q : Chronicle κ) : Prop
  | due {tie : Option Tie} {r : Reason} (due : .tell tie (.source s) r ∈ q.agenda)
  | closing (released : p.Released s q) (due : .close s ∈ q.agenda)
  | gone (released : p.Released s q) (loose : q.network.Loose s)
  | linked (unasked : ¬ p.Released s q) (stays : .close s ∉ q.agenda)
      (heard : ∀ t, q.network.heard t s = links t)

theorem Stance.step {s : Nat} {links : Nat → Nat} (h : p.Stance s links q) (hmoves : Moves p q) (hone : Move q m)
    (hq : q.network.Sound) (hs : s < q.network.tokens.length) (hcalm : m.since q ≠ [.failed]) :
    p.Stance s links m := by
  have hiff := hmoves.released_iff hone (s := s)
  have hnow : ∀ {e : Event κ}, e ∈ m.since q → e.Releases s → p.Released s m :=
    fun he hreleases => hiff.mpr (.inr ⟨_, he, hreleases⟩)
  cases h with
  | due hdue =>
    rcases hone.stays_due hdue with hdue | htold | hfail
    · exact .due hdue
    · have hmem := htold ▸ List.mem_cons_self
      rcases hone.releases hmem rfl with ⟨r, hdue⟩ | hclose
      · exact .due hdue
      · exact .closing (hnow hmem rfl) hclose
    · exact absurd hfail hcalm
  | closing hreleased hdue =>
    rcases hone.stays_closing hq hs hdue with hdue | hloose | hfail
    · exact .closing (hiff.mpr (.inl hreleased)) hdue
    · exact .gone (hiff.mpr (.inl hreleased)) hloose
    · exact absurd hfail hcalm
  | gone hreleased hloose => exact .gone (hiff.mpr (.inl hreleased)) (hone.loose hq hloose)
  | linked hunasked hstays hheard =>
    by_cases hreleases : ∃ e ∈ m.since q, e.Releases s
    · obtain ⟨e, he, hs⟩ := hreleases
      rcases hone.releases he hs with ⟨r, hdue⟩ | hclose
      · exact .due hdue
      · exact .closing (hnow he hs) hclose
    · have hunasked' : ¬ p.Released s m := fun h => (hiff.mp h).elim hunasked hreleases
      by_cases hdue : ∃ tie r, .tell tie (.source s) r ∈ m.agenda
      · obtain ⟨tie, r, hdue⟩ := hdue
        exact .due hdue
      · refine .linked hunasked' (fun hclose => ?_) fun t => ?_
        · rcases hone.closing_cases hclose with hclose | he | ⟨tie, r, he⟩
          · exact hstays hclose
          · exact hreleases ⟨.close s, he ▸ List.mem_cons_self, rfl⟩
          · exact hreleases ⟨.told tie (.source s) r, he ▸ List.mem_cons_self, rfl⟩
        · rcases hone.heard_cases hq hs t with hsame | hclose | hdue'
          · exact hsame.trans (hheard t)
          · exact absurd hclose hstays
          · exact absurd hdue' hdue

/-- Only a source that was told since an earlier time has been cancelled since. -/
theorem Moves.released_of_struck (h : Moves p q) (hp : p.network.Sound) {s : Nat}
    (hs : s < p.network.tokens.length) (hquiet : p.network.reason? s = none)
    (hstruck : q.network.reason? s ≠ none) : p.Released s q := by
  refine h.induct (motive := fun a => a.network.reason? s ≠ none → p.Released s a)
    (fun hstruck => absurd hquiet hstruck) (fun {a b} hpa ha hone hstruck => ?_) hstruck
  refine (hpa.released_iff hone).mpr ?_
  rcases hone.reason_cases (hpa.sound hp) s with hsame | ⟨tie, r, he, -, -⟩ | ⟨_, -, hnew, -⟩
  · exact .inl (ha (hsame ▸ hstruck))
  · exact .inr ⟨.told tie (.source s) r, he ▸ List.mem_cons_self, rfl⟩
  · have hlength := hpa.length_le
    omega

/-- A source was created from `p` to `q`, and at the time of `m` nothing is to be done. Nobody has failed in
between. -/
structure Lifetime (p q m : Chronicle κ) (s : Nat) (linked : List Nat) : Prop where
  creation : Move p q
  created : q.since p = [.source s linked]
  moves : Moves q m
  done : m.agenda = []
  calm : .failed ∉ m.since q

theorem Move.of_source (h : Move p q) {s : Nat} {linked : List Nat} (he : q.since p = [.source s linked]) :
    s = p.network.tokens.length ∧ q.network = p.network.addSource linked ∧
      (∀ t ∈ linked, t < p.network.tokens.length) ∧ q.agenda = p.agenda ∧ Idle p.agenda := by
  cases h with
  | cancel | close | subscribe | late | unsubscribe | strike | tell | fail =>
    rw [since_eq rfl] at he
    cases he
  | create linked' idle known =>
    rw [since_eq rfl] at he
    cases he
    exact ⟨rfl, rfl, known_of_mem known, rfl, idle⟩
  | detach | finish => simp [Chronicle.since] at he

namespace Lifetime

variable {s : Nat} {linked : List Nat}

theorem lt_length (h : Lifetime p q m s linked) : s < q.network.tokens.length := by
  obtain ⟨rfl, hnetwork, -⟩ := h.creation.of_source h.created
  rw [hnetwork, Network.length_addSource]
  exact Nat.lt_succ_self _

theorem joined (h : Lifetime p q m s linked) (hp : Moves start p) :
    Network.Joined p.network linked q.network := by
  obtain ⟨rfl, hnetwork, hknown, -⟩ := h.creation.of_source h.created
  have hsound := hp.sound start_sound
  exact hnetwork ▸ Network.joined hsound.toTidy hsound.linked linked hknown

/-- A new source is cancelled if one of the tokens is that it is linked to. -/
theorem struck_iff (h : Lifetime p q m s linked) (hp : Moves start p) :
    q.network.reason? s ≠ none ↔ ∃ t ∈ linked, p.network.reason? t ≠ none := by
  have hjoined := h.joined hp
  obtain ⟨rfl, -, hknown, -⟩ := h.creation.of_source h.created
  constructor
  · intro hstruck
    obtain ⟨r, hr⟩ := Option.ne_none_iff_exists'.mp hstruck
    obtain ⟨t, ht, heq⟩ := hjoined.struck r hr
    exact ⟨t, ht, heq ▸ nofun⟩
  · rintro ⟨t, ht, hstruck⟩ hquiet
    refine hstruck ?_
    rw [← hjoined.reasons t (Nat.ne_of_lt (hknown t ht))]
    exact (hjoined.quiet hquiet t ht).1

theorem stance (h : Lifetime p q m s linked) (hp : Moves start p) :
    q.Stance s (fun t => (p.network.beyond linked).count t) m := by
  have hsound := hp.sound start_sound
  have hlength := h.lt_length
  have hq := h.creation.sound hsound
  obtain ⟨rfl, hnetwork, hknown, hagenda, hidle⟩ := h.creation.of_source h.created
  refine h.moves.induct (motive := fun a => .failed ∉ a.since q → q.Stance _ _ a) (fun _ => ?_)
    (fun {a b} hqa ha hone hcalm => ?_) h.calm
  · refine .linked ?_ (fun hclose => ?_) fun t => ?_
    · rintro ⟨e, he, -⟩
      rw [since_self] at he
      cases he
    · -- Nothing can have been left to do for a source that was not there.
      rw [hagenda] at hclose
      have htail : .close p.network.tokens.length ∈ p.agenda.tail := by
        generalize p.agenda = items at hidle hclose
        cases hidle with
        | done => cases hclose
        | program rest => exact (List.mem_cons.mp hclose).resolve_left nofun
      exact (hp.regular start_sound start_regular).closes htail (Network.reason?_eq_none (Nat.le_refl _))
    · rw [hnetwork]
      exact Network.heard_addSource hsound.toTidy hsound.linked linked hknown t
  · rw [hqa.since (.single hone), List.mem_append, not_or] at hcalm
    refine (ha hcalm.1).step hqa hone (hqa.sound hq) (Nat.lt_of_lt_of_le hlength hqa.length_le) ?_
    intro hfail
    rw [hfail] at hcalm
    exact hcalm.2 List.mem_cons_self

/-- When nothing is to be done, a source that was made to let go hears nothing, and any other one hears what it
has heard from the beginning. -/
theorem settled (h : Lifetime p q m s linked) (hp : Moves start p) :
    q.Released s m ∧ (∀ t, ¬ m.network.Hears t (.source s)) ∨
      ¬ q.Released s m ∧ ∀ t, m.network.heard t s = (p.network.beyond linked).count t := by
  cases h.stance hp with
  | due hdue | closing _ hdue =>
    rw [h.done] at hdue
    cases hdue
  | gone released loose => exact .inl ⟨released, loose.deaf⟩
  | linked unasked _ heard => exact .inr ⟨unasked, heard⟩

end Lifetime

/-- What is left of a new source, at all later times, on the lists of the tokens that it was linked to. -/
structure Clears (p : Chronicle κ) : Prop where
  /-- The source is cancelled from the beginning if one of the tokens is. -/
  born : ∀ {q m s linked}, Lifetime p q m s linked →
    (q.network.reason? s ≠ none ↔ ∃ t ∈ linked, p.network.reason? t ≠ none)
  /-- Once it has been closed, cancelled by a call or told of a cancellation, nothing is left of it. -/
  released : ∀ {q m s linked}, Lifetime p q m s linked → q.Released s m →
    ∀ t, ¬ m.network.Hears t (.source s)
  /-- Until then it stays on the lists of the tokens that come after the last cancelled one, -/
  kept : ∀ {q m s linked}, Lifetime p q m s linked → ¬ q.Released s m →
    ∀ t, m.network.heard t s = (p.network.beyond linked).count t
  /-- so that nothing is left of it, if it is cancelled or closed, unless it was born cancelled and some token
  came later. -/
  clean : ∀ {q m s linked}, Lifetime p q m s linked →
    (∀ t ∈ linked, p.network.reason? t = none) ∨ p.network.beyond linked = [] →
      m.network.reason? s ≠ none ∨ .close s ∈ m.since q → ∀ t, ¬ m.network.Hears t (.source s)

theorem clears_of_moves (h : Moves start p) : p.Clears := by
  refine ⟨fun hlife => hlife.struck_iff h, fun hlife hreleased => ?_, fun hlife hunasked => ?_,
    fun {q m s linked} hlife hbehind hend t hhears => ?_⟩
  · exact ((hlife.settled h).resolve_right fun hkept => hkept.1 hreleased).2
  · exact ((hlife.settled h).resolve_left fun hgone => hunasked hgone.1).2
  · rcases hlife.settled h with ⟨-, hdeaf⟩ | ⟨hunasked, hheard⟩
    · exact hdeaf t hhears
    rcases hbehind with hquiet | hnone
    · rcases hend with hstruck | hclose
      · have hsound := hlife.creation.sound (h.sound start_sound)
        have hborn : q.network.reason? s = none := by
          refine Classical.not_not.mp fun hborn => ?_
          obtain ⟨u, hu, hstruck⟩ := (hlife.struck_iff h).mp hborn
          exact hstruck (hquiet u hu)
        exact hunasked (hlife.moves.released_of_struck hsound hlife.lt_length hborn hstruck)
      · exact hunasked ⟨_, hclose, rfl⟩
    · have hpos := Network.hears_source_iff.mp hhears
      rw [hheard, hnone] at hpos
      cases hpos

/-- A source that is linked to a cancelled token and then to another one is cancelled, and stays on the list of
the other one. Linked to them in the opposite order, it is cancelled too, and nothing is left of it. -/
theorem clears_in_order : ∃ p q q' : Chronicle Nat, Moves start p ∧ p.Clears ∧ p.Lifetime q q 2 [0, 1] ∧
    q.network.reason? 2 = some .none ∧ q.network.Hears 1 (.source 2) ∧
      p.Lifetime q' q' 2 [1, 0] ∧ q'.network.reason? 2 = some .none ∧
        ∀ t, ¬ q'.network.Hears t (.source 2) := by
  have hmoves := Moves.cons (.create (start : Chronicle Nat) [] .done (by simp)) <|
    .cons (.create _ [] .done (by simp)) <|
    .cons (.cancel _ 0 .none .done (by decide)) <|
    .cons (.strike _ _ _ _ _ rfl) <| .cons (.detach _ _ _ rfl) <| .refl _
  have hclears := clears_of_moves hmoves
  refine ⟨_, _, _, hmoves, hclears,
    ⟨.create _ [some 0, none, some 1] .done (by simp; decide), rfl, .refl _, rfl, by simp⟩, rfl,
    ⟨⟨0, .source 2⟩, by decide, rfl⟩,
    ⟨.create _ [some 1, none, some 0] .done (by simp; decide), rfl, .refl _, rfl, by simp⟩, rfl, ?_⟩
  exact hclears.clean
    ⟨.create _ [some 1, none, some 0] .done (by simp; decide), rfl, .refl _, rfl, by simp⟩ (.inr rfl)
    (.inl (by decide))

end Chronicle

end TreeCensus.Cancellation
