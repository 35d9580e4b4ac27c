import TreeCensus.Proofs.Cancellation.Spread

/-!
# Tidy networks

In a tidy network subscriptions are numbered in the order in which they were made, no number is used
twice, and a cancelled token has no subscriptions left. Every change keeps a network tidy: subscriptions
are taken away (`Thins`), one is added, a token is struck, or a source is created, and `Joined` says all
that the last one does.
-/

namespace TreeCensus.Cancellation.Network

set_option autoImplicit false

variable {κ : Type} {net net' net'' : Network κ}

structure Tidy (net : Network κ) : Prop where
  numbered : ∀ t, ∀ sub ∈ net.subscriptions t, sub.serial < net.serial
  ordered : ∀ t, (net.subscriptions t).Pairwise (·.serial < ·.serial)
  apart : ∀ t u, ∀ sub ∈ net.subscriptions t, ∀ sub' ∈ net.subscriptions u,
    sub.serial = sub'.serial → t = u
  spent : ∀ t, net.reason? t ≠ none → net.subscriptions t = []

/-- Subscriptions are taken away, and nothing else changes but the links of sources. -/
structure Thins (net net' : Network κ) : Prop where
  length : net'.tokens.length = net.tokens.length
  serial : net'.serial = net.serial
  reasons : ∀ t, net'.reason? t = net.reason? t
  subscriptions : ∀ t, (net'.subscriptions t).Sublist (net.subscriptions t)

theorem subscriptions_eq_nil {t : Nat} (ht : net.tokens.length ≤ t) : net.subscriptions t = [] := by
  unfold subscriptions
  rw [List.getElem?_eq_none ht]
  rfl

theorem reason?_eq_none {t : Nat} (ht : net.tokens.length ≤ t) : net.reason? t = none := by
  unfold reason?
  rw [List.getElem?_eq_none ht]
  rfl

theorem links_eq_nil {s : Nat} (hs : net.tokens.length ≤ s) : net.links s = [] := by
  unfold links
  rw [List.getElem?_eq_none hs]
  rfl

theorem reason?_update_or {s : Nat} (hs : s < net.tokens.length) (r : Reason) :
    (net.update s fun tok => { tok with reason := tok.reason.or (some r) }).reason? s =
      (net.reason? s).or (some r) := by
  unfold reason? update
  rw [List.getElem?_modify_eq]
  simp [hs]

theorem reason?_update_ne (net : Network κ) {s t : Nat} (hst : s ≠ t) (f : Token κ → Token κ) :
    (net.update s f).reason? t = net.reason? t := by
  unfold reason? update
  dsimp only
  rw [List.getElem?_modify_ne _ _ hst]

theorem subscriptions_strike_ne (net : Network κ) {s t : Nat} (hst : t ≠ s) (r : Reason) :
    (net.strike s r).1.subscriptions t = net.subscriptions t := by
  cases net.strikes s r with
  | again same _ _ => rw [same]
  | first _ _ _ _ subscriptions => exact subscriptions t hst

theorem subscriptions_strike_self (net : Network κ) {s : Nat} (h : net.Tidy) (r : Reason) :
    (net.strike s r).1.subscriptions s = [] := by
  unfold strike
  split
  · change (net.update s _).subscriptions s = []
    rw [subscriptions_update, if_pos rfl]
    cases net.tokens[s]? <;> rfl
  · next hother =>
    cases htok : net.tokens[s]? with
    | none => exact subscriptions_eq_nil (List.getElem?_eq_none_iff.mp htok)
    | some tok =>
      obtain ⟨reason, subs, links⟩ := tok
      cases reason with
      | none => exact absurd htok (hother subs links)
      | some q =>
        apply h.spent
        unfold reason?
        rw [htok]
        nofun

theorem serial_strike (net : Network κ) (s : Nat) (r : Reason) :
    (net.strike s r).1.serial = net.serial := by
  unfold strike
  split <;> rfl

namespace Thins

theorem refl (net : Network κ) : Thins net net :=
  ⟨rfl, rfl, fun _ => rfl, fun _ => List.Sublist.refl _⟩

theorem trans (h : Thins net net') (h' : Thins net' net'') : Thins net net'' :=
  ⟨h'.length.trans h.length, h'.serial.trans h.serial, fun t => (h'.reasons t).trans (h.reasons t),
    fun t => (h'.subscriptions t).trans (h.subscriptions t)⟩

theorem update_links (net : Network κ) (s : Nat) (f : Token κ → List Nat) :
    Thins net (net.update s fun tok => { tok with links := f tok }) :=
  ⟨length_update net s _, rfl, fun t => reason?_update net s t fun _ => rfl,
    fun t => (subscriptions_update_of_eq net s t
      (f := fun tok => { tok with links := f tok }) fun _ => rfl) ▸ List.Sublist.refl _⟩

variable [DecidableEq κ]

theorem unsubscribe (net : Network κ) (t : Nat) (l : Listener κ) : Thins net (net.unsubscribe t l) := by
  refine ⟨length_update net t _, rfl, fun u => net.reason?_unsubscribe t u l, fun u => ?_⟩
  rw [subscriptions_unsubscribe]
  split
  · exact List.eraseP_sublist
  · exact List.Sublist.refl _

theorem detach (net : Network κ) (s : Nat) : Thins net (net.detach s) := by
  have hfold : ∀ (tokens : List Nat) (net : Network κ),
      Thins net (tokens.foldl (fun n t => n.unsubscribe t (.source s)) net) := by
    intro tokens
    induction tokens with
    | nil => exact refl
    | cons t tokens ih => exact fun net => (unsubscribe net t _).trans (ih _)
  exact (hfold _ net).trans (update_links _ s _)

end Thins

namespace Tidy

theorem empty : Tidy (Network.empty : Network κ) :=
  ⟨fun _ _ hsub => absurd hsub List.not_mem_nil, fun _ => .nil, fun _ _ _ hsub => absurd hsub List.not_mem_nil,
    fun _ _ => rfl⟩

theorem thins (h : Tidy net) (hthins : Thins net net') : Tidy net' := by
  have hsubset := fun t => (hthins.subscriptions t).subset
  refine ⟨?_, fun t => (h.ordered t).sublist (hthins.subscriptions t), ?_, ?_⟩
  · intro t sub hsub
    rw [hthins.serial]
    exact h.numbered t sub (hsubset t hsub)
  · intro t u sub hsub sub' hsub'
    exact h.apart t u sub (hsubset t hsub) sub' (hsubset u hsub')
  · intro t ht
    rw [hthins.reasons] at ht
    have hsub := hthins.subscriptions t
    rw [h.spent t ht] at hsub
    exact List.sublist_nil.mp hsub

theorem subscribe (h : Tidy net) {t : Nat} (ht : net.reason? t = none) (l : Listener κ) :
    Tidy (net.subscribe t l) := by
  have hcases : ∀ u, ∀ sub ∈ (net.subscribe t l).subscriptions u, sub ∈ net.subscriptions u ∨
      t = u ∧ sub.serial = net.serial := by
    intro u sub hsub
    rw [subscriptions_subscribe] at hsub
    split at hsub
    · next htu =>
      rcases List.mem_append.mp hsub with hsub | hsub
      · exact .inl hsub
      · obtain rfl := List.mem_singleton.mp hsub
        exact .inr ⟨htu.1, rfl⟩
    · exact .inl hsub
  refine ⟨?_, ?_, ?_, ?_⟩
  · intro u sub hsub
    change sub.serial < net.serial + 1
    rcases hcases u sub hsub with hsub | ⟨-, heq⟩
    · have := h.numbered u sub hsub
      omega
    · omega
  · intro u
    rw [subscriptions_subscribe]
    split
    · refine List.pairwise_append.mpr ⟨h.ordered u, List.pairwise_singleton _ _, ?_⟩
      intro sub hsub new hnew
      obtain rfl := List.mem_singleton.mp hnew
      exact h.numbered u sub hsub
    · exact h.ordered u
  · intro u v sub hsub sub' hsub' heq
    rcases hcases u sub hsub with hsub | ⟨htu, hnew⟩ <;>
      rcases hcases v sub' hsub' with hsub' | ⟨htv, hnew'⟩
    · exact h.apart u v sub hsub sub' hsub' heq
    · have := h.numbered u sub hsub
      omega
    · have := h.numbered v sub' hsub'
      omega
    · exact htu.symm.trans htv
  · intro u hu
    rw [reason?_subscribe] at hu
    have hne : ¬ (t = u ∧ u < net.tokens.length) := by
      rintro ⟨rfl, -⟩
      exact hu ht
    rw [subscriptions_subscribe, if_neg hne]
    exact h.spent u hu

theorem strike (h : Tidy net) (s : Nat) (r : Reason) : Tidy (net.strike s r).1 := by
  have hsub : ∀ t, ((net.strike s r).1.subscriptions t).Sublist (net.subscriptions t) := by
    intro t
    rcases subscriptions_strike net s r t with hsame | hnone
    · rw [hsame]
    · rw [hnone]
      exact List.nil_sublist _
  refine ⟨?_, fun t => (h.ordered t).sublist (hsub t), ?_, ?_⟩
  · intro t sub hmem
    rw [serial_strike]
    exact h.numbered t sub ((hsub t).subset hmem)
  · intro t u sub hmem sub' hmem'
    exact h.apart t u sub ((hsub t).subset hmem) sub' ((hsub u).subset hmem')
  · intro t ht
    by_cases hts : t = s
    · subst hts
      exact subscriptions_strike_self net h r
    · rw [reason?_strike_ne net hts] at ht
      rw [subscriptions_strike_ne net hts]
      exact h.spent t ht

theorem spread [DecidableEq κ] (h : Tidy net) (notices : List (Notice κ)) :
    Tidy (net.spread notices).1 := by
  induction net, notices using Network.spread.induct with
  | case1 net => simpa [Network.spread] using h
  | case2 net c r rest ih =>
    rw [Network.spread]
    exact ih h
  | case3 net s r rest _ ih =>
    rw [Network.spread]
    exact ih (h.strike s r)
  | case4 net s rest _ ih =>
    rw [Network.spread]
    exact ih (h.thins (.detach net s))

theorem cancel [DecidableEq κ] (h : Tidy net) (s : Nat) (r : Reason) : Tidy (net.cancel s r).1 := h.spread _

theorem append_fresh (h : Tidy net) : Tidy { net with tokens := net.tokens ++ [.fresh] } := by
  refine ⟨?_, ?_, ?_, ?_⟩
  · intro t sub hsub
    rw [subscriptions_append_fresh] at hsub
    exact h.numbered t sub hsub
  · intro t
    rw [subscriptions_append_fresh]
    exact h.ordered t
  · intro t u sub hsub sub' hsub'
    rw [subscriptions_append_fresh] at hsub hsub'
    exact h.apart t u sub hsub sub' hsub'
  · intro t ht
    rw [reason?_append_fresh] at ht
    rw [subscriptions_append_fresh]
    exact h.spent t ht

theorem update_reason (h : Tidy net) {s : Nat} (hs : net.subscriptions s = []) (r : Reason) :
    Tidy (net.update s fun tok => { tok with reason := tok.reason.or (some r) }) := by
  have hsame : ∀ t, (net.update s fun tok =>
      { tok with reason := tok.reason.or (some r) }).subscriptions t = net.subscriptions t :=
    fun t => subscriptions_update_of_eq net s t
      (f := fun tok => { tok with reason := tok.reason.or (some r) }) fun _ => rfl
  refine ⟨?_, ?_, ?_, ?_⟩
  · intro t sub hsub
    rw [hsame] at hsub
    exact h.numbered t sub hsub
  · intro t
    rw [hsame]
    exact h.ordered t
  · intro t u sub hsub sub' hsub'
    rw [hsame] at hsub hsub'
    exact h.apart t u sub hsub sub' hsub'
  · intro t ht
    rw [hsame]
    by_cases hst : s = t
    · exact hst ▸ hs
    · rw [reason?_update_ne net hst] at ht
      exact h.spent t ht

end Tidy

section Joining
variable [DecidableEq κ]

theorem link_of_quiet {s t : Nat} (ht : net.reason? t = none) :
    net.link s t = (net.subscribe t (.source s)).update s fun tok =>
      { tok with links := tok.links ++ [t] } := by
  unfold link
  rw [ht]

theorem link_of_struck {s t : Nat} {r : Reason} (ht : net.reason? t = some r) :
    net.link s t = (net.update s fun tok =>
      { tok with reason := tok.reason.or (some r) }).detach s := by
  unfold link
  rw [ht]

/-- Who lets go of its links takes back only subscriptions of its own. -/
theorem exists_subscriptions_detach (s t : Nat) {old new : List (Subscription κ)}
    (h : net.subscriptions t = old ++ new) (hold : ∀ sub ∈ old, sub.listener ≠ .source s) :
    ∃ kept, (net.detach s).subscriptions t = old ++ kept ∧ kept.Sublist new := by
  have hfold : ∀ (tokens : List Nat) {net : Network κ} {new : List (Subscription κ)},
      net.subscriptions t = old ++ new → ∃ kept,
        (tokens.foldl (fun n u => n.unsubscribe u (.source s)) net).subscriptions t = old ++ kept ∧
          kept.Sublist new := by
    intro tokens
    induction tokens with
    | nil => exact fun h => ⟨_, h, List.Sublist.refl _⟩
    | cons u tokens ih =>
      intro net new h
      by_cases hut : u = t
      · have hstep : (net.unsubscribe u (.source s)).subscriptions t =
            old ++ new.eraseP (·.listener = .source s) := by
          rw [subscriptions_unsubscribe, if_pos hut, h, List.eraseP_append_right]
          exact fun sub hsub => by simpa using hold sub hsub
        obtain ⟨kept, hkept, hsub⟩ := ih hstep
        exact ⟨kept, hkept, hsub.trans List.eraseP_sublist⟩
      · have hstep : (net.unsubscribe u (.source s)).subscriptions t = old ++ new := by
          rw [subscriptions_unsubscribe, if_neg hut, h]
        exact ih hstep
  rw [detach_eq, subscriptions_update_of_eq (f := fun tok => { tok with links := [] }) _ _ _ fun _ => rfl]
  exact hfold _ h

/-- Nobody hears for a source that is not there yet. -/
theorem Linked.ne_new (h : Linked net) {t : Nat} :
    ∀ sub ∈ net.subscriptions t, sub.listener ≠ .source net.tokens.length := by
  intro sub hsub heq
  have hhears : 0 < net.heard t net.tokens.length := hears_source_iff.mp ⟨sub, hsub, heq⟩
  have hle := h t net.tokens.length
  rw [links_eq_nil (Nat.le_refl _)] at hle
  simp only [List.count_nil] at hle
  omega

/-- All that has happened when a new source, with the number `s`, has been linked to some tokens of a
network. -/
structure Joined (net : Network κ) (linked : List Nat) (net' : Network κ) : Prop where
  tidy : Tidy net'
  length : net'.tokens.length = net.tokens.length + 1
  serial : net.serial ≤ net'.serial
  reasons : ∀ t, t ≠ net.tokens.length → net'.reason? t = net.reason? t
  unheard : net'.subscriptions net.tokens.length = []
  subscriptions : ∀ t, ∃ new, net'.subscriptions t = net.subscriptions t ++ new ∧
    ∀ sub ∈ new, sub.listener = .source net.tokens.length ∧ t ∈ linked ∧ net.serial ≤ sub.serial
  others : ∀ s, s ≠ net.tokens.length → net'.links s = net.links s
  links : ∀ t ∈ net'.links net.tokens.length, t ∈ linked
  quiet : net'.reason? net.tokens.length = none → ∀ t ∈ linked,
    net'.reason? t = none ∧ net'.Hears t (.source net.tokens.length)
  struck : ∀ r, net'.reason? net.tokens.length = some r → ∃ t ∈ linked, net.reason? t = some r

namespace Joined

variable {linked : List Nat}

omit [DecidableEq κ] in
theorem fresh (h : Tidy net) : Joined net [] { net with tokens := net.tokens ++ [.fresh] } := by
  have hown : reason? { net with tokens := net.tokens ++ [.fresh] } net.tokens.length = none :=
    (net.reason?_append_fresh _).trans (reason?_eq_none (Nat.le_refl _))
  refine ⟨h.append_fresh, by simp, Nat.le_refl _, fun t _ => net.reason?_append_fresh t, ?_, ?_, ?_, ?_,
    fun _ t ht => absurd ht List.not_mem_nil, ?_⟩
  · rw [subscriptions_append_fresh]
    exact subscriptions_eq_nil (Nat.le_refl _)
  · intro t
    rw [subscriptions_append_fresh]
    exact ⟨[], (List.append_nil _).symm, fun sub hsub => absurd hsub List.not_mem_nil⟩
  · exact fun s _ => net.links_append_fresh s
  · rw [links_append_fresh, links_eq_nil (Nat.le_refl _)]
    exact fun t ht => absurd ht List.not_mem_nil
  · intro r hr
    rw [hown] at hr
    cases hr

theorem link_quiet (h : Joined net linked net') {t : Nat} (ht : t < net.tokens.length)
    (hquiet : net'.reason? t = none) : Joined net (linked ++ [t]) (net'.link net.tokens.length t) := by
  have hlength := h.length
  have hmono : ∀ {u}, u ∈ linked → u ∈ linked ++ [t] := fun hu => List.mem_append_left _ hu
  have hreasons : ∀ u, (net'.link net.tokens.length t).reason? u = net'.reason? u := by
    intro u
    rw [link_of_quiet hquiet, (Thins.update_links _ _ _).reasons, reason?_subscribe]
  have hsubs : ∀ u, (net'.link net.tokens.length t).subscriptions u =
      if t = u then net'.subscriptions u ++ [⟨net'.serial, .source net.tokens.length⟩]
      else net'.subscriptions u := by
    intro u
    rw [link_of_quiet hquiet, subscriptions_update_of_eq
      (f := fun tok => { tok with links := tok.links ++ [t] }) _ _ _ fun _ => rfl,
      subscriptions_subscribe]
    by_cases htu : t = u
    · rw [if_pos ⟨htu, by omega⟩, if_pos htu]
    · rw [if_neg (fun h => htu h.1), if_neg htu]
  have hlinks : ∀ s, (net'.link net.tokens.length t).links s =
      if s = net.tokens.length then net'.links s ++ [t] else net'.links s := by
    intro s
    rw [link_of_quiet hquiet]
    by_cases hs : s = net.tokens.length
    · subst hs
      rw [links_update_append _ (by rw [length_subscribe]; omega), links_subscribe, if_pos rfl]
    · rw [links_update, if_neg (Ne.symm hs), links_subscribe, if_neg hs]
  have hmore : ∀ {u l}, net'.Hears u l → (net'.link net.tokens.length t).Hears u l := by
    rintro u l ⟨sub, hsub, heq⟩
    refine ⟨sub, ?_, heq⟩
    rw [hsubs]
    split
    · exact List.mem_append_left _ hsub
    · exact hsub
  refine ⟨?_, ?_, ?_, ?_, ?_, ?_, ?_, ?_, ?_, ?_⟩
  · rw [link_of_quiet hquiet]
    exact (h.tidy.subscribe hquiet _).thins (.update_links _ _ _)
  · rw [length_link, hlength]
  · rw [link_of_quiet hquiet]
    exact Nat.le_trans h.serial (Nat.le_succ _)
  · intro u hu
    rw [hreasons, h.reasons u hu]
  · rw [hsubs, if_neg (by omega), h.unheard]
  · intro u
    obtain ⟨new, hnew, hall⟩ := h.subscriptions u
    rw [hsubs]
    split
    · next htu =>
      refine ⟨new ++ [⟨net'.serial, .source net.tokens.length⟩], by rw [hnew, List.append_assoc], ?_⟩
      intro sub hsub
      rcases List.mem_append.mp hsub with hsub | hsub
      · obtain ⟨hlistener, hu, hserial⟩ := hall sub hsub
        exact ⟨hlistener, hmono hu, hserial⟩
      · obtain rfl := List.mem_singleton.mp hsub
        exact ⟨rfl, List.mem_append_right _ (List.mem_singleton.mpr htu.symm), h.serial⟩
    · refine ⟨new, hnew, fun sub hsub => ?_⟩
      obtain ⟨hlistener, hu, hserial⟩ := hall sub hsub
      exact ⟨hlistener, hmono hu, hserial⟩
  · intro s hs
    rw [hlinks, if_neg hs]
    exact h.others s hs
  · intro u hu
    rw [hlinks, if_pos rfl] at hu
    exact (List.mem_append.mp hu).elim (fun hu => hmono (h.links u hu)) (List.mem_append_right _)
  · intro hown u hu
    rw [hreasons] at hown
    rw [hreasons]
    rcases List.mem_append.mp hu with hu | hu
    · obtain ⟨hnone, hhears⟩ := h.quiet hown u hu
      exact ⟨hnone, hmore hhears⟩
    · obtain rfl := List.mem_singleton.mp hu
      refine ⟨hquiet, ⟨net'.serial, .source net.tokens.length⟩, ?_, rfl⟩
      rw [hsubs, if_pos rfl]
      exact List.mem_append_right _ List.mem_cons_self
  · intro r hr
    rw [hreasons] at hr
    obtain ⟨u, hu, heq⟩ := h.struck r hr
    exact ⟨u, hmono hu, heq⟩

/-- A token that is cancelled already cancels the new source, which lets go of all links that it has. -/
theorem link_struck (h : Joined net linked net') (hlinked : Linked net) {t : Nat}
    (ht : t < net.tokens.length) {r : Reason} (hstruck : net'.reason? t = some r) :
    Joined net (linked ++ [t]) (net'.link net.tokens.length t) := by
  have hlength := h.length
  have hmono : ∀ {u}, u ∈ linked → u ∈ linked ++ [t] := fun hu => List.mem_append_left _ hu
  have hbefore : net.reason? t = some r := (h.reasons t (by omega)).symm.trans hstruck
  have hown : (net'.link net.tokens.length t).reason? net.tokens.length =
      (net'.reason? net.tokens.length).or (some r) := by
    rw [link_of_struck hstruck, reason?_detach, reason?_update_or (by omega)]
  have hsubs : ∀ u, (net'.update net.tokens.length fun tok =>
      { tok with reason := tok.reason.or (some r) }).subscriptions u = net'.subscriptions u :=
    fun u => subscriptions_update_of_eq _ _ _
      (f := fun tok => { tok with reason := tok.reason.or (some r) }) fun _ => rfl
  have hlinks : ∀ s, (net'.update net.tokens.length fun tok =>
      { tok with reason := tok.reason.or (some r) }).links s = net'.links s :=
    fun s => links_update_of_eq _ _ _
      (f := fun tok => { tok with reason := tok.reason.or (some r) }) fun _ => rfl
  -- No subscription is made: the new source is struck, and then it lets go.
  refine ⟨?_, ?_, ?_, ?_, ?_, ?_, ?_, ?_, ?_, ?_⟩
  · rw [link_of_struck hstruck]
    exact (h.tidy.update_reason h.unheard r).thins (.detach _ _)
  · rw [length_link, hlength]
  · rw [link_of_struck hstruck, (Thins.detach _ _).serial]
    exact h.serial
  · intro u hu
    rw [link_of_struck hstruck, reason?_detach, reason?_update_ne _ (Ne.symm hu)]
    exact h.reasons u hu
  · rw [link_of_struck hstruck]
    have hsub := (Thins.detach (net'.update net.tokens.length fun tok =>
      { tok with reason := tok.reason.or (some r) }) net.tokens.length).subscriptions net.tokens.length
    rw [hsubs, h.unheard] at hsub
    exact List.sublist_nil.mp hsub
  · intro u
    obtain ⟨new, hnew, hall⟩ := h.subscriptions u
    obtain ⟨kept, hkept, hsub⟩ := exists_subscriptions_detach net.tokens.length u
      ((hsubs u).trans hnew) hlinked.ne_new
    rw [link_of_struck hstruck]
    refine ⟨kept, hkept, fun sub hmem => ?_⟩
    obtain ⟨hlistener, hu, hserial⟩ := hall sub (hsub.subset hmem)
    exact ⟨hlistener, hmono hu, hserial⟩
  · intro s hs
    rw [link_of_struck hstruck, links_detach, if_neg (Ne.symm hs), hlinks]
    exact h.others s hs
  · rw [link_of_struck hstruck, links_detach, if_pos rfl]
    exact fun u hu => absurd hu List.not_mem_nil
  · intro hquiet
    rw [hown] at hquiet
    simp at hquiet
  · intro q hq
    rw [hown] at hq
    cases hfirst : net'.reason? net.tokens.length with
    | none =>
      rw [hfirst] at hq
      obtain rfl := Option.some.inj hq
      exact ⟨t, List.mem_append_right _ List.mem_cons_self, hbefore⟩
    | some p =>
      rw [hfirst] at hq
      obtain rfl := Option.some.inj hq
      obtain ⟨u, hu, heq⟩ := h.struck p hfirst
      exact ⟨u, hmono hu, heq⟩

end Joined

theorem addSource_append (net : Network κ) (linked : List Nat) (t : Nat) :
    net.addSource (linked ++ [t]) = (net.addSource linked).link net.tokens.length t := by
  unfold addSource
  rw [List.foldl_append]
  rfl

theorem joined (h : Tidy net) (hlinked : Linked net) (linked : List Nat)
    (hknown : ∀ t ∈ linked, t < net.tokens.length) : Joined net linked (net.addSource linked) := by
  induction linked using List.reverseRecOn with
  | nil => exact .fresh h
  | append_singleton linked t ih =>
    have hjoined := ih fun u hu => hknown u (List.mem_append_left _ hu)
    have ht := hknown t (List.mem_append_right _ List.mem_cons_self)
    rw [addSource_append]
    cases hreason : (net.addSource linked).reason? t with
    | none => exact hjoined.link_quiet ht hreason
    | some r => exact hjoined.link_struck hlinked ht hreason

end Joining

end TreeCensus.Cancellation.Network
