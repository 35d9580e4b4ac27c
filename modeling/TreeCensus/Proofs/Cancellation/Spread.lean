import TreeCensus.Proofs.Cancellation.Links

/-!
# How a cancellation spreads

A cancellation comes to those who hear a token that it came to, and to nobody else. A token that was
cancelled before keeps its reason, all others that the cancellation comes to get the same one. Who is
not cancelled then still hears what it heard before.
-/

namespace TreeCensus.Cancellation

set_option autoImplicit false

variable {κ : Type}

namespace Network

def Hears (net : Network κ) (t : Nat) (l : Listener κ) : Prop :=
  ∃ sub ∈ net.subscriptions t, sub.listener = l

theorem Hears.of_follows {net net' : Network κ} {t : Nat} {l : Listener κ} (h : net'.Hears t l)
    (hfollows : Follows (fun _ => False) net net') : net.Hears t l := by
  obtain ⟨sub, hsub, heq⟩ := h
  rcases hfollows.subscriptions t sub hsub with hold | ⟨hnever, _⟩
  · exact ⟨sub, hold, heq⟩
  · exact hnever.elim

theorem Hears.lt {net : Network κ} {t : Nat} {l : Listener κ} (h : net.Hears t l) :
    t < net.tokens.length := by
  obtain ⟨sub, hsub, -⟩ := h
  apply Classical.byContradiction
  intro hout
  unfold subscriptions at hsub
  rw [List.getElem?_eq_none (by omega)] at hsub
  cases hsub

theorem length_strike (net : Network κ) (s : Nat) (r : Reason) :
    (net.strike s r).1.tokens.length = net.tokens.length := by
  unfold strike
  split
  · exact length_update net s _
  · rfl

/-- A token is struck only once. -/
inductive Strikes (net : Network κ) (s : Nat) (r : Reason) (net' : Network κ)
    (notices : List (Notice κ)) : Prop
  | again (same : net' = net) (closes : notices = [.close s])
      (spent : net.reason? s ≠ none ∨ net.tokens.length ≤ s)
  | first (quiet : net.reason? s = none)
      (tells : notices = (net.subscriptions s).map (fun sub => .tell sub.listener r) ++ [.close s])
      (struck : net'.reason? s = some r) (reasons : ∀ t, t ≠ s → net'.reason? t = net.reason? t)
      (subscriptions : ∀ t, t ≠ s → net'.subscriptions t = net.subscriptions t)

theorem strikes (net : Network κ) (s : Nat) (r : Reason) :
    Strikes net s r (net.strike s r).1 (net.strike s r).2 := by
  unfold strike
  split
  · next subs links h =>
    refine .first ?_ ?_ ?_ ?_ ?_
    · unfold reason?
      rw [h]
      rfl
    · unfold subscriptions
      rw [h]
      rfl
    · unfold reason? update
      rw [List.getElem?_modify_eq, h]
      rfl
    · intro t hts
      unfold reason? update
      dsimp only
      rw [List.getElem?_modify_ne _ _ hts.symm]
    · intro t hts
      rw [subscriptions_update, if_neg hts.symm]
  · next h =>
    refine .again rfl rfl ?_
    cases htok : net.tokens[s]? with
    | none => exact .inr (List.getElem?_eq_none_iff.mp htok)
    | some tok =>
      obtain ⟨reason, subs, links⟩ := tok
      cases reason with
      | none => exact absurd htok (h subs links)
      | some q =>
        left
        unfold reason?
        rw [htok]
        nofun

/-- A token that is struck keeps the reason that it has. -/
theorem reason?_strike {net : Network κ} {s : Nat} (hs : s < net.tokens.length) (r : Reason) :
    (net.strike s r).1.reason? s = (net.reason? s).or (some r) := by
  cases net.strikes s r with
  | again same _ spent =>
    obtain ⟨q, hq⟩ := Option.ne_none_iff_exists'.mp (spent.resolve_right (by omega))
    rw [same, hq]
    rfl
  | first quiet _ struck _ _ =>
    rw [struck, quiet]
    rfl

theorem reason?_strike_self {net : Network κ} {s : Nat} (hs : s < net.tokens.length) (r : Reason) :
    (net.strike s r).1.reason? s ≠ none := by
  rw [reason?_strike hs]
  simp

theorem reason?_strike_ne (net : Network κ) {s t : Nat} (hst : t ≠ s) (r : Reason) :
    (net.strike s r).1.reason? t = net.reason? t := by
  cases net.strikes s r with
  | again same _ _ => rw [same]
  | first _ _ _ reasons _ => exact reasons t hst

theorem reason?_strike_of_ne_none {net : Network κ} {t : Nat} (h : net.reason? t ≠ none) (s : Nat)
    (r : Reason) : (net.strike s r).1.reason? t = net.reason? t := by
  cases net.strikes s r with
  | again same _ _ => rw [same]
  | first quiet _ _ reasons _ =>
    refine reasons t ?_
    rintro rfl
    exact h quiet

variable [DecidableEq κ]

theorem hears_source_iff {net : Network κ} {t s : Nat} :
    net.Hears t (.source s) ↔ 0 < net.heard t s := by
  unfold Hears heard
  rw [List.countP_pos_iff]
  simp only [decide_eq_true_eq]

theorem reason?_detach (net : Network κ) (s t : Nat) : (net.detach s).reason? t = net.reason? t := by
  have hfold : ∀ (tokens : List Nat) (net : Network κ),
      (tokens.foldl (fun n t => n.unsubscribe t (.source s)) net).reason? t = net.reason? t := by
    intro tokens
    induction tokens with
    | nil => exact fun _ => rfl
    | cons u tokens ih =>
      intro net
      rw [List.foldl_cons, ih]
      exact reason?_update net u t fun _ => rfl
  rw [detach_eq, reason?_update (f := fun tok => { tok with links := [] }) _ _ _ fun _ => rfl, hfold]

theorem reason?_spread_of_ne_none {net : Network κ} (notices : List (Notice κ)) {t : Nat}
    (h : net.reason? t ≠ none) : (net.spread notices).1.reason? t = net.reason? t := by
  induction net, notices using Network.spread.induct with
  | case1 net => rw [spread]
  | case2 net c r rest ih =>
    rw [spread]
    exact ih h
  | case3 net s r rest _ ih =>
    have hsame := reason?_strike_of_ne_none h s r
    rw [spread, ih (hsame ▸ h), hsame]
  | case4 net s rest _ ih =>
    have hsame := net.reason?_detach s t
    rw [spread, ih (hsame ▸ h), hsame]

theorem length_spread (net : Network κ) (notices : List (Notice κ)) :
    (net.spread notices).1.tokens.length = net.tokens.length := by
  induction net, notices using Network.spread.induct with
  | case1 net => rw [spread]
  | case2 net c r rest ih =>
    rw [spread]
    exact ih
  | case3 net s r rest _ ih =>
    rw [spread, ih]
    exact net.length_strike s r
  | case4 net s rest _ ih =>
    rw [spread, ih]
    exact net.length_detach s

end Network

section Confined

variable (sources : Nat → Prop) (clients : κ → Prop)

/-- Whoever hears one of the sources is one of the sources or of the clients. -/
structure Network.Confined (net : Network κ) : Prop where
  source : ∀ t s, sources t → net.Hears t (.source s) → sources s
  client : ∀ t c, sources t → net.Hears t (.client c) → clients c

/-- The notice tells the sources and the clients alone, and tells them the reason. -/
def Notice.Within (r : Reason) : Notice κ → Prop
  | tell (.source s) q => sources s ∧ q = r
  | tell (.client c) q => clients c ∧ q = r
  | close _ => True

end Confined

namespace Network

variable {sources : Nat → Prop} {clients : κ → Prop}

theorem Confined.of_follows {net net' : Network κ} (h : net.Confined sources clients)
    (hfollows : Follows (fun _ => False) net net') : net'.Confined sources clients :=
  ⟨fun t s ht hs => h.source t s ht (hs.of_follows hfollows),
    fun t c ht hc => h.client t c ht (hc.of_follows hfollows)⟩

theorem Confined.within_strike {net : Network κ} (h : net.Confined sources clients) {s : Nat} (r : Reason)
    (hs : sources s) : ∀ n ∈ (net.strike s r).2, n.Within sources clients r := by
  cases net.strikes s r with
  | again _ closes _ =>
    rw [closes]
    intro n hn
    rw [List.mem_singleton.mp hn]
    trivial
  | first _ tells _ _ _ =>
    rw [tells]
    intro n hn
    rcases List.mem_append.mp hn with hn | hn
    · obtain ⟨sub, hsub, rfl⟩ := List.mem_map.mp hn
      cases hl : sub.listener with
      | source u => exact ⟨h.source s u hs ⟨sub, hsub, hl⟩, rfl⟩
      | client c => exact ⟨h.client s c hs ⟨sub, hsub, hl⟩, rfl⟩
    · rw [List.mem_singleton.mp hn]
      trivial

/-- The notice closes no source that is not cancelled. -/
def Notice.Late (net : Network κ) : Notice κ → Prop
  | .close s => net.reason? s ≠ none ∨ net.tokens.length ≤ s
  | .tell _ _ => True

theorem late_strike (net : Network κ) (s : Nat) (r : Reason) :
    ∀ n ∈ (net.strike s r).2, Notice.Late (net.strike s r).1 n := by
  cases net.strikes s r with
  | again same closes spent =>
    rw [closes, same]
    intro n hn
    rw [List.mem_singleton.mp hn]
    exact spent
  | first _ tells struck _ _ =>
    rw [tells]
    intro n hn
    rcases List.mem_append.mp hn with hn | hn
    · obtain ⟨sub, _, rfl⟩ := List.mem_map.mp hn
      trivial
    · rw [List.mem_singleton.mp hn]
      left
      rw [struck]
      nofun

namespace Notice.Late

variable {net : Network κ} {n : Notice κ}

theorem strike (h : Notice.Late net n) (s : Nat) (r : Reason) : Notice.Late (net.strike s r).1 n := by
  cases n with
  | tell => trivial
  | close t =>
    refine h.imp (fun hstruck => ?_) fun hout => ?_
    · rwa [reason?_strike_of_ne_none hstruck]
    · rwa [length_strike]

theorem detach [DecidableEq κ] (h : Notice.Late net n) (s : Nat) : Notice.Late (net.detach s) n := by
  cases n with
  | tell => trivial
  | close t =>
    change (net.detach s).reason? t ≠ none ∨ (net.detach s).tokens.length ≤ t
    rwa [reason?_detach, length_detach]

end Notice.Late

variable [DecidableEq κ]

theorem Confined.spread {net : Network κ} {r : Reason} {notices : List (Notice κ)}
    (h : net.Confined sources clients) (hnotices : ∀ n ∈ notices, n.Within sources clients r) :
    (∀ t, (net.spread notices).1.reason? t = net.reason? t ∨
      sources t ∧ net.reason? t = none ∧ (net.spread notices).1.reason? t = some r) ∧
    ∀ p ∈ (net.spread notices).2, clients p.1 ∧ p.2 = r := by
  induction net, notices using Network.spread.induct with
  | case1 net =>
    rw [Network.spread]
    exact ⟨fun _ => .inl rfl, fun p hp => absurd hp List.not_mem_nil⟩
  | case2 net c q rest ih =>
    rw [Network.spread]
    obtain ⟨hreasons, htold⟩ := ih h fun n hn => hnotices n (List.mem_cons_of_mem _ hn)
    refine ⟨hreasons, ?_⟩
    intro p hp
    rcases List.mem_cons.mp hp with rfl | hp
    · exact hnotices _ List.mem_cons_self
    · exact htold p hp
  | case3 net s q rest _ ih =>
    obtain ⟨hs, rfl⟩ : sources s ∧ q = r := hnotices _ List.mem_cons_self
    rw [Network.spread]
    obtain ⟨hreasons, htold⟩ := ih (h.of_follows (.strike net s q)) fun n hn => by
      rcases List.mem_append.mp hn with hn | hn
      · exact h.within_strike q hs n hn
      · exact hnotices n (List.mem_cons_of_mem _ hn)
    refine ⟨?_, htold⟩
    intro t
    cases net.strikes s q with
    | again same _ _ =>
      have := hreasons t
      rwa [same] at this ⊢
    | first quiet _ struck reasons _ =>
      by_cases hts : t = s
      · subst hts
        have hkeeps : ((net.strike t q).1.spread ((net.strike t q).2 ++ rest)).1.reason? t =
            (net.strike t q).1.reason? t := reason?_spread_of_ne_none _ (by simp [struck])
        exact .inr ⟨hs, quiet, hkeeps.trans struck⟩
      · have := hreasons t
        rwa [reasons t hts] at this
  | case4 net s rest _ ih =>
    rw [Network.spread]
    obtain ⟨hreasons, htold⟩ := ih (h.of_follows (.detach net s)) fun n hn =>
      hnotices n (List.mem_cons_of_mem _ hn)
    refine ⟨?_, htold⟩
    intro t
    have := hreasons t
    rwa [reason?_detach] at this

/-- A cancellation stays among those who hear of it. -/
theorem Confined.cancel {net : Network κ} (h : net.Confined sources clients) {s : Nat} (hs : sources s)
    (r : Reason) :
    (∀ t, (net.cancel s r).1.reason? t = net.reason? t ∨
      sources t ∧ net.reason? t = none ∧ (net.cancel s r).1.reason? t = some r) ∧
    ∀ p ∈ (net.cancel s r).2, clients p.1 ∧ p.2 = r :=
  h.spread fun n hn => by
    rw [List.mem_singleton.mp hn]
    exact ⟨hs, rfl⟩

omit [DecidableEq κ] in
/-- Whoever hears a token has to be told when it is struck. -/
theorem tell_mem_strike {net : Network κ} {t : Nat} {l : Listener κ} (hquiet : net.reason? t = none)
    (hhears : net.Hears t l) (r : Reason) : .tell l r ∈ (net.strike t r).2 := by
  cases net.strikes t r with
  | again _ _ spent => exact absurd hquiet (spent.resolve_right (Nat.not_le.mpr hhears.lt))
  | first _ tells _ _ _ =>
    obtain ⟨sub, hsub, heq⟩ := hhears
    rw [tells]
    refine List.mem_append_left _ (List.mem_map.mpr ⟨sub, hsub, ?_⟩)
    rw [heq]

/-- Who is told is cancelled in the end. Who is not cancelled in the end hears what it heard, and the
token that it hears is not cancelled either. -/
theorem spread_complete (net : Network κ) (notices : List (Notice κ))
    (hlate : ∀ n ∈ notices, Notice.Late net n) :
    (∀ s r, .tell (.source s) r ∈ notices → s < net.tokens.length →
      (net.spread notices).1.reason? s ≠ none) ∧
    ∀ t s, net.reason? t = none → net.Hears t (.source s) → s < net.tokens.length →
      (net.spread notices).1.reason? s = none →
        (net.spread notices).1.reason? t = none ∧ (net.spread notices).1.Hears t (.source s) := by
  induction net, notices using Network.spread.induct with
  | case1 net =>
    rw [Network.spread]
    exact ⟨fun s r h => absurd h List.not_mem_nil, fun t s ht hhears _ _ => ⟨ht, hhears⟩⟩
  | case2 net c r rest ih =>
    rw [Network.spread]
    obtain ⟨htold, hkeeps⟩ := ih fun n hn => hlate n (List.mem_cons_of_mem _ hn)
    refine ⟨?_, hkeeps⟩
    intro s q hmem
    rcases List.mem_cons.mp hmem with heq | hmem
    · cases heq
    · exact htold s q hmem
  | case3 net u r rest _ ih =>
    rw [Network.spread]
    obtain ⟨htold, hkeeps⟩ := ih fun n hn => by
      rcases List.mem_append.mp hn with hn | hn
      · exact net.late_strike u r n hn
      · exact Notice.Late.strike (hlate n (List.mem_cons_of_mem _ hn)) u r
    rw [length_strike] at htold hkeeps
    refine ⟨?_, ?_⟩
    · intro s q hmem hs
      rcases List.mem_cons.mp hmem with heq | hmem
      · cases heq
        have hstruck := reason?_strike_self hs r
        rw [reason?_spread_of_ne_none _ hstruck]
        exact hstruck
      · exact htold s q (List.mem_append_right _ hmem) hs
    · intro t s ht hhears hs hquiet
      cases net.strikes u r with
      | again same _ _ =>
        refine hkeeps t s ?_ ?_ hs hquiet
        · rwa [same]
        · rwa [same]
      | first _ _ _ reasons subscriptions =>
        by_cases htu : t = u
        · subst htu
          exact absurd hquiet (htold s r (List.mem_append_left _ (tell_mem_strike ht hhears r)) hs)
        · refine hkeeps t s ?_ ?_ hs hquiet
          · rwa [reasons t htu]
          · unfold Hears
            rwa [subscriptions t htu]
  | case4 net u rest _ ih =>
    rw [Network.spread]
    obtain ⟨htold, hkeeps⟩ := ih fun n hn => Notice.Late.detach (hlate n (List.mem_cons_of_mem _ hn)) u
    rw [length_detach] at htold hkeeps
    refine ⟨?_, ?_⟩
    · intro s q hmem
      rcases List.mem_cons.mp hmem with heq | hmem
      · cases heq
      · exact htold s q hmem
    · intro t s ht hhears hs hquiet
      -- A source that lets go is cancelled, and it stays so.
      have hother : u ≠ s := by
        rintro rfl
        have hstruck : net.reason? u ≠ none :=
          (hlate (.close u) List.mem_cons_self).resolve_right (by omega)
        rw [← net.reason?_detach u] at hstruck
        rw [reason?_spread_of_ne_none rest hstruck] at hquiet
        exact hstruck hquiet
      refine hkeeps t s ?_ ?_ hs hquiet
      · rwa [reason?_detach]
      · rw [hears_source_iff] at hhears ⊢
        rwa [heard_detach_other net hother]

theorem hears_unsubscribe_of_ne {net : Network κ} {t u : Nat} {l m : Listener κ} (hne : m ≠ l) :
    (net.unsubscribe t l).Hears u m ↔ net.Hears u m := by
  unfold Hears
  rw [subscriptions_unsubscribe]
  split
  · constructor
    · exact fun ⟨sub, hsub, heq⟩ => ⟨sub, List.mem_of_mem_eraseP hsub, heq⟩
    · exact fun ⟨sub, hsub, heq⟩ => ⟨sub, (List.mem_eraseP_of_neg (by simpa [heq] using hne)).mpr hsub, heq⟩
  · rfl

theorem hears_client_detach (net : Network κ) (s t : Nat) (c : κ) :
    (net.detach s).Hears t (.client c) ↔ net.Hears t (.client c) := by
  have hfold : ∀ (tokens : List Nat) (net : Network κ),
      (tokens.foldl (fun n u => n.unsubscribe u (.source s)) net).Hears t (.client c) ↔
        net.Hears t (.client c) := by
    intro tokens
    induction tokens with
    | nil => exact fun _ => .rfl
    | cons u tokens ih => exact fun net => (ih _).trans (hears_unsubscribe_of_ne (by simp))
  rw [detach_eq, ← hfold (net.links s) net]
  unfold Hears
  rw [subscriptions_update_of_eq (f := fun tok => { tok with links := [] }) _ _ _ fun _ => rfl]

/-- A client that is told stands on the list. A client that hears a token that is not cancelled is told, or
still hears it, and it is not cancelled in the end either. -/
theorem spread_tells (net : Network κ) (notices : List (Notice κ)) :
    (∀ c r, .tell (.client c) r ∈ notices → (c, r) ∈ (net.spread notices).2) ∧
    ∀ t c, net.reason? t = none → net.Hears t (.client c) →
      (∃ r, (c, r) ∈ (net.spread notices).2) ∨
        (net.spread notices).1.reason? t = none ∧ (net.spread notices).1.Hears t (.client c) := by
  induction net, notices using Network.spread.induct with
  | case1 net =>
    rw [Network.spread]
    exact ⟨fun c r h => absurd h List.not_mem_nil, fun t c ht hhears => .inr ⟨ht, hhears⟩⟩
  | case2 net d q rest ih =>
    rw [Network.spread]
    obtain ⟨htold, hkeeps⟩ := ih
    refine ⟨fun c r hmem => ?_, fun t c ht hhears => ?_⟩
    · rcases List.mem_cons.mp hmem with heq | hmem
      · cases heq
        exact List.mem_cons_self
      · exact List.mem_cons_of_mem _ (htold c r hmem)
    · exact (hkeeps t c ht hhears).imp_left (Exists.imp fun _ hr => List.mem_cons_of_mem _ hr)
  | case3 net u r rest _ ih =>
    rw [Network.spread]
    obtain ⟨htold, hkeeps⟩ := ih
    refine ⟨fun c q hmem => ?_, fun t c ht hhears => ?_⟩
    · rcases List.mem_cons.mp hmem with heq | hmem
      · cases heq
      · exact htold c q (List.mem_append_right _ hmem)
    · cases net.strikes u r with
      | again same _ _ =>
        refine hkeeps t c ?_ ?_
        · rwa [same]
        · rwa [same]
      | first _ _ _ reasons subscriptions =>
        by_cases htu : t = u
        · subst htu
          exact .inl ⟨r, htold c r (List.mem_append_left _ (tell_mem_strike ht hhears r))⟩
        · refine hkeeps t c ?_ ?_
          · rwa [reasons t htu]
          · unfold Hears
            rwa [subscriptions t htu]
  | case4 net u rest _ ih =>
    rw [Network.spread]
    obtain ⟨htold, hkeeps⟩ := ih
    refine ⟨fun c q hmem => ?_, fun t c ht hhears => ?_⟩
    · rcases List.mem_cons.mp hmem with heq | hmem
      · cases heq
      · exact htold c q hmem
    · refine hkeeps t c ?_ ((net.hears_client_detach u t c).mpr hhears)
      rwa [reason?_detach]

theorem reason?_cancel_self {net : Network κ} {s : Nat} (hs : s < net.tokens.length) (r : Reason) :
    (net.cancel s r).1.reason? s ≠ none :=
  (net.spread_complete [.tell (.source s) r] (by simp [Notice.Late])).1 s r List.mem_cons_self hs

/-- A source that was not cancelled before is cancelled for the reason that is given. -/
theorem reason?_cancel_first {net : Network κ} {s : Nat} (hs : s < net.tokens.length)
    (hquiet : net.reason? s = none) (r : Reason) : (net.cancel s r).1.reason? s = some r := by
  have hconfined : net.Confined (fun _ => True) fun _ => True :=
    ⟨fun _ _ _ _ => trivial, fun _ _ _ _ => trivial⟩
  rcases (hconfined.cancel trivial r).1 s with hsame | ⟨_, _, hnew⟩
  · exact absurd (hsame.trans hquiet) (reason?_cancel_self hs r)
  · exact hnew

/-- If only clients hear a token, a cancellation of it comes to nobody else. -/
theorem cancel_told {net : Network κ} {t : Nat} (hclients : ∀ s, ¬ net.Hears t (.source s)) (r : Reason) :
    ∀ e ∈ (net.cancel t r).2, net.Hears t (.client e.1) ∧ e.2 = r := by
  have hconfined : net.Confined (· = t) fun c => net.Hears t (.client c) :=
    ⟨fun _ s heq hs => absurd (heq ▸ hs) (hclients s), fun _ _ heq hc => heq ▸ hc⟩
  exact (hconfined.cancel rfl r).2

/-- All clients that hear a token are told of its cancellation. -/
theorem cancel_tells {net : Network κ} {t : Nat} {c : κ} (hclients : ∀ s, ¬ net.Hears t (.source s))
    (ht : net.reason? t = none) (hhears : net.Hears t (.client c)) (r : Reason) :
    (c, r) ∈ (net.cancel t r).2 := by
  rcases (net.spread_tells [.tell (.source t) r]).2 t c ht hhears with ⟨q, hq⟩ | ⟨hquiet, -⟩
  · obtain ⟨-, rfl⟩ := cancel_told hclients r (c, q) hq
    exact hq
  · exact absurd hquiet (reason?_cancel_self hhears.lt r)

/-- A source that is cancelled once more tells nobody. -/
theorem cancel_of_struck {net : Network κ} {s : Nat} (h : net.reason? s ≠ none) (r : Reason) :
    net.cancel s r = (net.detach s, []) := by
  unfold cancel
  rw [spread]
  cases net.strikes s r with
  | again same closes _ =>
    rw [same, closes, List.append_nil, spread, spread]
  | first quiet _ _ _ _ => exact absurd quiet h

theorem cancel_keeps {net : Network κ} {t s : Nat} (u : Nat) (r : Reason) (ht : net.reason? t = none)
    (hhears : net.Hears t (.source s)) (hs : s < net.tokens.length)
    (hquiet : (net.cancel u r).1.reason? s = none) :
    (net.cancel u r).1.reason? t = none ∧ (net.cancel u r).1.Hears t (.source s) :=
  (net.spread_complete [.tell (.source u) r] (by simp [Notice.Late])).2 t s ht hhears hs hquiet

section Changes

omit [DecidableEq κ] in
theorem reason?_subscribe (net : Network κ) (t u : Nat) (l : Listener κ) :
    (net.subscribe t l).reason? u = net.reason? u :=
  reason?_update net t u (f := fun tok =>
    { tok with subscriptions := tok.subscriptions ++ [⟨net.serial, l⟩] }) fun _ => rfl

omit [DecidableEq κ] in
theorem hears_subscribe {net : Network κ} {t u : Nat} {l m : Listener κ} :
    (net.subscribe t l).Hears u m ↔
      net.Hears u m ∨ (t = u ∧ u < net.tokens.length) ∧ m = l := by
  unfold Hears
  rw [subscriptions_subscribe]
  split
  · next h =>
    simp only [List.mem_append, List.mem_singleton, h, and_self, true_and]
    constructor
    · rintro ⟨sub, hsub | rfl, rfl⟩
      · exact .inl ⟨sub, hsub, rfl⟩
      · exact .inr rfl
    · rintro (⟨sub, hsub, rfl⟩ | rfl)
      · exact ⟨sub, .inl hsub, rfl⟩
      · exact ⟨_, .inr rfl, rfl⟩
  · next h => simp [h]

theorem reason?_unsubscribe (net : Network κ) (t u : Nat) (l : Listener κ) :
    (net.unsubscribe t l).reason? u = net.reason? u := reason?_update net t u fun _ => rfl

theorem hears_unsubscribe_client {net : Network κ} {t u s : Nat} {c : κ} :
    (net.unsubscribe t (.client c)).Hears u (.source s) ↔ net.Hears u (.source s) :=
  hears_unsubscribe_of_ne (by simp)

omit [DecidableEq κ] in
theorem reason?_append_fresh (net : Network κ) (t : Nat) :
    reason? { net with tokens := net.tokens ++ [.fresh] } t = net.reason? t := by
  unfold reason?
  rw [getElem?_append_fresh]
  split
  · next h => simp [h, Token.fresh]
  · rfl

omit [DecidableEq κ] in
theorem hears_append_fresh {net : Network κ} {t : Nat} {l : Listener κ} :
    Hears { net with tokens := net.tokens ++ [.fresh] } t l ↔ net.Hears t l := by
  unfold Hears
  rw [subscriptions_append_fresh]

/-- A new source that is linked to one token is cancelled if the token is, and hears it otherwise. -/
inductive Joins (net : Network κ) (t : Nat) (net' : Network κ) : Prop
  | late (r : Reason) (struck : net.reason? t = some r) (own : net'.reason? net.tokens.length = some r)
      (reasons : ∀ u, u ≠ net.tokens.length → net'.reason? u = net.reason? u)
      (hears : ∀ u l, net'.Hears u l → net.Hears u l)
      (keeps : ∀ u s, s ≠ net.tokens.length → net.Hears u (.source s) → net'.Hears u (.source s))
  | early (quiet : net.reason? t = none)
      (reasons : ∀ u, net'.reason? u = net.reason? u)
      (hears : ∀ u l, net'.Hears u l ↔
        net.Hears u l ∨ (t = u ∧ u < net.tokens.length + 1) ∧ l = .source net.tokens.length)

theorem joins (net : Network κ) (t : Nat) : Joins net t (net.addSource [t]) := by
  have hlink : net.addSource [t] =
      link net.tokens.length { net with tokens := net.tokens ++ [.fresh] } t := rfl
  have hreason := net.reason?_append_fresh
  have hhears := fun u l => @hears_append_fresh κ net u l
  have hlength : ({ net with tokens := net.tokens ++ [.fresh] } : Network κ).tokens.length =
      net.tokens.length + 1 := by simp
  have hown : ({ net with tokens := net.tokens ++ [.fresh] } : Network κ).tokens[net.tokens.length]? =
      some .fresh := by rw [getElem?_append_fresh, if_pos rfl]
  rw [hlink]
  generalize ({ net with tokens := net.tokens ++ [.fresh] } : Network κ) = fresh at *
  unfold link
  rw [hreason t]
  cases hquiet : net.reason? t with
  | none =>
    refine .early hquiet ?_ ?_
    · intro u
      have hsame := reason?_update (fresh.subscribe t (.source net.tokens.length)) net.tokens.length u
        (f := fun tok => { tok with links := tok.links ++ [t] }) fun _ => rfl
      rw [← hreason, ← fresh.reason?_subscribe t u (.source net.tokens.length)]
      exact hsame
    · intro u l
      have hsame := subscriptions_update_of_eq (fresh.subscribe t (.source net.tokens.length)) net.tokens.length u
        (f := fun tok => { tok with links := tok.links ++ [t] }) fun _ => rfl
      rw [← hhears, ← hlength, ← hears_subscribe]
      unfold Hears
      rw [← hsame]
  | some r =>
    have hupdate : ∀ u l, (fresh.update net.tokens.length fun tok =>
        { tok with reason := tok.reason.or (some r) }).Hears u l ↔ net.Hears u l := by
      intro u l
      have hsame := subscriptions_update_of_eq fresh net.tokens.length u
        (f := fun tok => { tok with reason := tok.reason.or (some r) }) fun _ => rfl
      rw [← hhears]
      unfold Hears
      rw [← hsame]
    refine .late r hquiet ?_ ?_ ?_ ?_
    · rw [reason?_detach]
      unfold reason? update
      rw [List.getElem?_modify_eq, hown]
      rfl
    · intro u hu
      rw [reason?_detach, ← hreason]
      unfold reason? update
      rw [List.getElem?_modify_ne _ _ hu.symm]
    · intro u l hears
      exact (hupdate u l).mp (hears.of_follows (.detach _ _))
    · intro u x hx hears
      rw [← hupdate, hears_source_iff] at hears
      rw [hears_source_iff, heard_detach_other _ hx.symm]
      exact hears

end Changes

/-- What a source has to do with the tokens that it hears, as long as it is not cancelled. -/
structure Keeps (net net' : Network κ) (s : Nat) : Prop where
  struck : net.reason? s ≠ none → net'.reason? s ≠ none
  hears : ∀ t, net.reason? t = none → net.Hears t (.source s) → net'.reason? s = none →
    net'.reason? t = none ∧ net'.Hears t (.source s)

namespace Keeps

variable {net net' : Network κ} {s : Nat}

omit [DecidableEq κ] in
/-- A change that cancels nothing and takes the source off no token. -/
theorem of_hears (hreason : ∀ t, net'.reason? t = net.reason? t)
    (hhears : ∀ t, net.Hears t (.source s) → net'.Hears t (.source s)) : Keeps net net' s :=
  ⟨fun hs => by rwa [hreason], fun t ht h _ => ⟨(hreason t).trans ht, hhears t h⟩⟩

omit [DecidableEq κ] in
theorem subscribe (net : Network κ) (t : Nat) (l : Listener κ) (s : Nat) :
    Keeps net (net.subscribe t l) s :=
  ⟨fun hs => by rwa [reason?_subscribe],
    fun u hu h _ => ⟨(net.reason?_subscribe t u l).trans hu, hears_subscribe.mpr (.inl h)⟩⟩

theorem unsubscribe (net : Network κ) (t : Nat) (c : κ) (s : Nat) :
    Keeps net (net.unsubscribe t (.client c)) s :=
  .of_hears (fun u => net.reason?_unsubscribe t u _) fun _ h => hears_unsubscribe_client.mpr h

theorem detach (net : Network κ) {u s : Nat} (hother : u ≠ s) : Keeps net (net.detach u) s := by
  refine .of_hears (fun t => net.reason?_detach u t) ?_
  intro t h
  rw [hears_source_iff] at h ⊢
  rwa [heard_detach_other net hother]

theorem cancel (net : Network κ) {s : Nat} (hs : s < net.tokens.length) (u : Nat) (r : Reason) :
    Keeps net (net.cancel u r).1 s := by
  refine ⟨?_, fun t ht hhears hquiet => cancel_keeps u r ht hhears hs hquiet⟩
  intro hstruck
  rw [show (net.cancel u r).1.reason? s = net.reason? s from reason?_spread_of_ne_none _ hstruck]
  exact hstruck

theorem addSource (net : Network κ) (t : Nat) {s : Nat} (hs : s < net.tokens.length) :
    Keeps net (net.addSource [t]) s := by
  cases net.joins t with
  | late r struck own reasons hears keeps =>
    refine ⟨fun h => by rwa [reasons s (Nat.ne_of_lt hs)], ?_⟩
    intro u hu hhears _
    exact ⟨(reasons u (Nat.ne_of_lt hhears.lt)).trans hu, keeps u s (Nat.ne_of_lt hs) hhears⟩
  | early quiet reasons hears => exact .of_hears reasons fun u h => (hears u _).mpr (.inl h)

end Keeps

end Network

end TreeCensus.Cancellation
