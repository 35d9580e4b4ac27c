import TreeCensus.Proofs.Cancellation.Detachment

/-!
# Which subscriptions are taken back

What is on record of a token that is not cancelled: the subscriptions that clients made, the calls by which
they took some back, and the subscriptions that stand on its list. Each call takes the oldest subscription
that the client has there. So of the subscriptions of one client the latest ones stand, and they are as many
as were not taken back if nothing was taken back twice. They tell the client when the token is cancelled, in
the order in which they were made.
-/

namespace TreeCensus.Cancellation

set_option autoImplicit false

variable {κ : Type} [DecidableEq κ]

/-- The subscriptions of one client. -/
def ownOf (c : κ) (l : List (Nat × κ)) : List (Nat × κ) := l.filter (·.2 = c)

@[simp] theorem mem_ownOf {c : κ} {l : List (Nat × κ)} {e : Nat × κ} :
    e ∈ ownOf c l ↔ e ∈ l ∧ e.2 = c := by
  unfold ownOf
  rw [List.mem_filter, decide_eq_true_eq]

theorem ownOf_append (c : κ) (l l' : List (Nat × κ)) : ownOf c (l ++ l') = ownOf c l ++ ownOf c l' :=
  List.filter_append _ _

theorem ownOf_single_self (n : Nat) (c : κ) : ownOf c [(n, c)] = [(n, c)] := by simp [ownOf]

theorem ownOf_single_ne (n : Nat) {c d : κ} (h : d ≠ c) : ownOf c [(n, d)] = [] := by simp [ownOf, h]

/-- Whoever takes a subscription back loses the oldest one. -/
theorem ownOf_eraseP_self (c : κ) (l : List (Nat × κ)) :
    ownOf c (l.eraseP (·.2 = c)) = (ownOf c l).tail := by
  unfold ownOf
  induction l with
  | nil => rfl
  | cons e l ih =>
    by_cases he : e.2 = c
    · rw [List.eraseP_cons_of_pos (by simpa using he), List.filter_cons_of_pos (by simpa using he)]
      rfl
    · rw [List.eraseP_cons_of_neg (by simpa using he), List.filter_cons_of_neg (by simpa using he),
        List.filter_cons_of_neg (by simpa using he), ih]

theorem ownOf_eraseP_ne {c d : κ} (h : d ≠ c) (l : List (Nat × κ)) :
    ownOf c (l.eraseP (·.2 = d)) = ownOf c l := by
  unfold ownOf
  induction l with
  | nil => rfl
  | cons e l ih =>
    by_cases he : e.2 = d
    · rw [List.eraseP_cons_of_pos (by simpa using he), List.filter_cons_of_neg (by simpa [he] using h)]
    · rw [List.eraseP_cons_of_neg (by simpa using he), List.filter_cons, List.filter_cons, ih]

/-- What is on record of a token, each subscription with its number and its client. -/
structure Record (κ : Type) where
  subscribed : List (Nat × κ)
  /-- The subscriptions whose clients called to take them back, once for every call. -/
  withdrawn : List (Nat × κ)
  standing : List (Nat × κ)

namespace Record

inductive Step : Record κ → Record κ → Prop
  | keep (a : Record κ) : Step a a
  | subscribe (a : Record κ) (n : Nat) (c : κ) (latest : ∀ e ∈ a.subscribed, e.1 < n) :
      Step a ⟨a.subscribed ++ [(n, c)], a.withdrawn, a.standing ++ [(n, c)]⟩
  | withdraw (a : Record κ) (n : Nat) (c : κ) (made : (n, c) ∈ a.subscribed) :
      Step a ⟨a.subscribed, a.withdrawn ++ [(n, c)], a.standing.eraseP (·.2 = c)⟩

/-- As many subscriptions of a client as `gone` do not stand any more, the oldest ones: not more than there were
calls to take one back, and not less than were meant by the calls. -/
structure Lost (a : Record κ) (c : κ) (gone : Nat) : Prop where
  stand : ownOf c a.standing = (ownOf c a.subscribed).drop gone
  bounded : gone ≤ (ownOf c a.subscribed).length
  calls : gone ≤ (ownOf c a.withdrawn).length
  meant : (ownOf c a.withdrawn).toFinset.card ≤ gone

structure Fair (a : Record κ) : Prop where
  ordered : a.subscribed.Pairwise (·.1 < ·.1)
  stands : a.standing.Sublist a.subscribed
  made : ∀ e ∈ a.withdrawn, e ∈ a.subscribed
  lost : ∀ c, ∃ gone, a.Lost c gone

variable {a b : Record κ}

namespace Lost

variable {c : κ} {gone : Nat}

theorem subscribe (h : a.Lost c gone) (e : Nat × κ) :
    Lost ⟨a.subscribed ++ [e], a.withdrawn, a.standing ++ [e]⟩ c gone := by
  refine ⟨?_, ?_, h.calls, h.meant⟩
  · change ownOf c (a.standing ++ [e]) = (ownOf c (a.subscribed ++ [e])).drop gone
    rw [ownOf_append, ownOf_append, List.drop_append_of_le_length h.bounded, h.stand]
  · change gone ≤ (ownOf c (a.subscribed ++ [e])).length
    rw [ownOf_append, List.length_append]
    exact Nat.le_add_right_of_le h.bounded

/-- What one client takes back is no loss to another one. -/
theorem withdraw_ne (h : a.Lost c gone) (n : Nat) {d : κ} (hd : d ≠ c) :
    Lost ⟨a.subscribed, a.withdrawn ++ [(n, d)], a.standing.eraseP (·.2 = d)⟩ c gone := by
  have hsame : ownOf c (a.withdrawn ++ [(n, d)]) = ownOf c a.withdrawn := by
    rw [ownOf_append, ownOf_single_ne n hd, List.append_nil]
  exact ⟨(ownOf_eraseP_ne hd _).trans h.stand, h.bounded, hsame ▸ h.calls, hsame ▸ h.meant⟩

theorem withdraw (h : a.Lost c gone) (hmade : ∀ e ∈ a.withdrawn, e ∈ a.subscribed) {n : Nat}
    (hn : (n, c) ∈ a.subscribed) :
    ∃ gone', Lost ⟨a.subscribed, a.withdrawn ++ [(n, c)], a.standing.eraseP (·.2 = c)⟩ c gone' := by
  have hwithdrawn : ownOf c (a.withdrawn ++ [(n, c)]) = ownOf c a.withdrawn ++ [(n, c)] := by
    rw [ownOf_append, ownOf_single_self]
  have hstand : ownOf c (a.standing.eraseP (·.2 = c)) = (ownOf c a.subscribed).drop (gone + 1) := by
    rw [ownOf_eraseP_self, h.stand, List.tail_drop]
  by_cases hmore : gone < (ownOf c a.subscribed).length
  · refine ⟨gone + 1, hstand, hmore, ?_, ?_⟩
    · rw [hwithdrawn, List.length_append]
      exact Nat.succ_le_succ h.calls
    · rw [hwithdrawn, List.toFinset_append]
      exact (Finset.card_union_le _ _).trans (Nat.add_le_add_right h.meant 1)
  · -- Nothing stands any more that could be taken.
    have hall : (ownOf c a.subscribed).length = gone := Nat.le_antisymm (Nat.le_of_not_lt hmore) h.bounded
    refine ⟨gone, ?_, h.bounded, ?_, ?_⟩
    · refine hstand.trans ?_
      rw [List.drop_of_length_le (by omega), List.drop_of_length_le (Nat.le_of_eq hall)]
    · rw [hwithdrawn, List.length_append]
      exact Nat.le_succ_of_le h.calls
    · refine Nat.le_trans (Finset.card_le_card (t := (ownOf c a.subscribed).toFinset) ?_)
        (hall ▸ List.toFinset_card_le _)
      intro e he
      obtain ⟨he, hc⟩ := mem_ownOf.mp (List.mem_toFinset.mp he)
      refine List.mem_toFinset.mpr (mem_ownOf.mpr ⟨?_, hc⟩)
      rcases List.mem_append.mp he with he | he
      · exact hmade e he
      · exact List.mem_singleton.mp he ▸ hn

end Lost

theorem Step.fair (h : Step a b) (ha : a.Fair) : b.Fair := by
  cases h with
  | keep => exact ha
  | subscribe n c latest =>
    refine ⟨?_, ha.stands.append (List.Sublist.refl _), fun e he => List.mem_append_left _ (ha.made e he),
      fun d => ?_⟩
    · refine List.pairwise_append.mpr ⟨ha.ordered, List.pairwise_singleton _ _, fun e he new hnew => ?_⟩
      obtain rfl := List.mem_singleton.mp hnew
      exact latest e he
    · obtain ⟨gone, hlost⟩ := ha.lost d
      exact ⟨gone, hlost.subscribe (n, c)⟩
  | withdraw n c made =>
    refine ⟨ha.ordered, List.eraseP_sublist.trans ha.stands, fun e he => ?_, fun d => ?_⟩
    · rcases List.mem_append.mp he with he | he
      · exact ha.made e he
      · exact List.mem_singleton.mp he ▸ made
    · obtain ⟨gone, hlost⟩ := ha.lost d
      by_cases hd : c = d
      · subst hd
        exact hlost.withdraw ha.made made
      · exact ⟨gone, hlost.withdraw_ne n hd⟩

/-- With a subscription that a client took back it took back all that it had made before, and it took nothing back
twice, unless it took back everything. -/
structure Apt (a : Record κ) (c : κ) : Prop where
  older : ∀ n k, (n, c) ∈ a.withdrawn → (k, c) ∈ a.subscribed → k < n → (k, c) ∈ a.withdrawn
  once : (ownOf c a.withdrawn).Nodup ∨ ∀ e ∈ ownOf c a.subscribed, e ∈ a.withdrawn

/-- A list that begins with the entries that are meant goes on with the others. -/
theorem filter_append_filter_not {α : Type} {Meant : α → Prop} [DecidablePred Meant] {l : List α}
    (h : l.Pairwise fun e e' => Meant e' → Meant e) :
    l.filter (Meant ·) ++ l.filter (¬ Meant ·) = l := by
  induction l with
  | nil => rfl
  | cons e l ih =>
    obtain ⟨hfirst, hrest⟩ := List.pairwise_cons.mp h
    by_cases he : Meant e
    · rw [List.filter_cons_of_pos (by simpa using he), List.filter_cons_of_neg (by simpa using he),
        List.cons_append, ih hrest]
    · have hnone : ∀ e' ∈ l, ¬ Meant e' := fun e' he' hmeant => he (hfirst e' he' hmeant)
      rw [List.filter_eq_nil_iff.mpr (by simpa [he] using hnone), List.nil_append]
      exact List.filter_eq_self.mpr (by simpa [he] using hnone)

theorem Fair.nodup (h : a.Fair) : a.subscribed.Nodup := by
  refine h.ordered.imp ?_
  rintro e e' hlt rfl
  exact Nat.lt_irrefl _ hlt

theorem Lost.exact {gone : Nat} {c : κ} (h : a.Lost c gone) (ha : a.Fair) (hapt : a.Apt c) :
    ownOf c a.standing = (ownOf c a.subscribed).filter (· ∉ a.withdrawn) := by
  have hnodup : (ownOf c a.subscribed).Nodup := ha.nodup.filter _
  have hsplit : (ownOf c a.subscribed).filter (· ∈ a.withdrawn) ++
      (ownOf c a.subscribed).filter (· ∉ a.withdrawn) = ownOf c a.subscribed := by
    refine filter_append_filter_not ?_
    have hordered : (ownOf c a.subscribed).Pairwise (·.1 < ·.1) := ha.ordered.sublist List.filter_sublist
    refine hordered.imp_of_mem ?_
    rintro ⟨k, d⟩ ⟨n, d'⟩ he he' hlt hmeant
    obtain ⟨hk, rfl⟩ := mem_ownOf.mp he
    obtain ⟨-, rfl⟩ := mem_ownOf.mp he'
    exact hapt.older n k hmeant hk hlt
  -- As many are gone as were meant.
  have hcard : (ownOf c a.withdrawn).toFinset.card =
      ((ownOf c a.subscribed).filter (· ∈ a.withdrawn)).length := by
    rw [← List.toFinset_card_of_nodup (hnodup.filter _)]
    congr 1
    ext e
    simp only [List.mem_toFinset, List.mem_filter, mem_ownOf, decide_eq_true_eq]
    exact ⟨fun ⟨he, hc⟩ => ⟨⟨ha.made e he, hc⟩, he⟩, fun ⟨⟨_, hc⟩, he⟩ => ⟨he, hc⟩⟩
  have hle : gone ≤ ((ownOf c a.subscribed).filter (· ∈ a.withdrawn)).length := by
    rcases hapt.once with honce | hall
    · rw [← hcard, List.toFinset_card_of_nodup honce]
      exact h.calls
    · rw [List.filter_eq_self.mpr (by simpa using hall)]
      exact h.bounded
  have heq : gone = ((ownOf c a.subscribed).filter (· ∈ a.withdrawn)).length :=
    Nat.le_antisymm hle (hcard ▸ h.meant)
  calc ownOf c a.standing
      = ((ownOf c a.subscribed).filter (· ∈ a.withdrawn) ++
          (ownOf c a.subscribed).filter (· ∉ a.withdrawn)).drop gone := by rw [hsplit, h.stand]
    _ = (ownOf c a.subscribed).filter (· ∉ a.withdrawn) := by rw [heq, List.drop_left]

/-- If all clients are apt, those subscriptions stand that were not taken back. -/
theorem Fair.exact (h : a.Fair) (hapt : ∀ c, a.Apt c) :
    a.standing = a.subscribed.filter (· ∉ a.withdrawn) := by
  have hmem : ∀ e, e ∈ a.standing ↔ e ∈ a.subscribed.filter (· ∉ a.withdrawn) := by
    intro e
    obtain ⟨gone, hlost⟩ := h.lost e.2
    have hown : e ∈ ownOf e.2 a.standing ↔ e ∈ (ownOf e.2 a.subscribed).filter (· ∉ a.withdrawn) := by
      rw [hlost.exact h (hapt e.2)]
    simpa using hown
  have hperm := (List.perm_ext_iff_of_nodup (h.nodup.sublist h.stands)
    (h.nodup.filter _)).mpr hmem
  refine hperm.eq_of_pairwise (fun e e' _ _ hlt hlt' => absurd hlt (Nat.lt_asymm hlt'))
    (h.ordered.sublist h.stands) (h.ordered.sublist List.filter_sublist)

end Record

/-- The number and the client of a subscription, if it is that of a client. -/
def Subscription.client? (sub : Subscription κ) : Option (Nat × κ) :=
  match sub.listener with
  | .client c => some (sub.serial, c)
  | .source _ => none

namespace Event

/-- A subscription that was put on the list of a token. -/
def subscribed? (t : Nat) : Event κ → Option (Nat × κ)
  | subscribe (.listed u n) c => if u = t then some (n, c) else none
  | _ => none

/-- A call to take such a subscription back. -/
def withdrawn? (t : Nat) : Event κ → Option (Nat × κ)
  | unsubscribe (.listed u n) c => if u = t then some (n, c) else none
  | _ => none

/-- A client that was told through such a subscription. -/
def reached? (t : Nat) : Event κ → Option (Nat × κ)
  | told (some (.listed u n)) (.client c) _ => if u = t then some (n, c) else none
  | _ => none

end Event

/-- A client that has to be told through such a subscription. -/
def Item.reaches? (t : Nat) : Item κ → Option (Nat × κ)
  | tell (some (.listed u n)) (.client c) _ => if u = t then some (n, c) else none
  | _ => none

namespace Network

/-- The subscriptions of clients that stand on the list of a token. -/
def clients (net : Network κ) (t : Nat) : List (Nat × κ) :=
  (net.subscriptions t).filterMap Subscription.client?

omit [DecidableEq κ] in
theorem clients_subscribe (net : Network κ) {t u : Nat} (ht : t < net.tokens.length) (c : κ) :
    (net.subscribe t (.client c)).clients u =
      if t = u then net.clients u ++ [(net.serial, c)] else net.clients u := by
  unfold clients
  rw [subscriptions_subscribe]
  by_cases htu : t = u
  · rw [if_pos ⟨htu, htu ▸ ht⟩, if_pos htu, List.filterMap_append]
    rfl
  · rw [if_neg fun h => htu h.1, if_neg htu]

theorem clients_unsubscribe (net : Network κ) (t u : Nat) (c : κ) :
    (net.unsubscribe t (.client c)).clients u =
      if t = u then (net.clients u).eraseP (·.2 = c) else net.clients u := by
  unfold clients
  rw [subscriptions_unsubscribe]
  split
  · rw [List.eraseP_filterMap]
    congr 2
    funext sub
    obtain ⟨n, l⟩ := sub
    cases l <;> simp [Subscription.client?]
  · rfl

/-- A source takes no subscription of a client off. -/
theorem clients_detach (net : Network κ) (s t : Nat) : (net.detach s).clients t = net.clients t := by
  have hstep : ∀ (net : Network κ) (u : Nat), (net.unsubscribe u (.source s)).clients t = net.clients t := by
    intro net u
    unfold clients
    rw [subscriptions_unsubscribe]
    split
    · rcases List.exists_or_eq_self_of_eraseP (·.listener = .source s) (net.subscriptions t) with
        hsame | ⟨sub, front, back, -, hsub, hlist, herased⟩
      · rw [hsame]
      · have hnone : Subscription.client? sub = none := by
          unfold Subscription.client?
          rw [of_decide_eq_true hsub]
        rw [herased, hlist, List.filterMap_append, List.filterMap_append, List.filterMap_cons_none hnone]
    · rfl
  have hfold : ∀ (tokens : List Nat) (net : Network κ),
      (tokens.foldl (fun n u => n.unsubscribe u (.source s)) net).clients t = net.clients t := by
    intro tokens
    induction tokens with
    | nil => exact fun _ => rfl
    | cons u tokens ih => exact fun net => (ih _).trans (hstep net u)
  unfold clients
  rw [detach_eq, subscriptions_update_of_eq (f := fun tok => { tok with links := [] }) _ _ _ fun _ => rfl]
  exact hfold _ net

theorem clients_addSource {net : Network κ} (h : net.Sound) {linked : List Nat}
    (hknown : ∀ t ∈ linked, t < net.tokens.length) (t : Nat) :
    (net.addSource linked).clients t = net.clients t := by
  obtain ⟨new, hnew, hall⟩ := (joined h.toTidy h.linked linked hknown).subscriptions t
  have hnone : new.filterMap Subscription.client? = [] := by
    refine List.filterMap_eq_nil_iff.mpr fun sub hsub => ?_
    unfold Subscription.client?
    rw [(hall sub hsub).1]
  unfold clients
  rw [hnew, List.filterMap_append, hnone, List.append_nil]

omit [DecidableEq κ] in
/-- When a token is struck those clients have to be told that stand on its list, -/
theorem reaches_dues {net : Network κ} {t : Nat} (hquiet : net.reason? t = none) (r : Reason) :
    (net.dues t r).filterMap (Item.reaches? t) = net.clients t := by
  unfold dues clients
  rw [if_pos hquiet, List.filterMap_append, List.filterMap_map]
  refine (List.append_nil _).trans (congrArg (fun f => List.filterMap f _) (funext fun sub => ?_))
  obtain ⟨n, l⟩ := sub
  cases l <;> simp [Item.reaches?, Subscription.client?]

omit [DecidableEq κ] in
/-- and nobody has if it was cancelled before, or if another token is struck. -/
theorem reaches_dues_eq_nil {net : Network κ} {s t : Nat} (h : net.reason? t ≠ none ∨ s ≠ t) (r : Reason) :
    (net.dues s r).filterMap (Item.reaches? t) = [] := by
  unfold dues
  split
  · next hquiet =>
    have hst : s ≠ t := h.elim (fun hstruck heq => hstruck (heq ▸ hquiet)) id
    refine List.filterMap_eq_nil_iff.mpr fun i hi => ?_
    rcases List.mem_append.mp hi with hi | hi
    · obtain ⟨⟨n, l⟩, -, rfl⟩ := List.mem_map.mp hi
      cases l <;> simp [Item.reaches?, hst]
    · rw [List.mem_singleton.mp hi]
      rfl
  · rfl

end Network

namespace Chronicle

variable {p q m : Chronicle κ}

/-- What is on record of a token. -/
def record (p : Chronicle κ) (t : Nat) : Record κ where
  subscribed := p.trace.filterMap (Event.subscribed? t)
  withdrawn := p.trace.filterMap (Event.withdrawn? t)
  standing := p.network.clients t

/-- The clients that were told since an earlier time through subscriptions on the list of a token, in order. -/
def reached (q p : Chronicle κ) (t : Nat) : List (Nat × κ) := (q.since p).filterMap (Event.reached? t)

omit [DecidableEq κ] in
theorem mem_subscribed {t n : Nat} {c : κ} :
    (n, c) ∈ (p.record t).subscribed ↔ .subscribe (.listed t n) c ∈ p.trace := by
  refine ⟨fun hmem => ?_, fun hmem => List.mem_filterMap.mpr ⟨_, hmem, if_pos rfl⟩⟩
  obtain ⟨e, he, heq⟩ := List.mem_filterMap.mp hmem
  unfold Event.subscribed? at heq
  split at heq
  · next u k d =>
    split at heq
    · next hut =>
      cases heq
      exact hut ▸ he
    · cases heq
  · cases heq

theorem Move.record (h : Move p q) (hp : p.network.Sound) (hregular : p.Regular) (hr : p.Registered)
    {t : Nat} (hquiet : q.network.reason? t = none) : (p.record t).Step (q.record t) := by
  have hkeep : ∀ {net : Network κ} {agenda : List (Item κ)} {e : Event κ},
      net.clients t = p.network.clients t → e.subscribed? t = none → e.withdrawn? t = none →
        (p.record t).Step (Chronicle.record ⟨net, agenda, p.trace ++ [e]⟩ t) := by
    intro net agenda e hclients hsubscribed hwithdrawn
    have hsame : Chronicle.record ⟨net, agenda, p.trace ++ [e]⟩ t = p.record t := by
      simp [Chronicle.record, hclients, hsubscribed, hwithdrawn]
    rw [hsame]
    exact .keep _
  cases h with
  | cancel | close | late | tell | fail => exact hkeep rfl rfl rfl
  | finish => exact .keep _
  | create linked idle known => exact hkeep (Network.clients_addSource hp (known_of_mem known) t) rfl rfl
  | subscribe u c idle known quiet =>
    by_cases hut : u = t
    · subst hut
      have hlatest : ∀ e ∈ (p.record u).subscribed, e.1 < p.network.serial :=
        fun e he => (hr.listed (mem_subscribed.mp he)).1
      have hnow : Chronicle.record ⟨p.network.subscribe u (.client c), p.agenda,
          p.trace ++ [.subscribe (.listed u p.network.serial) c]⟩ u =
          ⟨(p.record u).subscribed ++ [(p.network.serial, c)], (p.record u).withdrawn,
            (p.record u).standing ++ [(p.network.serial, c)]⟩ := by
        simp [Chronicle.record, Network.clients_subscribe _ known, Event.subscribed?, Event.withdrawn?]
      rw [hnow]
      exact .subscribe _ _ _ hlatest
    · exact hkeep (by rw [Network.clients_subscribe _ known, if_neg hut]) (if_neg hut) rfl
  | unsubscribe tie c idle made =>
    cases tie with
    | late => exact hkeep rfl rfl rfl
    | listed u n =>
      by_cases hut : u = t
      · subst hut
        have hnow : Chronicle.record ⟨p.network.untie c (.listed u n), p.agenda,
            p.trace ++ [.unsubscribe (.listed u n) c]⟩ u =
            ⟨(p.record u).subscribed, (p.record u).withdrawn ++ [(n, c)],
              (p.record u).standing.eraseP (·.2 = c)⟩ := by
          simp [Chronicle.record, Network.untie, Network.clients_unsubscribe, Event.subscribed?,
            Event.withdrawn?]
        rw [hnow]
        exact .withdraw _ _ _ (mem_subscribed.mpr made)
      · exact hkeep ((p.network.clients_unsubscribe u t c).trans (if_neg hut)) rfl (if_neg hut)
  | strike tie s r rest next =>
    have hts : t ≠ s := by
      rintro rfl
      exact Network.reason?_strike_self (hregular.known (next ▸ List.mem_cons_self)) r hquiet
    refine hkeep ?_ rfl rfl
    unfold Network.clients
    rw [Network.subscriptions_strike_ne _ hts]
  | detach s rest next =>
    have hsame : Chronicle.record ⟨p.network.detach s, rest, p.trace⟩ t = p.record t := by
      simp [Chronicle.record, Network.clients_detach]
    rw [hsame]
    exact .keep _

/-- As long as a token is not cancelled its record is fair. -/
theorem Moves.fair (h : Moves start p) {t : Nat} (hquiet : p.network.reason? t = none) : (p.record t).Fair := by
  refine h.induct (motive := fun m => m.network.reason? t = none → (m.record t).Fair) (fun _ => ?_)
    (fun {a b} hpa ha hone hquiet => ?_) hquiet
  · exact ⟨List.Pairwise.nil, List.Sublist.refl _, fun e he => absurd he List.not_mem_nil,
      fun c => ⟨0, rfl, Nat.le_refl _, Nat.le_refl _, Nat.le_refl _⟩⟩
  · have hsound := hpa.sound start_sound
    have hbefore : a.network.reason? t = none := by
      apply Classical.byContradiction
      exact fun hstruck => hone.reason?_ne hsound hstruck hquiet
    have hstep := hone.record hsound (hpa.regular start_sound start_regular) hpa.registered hquiet
    exact hstep.fair (ha hbefore)

/-- Once a token is cancelled nobody comes to hear it any more, and nobody who has to be told is left out. -/
theorem Move.reached (h : Move p q) {t : Nat} (hstruck : p.network.reason? t ≠ none)
    (hcalm : .failed ∉ q.since p) :
    q.reached p t ++ q.agenda.filterMap (Item.reaches? t) = p.agenda.filterMap (Item.reaches? t) := by
  unfold Chronicle.reached
  cases h with
  | create | cancel | close | subscribe | late | unsubscribe =>
    rw [since_eq (p := p) rfl]
    rfl
  | strike tie s r rest next =>
    rw [since_eq (p := p) rfl, next, List.filterMap_append, Network.reaches_dues_eq_nil (.inl hstruck)]
    cases tie with
    | none => rfl
    | some tie => cases tie <;> rfl
  | tell tie c r rest next =>
    have hprogram : (Item.program :: rest).filterMap (Item.reaches? t) =
        rest.filterMap (Item.reaches? t) := rfl
    rw [since_eq (p := p) rfl, next, hprogram]
    cases tie with
    | none => rfl
    | some tie =>
      cases tie with
      | late => rfl
      | listed u n => by_cases hut : u = t <;> simp [Event.reached?, Item.reaches?, hut]
  | detach s rest next =>
    have hnothing : Chronicle.since ⟨p.network.detach s, rest, p.trace⟩ p = [] := since_self p
    rw [hnothing, next]
    rfl
  | finish rest next =>
    have hnothing : Chronicle.since ⟨p.network, rest, p.trace⟩ p = [] := since_self p
    rw [hnothing, next]
    rfl
  | fail =>
    refine absurd ?_ hcalm
    rw [since_eq (p := p) rfl]
    exact List.mem_cons_self

theorem Moves.reached (h : Moves p q) (hp : p.network.Sound) {t : Nat} (hstruck : p.network.reason? t ≠ none)
    (hcalm : .failed ∉ q.since p) :
    q.reached p t ++ q.agenda.filterMap (Item.reaches? t) = p.agenda.filterMap (Item.reaches? t) := by
  refine h.induct (motive := fun m => .failed ∉ m.since p →
    m.reached p t ++ m.agenda.filterMap (Item.reaches? t) = p.agenda.filterMap (Item.reaches? t))
    (fun _ => ?_) (fun {a b} hpa ha hone hcalm => ?_) hcalm
  · unfold Chronicle.reached
    rw [since_self]
    rfl
  · have hsince := hpa.since (.single hone)
    rw [hsince, List.mem_append, not_or] at hcalm
    have hreached : b.reached p t = a.reached p t ++ b.reached a t := by
      unfold Chronicle.reached
      rw [hsince, List.filterMap_append]
    rw [hreached, List.append_assoc, hone.reached (hpa.reason?_ne hp hstruck) hcalm.2]
    exact ha hcalm.1

/-- A cancellation that is carried through tells the clients whose subscriptions stand. -/
theorem Cancels.reached {t : Nat} {r : Reason} (h : p.Cancels q t r) (hp : p.network.Sound)
    (hregular : p.Regular) : q.reached p t = p.network.clients t := by
  obtain ⟨tie, hnext⟩ := h.starts
  have hcalm := h.calm
  cases h.works.moves with
  | refl => exact absurd hnext.symm (List.cons_ne_self _ _)
  | @cons _ m _ hone hrest =>
    have hsince := (Moves.single hone).since hrest
    have hfirst : m.since p = [.told tie (.source t) r] := by
      rw [hone.strike_of_next hnext]
      exact since_eq rfl
    rw [hsince, hfirst] at hcalm
    have hstruck : m.network.reason? t ≠ none :=
      hone.struck hregular (hfirst ▸ List.mem_cons_self)
    have hlater := hrest.reached (hone.sound hp) hstruck fun hmem => hcalm (List.mem_cons_of_mem _ hmem)
    have hnow : q.reached p t = q.reached m t := by
      unfold Chronicle.reached
      rw [hsince, hfirst]
      cases tie with
      | none => rfl
      | some tie => cases tie <;> rfl
    have hagenda : m.agenda.filterMap (Item.reaches? t) =
        p.network.clients t ++ q.agenda.filterMap (Item.reaches? t) := by
      rw [hone.strike_of_next hnext, ← Network.reaches_dues h.quiet r]
      exact List.filterMap_append
    rw [hagenda] at hlater
    rw [hnow]
    exact List.append_cancel_right hlater

/-- What the calls to take subscriptions back come to when the token is cancelled. -/
structure Withdraws (p : Chronicle κ) : Prop where
  /-- A cancellation comes to its end, if the clients do. -/
  ends : ∀ {t r rest}, p.Starts t r rest → p.network.reason? t = none →
    ∃ q, p.Cancels q t r ∧ q.agenda = rest ∧ p.Silent q
  /-- The clients are told in the order in which they subscribed, once at most for each subscription. -/
  inOrder : ∀ {q t r}, p.Cancels q t r → (q.reached p t).Sublist (p.record t).subscribed
  /-- Of the subscriptions of one client the oldest ones are gone, as many as there were calls if none was made
  twice. -/
  oldest : ∀ {q t r} (c), p.Cancels q t r → ∃ gone,
    ownOf c (q.reached p t) = (ownOf c (p.record t).subscribed).drop gone ∧
      gone ≤ (ownOf c (p.record t).withdrawn).length ∧
        (ownOf c (p.record t).withdrawn).toFinset.card ≤ gone
  /-- If the calls meant just those, exactly the subscriptions tell that were not taken back. -/
  exact : ∀ {q t r}, p.Cancels q t r → (∀ c, (p.record t).Apt c) →
    q.reached p t = (p.record t).subscribed.filter (· ∉ (p.record t).withdrawn)

theorem withdraws_of_moves (h : Moves start p) : p.Withdraws := by
  have hregular := h.regular start_sound start_regular
  have hreached : ∀ {q t r}, p.Cancels q t r → q.reached p t = (p.record t).standing :=
    fun hcancels => hcancels.reached (h.sound start_sound) hregular
  refine ⟨fun hstarts hquiet => hstarts.exists_cancels hquiet, fun hcancels => ?_,
    fun {q t r} c hcancels => ?_, fun hcancels hapt => ?_⟩
  · rw [hreached hcancels]
    exact (h.fair hcancels.quiet).stands
  · obtain ⟨gone, hstand, -, hcalls, hmeant⟩ := (h.fair hcancels.quiet).lost c
    exact ⟨gone, by rw [hreached hcancels, hstand], hcalls, hmeant⟩
  · rw [hreached hcancels]
    exact (h.fair hcancels.quiet).exact hapt

/-- A client that has subscribed twice takes the first subscription back, another one takes its only one back
twice. The second subscription of the first client is left. -/
theorem withdraws_first_of_two : ∃ p q : Chronicle Nat, Moves start p ∧ p.Withdraws ∧ p.Cancels q 0 .none ∧
    (∀ c, (p.record 0).Apt c) ∧ (p.record 0).withdrawn = [(0, 7), (1, 8), (1, 8)] ∧
      q.reached p 0 = [(2, 7)] := by
  have hmoves := Moves.cons (.create (start : Chronicle Nat) [] .done (by simp)) <|
    .cons (.subscribe _ 0 7 .done (by decide) rfl) <|
    .cons (.subscribe _ 0 8 .done (by decide) rfl) <|
    .cons (.subscribe _ 0 7 .done (by decide) rfl) <|
    .cons (.unsubscribe _ (.listed 0 0) 7 .done (by decide)) <|
    .cons (.unsubscribe _ (.listed 0 1) 8 .done (by decide)) <|
    .cons (.unsubscribe _ (.listed 0 1) 8 .done (by decide)) <|
    .cons (.cancel _ 0 .none .done (by decide)) <| .refl _
  have hapt : ∀ c, Record.Apt ⟨[(0, 7), (1, 8), (2, 7)], [(0, 7), (1, 8), (1, 8)], [(2, 7)]⟩ c := by
    intro c
    refine ⟨fun n k hn hk hlt => ?_, ?_⟩
    · simp only [List.mem_cons, Prod.mk.injEq, List.not_mem_nil, or_false] at hn hk ⊢
      omega
    · by_cases hfirst : c = 7
      · subst hfirst
        exact .inl (by decide)
      · right
        rintro ⟨n, d⟩ he
        simp only [mem_ownOf, List.mem_cons, Prod.mk.injEq, List.not_mem_nil, or_false] at he ⊢
        omega
  refine ⟨_, _, hmoves, withdraws_of_moves hmoves, .of_end ⟨_, rfl⟩ rfl
    (.step rfl List.nil_suffix (.strike _ _ _ _ _ rfl) <|
      .step rfl List.nil_suffix (.tell _ _ _ _ _ rfl) <|
      .step rfl List.nil_suffix (.finish _ _ rfl) <|
      .step rfl List.nil_suffix (.detach _ _ _ rfl) <| .done rfl) rfl (by decide), hapt, rfl, rfl⟩

end Chronicle

end TreeCensus.Cancellation
