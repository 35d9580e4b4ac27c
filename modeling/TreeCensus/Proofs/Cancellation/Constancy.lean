import TreeCensus.Proofs.Cancellation.Chronicle

/-!
# What stays as it is

Whatever the clients of a network do when they are told of a cancellation, and also if they fail: a
cancelled token keeps its reason, each subscription tells its listener once at most, and what it tells is
the reason that its token has already. The lemmas on `Move` say once what a move can do to subscriptions,
to what is due, to what was told and to reasons; all else is derived from them.
-/

namespace TreeCensus.Cancellation

set_option autoImplicit false

variable {κ : Type} [DecidableEq κ]

/-- A network as it comes out of a run. -/
structure Network.Sound (net : Network κ) : Prop extends Network.Tidy net where
  linked : net.Linked

theorem Network.Sound.strike {net : Network κ} (h : net.Sound) (s : Nat) (r : Reason) :
    (net.strike s r).1.Sound := ⟨h.toTidy.strike s r, h.linked.strike s r⟩

theorem Network.Sound.detach {net : Network κ} (h : net.Sound) (s : Nat) : (net.detach s).Sound :=
  ⟨h.toTidy.thins (.detach net s), h.linked.detach s⟩

omit [DecidableEq κ] in
theorem Network.dues_of_struck {net : Network κ} {s : Nat} (h : net.reason? s ≠ none) (r : Reason) :
    net.dues s r = [.close s] := if_neg h

omit [DecidableEq κ] in
/-- What has to be done is what the network says. -/
theorem Network.notices_dues (net : Network κ) (s : Nat) (r : Reason) :
    (net.dues s r).filterMap Item.notice? = (net.strike s r).2 := by
  cases net.strikes s r with
  | again same closes spent =>
    rw [closes]
    rcases spent with hstruck | hout
    · rw [dues_of_struck hstruck]
      rfl
    · rw [dues, if_pos (reason?_eq_none hout), subscriptions_eq_nil hout]
      rfl
  | first quiet tells _ _ _ =>
    unfold dues
    rw [if_pos quiet, tells, List.filterMap_append, List.filterMap_map]
    congr 1
    exact congrFun List.filterMap_eq_map _

omit [DecidableEq κ] in
/-- Those who hear a token have to be told when it is struck, and nobody else has. -/
theorem Network.ties_dues {net : Network κ} (h : net.Tidy) (s : Nat) (r : Reason) :
    (net.dues s r).filterMap Item.tie? = (net.subscriptions s).map fun sub => .listed s sub.serial := by
  by_cases hquiet : net.reason? s = none
  · unfold dues
    rw [if_pos hquiet, List.filterMap_append, List.filterMap_map]
    exact (List.append_nil _).trans (congrFun List.filterMap_eq_map _)
  · rw [dues_of_struck hquiet, h.spent s hquiet]
    rfl

namespace Chronicle

variable {p q m : Chronicle κ}

theorem start_sound : (start : Chronicle κ).network.Sound := ⟨.empty, fun _ _ => Nat.zero_le _⟩

omit [DecidableEq κ] in
theorem known_of_mem {linked : List (Option Nat)} {n : Nat} (h : ∀ t, some t ∈ linked → t < n) :
    ∀ t ∈ linked.reduceOption, t < n :=
  fun t ht => h t (List.reduceOption_mem_iff.mp ht)

theorem create_sound (hp : p.network.Sound) {linked : List (Option Nat)}
    (hknown : ∀ t, some t ∈ linked → t < p.network.tokens.length) :
    (p.create linked).network.Sound :=
  ⟨(Network.joined hp.toTidy hp.linked _ (known_of_mem hknown)).tidy, hp.linked.addSource _⟩

/-- How an item comes onto the agenda, unless it is a program. -/
inductive Arises (p q : Chronicle κ) : Item κ → Prop
  | kept {i : Item κ} (before : i ∈ p.agenda) : Arises p q i
  | asked {s : Nat} {r : Reason} (known : s < p.network.tokens.length) (since : q.since p = [.cancel s r]) :
      Arises p q (.tell none (.source s) r)
  | closed {s : Nat} (since : q.since p = [.close s]) : Arises p q (.close s)
  | late {t : Nat} {c : κ} {r : Reason} (struck : p.network.reason? t = some r)
      (since : q.since p = [.subscribe (.late t p.trace.length) c]) :
      Arises p q (.tell (some (.late t p.trace.length)) (.client c) r)
  | due {tie : Option Tie} {s : Nat} {r : Reason} {rest : List (Item κ)} {i : Item κ}
      (next : p.agenda = .tell tie (.source s) r :: rest) (due : i ∈ p.network.dues s r)
      (network : q.network = (p.network.strike s r).1) (since : q.since p = [.told tie (.source s) r]) :
      Arises p q i

namespace Move

theorem sound (h : Move p q) (hp : p.network.Sound) : q.network.Sound := by
  cases h with
  | cancel | close | late | tell | finish | fail => exact hp
  | create linked idle known => exact create_sound hp known
  | subscribe t c _ _ quiet => exact ⟨hp.toTidy.subscribe quiet _, hp.linked.subscribe t c⟩
  | unsubscribe tie c =>
    cases tie with
    | listed t n => exact ⟨hp.toTidy.thins (.unsubscribe _ _ _), hp.linked.unsubscribe t c⟩
    | late => exact hp
  | strike tie s r => exact hp.strike s r
  | detach s => exact hp.detach s

theorem length_le (h : Move p q) :
    p.network.tokens.length ≤ q.network.tokens.length := by
  cases h with
  | cancel | close | late | tell | finish | fail => exact Nat.le_refl _
  | create linked idle known =>
    change _ ≤ (p.network.addSource _).tokens.length
    rw [Network.length_addSource]
    exact Nat.le_succ _
  | subscribe => rw [Network.length_subscribe]
  | unsubscribe tie c =>
    cases tie with
    | listed t n => exact Nat.le_of_eq (Network.Thins.unsubscribe p.network t (.client c)).length.symm
    | late => exact Nat.le_refl _
  | strike tie s r => rw [Network.length_strike]
  | detach s => rw [Network.length_detach]

/-- A subscription that stands stood before, or a client has just made it, or a new source has. -/
theorem subscription_cases (h : Move p q) (hp : p.network.Sound) {t : Nat} {sub : Subscription κ}
    (hsub : sub ∈ q.network.subscriptions t) :
    sub ∈ p.network.subscriptions t ∨
      p.network.serial ≤ sub.serial ∧ sub.serial < q.network.serial ∧
        ((∃ c, sub.listener = .client c ∧ q.since p = [.subscribe (.listed t sub.serial) c]) ∨
          ∃ s linked, sub.listener = .source s ∧ s = p.network.tokens.length ∧
            q.since p = [.source s linked] ∧ t ∈ linked) := by
  have hold : ∀ {net : Network κ}, Network.Thins p.network net → sub ∈ net.subscriptions t →
      sub ∈ p.network.subscriptions t := fun hthins hsub => (hthins.subscriptions t).subset hsub
  cases h with
  | cancel | close | late | tell | finish | fail => exact .inl hsub
  | create linked idle known =>
    have hjoined := Network.joined hp.toTidy hp.linked _ (known_of_mem known)
    obtain ⟨new, hnew, hall⟩ := hjoined.subscriptions t
    have hnumber := hjoined.tidy.numbered t sub hsub
    change sub ∈ (p.network.addSource _).subscriptions t at hsub
    rw [hnew] at hsub
    rcases List.mem_append.mp hsub with hsub | hsub
    · exact .inl hsub
    · obtain ⟨hlistener, ht, hserial⟩ := hall sub hsub
      exact .inr ⟨hserial, hnumber, .inr ⟨_, _, hlistener, rfl, since_eq rfl, ht⟩⟩
  | subscribe u c =>
    change sub ∈ (p.network.subscribe u (.client c)).subscriptions t at hsub
    rw [Network.subscriptions_subscribe] at hsub
    split at hsub
    · next hut =>
      rcases List.mem_append.mp hsub with hsub | hsub
      · exact .inl hsub
      · obtain rfl := List.mem_singleton.mp hsub
        refine .inr ⟨Nat.le_refl _, Nat.lt_succ_self _, .inl ⟨c, rfl, ?_⟩⟩
        rw [← hut.1]
        exact since_eq rfl
    · exact .inl hsub
  | unsubscribe tie c =>
    cases tie with
    | listed u n => exact .inl (hold (.unsubscribe _ _ _) hsub)
    | late => exact .inl hsub
  | strike tie s r =>
    rcases Network.subscriptions_strike p.network s r t with hsame | hnone
    · exact .inl (hsame ▸ hsub)
    · change sub ∈ (p.network.strike s r).1.subscriptions t at hsub
      rw [hnone] at hsub
      cases hsub
  | detach s => exact .inl (hold (.detach _ _) hsub)

theorem serial_le (h : Move p q) (hp : p.network.Sound) : p.network.serial ≤ q.network.serial := by
  cases h with
  | cancel | close | late | tell | finish | fail => exact Nat.le_refl _
  | create linked idle known =>
    exact (Network.joined hp.toTidy hp.linked _ (known_of_mem known)).serial
  | subscribe => exact Nat.le_succ _
  | unsubscribe tie c => cases tie <;> exact Nat.le_refl _
  | strike tie s r => rw [Network.serial_strike]
  | detach s => rw [(Network.Thins.detach p.network s).serial]

/-- Whatever has to be done had to be done before, or a call asks for it, or a token has just been struck. -/
theorem arises (h : Move p q) {i : Item κ} (hmem : i ∈ q.agenda) (hne : i ≠ .program) : p.Arises q i := by
  cases h with
  | create | subscribe | unsubscribe => exact .kept hmem
  | cancel s r _ known =>
    rcases List.mem_cons.mp hmem with rfl | hmem
    · exact .asked known (since_eq rfl)
    · exact .kept hmem
  | close s =>
    rcases List.mem_cons.mp hmem with rfl | hmem
    · exact .closed (since_eq rfl)
    · exact .kept hmem
  | late t c r _ struck =>
    rcases List.mem_cons.mp hmem with rfl | hmem
    · exact .late struck (since_eq rfl)
    · exact .kept hmem
  | strike tie s r rest next =>
    rcases List.mem_append.mp hmem with hmem | hmem
    · exact .due next hmem rfl (since_eq rfl)
    · exact .kept (next ▸ List.mem_cons_of_mem _ hmem)
  | tell tie c r rest next =>
    have hrest := (List.mem_cons.mp hmem).resolve_left hne
    exact .kept (next ▸ List.mem_cons_of_mem _ hrest)
  | detach s rest next => exact .kept (next ▸ List.mem_cons_of_mem _ hmem)
  | finish rest next => exact .kept (next ▸ List.mem_cons_of_mem _ hmem)
  | fail rest kept next suffix => exact .kept (next ▸ List.mem_cons_of_mem _ (suffix.subset hmem))

/-- Whoever has to be told through a subscription had to be told before, or has just subscribed to a
cancelled token, or heard a token that has just been struck. -/
theorem tell_cases (h : Move p q) {tie : Tie} {l : Listener κ} {r : Reason}
    (hmem : .tell (some tie) l r ∈ q.agenda) :
    .tell (some tie) l r ∈ p.agenda ∨
      (∃ t c, tie = .late t p.trace.length ∧ l = .client c ∧ p.network.reason? t = some r ∧
        q.since p = [.subscribe tie c]) ∨
      ∃ t n, tie = .listed t n ∧ ⟨n, l⟩ ∈ p.network.subscriptions t ∧ p.network.reason? t = none ∧
        q.network.reason? t = some r := by
  cases h.arises hmem nofun with
  | kept before => exact .inl before
  | @late t c _ struck since => exact .inr (.inl ⟨t, c, rfl, rfl, struck, since⟩)
  | @due tie' s r' rest _ next due network since =>
    unfold Network.dues at due
    split at due
    · next hquiet =>
      obtain ⟨sub, hsub, heq⟩ := List.mem_map.mp ((List.mem_append.mp due).resolve_right (by simp))
      cases heq
      refine .inr (.inr ⟨s, sub.serial, rfl, hsub, hquiet, ?_⟩)
      rw [network]
      cases p.network.strikes s r with
      | again _ _ spent =>
        have hlt : s < p.network.tokens.length := Network.Hears.lt ⟨sub, hsub, rfl⟩
        exact absurd hquiet (spent.resolve_right (by omega))
      | first _ _ struck _ _ => exact struck
    · simp at due

/-- Whoever is told had to be told next. -/
theorem told_cases (h : Move p q) {tie : Option Tie} {l : Listener κ} {r : Reason}
    (hmem : .told tie l r ∈ q.since p) :
    q.since p = [.told tie l r] ∧ ∃ rest, p.agenda = .tell tie l r :: rest := by
  cases h with
  | create | cancel | close | subscribe | late | unsubscribe | fail =>
    cases eq_of_mem_since rfl hmem
  | strike tie' s r' rest next =>
    cases eq_of_mem_since rfl hmem
    exact ⟨since_eq rfl, rest, next⟩
  | tell tie' c r' rest next =>
    cases eq_of_mem_since rfl hmem
    exact ⟨since_eq rfl, rest, next⟩
  | detach | finish => simp [Chronicle.since] at hmem

/-- A token that is cancelled was so before, or it has just been struck, or it is that of a new source
which was linked to a cancelled token. -/
theorem reason_cases (h : Move p q) (hp : p.network.Sound) (t : Nat) :
    q.network.reason? t = p.network.reason? t ∨
      (∃ tie r, q.since p = [.told tie (.source t) r] ∧ p.network.reason? t = none ∧
        q.network.reason? t = some r) ∨
      ∃ linked, q.since p = [.source t linked] ∧ t = p.network.tokens.length ∧
        ∀ r, q.network.reason? t = some r → ∃ u ∈ linked, p.network.reason? u = some r := by
  cases h with
  | cancel | close | late | tell | finish | fail => exact .inl rfl
  | create linked idle known =>
    have hjoined := Network.joined hp.toTidy hp.linked _ (known_of_mem known)
    by_cases ht : t = p.network.tokens.length
    · subst ht
      exact .inr (.inr ⟨_, since_eq rfl, rfl, hjoined.struck⟩)
    · exact .inl (hjoined.reasons t ht)
  | subscribe u c => exact .inl (p.network.reason?_subscribe u t _)
  | unsubscribe tie c =>
    cases tie with
    | listed u n => exact .inl (p.network.reason?_unsubscribe u t _)
    | late => exact .inl rfl
  | strike tie s r =>
    by_cases hts : t = s
    · subst hts
      cases p.network.strikes t r with
      | again same _ _ =>
        refine .inl ?_
        change (p.network.strike t r).1.reason? t = _
        rw [same]
      | first quiet _ struck _ _ => exact .inr (.inl ⟨tie, r, since_eq rfl, quiet, struck⟩)
    · exact .inl (Network.reason?_strike_ne p.network hts r)
  | detach s => exact .inl (p.network.reason?_detach s t)

/-- A cancelled token keeps its reason. -/
theorem reason? (h : Move p q) (hp : p.network.Sound) {t : Nat} {r : Reason}
    (ht : p.network.reason? t = some r) : q.network.reason? t = some r := by
  rcases h.reason_cases hp t with hsame | ⟨-, -, -, hquiet, -⟩ | ⟨-, -, hnew, -⟩
  · rw [hsame, ht]
  · rw [hquiet] at ht
    cases ht
  · rw [Network.reason?_eq_none (Nat.le_of_eq hnew.symm)] at ht
    cases ht

end Move

namespace Moves

theorem sound (h : Moves p q) (hp : p.network.Sound) : q.network.Sound :=
  h.induct hp fun _ ha hone => hone.sound ha

theorem reason? (h : Moves p q) (hp : p.network.Sound) {t : Nat} {r : Reason}
    (ht : p.network.reason? t = some r) : q.network.reason? t = some r :=
  h.induct (motive := fun m => m.network.reason? t = some r) ht
    fun hpa ha hone => hone.reason? (hpa.sound hp) ha

end Moves

/-- A subscription was made, and it does not stand on the list of a token any more. -/
def Used (p : Chronicle κ) : Tie → Prop
  | .listed _ n => n < p.network.serial ∧ ∀ t, ∀ sub ∈ p.network.subscriptions t, sub.serial ≠ n
  | .late _ k => k < p.trace.length

theorem Move.used (h : Move p q) (hp : p.network.Sound) {tie : Tie} (hused : p.Used tie) :
    q.Used tie := by
  cases tie with
  | listed u n =>
    obtain ⟨hlt, hgone⟩ := hused
    refine ⟨Nat.lt_of_lt_of_le hlt (h.serial_le hp), fun t sub hsub => ?_⟩
    rcases h.subscription_cases hp hsub with hsub | ⟨hle, -, -⟩
    · exact hgone t sub hsub
    · omega
  | late t k =>
    obtain ⟨new, hnew⟩ := h.trace
    change k < q.trace.length
    change k < p.trace.length at hused
    rw [hnew, List.length_append]
    omega

/-- A move may tell somebody who is due next, may drop others who are due, and may make others due whose
subscriptions were not used before. -/
theorem Move.ties (h : Move p q) (hp : p.network.Sound) :
    ∃ (new rest : List Tie) (tie : Option Tie), (tie.toList ++ rest).Sublist p.due ∧
      q.due = new ++ rest ∧ q.fired = p.fired ++ tie.toList ∧ new.Nodup ∧
        ∀ t ∈ new, q.Used t ∧ ¬ p.Used t := by
  have hkeep : ∀ {q : Chronicle κ}, q.due.Sublist p.due → q.fired = p.fired →
      ∃ (new rest : List Tie) (tie : Option Tie), (tie.toList ++ rest).Sublist p.due ∧
        q.due = new ++ rest ∧ q.fired = p.fired ++ tie.toList ∧ new.Nodup ∧
          ∀ t ∈ new, q.Used t ∧ ¬ p.Used t :=
    fun hdue hfired => ⟨[], _, none, hdue, rfl, by simp [hfired], List.nodup_nil,
      fun t ht => absurd ht List.not_mem_nil⟩
  cases h with
  | create | cancel | close | subscribe | unsubscribe =>
    exact hkeep (List.Sublist.refl _) (by simp [fired, Chronicle.create, Event.tie?])
  | late t c r =>
    refine ⟨[.late t p.trace.length], p.due, none, List.Sublist.refl _, rfl, ?_,
      List.nodup_singleton _, fun tie htie => ?_⟩
    · simp [fired, Event.tie?]
    · obtain rfl := List.mem_singleton.mp htie
      constructor
      · change p.trace.length < (p.trace ++ [_]).length
        simp
      · exact Nat.lt_irrefl _
  | strike tie s r rest next =>
    refine ⟨(p.network.subscriptions s).map fun sub => .listed s sub.serial,
      rest.filterMap Item.tie?, tie, ?_, ?_, ?_, ?_, ?_⟩
    · rw [due, next]
      cases tie <;> exact List.Sublist.refl _
    · change (p.network.dues s r ++ rest).filterMap Item.tie? = _
      rw [List.filterMap_append, Network.ties_dues hp.toTidy]
    · change (p.trace ++ [_]).filterMap Event.tie? = _
      rw [List.filterMap_append]
      cases tie <;> rfl
    · exact List.pairwise_map.mpr ((hp.ordered s).imp fun hlt heq =>
        Nat.ne_of_lt hlt (Tie.listed.inj heq).2)
    · intro t ht
      obtain ⟨sub, hsub, rfl⟩ := List.mem_map.mp ht
      refine ⟨⟨?_, fun u sub' hsub' heq => ?_⟩, fun hused => hused.2 s sub hsub rfl⟩
      · change sub.serial < (p.network.strike s r).1.serial
        rw [Network.serial_strike]
        exact hp.numbered s sub hsub
      · -- The list of the token that was struck is empty, and no other list has that number.
        change sub' ∈ (p.network.strike s r).1.subscriptions u at hsub'
        by_cases hus : u = s
        · rw [hus, Network.subscriptions_strike_self _ hp.toTidy] at hsub'
          cases hsub'
        · rw [Network.subscriptions_strike_ne _ hus] at hsub'
          exact hus (hp.apart u s sub' hsub' sub hsub heq)
  | tell tie c r rest next =>
    refine ⟨[], rest.filterMap Item.tie?, tie, ?_, rfl, ?_, List.nodup_nil,
      fun t ht => absurd ht List.not_mem_nil⟩
    · rw [due, next]
      cases tie <;> exact List.Sublist.refl _
    · change (p.trace ++ [_]).filterMap Event.tie? = _
      rw [List.filterMap_append]
      cases tie <;> rfl
  | detach s rest next =>
    refine hkeep ?_ rfl
    rw [due, due, next]
    exact List.Sublist.refl _
  | finish rest next =>
    refine hkeep ?_ rfl
    rw [due, due, next]
    exact List.Sublist.refl _
  | fail rest kept next suffix =>
    refine hkeep ?_ (by simp [fired, Event.tie?])
    rw [due, due, next]
    exact suffix.sublist.filterMap _

/-- Nobody is told twice through one subscription. -/
structure Numbered (p : Chronicle κ) : Prop where
  once : (p.due ++ p.fired).Nodup
  used : ∀ tie ∈ p.due ++ p.fired, p.Used tie

omit [DecidableEq κ] in
theorem start_numbered : (start : Chronicle κ).Numbered :=
  ⟨List.nodup_nil, fun _ h => absurd h List.not_mem_nil⟩

theorem Move.numbered (h : Move p q) (hp : p.network.Sound) (hn : p.Numbered) : q.Numbered := by
  obtain ⟨new, rest, tie, hsub, hdue, hfired, hnodup, hnew⟩ := h.ties hp
  have hold : (rest ++ (p.fired ++ tie.toList)).Nodup := by
    have hall : (tie.toList ++ rest ++ p.fired).Nodup :=
      hn.once.sublist (hsub.append (List.Sublist.refl _))
    refine (List.Perm.nodup_iff ?_).mp hall
    rw [List.append_assoc, ← List.append_assoc rest]
    exact List.perm_append_comm
  have hused : ∀ t ∈ rest ++ (p.fired ++ tie.toList), p.Used t := by
    intro t ht
    apply hn.used
    rcases List.mem_append.mp ht with ht | ht
    · exact List.mem_append_left _ (hsub.subset (List.mem_append_right _ ht))
    · rcases List.mem_append.mp ht with ht | ht
      · exact List.mem_append_right _ ht
      · exact List.mem_append_left _ (hsub.subset (List.mem_append_left _ ht))
  refine ⟨?_, ?_⟩
  · rw [hdue, hfired, List.append_assoc]
    refine List.nodup_append.mpr ⟨hnodup, hold, fun t ht u hu heq => ?_⟩
    exact (hnew t ht).2 (hused t (heq ▸ hu))
  · intro t ht
    rw [hdue, hfired, List.append_assoc] at ht
    rcases List.mem_append.mp ht with ht | ht
    · exact (hnew t ht).1
    · exact h.used hp (hused t ht)

/-- A subscription through which nobody will be told any more. -/
structure Spent (p : Chronicle κ) (tie : Tie) : Prop where
  used : p.Used tie
  settled : tie ∉ p.due

theorem Move.spent (h : Move p q) (hp : p.network.Sound) {tie : Tie} (hspent : p.Spent tie) :
    q.Spent tie := by
  obtain ⟨new, rest, tie', hsub, hdue, -, -, hnew⟩ := h.ties hp
  refine ⟨h.used hp hspent.used, fun hmem => ?_⟩
  rw [hdue] at hmem
  rcases List.mem_append.mp hmem with hmem | hmem
  · exact (hnew tie hmem).2 hspent.used
  · exact hspent.settled (hsub.subset (List.mem_append_right _ hmem))

omit [DecidableEq κ] in
theorem mem_due {tie : Tie} {l : Listener κ} {r : Reason} (h : .tell (some tie) l r ∈ p.agenda) :
    tie ∈ p.due := List.mem_filterMap.mpr ⟨_, h, rfl⟩

/-- The reasons that are told are those of the tokens. -/
structure Heeded (p : Chronicle κ) : Prop where
  due : ∀ {tie : Tie} {l r}, .tell (some tie) l r ∈ p.agenda → p.network.reason? tie.token = some r
  told : ∀ {tie : Tie} {l r}, .told (some tie) l r ∈ p.trace → p.network.reason? tie.token = some r

omit [DecidableEq κ] in
theorem start_heeded : (start : Chronicle κ).Heeded :=
  ⟨fun h => absurd h List.not_mem_nil, fun h => absurd h List.not_mem_nil⟩

theorem Move.heeded (h : Move p q) (hp : p.network.Sound) (hh : p.Heeded) : q.Heeded := by
  refine ⟨fun hmem => ?_, fun hmem => ?_⟩
  · rcases h.tell_cases hmem with hmem | ⟨t, c, rfl, -, hstruck, -⟩ | ⟨t, n, rfl, -, -, hstruck⟩
    · exact h.reason? hp (hh.due hmem)
    · exact h.reason? hp hstruck
    · exact hstruck
  · rw [(Moves.single h).trace] at hmem
    rcases List.mem_append.mp hmem with hmem | hmem
    · exact h.reason? hp (hh.told hmem)
    · obtain ⟨-, rest, hnext⟩ := h.told_cases hmem
      exact h.reason? hp (hh.due (hnext ▸ List.mem_cons_self))

/-- A listener has made a subscription: a client by a call, a source when it was linked. -/
def Made (p : Chronicle κ) (tie : Tie) : Listener κ → Prop
  | .client c => .subscribe tie c ∈ p.trace
  | .source s => ∃ linked, .source s linked ∈ p.trace ∧ tie.token ∈ linked

theorem Move.made (h : Move p q) {tie : Tie} {l : Listener κ} (hmade : p.Made tie l) :
    q.Made tie l := by
  cases l with
  | client c => exact (Moves.single h).mem_trace hmade
  | source s =>
    obtain ⟨linked, hmem, ht⟩ := hmade
    exact ⟨linked, (Moves.single h).mem_trace hmem, ht⟩

/-- Whoever hears, is due or was told has subscribed. -/
structure Genuine (p : Chronicle κ) : Prop where
  stands : ∀ {t sub}, sub ∈ p.network.subscriptions t → p.Made (.listed t sub.serial) sub.listener
  due : ∀ {tie l r}, .tell (some tie) l r ∈ p.agenda → p.Made tie l
  told : ∀ {tie l r}, .told (some tie) l r ∈ p.trace → p.Made tie l

omit [DecidableEq κ] in
theorem start_genuine : (start : Chronicle κ).Genuine :=
  ⟨fun h => absurd h List.not_mem_nil, fun h => absurd h List.not_mem_nil,
    fun h => absurd h List.not_mem_nil⟩

theorem Move.genuine (h : Move p q) (hp : p.network.Sound) (hg : p.Genuine) : q.Genuine := by
  have htrace := (Moves.single h).trace
  have hlatest : ∀ {e}, q.since p = [e] → e ∈ q.trace := by
    intro e he
    rw [htrace, he]
    exact List.mem_append_right _ List.mem_cons_self
  refine ⟨fun hsub => ?_, fun hmem => ?_, fun hmem => ?_⟩
  · rcases h.subscription_cases hp hsub with
      hsub | ⟨-, -, ⟨c, hlistener, he⟩ | ⟨s, linked, hlistener, -, he, ht⟩⟩
    · exact h.made (hg.stands hsub)
    · rw [hlistener]
      exact hlatest he
    · rw [hlistener]
      exact ⟨linked, hlatest he, ht⟩
  · rcases h.tell_cases hmem with hmem | ⟨t, c, rfl, rfl, -, he⟩ | ⟨t, n, rfl, hsub, -, -⟩
    · exact h.made (hg.due hmem)
    · exact hlatest he
    · exact h.made (hg.stands hsub)
  · rw [htrace] at hmem
    rcases List.mem_append.mp hmem with hmem | hmem
    · exact h.made (hg.told hmem)
    · obtain ⟨-, rest, hnext⟩ := h.told_cases hmem
      exact h.made (hg.due (hnext ▸ List.mem_cons_self))

/-- All this holds throughout a run. -/
structure Orderly (p : Chronicle κ) : Prop where
  sound : p.network.Sound
  numbered : p.Numbered
  heeded : p.Heeded
  genuine : p.Genuine

theorem Move.orderly (h : Move p q) (hp : p.Orderly) : q.Orderly :=
  ⟨h.sound hp.sound, h.numbered hp.sound hp.numbered, h.heeded hp.sound hp.heeded,
    h.genuine hp.sound hp.genuine⟩

theorem Moves.orderly (h : Moves p q) (hp : p.Orderly) : q.Orderly :=
  h.induct hp fun _ ha hone => hone.orderly ha

theorem start_orderly : (start : Chronicle κ).Orderly :=
  ⟨start_sound, start_numbered, start_heeded, start_genuine⟩

/-- What is settled once for all. -/
structure Constant (p : Chronicle κ) : Prop where
  /-- A cancelled token stays cancelled, for the same reason. -/
  stays : ∀ {q t r}, Moves p q → p.network.reason? t = some r → q.network.reason? t = some r
  /-- Each subscription has told its listener once at most. -/
  once : ∀ tie, p.fired.count tie ≤ 1
  /-- Only a listener that subscribed is told, -/
  made : ∀ {tie l r}, .told (some tie) l r ∈ p.trace → p.Made tie l
  /-- of the reason that the token reports, -/
  told : ∀ {tie l r}, .told (some tie) l r ∈ p.trace → p.network.reason? tie.token = some r
  /-- and not before the token is cancelled. -/
  fires : ∀ {q tie l r}, Move p q → .told (some tie) l r ∈ q.since p → p.network.reason? tie.token = some r

theorem constant_of_moves (h : Moves start p) : p.Constant := by
  have hp := h.orderly start_orderly
  refine ⟨fun hmoves ht => hmoves.reason? hp.sound ht, fun tie => ?_, hp.genuine.told, hp.heeded.told,
    fun hmove hmem => ?_⟩
  · have hnodup := (List.nodup_append.mp hp.numbered.once).2.1
    exact List.nodup_iff_count_le_one.mp hnodup tie
  · obtain ⟨-, rest, hnext⟩ := hmove.told_cases hmem
    exact hp.heeded.due (hnext ▸ List.mem_cons_self)

/-- A client that has subscribed twice cancels the token again, for another reason, and fails when it is told for
the first time. -/
theorem constant_after_failure : ∃ p : Chronicle Nat, Moves start p ∧
    p.fired = [.listed 0 0, .listed 0 1] ∧ .failed ∈ p.trace ∧ p.network.reason? 0 = some .none ∧
      p.network.reason? 1 = some .none ∧ p.Constant := by
  have hmoves := Moves.cons (.create (start : Chronicle Nat) [] .done (by simp)) <|
    .cons (.create _ [some 0, none] .done (by simp; decide)) <|
    .cons (.subscribe _ 0 7 .done (by decide) rfl) <|
    .cons (.subscribe _ 0 7 .done (by decide) rfl) <|
    .cons (.cancel _ 0 .none .done (by decide)) <|
    .cons (.strike _ _ _ _ _ rfl) <| .cons (.strike _ _ _ _ _ rfl) <| .cons (.detach _ _ _ rfl) <|
    .cons (.tell _ _ _ _ _ rfl) <| .cons (.cancel _ 0 (.fault .emptyPool) (.program _) (by decide)) <|
    .cons (.strike _ _ _ _ _ rfl) <| .cons (.detach _ _ _ rfl) <|
    .cons (.fail _ _ [] rfl (List.nil_suffix) .done) <| .refl _
  exact ⟨_, hmoves, rfl, by decide, rfl, rfl, constant_of_moves hmoves⟩

end Chronicle

end TreeCensus.Cancellation
