import Mathlib
import TreeCensus.Cancellation.Network

/-!
# Links between sources

A source hears a token through the subscriptions by which it is linked to it, and it remembers each of
them: `Linked net` says that no source hears a token more often than the token is among its links. A
source that lets go of its links therefore hears nothing any more. `Follows net net'` says what is
common to all changes of a network: subscriptions are new or were there before, and a source without
links stays without them.
-/

namespace TreeCensus

set_option autoImplicit false

theorem mem_of_lookup {α β : Type} [BEq α] [LawfulBEq α] {entries : List (α × β)} {a : α} {b : β}
    (h : entries.lookup a = some b) : (a, b) ∈ entries := by
  obtain ⟨before, after, rfl, -⟩ := List.lookup_eq_some_iff.mp h
  exact List.mem_append_right _ List.mem_cons_self

namespace Cancellation.Network

variable {κ : Type}

def subscriptions (net : Network κ) (t : Nat) : List (Subscription κ) :=
  (net.tokens[t]?.map (·.subscriptions)).getD []

def links (net : Network κ) (s : Nat) : List Nat := (net.tokens[s]?.map (·.links)).getD []

section Heard
variable [DecidableEq κ]

/-- How often a source would be told of the cancellation of a token. -/
def heard (net : Network κ) (t s : Nat) : Nat :=
  (net.subscriptions t).countP (·.listener = .source s)

def Linked (net : Network κ) : Prop := ∀ t s, net.heard t s ≤ (net.links s).count t

end Heard

@[simp] theorem length_update (net : Network κ) (t : Nat) (f : Token κ → Token κ) :
    (net.update t f).tokens.length = net.tokens.length := by
  simp [update]

@[simp] theorem length_subscribe (net : Network κ) (t : Nat) (l : Listener κ) :
    (net.subscribe t l).tokens.length = net.tokens.length := by
  simp [subscribe]

theorem subscriptions_update (net : Network κ) (t u : Nat) (f : Token κ → Token κ) :
    (net.update t f).subscriptions u =
      if t = u then (net.tokens[u]?.map fun tok => (f tok).subscriptions).getD []
      else net.subscriptions u := by
  unfold subscriptions update
  rw [List.getElem?_modify]
  split <;> cases net.tokens[u]? <;> rfl

theorem links_update (net : Network κ) (t u : Nat) (f : Token κ → Token κ) :
    (net.update t f).links u =
      if t = u then (net.tokens[u]?.map fun tok => (f tok).links).getD [] else net.links u := by
  unfold links update
  rw [List.getElem?_modify]
  split <;> cases net.tokens[u]? <;> rfl

theorem links_update_append (net : Network κ) {s : Nat} (hs : s < net.tokens.length) (t : Nat) :
    (net.update s fun tok => { tok with links := tok.links ++ [t] }).links s = net.links s ++ [t] := by
  rw [links_update, if_pos rfl]
  simp [links, hs]

theorem links_update_of_eq (net : Network κ) (t u : Nat) {f : Token κ → Token κ}
    (hf : ∀ tok, (f tok).links = tok.links) : (net.update t f).links u = net.links u := by
  rw [links_update]
  simp only [hf]
  split <;> rfl

theorem subscriptions_update_of_eq (net : Network κ) (t u : Nat) {f : Token κ → Token κ}
    (hf : ∀ tok, (f tok).subscriptions = tok.subscriptions) :
    (net.update t f).subscriptions u = net.subscriptions u := by
  rw [subscriptions_update]
  simp only [hf]
  split <;> rfl

theorem subscriptions_subscribe (net : Network κ) (t u : Nat) (l : Listener κ) :
    (net.subscribe t l).subscriptions u =
      if t = u ∧ u < net.tokens.length then net.subscriptions u ++ [⟨net.serial, l⟩]
      else net.subscriptions u := by
  change (net.update t _).subscriptions u = _
  rw [subscriptions_update]
  by_cases htu : t = u
  · by_cases hu : u < net.tokens.length
    · simp [htu, hu, subscriptions]
    · simp [htu, hu, subscriptions]
  · simp [htu]

theorem links_subscribe (net : Network κ) (t u : Nat) (l : Listener κ) :
    (net.subscribe t l).links u = net.links u := by
  change (net.update t _).links u = _
  exact links_update_of_eq net t u fun _ => rfl

theorem getElem?_append_fresh (net : Network κ) (t : Nat) :
    (net.tokens ++ [.fresh])[t]? =
      if t = net.tokens.length then some .fresh else net.tokens[t]? := by
  rcases Nat.lt_trichotomy t net.tokens.length with h | h | h
  · rw [List.getElem?_append_left h, if_neg (by omega)]
  · rw [h, List.getElem?_concat_length, if_pos rfl]
  · rw [List.getElem?_eq_none (by simp; omega), if_neg (by omega), List.getElem?_eq_none (by omega)]

theorem subscriptions_append_fresh (net : Network κ) (t : Nat) :
    subscriptions { net with tokens := net.tokens ++ [.fresh] } t = net.subscriptions t := by
  unfold subscriptions
  rw [getElem?_append_fresh]
  split
  · next h => simp [h, Token.fresh]
  · rfl

theorem links_append_fresh (net : Network κ) (s : Nat) :
    links { net with tokens := net.tokens ++ [.fresh] } s = net.links s := by
  unfold links
  rw [getElem?_append_fresh]
  split
  · next h => simp [h, Token.fresh]
  · rfl

theorem links_strike (net : Network κ) (s : Nat) (r : Reason) (u : Nat) :
    (net.strike s r).1.links u = net.links u := by
  unfold strike
  split
  · exact links_update_of_eq net s u fun _ => rfl
  · rfl

theorem subscriptions_strike (net : Network κ) (s : Nat) (r : Reason) (t : Nat) :
    (net.strike s r).1.subscriptions t = net.subscriptions t ∨
      (net.strike s r).1.subscriptions t = [] := by
  unfold strike
  split
  · by_cases hst : s = t
    · right
      change (net.update s _).subscriptions t = []
      rw [subscriptions_update, if_pos hst]
      cases net.tokens[t]? <;> rfl
    · left
      change (net.update s _).subscriptions t = _
      rw [subscriptions_update, if_neg hst]
  · exact .inl rfl

theorem reason?_update (net : Network κ) (t u : Nat) {f : Token κ → Token κ}
    (hf : ∀ tok, (f tok).reason = tok.reason) : (net.update t f).reason? u = net.reason? u := by
  unfold reason? update
  rw [List.getElem?_modify]
  cases net.tokens[u]? with
  | none => rfl
  | some tok =>
    simp only [Option.map_eq_map, Option.map_some, Option.bind_some]
    split
    · exact hf tok
    · rfl

section Counted
variable [DecidableEq κ]

theorem subscriptions_unsubscribe (net : Network κ) (t u : Nat) (l : Listener κ) :
    (net.unsubscribe t l).subscriptions u =
      if t = u then (net.subscriptions u).eraseP (·.listener = l) else net.subscriptions u := by
  unfold unsubscribe
  rw [subscriptions_update]
  unfold subscriptions
  split <;> cases net.tokens[u]? <;> rfl

theorem links_unsubscribe (net : Network κ) (t u : Nat) (l : Listener κ) :
    (net.unsubscribe t l).links u = net.links u :=
  links_update_of_eq net t u fun _ => rfl

theorem countP_eraseP {α : Type} (p : α → Bool) (l : List α) :
    (l.eraseP p).countP p = l.countP p - 1 := by
  induction l with
  | nil => rfl
  | cons a l ih =>
    by_cases ha : p a = true
    · simp [ha]
    · simp [ha, ih]

theorem countP_eraseP_of_disjoint {α : Type} {p q : α → Bool} (h : ∀ a, p a = true → q a = false)
    (l : List α) : (l.eraseP p).countP q = l.countP q := by
  induction l with
  | nil => rfl
  | cons a l ih =>
    by_cases ha : p a = true
    · simp [ha, h a ha]
    · simp [ha, List.countP_cons, ih]

theorem heard_unsubscribe (net : Network κ) (t u s : Nat) :
    (net.unsubscribe t (.source s)).heard u s = net.heard u s - if t = u then 1 else 0 := by
  unfold heard
  rw [subscriptions_unsubscribe]
  split
  · exact countP_eraseP _ _
  · rfl

theorem heard_unsubscribe_other (net : Network κ) (t u s : Nat) {l : Listener κ}
    (hl : l ≠ .source s) : (net.unsubscribe t l).heard u s = net.heard u s := by
  unfold heard
  rw [subscriptions_unsubscribe]
  split
  · apply countP_eraseP_of_disjoint
    intro sub hsub
    simp only [decide_eq_true_eq] at hsub
    simpa [hsub] using hl
  · rfl

theorem heard_subscribe_other (net : Network κ) (t u s : Nat) {l : Listener κ}
    (hl : l ≠ .source s) : (net.subscribe t l).heard u s = net.heard u s := by
  unfold heard
  rw [subscriptions_subscribe]
  split
  · simp [hl]
  · rfl

theorem heard_subscribe_le (net : Network κ) (t u s : Nat) :
    (net.subscribe t (.source s)).heard u s ≤ net.heard u s + if t = u then 1 else 0 := by
  unfold heard
  rw [subscriptions_subscribe]
  split
  · next h => simp [h.1]
  · exact Nat.le_add_right _ _

/-- The network after a source was taken off some tokens. -/
theorem heard_foldl_unsubscribe (s : Nat) (tokens : List Nat) :
    ∀ (net : Network κ) (u : Nat),
      (tokens.foldl (fun n t => n.unsubscribe t (.source s)) net).heard u s =
        net.heard u s - tokens.count u := by
  induction tokens with
  | nil => exact fun _ _ => rfl
  | cons t tokens ih =>
    intro net u
    rw [List.foldl_cons, ih, heard_unsubscribe, List.count_cons]
    simp only [beq_iff_eq]
    omega

theorem heard_foldl_unsubscribe_other {s r : Nat} (hrs : s ≠ r) (tokens : List Nat) :
    ∀ (net : Network κ) (u : Nat),
      (tokens.foldl (fun n t => n.unsubscribe t (.source s)) net).heard u r = net.heard u r := by
  induction tokens with
  | nil => exact fun _ _ => rfl
  | cons t tokens ih =>
    intro net u
    rw [List.foldl_cons, ih]
    exact heard_unsubscribe_other net t u r (by simpa using hrs)

theorem links_foldl_unsubscribe (s : Nat) (tokens : List Nat) :
    ∀ (net : Network κ) (u : Nat),
      (tokens.foldl (fun n t => n.unsubscribe t (.source s)) net).links u = net.links u := by
  induction tokens with
  | nil => exact fun _ _ => rfl
  | cons t tokens ih =>
    intro net u
    rw [List.foldl_cons, ih]
    exact links_unsubscribe net t u _

theorem heard_update_of_eq (net : Network κ) (t u s : Nat) {f : Token κ → Token κ}
    (hf : ∀ tok, (f tok).subscriptions = tok.subscriptions) :
    (net.update t f).heard u s = net.heard u s := by
  unfold heard
  rw [subscriptions_update_of_eq net t u hf]

theorem detach_eq (net : Network κ) (s : Nat) :
    net.detach s = ((net.links s).foldl (fun n t => n.unsubscribe t (.source s)) net).update s
      fun tok => { tok with links := [] } := rfl

@[simp] theorem length_detach (net : Network κ) (s : Nat) :
    (net.detach s).tokens.length = net.tokens.length := by
  have hfold : ∀ (tokens : List Nat) (net : Network κ),
      (tokens.foldl (fun n t => n.unsubscribe t (.source s)) net).tokens.length =
        net.tokens.length := by
    intro tokens
    induction tokens with
    | nil => exact fun _ => rfl
    | cons t tokens ih =>
      intro net
      rw [List.foldl_cons, ih]
      exact length_update net t _
  rw [detach_eq, length_update, hfold]

theorem length_link (net : Network κ) (s t : Nat) :
    (net.link s t).tokens.length = net.tokens.length := by
  unfold link
  split
  · rw [length_update, length_subscribe]
  · rw [length_detach, length_update]

theorem length_addSource (net : Network κ) (linked : List Nat) :
    (net.addSource linked).tokens.length = net.tokens.length + 1 := by
  have hfold : ∀ (linked : List Nat) (s : Nat) (net : Network κ),
      (linked.foldl (link s) net).tokens.length = net.tokens.length := by
    intro linked s
    induction linked with
    | nil => exact fun _ => rfl
    | cons t linked ih =>
      intro net
      rw [List.foldl_cons, ih, length_link]
  unfold addSource
  rw [hfold]
  simp

theorem links_detach (net : Network κ) (s u : Nat) :
    (net.detach s).links u = if s = u then [] else net.links u := by
  rw [detach_eq, links_update]
  split
  · generalize ((net.links s).foldl (fun n t => n.unsubscribe t (.source s)) net).tokens[u]? = tok
    cases tok <;> rfl
  · exact links_foldl_unsubscribe s _ net u

theorem heard_detach_eq (net : Network κ) (s t r : Nat) : (net.detach s).heard t r =
    ((net.links s).foldl (fun n t => n.unsubscribe t (.source s)) net).heard t r :=
  heard_update_of_eq _ _ _ _ fun _ => rfl

/-- A linked source that lets go hears nothing any more. -/
theorem heard_detach {net : Network κ} (h : Linked net) (s t : Nat) :
    (net.detach s).heard t s = 0 := by
  have := h t s
  rw [heard_detach_eq, heard_foldl_unsubscribe]
  omega

theorem heard_detach_other (net : Network κ) {s r : Nat} (hrs : s ≠ r) (t : Nat) :
    (net.detach s).heard t r = net.heard t r := by
  rw [heard_detach_eq]
  exact heard_foldl_unsubscribe_other hrs _ net t

namespace Linked

variable {net : Network κ}

theorem subscribe (h : Linked net) (t : Nat) (c : κ) : Linked (net.subscribe t (.client c)) := by
  intro u s
  rw [heard_subscribe_other net t u s (by simp), links_subscribe]
  exact h u s

theorem unsubscribe (h : Linked net) (t : Nat) (c : κ) : Linked (net.unsubscribe t (.client c)) := by
  intro u s
  rw [heard_unsubscribe_other net t u s (by simp), links_unsubscribe]
  exact h u s

theorem detach (h : Linked net) (s : Nat) : Linked (net.detach s) := by
  intro t r
  by_cases hrs : s = r
  · subst hrs
    rw [heard_detach h]
    exact Nat.zero_le _
  · rw [heard_detach_other net hrs, links_detach, if_neg hrs]
    exact h t r

theorem strike (h : Linked net) (s : Nat) (r : Reason) : Linked (net.strike s r).1 := by
  intro t u
  rw [links_strike]
  refine Nat.le_trans ?_ (h t u)
  unfold heard
  rcases subscriptions_strike net s r t with hsame | hnone
  · rw [hsame]
  · rw [hnone]
    exact Nat.zero_le _

theorem spread (h : Linked net) (notices : List (Notice κ)) : Linked (net.spread notices).1 := by
  induction net, notices using Network.spread.induct with
  | case1 net => simpa [Network.spread] using h
  | case2 net c r rest ih =>
    rw [Network.spread]
    exact ih h
  | case3 net s r rest _ ih =>
    rw [Network.spread]
    exact ih (h.strike s r)
  | case4 net s rest _ ih =>
    rw [Network.spread]
    exact ih (h.detach s)

theorem cancel (h : Linked net) (s : Nat) (r : Reason) : Linked (net.cancel s r).1 := h.spread _

theorem update_reason (h : Linked net) (s : Nat) (r : Reason) :
    Linked (net.update s fun tok => { tok with reason := tok.reason.or (some r) }) := by
  intro t u
  have hheard := heard_update_of_eq net s t u
    (f := fun tok => { tok with reason := tok.reason.or (some r) }) fun _ => rfl
  have hlinks := links_update_of_eq net s u
    (f := fun tok => { tok with reason := tok.reason.or (some r) }) fun _ => rfl
  rw [hheard, hlinks]
  exact h t u

theorem link (h : Linked net) {s : Nat} (hs : s < net.tokens.length) (t : Nat) :
    Linked (net.link s t) := by
  unfold Network.link
  split
  · intro u r
    have hheard : ((net.subscribe t (.source s)).update s fun tok =>
        { tok with links := tok.links ++ [t] }).heard u r = (net.subscribe t (.source s)).heard u r :=
      heard_update_of_eq _ _ _ _ fun _ => rfl
    have hbefore := h u r
    rw [hheard]
    by_cases hsr : s = r
    · subst hsr
      have hlength : s < (net.subscribe t (.source s)).tokens.length := by
        simpa [Network.subscribe] using hs
      have hle := heard_subscribe_le net t u s
      rw [links_update_append _ hlength, links_subscribe, List.count_append, List.count_singleton]
      simp only [beq_iff_eq]
      omega
    · rw [links_update, if_neg hsr, heard_subscribe_other net t u r (by simpa using hsr),
        links_subscribe]
      exact hbefore
  · next r _ => exact (h.update_reason s r).detach s

theorem foldl_link {s : Nat} (linked : List Nat) :
    ∀ {net : Network κ}, Linked net → s < net.tokens.length →
      Linked (linked.foldl (Network.link s) net) := by
  induction linked with
  | nil => exact fun h _ => h
  | cons t linked ih =>
    intro net h hs
    refine ih (h.link hs t) ?_
    rw [length_link]
    exact hs

theorem addSource (h : Linked net) (linked : List Nat) : Linked (net.addSource linked) := by
  refine foldl_link linked ?_ (by simp)
  intro t s
  rw [links_append_fresh]
  unfold heard
  rw [subscriptions_append_fresh]
  exact h t s

end Linked

end Counted

/-- How a network changes: nobody new subscribes but to tokens that are `allowed`, and a source without links
stays without them. -/
structure Follows (allowed : Nat → Prop) (net net' : Network κ) : Prop where
  length : net.tokens.length ≤ net'.tokens.length
  serial : net.serial ≤ net'.serial
  subscriptions : ∀ t, ∀ sub ∈ net'.subscriptions t, sub ∈ net.subscriptions t ∨
    allowed t ∧ net.serial ≤ sub.serial ∧ sub.serial < net'.serial
  links : ∀ s < net.tokens.length, net.links s = [] → net'.links s = []

namespace Follows

variable {allowed : Nat → Prop} {net net' net'' : Network κ}

theorem refl (net : Network κ) : Follows allowed net net :=
  ⟨Nat.le_refl _, Nat.le_refl _, fun _ _ h => .inl h, fun _ _ h => h⟩

theorem trans (h : Follows allowed net net') (h' : Follows allowed net' net'') :
    Follows allowed net net'' := by
  have hserial := h.serial
  have hserial' := h'.serial
  refine ⟨Nat.le_trans h.length h'.length, Nat.le_trans hserial hserial', ?_, ?_⟩
  · intro t sub hsub
    rcases h'.subscriptions t sub hsub with hsub | ⟨ht, hlow, hhigh⟩
    · rcases h.subscriptions t sub hsub with hsub | ⟨ht, hlow, hhigh⟩
      · exact .inl hsub
      · exact .inr ⟨ht, hlow, by omega⟩
    · exact .inr ⟨ht, by omega, hhigh⟩
  · intro s hs hlinks
    exact h'.links s (Nat.lt_of_lt_of_le hs h.length) (h.links s hs hlinks)

/-- A change of tokens that adds no subscription and no link. -/
theorem update (net : Network κ) (t : Nat) {f : Token κ → Token κ}
    (hsubs : ∀ tok, (f tok).subscriptions ⊆ tok.subscriptions)
    (hlinks : ∀ tok, (f tok).links = tok.links ∨ (f tok).links = []) :
    Follows allowed net (net.update t f) := by
  refine ⟨by simp, Nat.le_refl _, ?_, ?_⟩
  · intro u sub hsub
    left
    rw [subscriptions_update] at hsub
    split at hsub
    · unfold Network.subscriptions
      cases htok : net.tokens[u]? with
      | none => simp [htok] at hsub
      | some tok => exact hsubs tok (by simpa [htok] using hsub)
    · exact hsub
  · intro s _ hnone
    rw [links_update]
    split
    · unfold Network.links at hnone
      cases htok : net.tokens[s]? with
      | none => rfl
      | some tok =>
        simp only [htok, Option.map_some, Option.getD_some] at hnone ⊢
        rcases hlinks tok with heq | heq
        · rw [heq, hnone]
        · exact heq
    · exact hnone

theorem subscribe (net : Network κ) {t : Nat} (ht : allowed t) (l : Listener κ) :
    Follows allowed net (net.subscribe t l) := by
  refine ⟨by simp, Nat.le_succ _, ?_, ?_⟩
  · intro u sub hsub
    rw [subscriptions_subscribe] at hsub
    split at hsub
    · next htu =>
      rcases List.mem_append.mp hsub with hsub | hsub
      · exact .inl hsub
      · obtain rfl := List.mem_singleton.mp hsub
        exact .inr ⟨htu.1 ▸ ht, Nat.le_refl _, Nat.lt_succ_self _⟩
    · exact .inl hsub
  · intro s _ hnone
    rw [links_subscribe]
    exact hnone

theorem strike (net : Network κ) (s : Nat) (r : Reason) : Follows allowed net (net.strike s r).1 := by
  unfold Network.strike
  split
  · exact update net s (by simp) fun _ => .inl rfl
  · exact refl net

theorem append_fresh (net : Network κ) :
    Follows allowed net { net with tokens := net.tokens ++ [.fresh] } := by
  refine ⟨by simp, Nat.le_refl _, ?_, ?_⟩
  · intro t sub hsub
    rw [subscriptions_append_fresh] at hsub
    exact .inl hsub
  · intro s _ hnone
    rw [links_append_fresh]
    exact hnone

variable [DecidableEq κ]

theorem unsubscribe (net : Network κ) (t : Nat) (l : Listener κ) :
    Follows allowed net (net.unsubscribe t l) :=
  update net t (fun _ => List.eraseP_subset) fun _ => .inl rfl

theorem foldl_unsubscribe (s : Nat) (tokens : List Nat) :
    ∀ net : Network κ,
      Follows allowed net (tokens.foldl (fun n t => n.unsubscribe t (.source s)) net) := by
  induction tokens with
  | nil => exact refl
  | cons t tokens ih => exact fun net => (unsubscribe net t _).trans (ih _)

theorem detach (net : Network κ) (s : Nat) : Follows allowed net (net.detach s) :=
  (foldl_unsubscribe s _ net).trans (update _ s (fun _ => List.Subset.refl _) fun _ => .inr rfl)

theorem spread (net : Network κ) (notices : List (Notice κ)) :
    Follows allowed net (net.spread notices).1 := by
  induction net, notices using Network.spread.induct with
  | case1 net => simpa [Network.spread] using refl net
  | case2 net c r rest ih =>
    rw [Network.spread]
    exact ih
  | case3 net s r rest _ ih =>
    rw [Network.spread]
    exact (strike net s r).trans ih
  | case4 net s rest _ ih =>
    rw [Network.spread]
    exact (detach net s).trans ih

theorem cancel (net : Network κ) (s : Nat) (r : Reason) :
    Follows allowed net (net.cancel s r).1 := spread net _

/-- A source that was not there before links itself. -/
theorem link (h : Follows allowed net net') {s t : Nat} (hs : net.tokens.length ≤ s) (ht : allowed t) :
    Follows allowed net (net'.link s t) := by
  unfold Network.link
  split
  · have hsub := h.trans (subscribe net' ht (.source s))
    refine ⟨by simpa using hsub.length, hsub.serial, ?_, ?_⟩
    · intro u sub hmem
      have hsame : ((net'.subscribe t (.source s)).update s fun tok =>
          { tok with links := tok.links ++ [t] }).subscriptions u =
            (net'.subscribe t (.source s)).subscriptions u :=
        subscriptions_update_of_eq _ _ _ fun _ => rfl
      rw [hsame] at hmem
      exact hsub.subscriptions u sub hmem
    · intro r hr hnone
      rw [links_update, if_neg (by omega)]
      exact hsub.links r hr hnone
  · refine h.trans ((update net' s ?_ ?_).trans (detach _ s))
    · exact fun _ => List.Subset.refl _
    · exact fun _ => .inl rfl

theorem foldl_link {s : Nat} (hs : net.tokens.length ≤ s) {linked : List Nat}
    (hlinked : ∀ t ∈ linked, allowed t) :
    ∀ {net'}, Follows allowed net net' → Follows allowed net (linked.foldl (Network.link s) net') := by
  induction linked with
  | nil => exact fun h => h
  | cons t linked ih =>
    intro net' h
    exact ih (fun u hu => hlinked u (List.mem_cons_of_mem t hu))
      (h.link hs (hlinked t List.mem_cons_self))

theorem addSource (net : Network κ) {linked : List Nat} (hlinked : ∀ t ∈ linked, allowed t) :
    Follows allowed net (net.addSource linked) :=
  foldl_link (Nat.le_refl _) hlinked (append_fresh net)

end Follows

end Cancellation.Network

end TreeCensus
