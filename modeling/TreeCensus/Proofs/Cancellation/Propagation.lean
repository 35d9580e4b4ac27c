import TreeCensus.Proofs.Cancellation.Constancy

/-!
# How cancellation propagates

A cancellation comes to every source that could be reached from the token over open links, whatever the
clients do meanwhile, as long as they do not fail and do not close the sources on the way. It goes only
from a token to the sources that are linked to it, never back, and if no client does anything when it is
told, everybody who is cancelled hears the same reason.
-/

namespace TreeCensus.Cancellation

set_option autoImplicit false

variable {κ : Type} [DecidableEq κ]

namespace Network

variable {net : Network κ}

theorem Sound.lt_of_hears (h : net.Sound) {t s : Nat} (hhears : net.Hears t (.source s)) :
    s < net.tokens.length := by
  apply Classical.byContradiction
  intro hout
  have hle := h.linked t s
  rw [links_eq_nil (by omega), List.count_nil] at hle
  have := hears_source_iff.mp hhears
  omega

theorem mem_unsubscribe {t u : Nat} {l : Listener κ} {sub : Subscription κ}
    (hsub : sub ∈ net.subscriptions t) (hne : sub.listener ≠ l) :
    sub ∈ (net.unsubscribe u l).subscriptions t := by
  rw [subscriptions_unsubscribe]
  split
  · exact (List.mem_eraseP_of_neg (by simpa using hne)).mpr hsub
  · exact hsub

theorem mem_detach {t s : Nat} {sub : Subscription κ} (hsub : sub ∈ net.subscriptions t)
    (hne : sub.listener ≠ .source s) : sub ∈ (net.detach s).subscriptions t := by
  have hfold : ∀ (tokens : List Nat) {net : Network κ}, sub ∈ net.subscriptions t →
      sub ∈ (tokens.foldl (fun n u => n.unsubscribe u (.source s)) net).subscriptions t := by
    intro tokens
    induction tokens with
    | nil => exact fun h => h
    | cons u tokens ih => exact fun h => ih (mem_unsubscribe h hne)
  rw [detach_eq, subscriptions_update_of_eq (f := fun tok => { tok with links := [] }) _ _ _ fun _ => rfl]
  exact hfold _ hsub

end Network

namespace Chronicle

variable {p q m : Chronicle κ}

/-- Only sources that are there are told, a source is told without a subscription only if a call has just asked
for it, and a source that will be closed later than next is cancelled. -/
structure Regular (p : Chronicle κ) : Prop where
  known : ∀ {tie s r}, .tell tie (.source s) r ∈ p.agenda → s < p.network.tokens.length
  asked : ∀ {s r}, .tell none (.source s) r ∈ p.agenda → .cancel s r ∈ p.trace
  prompt : ∀ {l r}, .tell none l r ∉ p.agenda.tail
  closes : ∀ {s}, .close s ∈ p.agenda.tail → p.network.reason? s ≠ none

omit [DecidableEq κ] in
theorem start_regular : (start : Chronicle κ).Regular :=
  ⟨fun h => absurd h List.not_mem_nil, fun h => absurd h List.not_mem_nil, List.not_mem_nil,
    fun h => absurd h List.not_mem_nil⟩

omit [DecidableEq κ] in
theorem eq_of_close_mem_dues {net : Network κ} {s u : Nat} {r : Reason} (h : .close s ∈ net.dues u r) :
    s = u := by
  unfold Network.dues at h
  split at h <;> simpa using h

omit [DecidableEq κ] in
theorem not_tell_none_mem_dues {net : Network κ} {u : Nat} {r r' : Reason} {l : Listener κ} :
    .tell none l r' ∉ net.dues u r := by
  intro h
  unfold Network.dues at h
  split at h <;> simp at h

namespace Move

theorem reason?_ne (h : Move p q) (hp : p.network.Sound) {t : Nat}
    (ht : p.network.reason? t ≠ none) : q.network.reason? t ≠ none := by
  obtain ⟨r, hr⟩ := Option.ne_none_iff_exists'.mp ht
  rw [h.reason? hp hr]
  exact Option.some_ne_none r

/-- A call asks that a source be told, or it is due already. -/
theorem asked_cases (h : Move p q) {l : Listener κ} {r : Reason} (hmem : .tell none l r ∈ q.agenda) :
    .tell none l r ∈ p.agenda ∨
      ∃ s, l = .source s ∧ s < p.network.tokens.length ∧ q.since p = [.cancel s r] := by
  cases h.arises hmem nofun with
  | kept before => exact .inl before
  | @asked s _ known since => exact .inr ⟨s, rfl, known, since⟩
  | due _ due => exact absurd due not_tell_none_mem_dues

/-- A source will be closed because a call asks for it, or because it has been told. -/
theorem closing_cases (h : Move p q) {s : Nat} (hmem : .close s ∈ q.agenda) :
    .close s ∈ p.agenda ∨ q.since p = [.close s] ∨ ∃ tie r, q.since p = [.told tie (.source s) r] := by
  cases h.arises hmem nofun with
  | kept before => exact .inl before
  | closed since => exact .inr (.inl since)
  | @due tie u r _ _ _ due _ since =>
    obtain rfl := eq_of_close_mem_dues due
    exact .inr (.inr ⟨tie, r, since⟩)

/-- What is not to be done next was not before, unless a token has just been struck: calls are made when nothing
or a program is next. -/
theorem tail_cases (h : Move p q) {i : Item κ} (hmem : i ∈ q.agenda.tail) (hne : i ≠ .program) :
    i ∈ p.agenda.tail ∨ ∃ tie s r, .tell tie (.source s) r ∈ p.agenda ∧ i ∈ p.network.dues s r ∧
      q.network = (p.network.strike s r).1 := by
  have hidle : Idle p.agenda → i ∈ p.agenda → i ∈ p.agenda.tail := by
    intro hidle hmem
    cases hagenda : p.agenda with
    | nil => rwa [hagenda] at hmem
    | cons j rest =>
      rw [hagenda] at hidle hmem
      cases hidle
      exact (List.mem_cons.mp hmem).resolve_left hne
  cases h with
  | create | subscribe | unsubscribe => exact .inl hmem
  | cancel | close | late => exact .inl (hidle ‹_› hmem)
  | strike tie s r rest next =>
    rcases List.mem_append.mp (List.mem_of_mem_tail hmem) with hmem | hmem
    · exact .inr ⟨tie, s, r, next ▸ List.mem_cons_self, hmem, rfl⟩
    · exact .inl (next ▸ hmem)
  | tell _ _ _ rest next => exact .inl (next ▸ hmem)
  | detach _ rest next => exact .inl (next ▸ List.mem_of_mem_tail hmem)
  | finish rest next => exact .inl (next ▸ List.mem_of_mem_tail hmem)
  | fail rest kept next suffix => exact .inl (next ▸ suffix.subset (List.mem_of_mem_tail hmem))

theorem regular (h : Move p q) (hsound : p.network.Sound) (hp : p.Regular) : q.Regular := by
  refine ⟨fun {tie s r} hmem => ?_, fun hmem => ?_, fun hmem => ?_, fun hmem => ?_⟩
  · refine Nat.lt_of_lt_of_le ?_ h.length_le
    cases tie with
    | none =>
      rcases h.asked_cases hmem with hmem | ⟨u, heq, hknown, -⟩
      · exact hp.known hmem
      · cases heq
        exact hknown
    | some tie =>
      rcases h.tell_cases hmem with hmem | ⟨_, _, _, heq, _⟩ | ⟨t, n, _, hsub, _⟩
      · exact hp.known hmem
      · cases heq
      · exact hsound.lt_of_hears ⟨_, hsub, rfl⟩
  · rcases h.asked_cases hmem with hmem | ⟨u, heq, -, he⟩
    · exact (Moves.single h).mem_trace (hp.asked hmem)
    · cases heq
      rw [(Moves.single h).trace, he]
      exact List.mem_append_right _ List.mem_cons_self
  · rcases h.tail_cases hmem nofun with hmem | ⟨-, s, r, -, hdue, -⟩
    · exact hp.prompt hmem
    · exact not_tell_none_mem_dues hdue
  · rcases h.tail_cases hmem nofun with hmem | ⟨tie, s, r, hnext, hdue, hstruck⟩
    · exact h.reason?_ne hsound (hp.closes hmem)
    · obtain rfl := eq_of_close_mem_dues hdue
      rw [hstruck]
      exact Network.reason?_strike_self (hp.known hnext) r

/-- A source that is next is struck, -/
theorem strike_of_next (h : Move p q) {tie : Option Tie} {s : Nat} {r : Reason} {rest : List (Item κ)}
    (hnext : p.agenda = .tell tie (.source s) r :: rest) :
    q = ⟨(p.network.strike s r).1, p.network.dues s r ++ rest, p.trace ++ [.told tie (.source s) r]⟩ := by
  have hidle : ¬ Idle p.agenda := by
    rw [hnext]
    nofun
  cases h with
  | create | cancel | close | subscribe | late | unsubscribe => exact absurd ‹_› hidle
  | strike _ _ _ _ next =>
    cases hnext.symm.trans next
    rfl
  | tell _ _ _ _ next | detach _ _ next | finish _ next | fail _ _ next => cases hnext.symm.trans next

/-- and one that has to be closed lets go of its links. -/
theorem detach_of_next (h : Move p q) {s : Nat} {rest : List (Item κ)}
    (hnext : p.agenda = .close s :: rest) : q = ⟨p.network.detach s, rest, p.trace⟩ := by
  have hidle : ¬ Idle p.agenda := by
    rw [hnext]
    nofun
  cases h with
  | create | cancel | close | subscribe | late | unsubscribe => exact absurd ‹_› hidle
  | strike _ _ _ _ next | tell _ _ _ _ next | finish _ next | fail _ _ next =>
    cases hnext.symm.trans next
  | detach _ _ next =>
    cases hnext.symm.trans next
    rfl

/-- A subscription of a source stands until its token is struck, or until the source is closed. -/
theorem stands (h : Move p q) {t n s : Nat} (hsub : ⟨n, .source s⟩ ∈ p.network.subscriptions t)
    (hp : p.network.Sound) :
    ⟨n, .source s⟩ ∈ q.network.subscriptions t ∨
      (∃ r, .tell (some (.listed t n)) (.source s) r ∈ q.agenda) ∨
        (∃ rest, p.agenda = .close s :: rest) ∧ q.network.links s = [] := by
  cases h with
  | cancel | close | late | tell | finish | fail => exact .inl hsub
  | create linked idle known =>
    obtain ⟨new, hnew, -⟩ :=
      (Network.joined hp.toTidy hp.linked _ (known_of_mem known)).subscriptions t
    refine .inl ?_
    change _ ∈ (p.network.addSource _).subscriptions t
    rw [hnew]
    exact List.mem_append_left _ hsub
  | subscribe u c =>
    refine .inl ?_
    change _ ∈ (p.network.subscribe u (.client c)).subscriptions t
    rw [Network.subscriptions_subscribe]
    split
    · exact List.mem_append_left _ hsub
    · exact hsub
  | unsubscribe tie c =>
    cases tie with
    | listed u k => exact .inl (Network.mem_unsubscribe hsub nofun)
    | late => exact .inl hsub
  | strike tie u r rest next =>
    by_cases htu : t = u
    · subst htu
      have hquiet : p.network.reason? t = none := by
        apply Classical.byContradiction
        intro hstruck
        rw [hp.spent t hstruck] at hsub
        cases hsub
      refine .inr (.inl ⟨r, List.mem_append_left _ ?_⟩)
      unfold Network.dues
      rw [if_pos hquiet]
      exact List.mem_append_left _ (List.mem_map.mpr ⟨_, hsub, rfl⟩)
    · refine .inl ?_
      change _ ∈ (p.network.strike u r).1.subscriptions t
      rwa [Network.subscriptions_strike_ne _ htu]
  | detach u rest next =>
    by_cases hsu : s = u
    · subst hsu
      refine .inr (.inr ⟨⟨rest, next⟩, ?_⟩)
      change (p.network.detach s).links s = []
      rw [Network.links_detach, if_pos rfl]
    · exact .inl (Network.mem_detach hsub (by simpa using hsu))

/-- Whoever has to be told is told sooner or later, unless somebody fails. -/
theorem stays_due (h : Move p q) {tie : Option Tie} {l : Listener κ} {r : Reason}
    (hmem : .tell tie l r ∈ p.agenda) :
    .tell tie l r ∈ q.agenda ∨ q.since p = [.told tie l r] ∨ q.since p = [.failed] := by
  have hrest : ∀ {i rest}, p.agenda = i :: rest → .tell tie l r ≠ i → .tell tie l r ∈ rest := by
    intro i rest hnext hne
    rw [hnext] at hmem
    exact (List.mem_cons.mp hmem).resolve_left hne
  cases h with
  | create | subscribe | unsubscribe => exact .inl hmem
  | cancel | close | late => exact .inl (List.mem_cons_of_mem _ hmem)
  | strike tie' u r' rest next =>
    by_cases heq : .tell tie l r = Item.tell tie' (.source u) r'
    · cases heq
      exact .inr (.inl (since_eq rfl))
    · exact .inl (List.mem_append_right _ (hrest next heq))
  | tell tie' c r' rest next =>
    by_cases heq : .tell tie l r = Item.tell tie' (.client c) r'
    · cases heq
      exact .inr (.inl (since_eq rfl))
    · exact .inl (List.mem_cons_of_mem _ (hrest next heq))
  | detach u rest next => exact .inl (hrest next nofun)
  | finish rest next => exact .inl (hrest next nofun)
  | fail rest kept next suffix => exact .inr (.inr (since_eq rfl))

/-- A source that was told is cancelled. -/
theorem struck (h : Move p q) (hp : p.Regular) {tie : Option Tie} {s : Nat} {r : Reason}
    (hmem : .told tie (.source s) r ∈ q.since p) : q.network.reason? s ≠ none := by
  cases h with
  | create | cancel | close | subscribe | late | unsubscribe | tell | fail =>
    cases eq_of_mem_since rfl hmem
  | strike tie' u r' rest next =>
    cases eq_of_mem_since rfl hmem
    exact Network.reason?_strike_self (hp.known (next ▸ List.mem_cons_self)) r
  | detach | finish => simp [Chronicle.since] at hmem

theorem close_cases (h : Move p q) (hp : p.Regular) {s : Nat} (hmem : .close s ∈ q.agenda) :
    .close s ∈ p.agenda ∨ q.since p = [.close s] ∨ q.network.reason? s ≠ none := by
  refine (h.closing_cases hmem).imp_right fun hnew => hnew.imp_right ?_
  rintro ⟨tie, r, he⟩
  exact h.struck hp (he ▸ List.mem_cons_self)

/-- A source keeps its links until it is closed. A new source that is not cancelled hears all tokens that it
is linked to. -/
theorem links_cases (h : Move p q) (hp : p.network.Sound) (s : Nat) :
    q.network.links s = p.network.links s ∨
      (∃ rest, p.agenda = .close s :: rest) ∧ q.network.links s = [] ∨
        s = p.network.tokens.length ∧
          ∀ t ∈ q.network.links s, q.network.reason? s = none → q.network.Hears t (.source s) := by
  cases h with
  | cancel | close | late | tell | finish | fail => exact .inl rfl
  | create linked idle known =>
    have hjoined := Network.joined hp.toTidy hp.linked _ (known_of_mem known)
    by_cases hs : s = p.network.tokens.length
    · subst hs
      exact .inr (.inr ⟨rfl, fun t ht hquiet => (hjoined.quiet hquiet t (hjoined.links t ht)).2⟩)
    · exact .inl (hjoined.others s hs)
  | subscribe u c => exact .inl (p.network.links_subscribe u s _)
  | unsubscribe tie c =>
    cases tie with
    | listed u n => exact .inl (p.network.links_unsubscribe u s _)
    | late => exact .inl rfl
  | strike tie u r => exact .inl (p.network.links_strike u r s)
  | detach u rest next =>
    change (p.network.detach u).links s = _ ∨ _ ∧ (p.network.detach u).links s = [] ∨ _
    rw [Network.links_detach]
    by_cases hus : u = s
    · subst hus
      exact .inr (.inl ⟨⟨rest, next⟩, if_pos rfl⟩)
    · exact .inl (if_neg hus)

end Move

theorem Moves.length_le (h : Moves p q) : p.network.tokens.length ≤ q.network.tokens.length :=
  h.induct (Nat.le_refl _) fun _ ha hone => Nat.le_trans ha hone.length_le

theorem Moves.regular (h : Moves p q) (hsound : p.network.Sound) (hp : p.Regular) : q.Regular :=
  h.induct hp fun hpa ha hone => hone.regular (hpa.sound hsound) ha

theorem Moves.reason?_ne (h : Moves p q) (hp : p.network.Sound) {t : Nat}
    (ht : p.network.reason? t ≠ none) : q.network.reason? t ≠ none := by
  obtain ⟨r, hr⟩ := Option.ne_none_iff_exists'.mp ht
  rw [h.reason? hp hr]
  exact Option.some_ne_none r

/-- A cancellation is about to come to a token. -/
def Starts (p : Chronicle κ) (t : Nat) (r : Reason) (rest : List (Item κ)) : Prop :=
  ∃ tie, p.agenda = .tell tie (.source t) r :: rest

/-- Moves in which all that was to be done before `rest` is done. -/
inductive WorksOff (rest : List (Item κ)) : Chronicle κ → Chronicle κ → Prop
  | done {p : Chronicle κ} (ended : p.agenda = rest) : WorksOff rest p p
  | step {p q m : Chronicle κ} {i : Item κ} {items : List (Item κ)}
      (ahead : p.agenda = i :: items) (behind : rest <:+ items) (move : Move p q)
      (more : WorksOff rest q m) : WorksOff rest p m

/-- From `p` to `q` a cancellation of a token is carried through, and nobody fails meanwhile. -/
structure Cancels (p q : Chronicle κ) (t : Nat) (r : Reason) : Prop where
  starts : p.Starts t r q.agenda
  quiet : p.network.reason? t = none
  works : WorksOff q.agenda p q
  calm : .failed ∉ q.since p

/-- Nobody has done anything from `p` to `q` but hear what was due. -/
def Silent (p q : Chronicle κ) : Prop := ∀ e ∈ q.since p, ∃ tie l r, e = .told tie l r

theorem WorksOff.moves {rest : List (Item κ)} (h : WorksOff rest p q) : Moves p q := by
  induction h with
  | done => exact .refl _
  | step _ _ hone _ ih => exact .cons hone ih

theorem Cancels.of_end {t : Nat} {r : Reason} (hstarts : p.Starts t r [])
    (hquiet : p.network.reason? t = none) (hworks : WorksOff [] p q) (hend : q.agenda = [])
    (hcalm : .failed ∉ q.since p) : p.Cancels q t r :=
  ⟨hend ▸ hstarts, hquiet, hend ▸ hworks, hcalm⟩

section Started
variable {t : Nat} {r : Reason} {rest : List (Item κ)}

/-- The first thing that happens is that the token is struck. -/
theorem Moves.struck (h : Moves p q) (hp : p.network.Sound) (hregular : p.Regular)
    (hstarts : p.Starts t r rest) (hne : q.agenda ≠ p.agenda) :
    q.network.reason? t = (p.network.reason? t).or (some r) := by
  obtain ⟨tie, hnext⟩ := hstarts
  cases h with
  | refl => exact absurd rfl hne
  | @cons _ m _ hone hrest =>
    obtain rfl := hone.strike_of_next hnext
    have hfirst := Network.reason?_strike (hregular.known (hnext ▸ List.mem_cons_self)) r
    obtain ⟨r', hr'⟩ : ∃ r', (p.network.reason? t).or (some r) = some r' := by
      cases p.network.reason? t <;> exact ⟨_, rfl⟩
    rw [hr'] at hfirst ⊢
    exact hrest.reason? (hp.strike t r) hfirst

/-- A source that will be closed has been cancelled, or somebody has asked for it since a cancellation was
about to come. -/
theorem Moves.closes (h : Moves p q) (hp : p.network.Sound) (hregular : p.Regular)
    (hstarts : p.Starts t r rest) {s : Nat} (hmem : .close s ∈ q.agenda) :
    q.network.reason? s ≠ none ∨ .close s ∈ q.since p := by
  obtain ⟨tie, hnext⟩ := hstarts
  refine h.induct (motive := fun m => .close s ∈ m.agenda →
    m.network.reason? s ≠ none ∨ .close s ∈ m.since p) ?_ (fun {a b} hpa ha hone hmem => ?_) hmem
  · rw [hnext]
    intro hmem
    refine .inl (hregular.closes ?_)
    rw [hnext]
    exact (List.mem_cons.mp hmem).resolve_left nofun
  · rw [hpa.since (.single hone)]
    rcases hone.close_cases (hpa.regular hp hregular) hmem with hmem | he | hstruck
    · exact (ha hmem).imp (hone.reason?_ne (hpa.sound hp)) (List.mem_append_left _)
    · rw [he]
      exact .inr (List.mem_append_right _ List.mem_cons_self)
    · exact .inl hstruck

/-- A source that heard a token when a cancellation was about to come hears it still, or is due to be told, or
is cancelled. -/
theorem Moves.hears (h : Moves p q) (hp : p.network.Sound) (hregular : p.Regular)
    (hstarts : p.Starts t r rest) {u s n : Nat} (hsub : ⟨n, .source s⟩ ∈ p.network.subscriptions u)
    (hcalm : .failed ∉ q.since p) (hopen : .close s ∉ q.since p) :
    q.network.reason? s ≠ none ∨ ⟨n, .source s⟩ ∈ q.network.subscriptions u ∨
      ∃ r, .tell (some (.listed u n)) (.source s) r ∈ q.agenda := by
  refine h.induct (motive := fun m => .failed ∉ m.since p → .close s ∉ m.since p →
    m.network.reason? s ≠ none ∨ ⟨n, .source s⟩ ∈ m.network.subscriptions u ∨
      ∃ r, .tell (some (.listed u n)) (.source s) r ∈ m.agenda) (fun _ _ => .inr (.inl hsub))
    (fun {a b} hpa ha hone => ?_) hcalm hopen
  have hsound := hpa.sound hp
  rw [hpa.since (.single hone), List.mem_append, List.mem_append, not_or, not_or]
  rintro ⟨hcalm, hfails⟩ ⟨hopen, -⟩
  rcases ha hcalm hopen with hstruck | hsub | ⟨r, hmem⟩
  · exact .inl (hone.reason?_ne hsound hstruck)
  · rcases hone.stands hsub hsound with hsub | hdue | ⟨⟨rest, hnext⟩, -⟩
    · exact .inr (.inl hsub)
    · exact .inr (.inr hdue)
    · have hclosing := hpa.closes hp hregular hstarts (s := s) (hnext ▸ List.mem_cons_self)
      exact .inl (hone.reason?_ne hsound (hclosing.resolve_right hopen))
  · rcases hone.stays_due hmem with hmem | htold | hfail
    · exact .inr (.inr ⟨r, hmem⟩)
    · exact .inl (hone.struck (hpa.regular hp hregular) (htold ▸ List.mem_cons_self))
    · rw [hfail] at hfails
      exact absurd List.mem_cons_self hfails

/-- A source that is not cancelled keeps its links, if it is not closed. -/
theorem Moves.links (h : Moves p q) (hp : p.network.Sound) (hregular : p.Regular)
    (hstarts : p.Starts t r rest) {u s : Nat} (hlink : u ∈ p.network.links s)
    (hopen : .close s ∉ q.since p) : q.network.reason? s ≠ none ∨ u ∈ q.network.links s := by
  have hknown : s < p.network.tokens.length := by
    apply Classical.byContradiction
    intro hout
    rw [Network.links_eq_nil (by omega)] at hlink
    cases hlink
  refine h.induct (motive := fun m => .close s ∉ m.since p →
    m.network.reason? s ≠ none ∨ u ∈ m.network.links s) (fun _ => .inr hlink)
    (fun {a b} hpa ha hone => ?_) hopen
  have hsound := hpa.sound hp
  rw [hpa.since (.single hone), List.mem_append, not_or]
  rintro ⟨hopen, -⟩
  rcases ha hopen with hstruck | hlink
  · exact .inl (hone.reason?_ne hsound hstruck)
  · rcases hone.links_cases hsound s with hsame | ⟨⟨rest, hnext⟩, -⟩ | ⟨hnew, -⟩
    · exact .inr (hsame ▸ hlink)
    · have hclosing := hpa.closes hp hregular hstarts (s := s) (hnext ▸ List.mem_cons_self)
      exact .inl (hone.reason?_ne hsound (hclosing.resolve_right hopen))
    · have hlength := hpa.length_le
      omega

end Started

/-- A source that is not cancelled hears the tokens that it is linked to, or is due to be told. -/
def Attached (p : Chronicle κ) : Prop :=
  ∀ s, ∀ t ∈ p.network.links s, p.network.reason? s = none →
    p.network.Hears t (.source s) ∨ ∃ tie r, .tell tie (.source s) r ∈ p.agenda

theorem Move.attached (h : Move p q) (hp : p.network.Sound) (hregular : p.Regular) (ha : p.Attached)
    (hcalm : .failed ∉ q.since p) : q.Attached := by
  intro s t ht hquiet
  have hbefore : p.network.reason? s = none := by
    apply Classical.byContradiction
    exact fun hstruck => h.reason?_ne hp hstruck hquiet
  rcases h.links_cases hp s with hsame | ⟨-, hnone⟩ | ⟨-, hnew⟩
  · rcases ha s t (hsame ▸ ht) hbefore with ⟨⟨n, l⟩, hsub, rfl⟩ | ⟨tie, r, hmem⟩
    · rcases h.stands hsub hp with hsub | ⟨r, hdue⟩ | ⟨-, hnone⟩
      · exact .inl ⟨_, hsub, rfl⟩
      · exact .inr ⟨_, r, hdue⟩
      · rw [hnone] at ht
        cases ht
    · rcases h.stays_due hmem with hmem | htold | hfail
      · exact .inr ⟨tie, r, hmem⟩
      · exact absurd hquiet (h.struck hregular (htold ▸ List.mem_cons_self))
      · rw [hfail] at hcalm
        exact absurd List.mem_cons_self hcalm
  · rw [hnone] at ht
    cases ht
  · exact .inl (hnew t ht hquiet)

theorem Moves.attached (h : Moves start p) (hcalm : .failed ∉ p.trace) : p.Attached := by
  refine h.induct (motive := fun m => .failed ∉ m.trace → m.Attached)
    (fun _ s t ht => absurd ht List.not_mem_nil) (fun {a b} hpa ha hone hcalm => ?_) hcalm
  rw [(Moves.single hone).trace, List.mem_append, not_or] at hcalm
  exact hone.attached (hpa.sound start_sound) (hpa.regular start_sound start_regular) (ha hcalm.1) hcalm.2

/-- Whoever is cancelled was asked for, or is linked to a token that is cancelled. -/
def Caused (p : Chronicle κ) : Prop :=
  ∀ s, p.network.reason? s ≠ none → (∃ r, .cancel s r ∈ p.trace) ∨
    ∃ linked, .source s linked ∈ p.trace ∧ ∃ t ∈ linked, p.network.reason? t ≠ none

theorem Move.caused (h : Move p q) (hp : p.Orderly) (hregular : p.Regular) (hcaused : p.Caused) :
    q.Caused := by
  intro s hstruck
  have htrace := (Moves.single h).trace
  have hkeeps : ((∃ r, .cancel s r ∈ p.trace) ∨
      ∃ linked, .source s linked ∈ p.trace ∧ ∃ t ∈ linked, p.network.reason? t ≠ none) →
      (∃ r, .cancel s r ∈ q.trace) ∨
        ∃ linked, .source s linked ∈ q.trace ∧ ∃ t ∈ linked, q.network.reason? t ≠ none := by
    rintro (⟨r, hmem⟩ | ⟨linked, hmem, t, ht, hne⟩)
    · exact .inl ⟨r, (Moves.single h).mem_trace hmem⟩
    · exact .inr ⟨linked, (Moves.single h).mem_trace hmem, t, ht, h.reason?_ne hp.sound hne⟩
  rcases h.reason_cases hp.sound s with hsame | ⟨tie, r, he, -, -⟩ | ⟨linked, he, -, hall⟩
  · exact hkeeps (hcaused s (hsame ▸ hstruck))
  · have htold : .told tie (.source s) r ∈ q.since p := he ▸ List.mem_cons_self
    obtain ⟨-, rest, hnext⟩ := h.told_cases htold
    have hmem : .tell tie (.source s) r ∈ p.agenda := hnext ▸ List.mem_cons_self
    cases tie with
    | none => exact hkeeps (.inl ⟨r, hregular.asked hmem⟩)
    | some tie =>
      obtain ⟨linked, hsource, ht⟩ := hp.genuine.due hmem
      refine hkeeps (.inr ⟨linked, hsource, tie.token, ht, ?_⟩)
      rw [hp.heeded.due hmem]
      exact Option.some_ne_none r
  · obtain ⟨r, hr⟩ := Option.ne_none_iff_exists'.mp hstruck
    obtain ⟨t, ht, heq⟩ := hall r hr
    refine .inr ⟨linked, ?_, t, ht, h.reason?_ne hp.sound ?_⟩
    · rw [htrace, he]
      exact List.mem_append_right _ List.mem_cons_self
    · rw [heq]
      exact Option.some_ne_none r

theorem Moves.caused (h : Moves start p) : p.Caused :=
  h.induct (fun s hs => absurd (Network.reason?_eq_none (Nat.zero_le s)) hs) fun hpa ha hone =>
    hone.caused (hpa.orderly start_orderly) (hpa.regular start_sound start_regular) ha

/-- What is due is done as the network does it by itself, if no client does anything. -/
theorem WorksOff.spread {rest : List (Item κ)} (h : WorksOff rest p q) :
    ∀ items, p.agenda = items ++ rest → p.Silent q →
      p.network.spread (items.filterMap Item.notice?) =
        (q.network, (q.since p).filterMap Event.heard?) := by
  induction h with
  | @done p ended =>
    intro items hitems _
    obtain rfl : items = [] := by simpa using hitems.symm.trans ended
    rw [since_self]
    exact Network.spread.eq_1 _
  | @step p q m i _ ahead behind hone hmore ih =>
    intro items hitems htold
    obtain ⟨items', rfl⟩ := behind
    obtain rfl : items = i :: items' := List.append_cancel_right (hitems.symm.trans ahead)
    have hsince := (Moves.single hone).since hmore.moves
    unfold Silent at htold
    rw [hsince] at htold ⊢
    -- So the first move is no call of a client and no failure.
    have hfirst : ∀ {e}, q.since p = [e] → ∃ tie l r, e = .told tie l r :=
      fun he => htold _ (List.mem_append_left _ (he ▸ List.mem_cons_self))
    have hlater : q.Silent m := fun e he => htold e (List.mem_append_right _ he)
    rw [List.filterMap_append]
    cases hone with
    | create | cancel | close | subscribe | late | unsubscribe | fail =>
      obtain ⟨_, _, _, heq⟩ := hfirst (since_eq rfl)
      cases heq
    | strike tie s r rest' next =>
      cases ahead.symm.trans next
      have hrest := ih (p.network.dues s r ++ items') (List.append_assoc _ _ _).symm hlater
      rw [List.filterMap_append, Network.notices_dues] at hrest
      rw [since_eq (p := p) rfl]
      exact (Network.spread.eq_3 _ _ _ _).trans hrest
    | tell tie c r rest' next =>
      cases ahead.symm.trans next
      have hrest := ih (.program :: items') rfl hlater
      rw [since_eq (p := p) rfl]
      refine (Network.spread.eq_2 _ _ _ _).trans ?_
      rw [show p.network.spread (items'.filterMap Item.notice?) = _ from hrest]
      rfl
    | detach s rest' next =>
      cases ahead.symm.trans next
      have hnothing : Chronicle.since ⟨p.network.detach s, items' ++ rest, p.trace⟩ p = [] := since_self p
      rw [hnothing]
      exact (Network.spread.eq_4 _ _ _).trans (ih items' rfl hlater)
    | finish rest' next =>
      cases ahead.symm.trans next
      have hnothing : Chronicle.since ⟨p.network, items' ++ rest, p.trace⟩ p = [] := since_self p
      rw [hnothing]
      exact ih items' rfl hlater

omit [DecidableEq κ] in
theorem exists_cons_of_notices {items : List (Item κ)} {n : Notice κ} {notices : List (Notice κ)}
    (hprogram : .program ∉ items) (h : items.filterMap Item.notice? = n :: notices) :
    ∃ i items', items = i :: items' ∧ i.notice? = some n ∧ items'.filterMap Item.notice? = notices ∧
      .program ∉ items' := by
  cases items with
  | nil => cases h
  | cons i items =>
    rw [List.mem_cons, not_or] at hprogram
    cases i with
    | program => exact absurd rfl hprogram.1
    | tell | close => exact ⟨_, _, rfl, congrArg some (List.cons.inj h).1, (List.cons.inj h).2, hprogram.2⟩

omit [DecidableEq κ] in
theorem not_program_mem_dues {net : Network κ} {s : Nat} {r : Reason} : .program ∉ net.dues s r := by
  intro h
  unfold Network.dues at h
  split at h <;> simp at h

/-- If no client does anything, all that is due is done in the end. -/
theorem exists_worksOff (items rest : List (Item κ)) (hitems : p.agenda = items ++ rest)
    (hprogram : .program ∉ items) : ∃ q, WorksOff rest p q ∧ q.agenda = rest ∧ p.Silent q := by
  generalize hnet : p.network = net
  generalize hnotices : items.filterMap Item.notice? = notices
  -- What is told first comes before what is told later.
  have hcons : ∀ {p p' q : Chronicle κ} {tie l r}, p'.trace = p.trace ++ [.told tie l r] → Moves p' q →
      p'.Silent q → p.Silent q := by
    intro p p' q tie l r htrace hmoves htold e he
    have hsplit : q.since p = .told tie l r :: q.since p' := by
      refine since_eq ?_
      rw [hmoves.trace, htrace, List.append_assoc]
      rfl
    rw [hsplit] at he
    rcases List.mem_cons.mp he with rfl | he
    · exact ⟨tie, l, r, rfl⟩
    · exact htold e he
  induction net, notices using Network.spread.induct generalizing p items with
  | case1 net =>
    have hnone : items = [] := by
      cases items with
      | nil => rfl
      | cons i items => cases i <;> simp [Item.notice?] at hnotices hprogram
    rw [hnone] at hitems
    refine ⟨p, .done hitems, hitems, fun e he => ?_⟩
    rw [since_self] at he
    cases he
  | case2 net c r notices ih =>
    obtain ⟨i, items', rfl, hi, hlater, hprogram'⟩ := exists_cons_of_notices hprogram hnotices
    cases i with
    | program | close => cases hi
    | tell tie l r' =>
      cases hi
      obtain ⟨q, hworks, hend, htold⟩ :=
        ih (p := ⟨p.network, items' ++ rest, p.trace ++ [.told tie (.client c) r]⟩) items' rfl hprogram' hnet hlater
      exact ⟨q, .step hitems (List.suffix_append _ _) (.tell p tie c r _ hitems) <|
        .step rfl (List.suffix_append _ _) (.finish _ _ rfl) hworks, hend, hcons rfl hworks.moves htold⟩
  | case3 net s r notices _ ih =>
    obtain ⟨i, items', rfl, hi, hlater, hprogram'⟩ := exists_cons_of_notices hprogram hnotices
    cases i with
    | program | close => cases hi
    | tell tie l r' =>
      cases hi
      subst hnet
      have hnew : .program ∉ p.network.dues s r ++ items' := by
        rw [List.mem_append, not_or]
        exact ⟨not_program_mem_dues, hprogram'⟩
      obtain ⟨q, hworks, hend, htold⟩ :=
        ih (p := ⟨(p.network.strike s r).1, p.network.dues s r ++ (items' ++ rest),
          p.trace ++ [.told tie (.source s) r]⟩) _ (List.append_assoc _ _ _).symm hnew rfl
          (by rw [List.filterMap_append, Network.notices_dues, hlater])
      exact ⟨q, .step hitems (List.suffix_append _ _) (.strike p tie s r _ hitems) hworks, hend,
        hcons rfl hworks.moves htold⟩
  | case4 net s notices _ ih =>
    obtain ⟨i, items', rfl, hi, hlater, hprogram'⟩ := exists_cons_of_notices hprogram hnotices
    cases i with
    | program | tell => cases hi
    | close s' =>
      cases hi
      subst hnet
      obtain ⟨q, hworks, hend, htold⟩ :=
        ih (p := ⟨p.network.detach s, items' ++ rest, p.trace⟩) items' rfl hprogram' rfl hlater
      exact ⟨q, .step hitems (List.suffix_append _ _) (.detach p s _ hitems) hworks, hend, htold⟩

/-- So a cancellation is carried through if no client does anything. -/
theorem Starts.exists_cancels {t : Nat} {r : Reason} {rest : List (Item κ)} (h : p.Starts t r rest)
    (hquiet : p.network.reason? t = none) :
    ∃ q, p.Cancels q t r ∧ q.agenda = rest ∧ p.Silent q := by
  obtain ⟨tie, hnext⟩ := h
  obtain ⟨q, hworks, rfl, htold⟩ :=
    exists_worksOff [.tell tie (.source t) r] rest hnext (by simp)
  refine ⟨q, ⟨⟨tie, hnext⟩, hquiet, hworks, fun hfail => ?_⟩, rfl, htold⟩
  obtain ⟨_, _, _, heq⟩ := htold _ hfail
  cases heq

/-- If the clients that are told do nothing, all who are cancelled hear the reason of the token. -/
theorem Cancels.reason?_of_ne {t : Nat} {r : Reason} (h : p.Cancels q t r)
    (hsilent : p.Silent q) {s : Nat}
    (hnew : q.network.reason? s ≠ p.network.reason? s) : q.network.reason? s = some r := by
  obtain ⟨tie, hnext⟩ := h.starts
  have hspread : p.network.cancel t r = (q.network, (q.since p).filterMap Event.heard?) :=
    h.works.spread [.tell tie (.source t) r] hnext hsilent
  have hall : p.network.Confined (fun _ => True) fun _ => True :=
    ⟨fun _ _ _ _ => trivial, fun _ _ _ _ => trivial⟩
  rcases (hall.cancel (s := t) trivial r).1 s with hsame | ⟨-, -, hstruck⟩
  · rw [hspread] at hsame
    exact absurd hsame hnew
  · rwa [hspread] at hstruck

/-- A cancellation that is carried through cancels the token. -/
theorem Cancels.struck {t : Nat} {r : Reason} (h : p.Cancels q t r) (hp : p.network.Sound)
    (hregular : p.Regular) : q.network.reason? t = some r := by
  have hne : q.agenda ≠ p.agenda := by
    obtain ⟨tie, hnext⟩ := h.starts
    rw [hnext]
    exact fun heq => List.cons_ne_self _ _ heq.symm
  rw [h.works.moves.struck hp hregular h.starts hne, h.quiet]
  rfl

/-- It comes to every source that heard a token which it came to, unless the source is closed meanwhile. -/
theorem Cancels.reaches {t : Nat} {r : Reason} (h : p.Cancels q t r) (hp : p.Orderly) (hregular : p.Regular)
    {s : Nat} (hpath : Relation.ReflTransGen
      (fun a b => p.network.Hears a (.source b) ∧ .close b ∉ q.since p) t s) :
    q.network.reason? s ≠ none := by
  have hmoves := h.works.moves
  induction hpath with
  | refl =>
    rw [h.struck hp.sound hregular]
    nofun
  | @tail a b _ hstep ih =>
    obtain ⟨⟨⟨n, l⟩, hsub, rfl⟩, hopen⟩ := hstep
    rcases hmoves.hears hp.sound hregular h.starts hsub h.calm hopen with hstruck | hstands | ⟨r', hdue⟩
    · exact hstruck
    · rw [(hmoves.sound hp.sound).spent a ih] at hstands
      cases hstands
    · -- What is left to do was to be done before, and who hears a token was not due then.
      obtain ⟨tie, hnext⟩ := h.starts
      have hbefore : .tell (some (.listed a n)) (.source b) r' ∈ p.agenda :=
        hnext ▸ List.mem_cons_of_mem _ hdue
      have hused := hp.numbered.used _ (List.mem_append_left _ (mem_due hbefore))
      exact absurd rfl (hused.2 a _ hsub)

/-- In the end it has come to every source that was linked, and not closed meanwhile. -/
theorem Moves.settles (h : Moves p q) (hp : p.network.Sound) (hregular : p.Regular) {t : Nat} {r : Reason}
    {rest : List (Item κ)} (hstarts : p.Starts t r rest) (hend : q.agenda = []) (hattached : q.Attached)
    {s : Nat} (hpath : Relation.ReflTransGen
      (fun a b => a ∈ p.network.links b ∧ .close b ∉ q.since p) t s) : q.network.reason? s ≠ none := by
  induction hpath with
  | refl =>
    have hne : q.agenda ≠ p.agenda := by
      obtain ⟨tie, hnext⟩ := hstarts
      rw [hend, hnext]
      nofun
    rw [h.struck hp hregular hstarts hne]
    cases p.network.reason? t <;> nofun
  | @tail a b _ hstep ih =>
    obtain ⟨hlink, hopen⟩ := hstep
    rcases h.links hp hregular hstarts hlink hopen with hstruck | hlink
    · exact hstruck
    · intro hquiet
      rcases hattached b a hlink hquiet with ⟨sub, hsub, -⟩ | ⟨tie, r', hdue⟩
      · rw [(h.sound hp).spent a ih] at hsub
        cases hsub
      · rw [hend] at hdue
        cases hdue

/-- A new source that is linked to a cancelled token is cancelled. -/
theorem create_struck (hp : p.network.Sound) {linked : List (Option Nat)}
    (hknown : ∀ u, some u ∈ linked → u < p.network.tokens.length) {t : Nat} (ht : some t ∈ linked)
    (hstruck : p.network.reason? t ≠ none) :
    (p.create linked).network.reason? p.network.tokens.length ≠ none := by
  have hjoined := Network.joined hp.toTidy hp.linked _ (known_of_mem hknown)
  intro hquiet
  obtain ⟨hnone, -⟩ := hjoined.quiet hquiet t (List.reduceOption_mem_iff.mpr ht)
  rw [hjoined.reasons t (Nat.ne_of_lt (hknown t ht))] at hnone
  exact hstruck hnone

theorem combine_struck (hp : p.network.Sound) {tokens : List (Option Nat)}
    (hknown : ∀ u, some u ∈ tokens → u < p.network.tokens.length) {t : Nat} (ht : some t ∈ tokens)
    (hstruck : p.network.reason? t ≠ none) :
    (p.combine tokens).1.network.reason? (p.combine tokens).2 ≠ none := by
  unfold combine
  split
  · next u heq =>
    have hmem : t ∈ tokens.reduceOption := List.reduceOption_mem_iff.mpr ht
    rw [heq] at hmem
    obtain rfl := List.mem_singleton.mp hmem
    exact hstruck
  · exact create_struck hp hknown ht hstruck

theorem combine_sound (hp : p.network.Sound) {tokens : List (Option Nat)}
    (hknown : ∀ u, some u ∈ tokens → u < p.network.tokens.length) :
    (p.combine tokens).1.network.Sound := by
  unfold combine
  split
  · exact hp
  · exact create_sound hp hknown

/-- All that there is to say on how a cancellation propagates from a state of a run. -/
structure Propagates (p : Chronicle κ) : Prop where
  /-- A cancellation comes to its end, if the clients do. -/
  ends : ∀ {t r rest}, p.Starts t r rest → p.network.reason? t = none →
    ∃ q, p.Cancels q t r ∧ q.agenda = rest ∧ p.Silent q
  /-- A cancellation that is carried through cancels the token, for its own reason, -/
  strikes : ∀ {q t r}, p.Cancels q t r → q.network.reason? t = some r
  /-- and every source that can be reached over links which are open and are not closed meanwhile. -/
  reaches : ∀ {q t r s}, p.Cancels q t r →
    Relation.ReflTransGen (fun a b => p.network.Hears a (.source b) ∧ .close b ∉ q.since p) t s →
      q.network.reason? s ≠ none
  /-- When all is done, also the links count over which other cancellations were about to go. -/
  settles : ∀ {q t r rest s}, p.Starts t r rest → Moves p q → q.agenda = [] → .failed ∉ q.trace →
    Relation.ReflTransGen (fun a b => a ∈ p.network.links b ∧ .close b ∉ q.since p) t s →
      q.network.reason? s ≠ none
  /-- A source that is linked to a cancelled token is cancelled ever after, -/
  born : ∀ {linked t q}, (∀ u, some u ∈ linked → u < p.network.tokens.length) → some t ∈ linked →
    p.network.reason? t ≠ none → Moves (p.create linked) q →
      q.network.reason? p.network.tokens.length ≠ none
  /-- and so is a token that is combined of some of which one is cancelled. -/
  combined : ∀ {tokens t q}, (∀ u, some u ∈ tokens → u < p.network.tokens.length) → some t ∈ tokens →
    p.network.reason? t ≠ none → Moves (p.combine tokens).1 q →
      q.network.reason? (p.combine tokens).2 ≠ none
  /-- Nobody is cancelled but by a call or over a link. -/
  caused : p.Caused
  /-- If no client does anything when it is told, the reason goes along. -/
  same : ∀ {q t r s}, p.Cancels q t r → p.Silent q → q.network.reason? s ≠ p.network.reason? s →
    q.network.reason? s = some r

theorem propagates_of_moves (h : Moves start p) : p.Propagates := by
  have hp := h.orderly start_orderly
  have hregular := h.regular start_sound start_regular
  refine ⟨fun hstarts hquiet => hstarts.exists_cancels hquiet,
    fun hcancels => hcancels.struck hp.sound hregular,
    fun hcancels hpath => hcancels.reaches hp hregular hpath,
    fun hstarts hmoves hend hcalm hpath => ?_, fun hknown ht hstruck hmoves => ?_,
    fun hknown ht hstruck hmoves => ?_, h.caused, fun hcancels htold hnew => hcancels.reason?_of_ne htold hnew⟩
  · exact hmoves.settles hp.sound hregular hstarts hend ((h.trans hmoves).attached hcalm) hpath
  · exact hmoves.reason?_ne (create_sound hp.sound hknown) (create_struck hp.sound hknown ht hstruck)
  · exact hmoves.reason?_ne (combine_sound hp.sound hknown) (combine_struck hp.sound hknown ht hstruck)

/-- A client that is told of a cancellation cancels a source to which the cancellation has yet to come, over two
others and twice over one of them, and links a new one. -/
theorem propagates_through_diamond : ∃ p q : Chronicle Nat, Moves start p ∧ p.Cancels q 0 .none ∧
    Relation.ReflTransGen (fun a b => p.network.Hears a (.source b) ∧ .close b ∉ q.since p) 0 3 ∧
      q.network.reason? 3 = some (.fault .emptyPool) ∧ q.network.reason? 4 = some .none ∧ p.Propagates := by
  have hmoves := Moves.cons (.create (start : Chronicle Nat) [] .done (by simp)) <|
    .cons (.create _ [some 0] .done (by simp; decide)) <|
    .cons (.create _ [some 0] .done (by simp; decide)) <|
    .cons (.subscribe _ 1 7 .done (by decide) rfl) <|
    .cons (.create _ [some 1, none, some 2, some 1] .done (by simp; decide)) <|
    .cons (.cancel _ 0 .none .done (by decide)) <| .refl _
  refine ⟨_, _, hmoves, .of_end ⟨_, rfl⟩ rfl
    (.step rfl List.nil_suffix (.strike _ _ _ _ _ rfl) <|
      .step rfl List.nil_suffix (.strike _ _ _ _ _ rfl) <|
      .step rfl List.nil_suffix (.tell _ _ _ _ _ rfl) <|
      .step rfl List.nil_suffix (.cancel _ 3 (.fault .emptyPool) (.program _) (by decide)) <|
      .step rfl List.nil_suffix (.strike _ _ _ _ _ rfl) <|
      .step rfl List.nil_suffix (.detach _ _ _ rfl) <|
      .step rfl List.nil_suffix (.create _ [some 0] (.program _) (by simp; decide)) <|
      .step rfl List.nil_suffix (.finish _ _ rfl) <|
      .step rfl List.nil_suffix (.strike _ _ _ _ _ rfl) <|
      .step rfl List.nil_suffix (.detach _ _ _ rfl) <|
      .step rfl List.nil_suffix (.strike _ _ _ _ _ rfl) <|
      .step rfl List.nil_suffix (.detach _ _ _ rfl) <|
      .step rfl List.nil_suffix (.detach _ _ _ rfl) <|
      .step rfl List.nil_suffix (.strike _ _ _ _ _ rfl) <|
      .step rfl List.nil_suffix (.detach _ _ _ rfl) <|
      .step rfl List.nil_suffix (.detach _ _ _ rfl) <| .done rfl) rfl (by decide),
    ?_, rfl, rfl, propagates_of_moves hmoves⟩
  exact .tail (.single ⟨⟨⟨0, .source 1⟩, by decide, rfl⟩, by decide⟩)
    ⟨⟨⟨3, .source 3⟩, by decide, rfl⟩, by decide⟩

end Chronicle

end TreeCensus.Cancellation
