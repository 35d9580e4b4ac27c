import TreeCensus.Proofs.Glob.Language
import TreeCensus.Proofs.Text.Kinship

/-!
# How many slashes a pattern reads

`Pattern.Depths p n` says that `p` may read a text with `n` slashes. Every part of the pattern may heed or
ignore case on its own here, so condensing a pattern adds nothing (`depths_of_condense`), and what is accepted
under either casing is read at one of these depths (`depths_of_accepts`).
-/

namespace TreeCensus.Text

set_option autoImplicit false

theorem kin_slash : kin '/' = ['/'] := by decide

end TreeCensus.Text

namespace TreeCensus.Glob

theorem count_slash_singleton {c : Char} (hc : c ≠ '/') : [c].count '/' = 0 :=
  List.count_eq_zero.mpr fun hmem => hc (List.mem_singleton.mp hmem).symm

namespace Casing

theorem kin_slash (k : Casing) : k.kin '/' = ['/'] := by
  cases k
  · rfl
  · exact Text.kin_slash

theorem members_slash (k : Casing) : k.members '/' = ['/'] := by
  rw [members, kin_slash]
  decide

theorem ranged_slash (k : Casing) (last : Char) : k.ranged last '/' = ['/'] := by
  have hstarts : (Text.capitalStarts.lookup '/').toList = [] := by decide
  rw [ranged, kin_slash, hstarts]
  split <;> rfl

/-- A slash has no variants. -/
theorem count_slash_of_mem_kin {k : Casing} {x c : Char} (h : x ∈ k.kin c) : [c].count '/' = [x].count '/' := by
  have hiff : c = '/' ↔ x = '/' := by
    cases k with
    | heeded => rw [List.mem_singleton.mp h]
    | ignored => exact Text.eq_iff_of_mem_kin Text.kin_slash h
  by_cases hc : c = '/'
  · rw [hc, hiff.mp hc]
  · rw [count_slash_singleton hc, count_slash_singleton (mt hiff.mpr hc)]

end Casing

theorem Member.holds_slash_iff (k : Casing) (m : Member) : m.Holds k '/' ↔ m.Holds .heeded '/' := by
  cases m <;> simp [Member.Holds, Casing.members_slash, Casing.ranged_slash]

theorem Bracket.accepts_slash_iff (k : Casing) (b : Bracket) : b.Accepts k '/' ↔ b.Accepts .heeded '/' := by
  simp only [Bracket.Accepts, Bracket.Lists, Member.holds_slash_iff k]

namespace Pattern

/-- How many slashes a pattern may read. -/
def Depths : Pattern → Nat → Prop
  | empty, n => n = 0
  | atom a, n => ∃ k t, a.Spells k t ∧ t.count '/' = n
  | bracket b, n => ∃ k c, b.Accepts k c ∧ [c].count '/' = n
  | seq p q, n => ∃ i j, i + j = n ∧ Depths p i ∧ Depths q j
  | alt p q, n => Depths p n ∨ Depths q n

variable {n : Nat}

theorem depths_of_spells {k : Casing} {p : Pattern} {t : Text} (h : p.Spells k t) :
    p.Depths (t.count '/') := by
  induction p generalizing t with
  | empty => exact congrArg (List.count '/') h
  | atom a => exact ⟨k, t, h, rfl⟩
  | bracket b =>
    obtain ⟨c, rfl, hc⟩ := h
    exact ⟨k, c, hc, rfl⟩
  | seq p q ihp ihq =>
    obtain ⟨u, v, rfl, hu, hv⟩ := h
    exact ⟨_, _, List.count_append.symm, ihp hu, ihq hv⟩
  | alt p q ihp ihq => exact h.imp ihp ihq

theorem depths_sequence_append (ps qs : List Pattern) :
    (sequence (ps ++ qs)).Depths n ↔ ∃ i j, i + j = n ∧ (sequence ps).Depths i ∧ (sequence qs).Depths j := by
  induction ps generalizing n with
  | nil =>
    constructor
    · exact fun h => ⟨0, n, Nat.zero_add n, rfl, h⟩
    · rintro ⟨_, j, rfl, rfl, h⟩
      rwa [Nat.zero_add]
  | cons p ps ih =>
    simp only [List.cons_append, sequence, Depths, ih]
    constructor
    · rintro ⟨i, _, rfl, hi, j, l, rfl, hj, hl⟩
      exact ⟨i + j, l, Nat.add_assoc i j l, ⟨i, j, rfl, hi, hj⟩, hl⟩
    · rintro ⟨_, l, rfl, ⟨i, j, rfl, hi, hj⟩, hl⟩
      exact ⟨i, j + l, (Nat.add_assoc i j l).symm, hi, j, l, rfl, hj, hl⟩

theorem depths_sequence_singleton (p : Pattern) : (sequence [p]).Depths n ↔ p.Depths n := by
  simp [sequence, Depths]

theorem depths_either {c : List Pattern} {others : List (List Pattern)} (h : (either c others).Depths n) :
    ∃ d ∈ c :: others, (sequence d).Depths n := by
  induction others generalizing c with
  | nil => exact ⟨c, List.mem_cons_self, h⟩
  | cons d ds ih =>
    rcases h with h | h
    · exact ⟨c, List.mem_cons_self, h⟩
    · obtain ⟨e, he, hn⟩ := ih h
      exact ⟨e, List.mem_cons_of_mem c he, hn⟩

/-- Where members come from a choice, the choice reads what they hold. -/
theorem depths_of_members? {d : List Pattern} {ms : List Member} (h : members? d = some ms) {m : Member}
    (hm : m ∈ ms) {k : Casing} {c : Char} (hc : m.Holds k c) : (sequence d).Depths ([c].count '/') := by
  unfold members? at h
  split at h
  · next x =>
    obtain rfl := Option.some.inj h
    obtain rfl := List.mem_singleton.mp hm
    have hkin : x ∈ k.kin c := (List.mem_filter.mp hc).1
    rw [depths_sequence_singleton]
    exact ⟨k, [c], ⟨c, rfl, hkin⟩, rfl⟩
  · next b =>
    split at h
    · cases h
    · next hb =>
      obtain rfl := Option.some.inj h
      rw [depths_sequence_singleton]
      refine ⟨k, c, ?_, rfl⟩
      rw [Bracket.Accepts, if_neg hb]
      exact ⟨m, hm, hc⟩
  · cases h

theorem exists_of_mem_mapM {α β : Type} {f : α → Option β} {l : List α} {bs : List β}
    (h : l.mapM f = some bs) {b : β} (hb : b ∈ bs) : ∃ a ∈ l, f a = some b := by
  induction l generalizing bs with
  | nil =>
    obtain rfl : bs = [] := by simpa using h.symm
    cases hb
  | cons a l ih =>
    rw [List.mapM_cons] at h
    obtain ⟨c, hc, h⟩ := Option.bind_eq_some_iff.mp h
    obtain ⟨rest, hrest, h⟩ := Option.bind_eq_some_iff.mp h
    obtain rfl : c :: rest = bs := by simpa using h
    rcases List.mem_cons.mp hb with rfl | hb
    · exact ⟨a, List.mem_cons_self, hc⟩
    · obtain ⟨x, hx, hfx⟩ := ih hrest hb
      exact ⟨x, List.mem_cons_of_mem a hx, hfx⟩

theorem depths_group {c : List Pattern} {others : List (List Pattern)} (h : (group c others).Depths n) :
    ∃ d ∈ c :: others, (sequence d).Depths n := by
  unfold group at h
  split at h
  · next mss hmss =>
    obtain ⟨k, x, ⟨m, hm, hx⟩, rfl⟩ := h
    obtain ⟨ms, hms, hm⟩ := List.mem_flatten.mp (List.mem_eraseDups.mp hm)
    obtain ⟨d, hd, hmembers⟩ := exists_of_mem_mapM hmss hms
    exact ⟨d, hd, depths_of_members? hmembers hm hx⟩
  · exact depths_either h

theorem depths_gather {cs : List (List Pattern)} (hne : cs ≠ []) (h : (sequence (gather cs)).Depths n) :
    ∃ d ∈ cs, (sequence d).Depths n := by
  match cs with
  | [] => exact absurd rfl hne
  | [c] => exact ⟨c, List.mem_singleton_self c, h⟩
  | c :: d :: ds =>
    obtain ⟨i, j, rfl, hi, hj⟩ := (depths_sequence_append _ _).mp h
    rw [depths_sequence_singleton] at hj
    obtain ⟨e, he, hj⟩ := depths_group hj
    rw [← List.map_cons] at he
    obtain ⟨f, hf, rfl⟩ := List.mem_map.mp he
    -- what follows the shared start, together with it, is one of the choices again
    refine ⟨f, hf, ?_⟩
    rw [← sharedStart_append_drop hf]
    exact (depths_sequence_append _ _).mpr ⟨i, j, rfl, hi, hj⟩

theorem depths_ofBracket {b : Bracket} (h : (ofBracket b).Depths n) : (bracket b).Depths n := by
  have hm : ∀ m, m ∈ b.members.eraseDups ↔ m ∈ b.members := fun m => List.mem_eraseDups
  unfold ofBracket at h
  split at h
  · next x hnegated hx =>
    obtain ⟨k, t, ⟨c, rfl, hc⟩, rfl⟩ := h
    refine ⟨.heeded, x, ?_, (Casing.count_slash_of_mem_kin hc).symm⟩
    rw [Bracket.Accepts, if_neg (by simp [hnegated])]
    refine ⟨.single x, (hm _).mp (by simp [hx]), ?_⟩
    simp [Member.Holds]
  · obtain ⟨k, c, hc, rfl⟩ := h
    refine ⟨k, c, ?_, rfl⟩
    simpa only [Bracket.Accepts, Bracket.Lists, hm] using hc

theorem depths_of_choices {p : Pattern} {d : List Pattern} (hd : d ∈ choices p) (h : (sequence d).Depths n) :
    p.Depths n := by
  induction p generalizing d n with
  | empty =>
    obtain rfl := List.mem_singleton.mp hd
    exact h
  | atom a =>
    obtain rfl := List.mem_singleton.mp hd
    exact (depths_sequence_singleton _).mp h
  | bracket b =>
    obtain rfl := List.mem_singleton.mp hd
    exact depths_ofBracket ((depths_sequence_singleton _).mp h)
  | seq p q ihp ihq =>
    obtain rfl := List.mem_singleton.mp hd
    obtain ⟨i, j, rfl, hi, hj⟩ := (depths_sequence_append _ _).mp h
    obtain ⟨e, he, hi⟩ := depths_gather (choices_ne_nil p) hi
    obtain ⟨f, hf, hj⟩ := depths_gather (choices_ne_nil q) hj
    exact ⟨i, j, rfl, ihp he hi, ihq hf hj⟩
  | alt p q ihp ihq =>
    rcases List.mem_append.mp hd with hd | hd
    · exact .inl (ihp hd h)
    · obtain rfl := List.mem_singleton.mp hd
      obtain ⟨f, hf, h⟩ := depths_gather (choices_ne_nil q) h
      exact .inr (ihq hf h)

theorem depths_of_condense {p : Pattern} (h : p.condense.Depths n) : p.Depths n := by
  obtain ⟨d, hd, h⟩ := depths_gather (choices_ne_nil p) h
  exact depths_of_choices hd h

theorem depths_of_accepts {k : Casing} {p : Pattern} {t : Text} (h : (p.under k).Accepts k t) :
    p.Depths (t.count '/') := by
  have hdepths := depths_of_spells ((accepts_iff_spells k _ t).mp h)
  cases k with
  | heeded => exact hdepths
  | ignored => exact depths_of_condense hdepths

end Pattern

end TreeCensus.Glob
