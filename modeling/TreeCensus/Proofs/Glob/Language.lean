import TreeCensus.Glob.Matcher

/-!
# The language of a pattern

A pattern reads a text with a continuation. What it reads before the continuation takes over is its
language: `Pattern.Spells k p u` says that `p` can read exactly `u`. A pattern reads on with `K` just
if the text can be cut behind a word of the language (`Pattern.reads_iff`), so it accepts the words of
its language and no other texts (`Pattern.accepts_iff_spells`).
-/

namespace TreeCensus.Glob

set_option autoImplicit false

theorem readNext_iff (p : Char → Bool) (K : Text → Bool) (t : Text) :
    readNext p K t = true ↔ ∃ u v, t = u ++ v ∧ (∃ c, u = [c] ∧ p c = true) ∧ K v = true := by
  constructor
  · intro h
    cases t with
    | nil => simp [readNext] at h
    | cons c r =>
      obtain ⟨hc, hr⟩ : p c = true ∧ K r = true := by simpa [readNext] using h
      exact ⟨[c], r, rfl, ⟨c, rfl, hc⟩, hr⟩
  · rintro ⟨u, v, rfl, ⟨c, rfl, hc⟩, hv⟩
    simp [readNext, hc, hv]

theorem readWhile_iff (p : Char → Bool) (K : Text → Bool) (t : Text) :
    readWhile p K t = true ↔ ∃ u v, t = u ++ v ∧ (∀ c ∈ u, p c = true) ∧ K v = true := by
  constructor
  · intro h
    induction t with
    | nil => exact ⟨[], [], rfl, by simp, by simpa [readWhile] using h⟩
    | cons c r ih =>
      rw [readWhile, Bool.or_eq_true, Bool.and_eq_true] at h
      rcases h with h | ⟨hc, hr⟩
      · exact ⟨[], c :: r, rfl, by simp, h⟩
      · obtain ⟨u, v, rfl, hu, hv⟩ := ih hr
        exact ⟨c :: u, v, rfl, by simpa [hc] using hu, hv⟩
  · rintro ⟨u, v, rfl, hu, hv⟩
    induction u with
    | nil => cases v <;> simp [readWhile, hv]
    | cons c u ih =>
      have hr := ih fun d hd => hu d (List.mem_cons_of_mem c hd)
      simp [readWhile, hu c List.mem_cons_self, hr]

/-- Names that are not empty, a slash after each of them. -/
def Folders (t : Text) : Prop :=
  ∃ names : List Text, (∀ n ∈ names, n ≠ [] ∧ '/' ∉ n) ∧ t = names.flatMap (· ++ ['/'])

theorem Folders.nil : Folders [] := ⟨[], by simp, rfl⟩

theorem Folders.cons {n t : Text} (hn : n ≠ []) (hs : '/' ∉ n) (ht : Folders t) :
    Folders (n ++ '/' :: t) := by
  obtain ⟨names, hnames, rfl⟩ := ht
  refine ⟨n :: names, ?_, by simp⟩
  intro m hm
  rcases List.mem_cons.mp hm with rfl | hm
  · exact ⟨hn, hs⟩
  · exact hnames m hm

/-- Within a name the rest of the name is read, its slash, and then further names. -/
theorem readFolders_sound (K : Text → Bool) (t : Text) :
    (readFolders K false t = true → ∃ u v, t = u ++ v ∧ Folders u ∧ K v = true) ∧
    (readFolders K true t = true →
      ∃ n u v, t = n ++ '/' :: u ++ v ∧ '/' ∉ n ∧ Folders u ∧ K v = true) := by
  induction t with
  | nil => exact ⟨fun h => ⟨[], [], rfl, .nil, by simpa [readFolders] using h⟩,
      fun h => by simp [readFolders] at h⟩
  | cons c r ih =>
    obtain ⟨ihOut, ihIn⟩ := ih
    constructor
    · intro h
      rw [readFolders, Bool.or_eq_true, Bool.and_eq_true] at h
      rcases h with h | ⟨hc, hr⟩
      · exact ⟨[], c :: r, rfl, .nil, h⟩
      · obtain ⟨n, u, v, rfl, hn, hu, hv⟩ := ihIn hr
        have hc' : '/' ≠ c := Ne.symm (of_decide_eq_true hc)
        exact ⟨(c :: n) ++ '/' :: u, v, by simp, .cons (by simp) (by simp [hc', hn]) hu, hv⟩
    · intro h
      rw [readFolders] at h
      split at h
      · next hc =>
        obtain ⟨u, v, rfl, hu, hv⟩ := ihOut h
        exact ⟨[], u, v, by simp [hc], by simp, hu, hv⟩
      · next hc =>
        obtain ⟨n, u, v, rfl, hn, hu, hv⟩ := ihIn h
        exact ⟨c :: n, u, v, by simp, by simp [Ne.symm hc, hn], hu, hv⟩

theorem readFolders_name (K : Text → Bool) {n : Text} (hn : '/' ∉ n) (r : Text)
    (hr : readFolders K false r = true) : readFolders K true (n ++ '/' :: r) = true := by
  induction n with
  | nil => simpa [readFolders] using hr
  | cons c n ih =>
    have hc : c ≠ '/' := fun h => hn (by simp [h])
    rw [List.cons_append, readFolders, if_neg hc]
    exact ih fun h => hn (List.mem_cons_of_mem c h)

theorem readFolders_complete (K : Text → Bool) (names : List Text)
    (hnames : ∀ n ∈ names, n ≠ [] ∧ '/' ∉ n) (v : Text) (hv : K v = true) :
    readFolders K false (names.flatMap (· ++ ['/']) ++ v) = true := by
  induction names with
  | nil => cases v <;> simp [readFolders, hv]
  | cons n names ih =>
    obtain ⟨hne, hslash⟩ := hnames n List.mem_cons_self
    have hr := ih fun m hm => hnames m (List.mem_cons_of_mem n hm)
    cases n with
    | nil => exact absurd rfl hne
    | cons c n =>
      have hc : c ≠ '/' := fun h => hslash (by simp [h])
      have hn : '/' ∉ n := fun h => hslash (List.mem_cons_of_mem c h)
      have := readFolders_name K hn _ hr
      simp only [List.flatMap_cons, List.cons_append, List.append_assoc, List.nil_append,
        readFolders, Bool.or_eq_true, Bool.and_eq_true]
      exact Or.inr ⟨by simpa using hc, by simpa using this⟩

theorem readFolders_iff (K : Text → Bool) (t : Text) :
    readFolders K false t = true ↔ ∃ u v, t = u ++ v ∧ Folders u ∧ K v = true := by
  constructor
  · exact (readFolders_sound K t).1
  · rintro ⟨u, v, rfl, ⟨names, hnames, rfl⟩, hv⟩
    exact readFolders_complete K names hnames v hv

/-- A slash and the rest of the line. -/
def Beneath (t : Text) : Prop := ∃ r, t = '/' :: r ∧ '\n' ∉ r

namespace Atom

/-- What an atom can read. -/
def Spells (k : Casing) : Atom → Text → Prop
  | char x, t => ∃ c, t = [c] ∧ x ∈ k.kin c
  | one, t => ∃ c, t = [c] ∧ c ≠ '/'
  | run, t => '/' ∉ t
  | name, t => t ≠ [] ∧ '/' ∉ t
  | folders, t => Folders t
  | below, t => Beneath t
  | within, t => t = [] ∨ Beneath t
  | anything, t => t ≠ [] ∧ '\n' ∉ t

theorem forall_inName (u : Text) : (∀ c ∈ u, inName c = true) ↔ '/' ∉ u := by
  simp only [inName, decide_eq_true_eq]
  exact ⟨fun h hm => h '/' hm rfl, fun h c hc he => h (he ▸ hc)⟩

theorem forall_inLine (u : Text) : (∀ c ∈ u, inLine c = true) ↔ '\n' ∉ u := by
  simp only [inLine, decide_eq_true_eq]
  exact ⟨fun h hm => h '\n' hm rfl, fun h c hc he => h (he ▸ hc)⟩

/-- One character and then as many as there may be, of which all fulfil `p`. -/
theorem readNext_readWhile_iff (p q : Char → Bool) (K : Text → Bool) (t : Text) :
    readNext p (readWhile q K) t = true ↔
      ∃ u v, t = u ++ v ∧ (∃ c r, u = c :: r ∧ p c = true ∧ ∀ d ∈ r, q d = true) ∧ K v = true := by
  simp only [readNext_iff, readWhile_iff]
  constructor
  · rintro ⟨_, _, rfl, ⟨c, rfl, hc⟩, r, v, rfl, hr, hv⟩
    exact ⟨c :: r, v, rfl, ⟨c, r, rfl, hc, hr⟩, hv⟩
  · rintro ⟨_, v, rfl, ⟨c, r, rfl, hc, hr⟩, hv⟩
    exact ⟨[c], r ++ v, rfl, ⟨c, rfl, hc⟩, r, v, rfl, hr, hv⟩

theorem beneath_iff (u : Text) :
    (∃ c r, u = c :: r ∧ isSlash c = true ∧ ∀ d ∈ r, inLine d = true) ↔ Beneath u := by
  simp only [isSlash, decide_eq_true_eq, forall_inLine, Beneath]
  constructor
  · rintro ⟨_, r, rfl, rfl, hr⟩
    exact ⟨r, rfl, hr⟩
  · rintro ⟨r, rfl, hr⟩
    exact ⟨'/', r, rfl, rfl, hr⟩

theorem nonempty_all_iff (p : Char → Bool) (u : Text) :
    (∃ c r, u = c :: r ∧ p c = true ∧ ∀ d ∈ r, p d = true) ↔ u ≠ [] ∧ ∀ d ∈ u, p d = true := by
  cases u with
  | nil => simp
  | cons c r =>
    constructor
    · rintro ⟨_, _, h, hc, hr⟩
      obtain ⟨rfl, rfl⟩ := List.cons.inj h
      exact ⟨by simp, by simpa [hc] using hr⟩
    · rintro ⟨_, h⟩
      exact ⟨c, r, rfl, h c List.mem_cons_self, fun d hd => h d (List.mem_cons_of_mem c hd)⟩

theorem reads_iff (k : Casing) (a : Atom) (K : Text → Bool) (t : Text) :
    a.reads k K t = true ↔ ∃ u v, t = u ++ v ∧ a.Spells k u ∧ K v = true := by
  cases a with
  | char x => simp only [reads, readNext_iff, Spells, decide_eq_true_eq]
  | one => simp only [reads, readNext_iff, Spells, inName, decide_eq_true_eq]
  | run => simp only [reads, readWhile_iff, Spells, forall_inName]
  | name =>
    simp only [reads, readNext_readWhile_iff, nonempty_all_iff]
    simp only [forall_inName, Spells]
  | folders => exact readFolders_iff K t
  | below => simp only [reads, readNext_readWhile_iff, beneath_iff, Spells]
  | within =>
    simp only [reads, Bool.or_eq_true, readNext_readWhile_iff, beneath_iff, Spells, or_and_right,
      and_or_left, exists_or]
    refine or_congr_left ⟨fun h => ⟨[], t, rfl, rfl, h⟩, ?_⟩
    rintro ⟨_, v, rfl, rfl, hv⟩
    exact hv
  | anything =>
    simp only [reads, readNext_readWhile_iff, nonempty_all_iff]
    simp only [forall_inLine, Spells]

end Atom

/-- A text in three parts is cut behind the first two of them, or behind the first. -/
theorem exists_append_assoc {P Q R : Text → Prop} {t : Text} :
    (∃ x w, t = x ++ w ∧ (∃ u v, x = u ++ v ∧ P u ∧ Q v) ∧ R w) ↔
      ∃ u x, t = u ++ x ∧ P u ∧ ∃ v w, x = v ++ w ∧ Q v ∧ R w := by
  constructor
  · rintro ⟨_, w, rfl, ⟨u, v, rfl, hu, hv⟩, hw⟩
    exact ⟨u, v ++ w, by simp, hu, v, w, rfl, hv, hw⟩
  · rintro ⟨u, _, rfl, hu, v, w, rfl, hv, hw⟩
    exact ⟨u ++ v, w, by simp, ⟨u, v, rfl, hu, hv⟩, hw⟩

namespace Pattern

/-- What a pattern can read. -/
def Spells (k : Casing) : Pattern → Text → Prop
  | empty, t => t = []
  | atom a, t => a.Spells k t
  | bracket b, t => ∃ c, t = [c] ∧ b.Accepts k c
  | seq p q, t => ∃ u v, t = u ++ v ∧ Spells k p u ∧ Spells k q v
  | alt p q, t => Spells k p t ∨ Spells k q t

theorem reads_iff (k : Casing) (p : Pattern) (K : Text → Bool) (t : Text) :
    p.reads k K t = true ↔ ∃ u v, t = u ++ v ∧ p.Spells k u ∧ K v = true := by
  induction p generalizing K t with
  | empty =>
    simp only [reads, Spells]
    constructor
    · intro h
      exact ⟨[], t, rfl, rfl, h⟩
    · rintro ⟨u, v, ht, hu, hv⟩
      simpa [ht, hu] using hv
  | atom a => exact a.reads_iff k K t
  | bracket b => simp only [reads, readNext_iff, Spells, decide_eq_true_eq]
  | seq p q ihp ihq =>
    simp only [reads, ihp, ihq, Spells]
    exact exists_append_assoc.symm
  | alt p q ihp ihq =>
    simp only [reads, Bool.or_eq_true, ihp, ihq, Spells, or_and_right, and_or_left, exists_or]

theorem accepts_iff_spells (k : Casing) (p : Pattern) (t : Text) :
    p.Accepts k t ↔ p.Spells k t := by
  simp only [Accepts, reads_iff, List.isEmpty_iff]
  constructor
  · rintro ⟨u, _, rfl, hu, rfl⟩
    simpa using hu
  · intro h
    exact ⟨t, [], by simp, h, rfl⟩

end Pattern

end TreeCensus.Glob
