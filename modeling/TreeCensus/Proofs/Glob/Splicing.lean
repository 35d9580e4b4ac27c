import Mathlib.Data.List.Forall2
import TreeCensus.Proofs.Glob.Bonds

/-!
# Expanding braces in a longer text

A text without braces before or after a glob is found again before or after each of its alternatives
(`mem_expand_surrounded`). Leaving out empty names and dots of a glob leaves out some of those of each
alternative, and no more (`exists_mem_expand`), so it does not bear on what compiles (`Thins.pathBonds?`).
-/

namespace TreeCensus.Glob

set_option autoImplicit false

theorem alternatives?_cons {c : Char} (hc : c ≠ '\\') (d : Nat) (part : Text) (done : List Text)
    (r : Text) :
    alternatives? d part done (c :: r) =
      if c = '\x7b' then alternatives? (d + 1) (c :: part) done r
      else if c = '\x7d' then
        match d with
        | 0 => some ((part.reverse :: done).reverse, r)
        | d + 1 => alternatives? d (c :: part) done r
      else if c = ',' ∧ d = 0 then alternatives? 0 [] (part.reverse :: done) r
      else alternatives? d (c :: part) done r := by
  by_cases hopen : c = '\x7b'
  · subst hopen
    cases d <;> simp [alternatives?]
  · by_cases hclose : c = '\x7d'
    · subst hclose
      cases d <;> simp [alternatives?]
    · by_cases hcomma : c = ','
      · subst hcomma
        cases d <;> simp [alternatives?]
      · cases d <;> rw [alternatives?] <;> simp_all

theorem firstGroup?_open (before r : Text) :
    firstGroup? before ('\x7b' :: r) =
      match alternatives? 0 [] [] r with
      | some (a :: b :: alts, after) => some ⟨before.reverse, a :: b :: alts, after⟩
      | _ => firstGroup? ('\x7b' :: before) r := by
  rcases h : alternatives? 0 [] [] r with _ | ⟨_ | ⟨a, _ | ⟨b, alts⟩⟩, after⟩ <;>
    simp only [firstGroup?, h]

theorem firstGroup?_cons {c : Char} (hc : c ≠ '\\') (hopen : c ≠ '\x7b') (before r : Text) :
    firstGroup? before (c :: r) = firstGroup? (c :: before) r := by
  rw [firstGroup?] <;> simp_all

section Surrounding

/-- A group with text around it. -/
def BraceGroup.surround (u v : Text) (g : BraceGroup) : BraceGroup :=
  ⟨u ++ g.before, g.alternatives, g.after ++ v⟩

variable {u v : Text}

theorem alternatives?_eq_none {t : Text} (h : '\x7d' ∉ t) (d : Nat) (part : Text)
    (done : List Text) : alternatives? d part done t = none := by
  fun_induction alternatives? d part done t <;> simp_all

theorem alternatives?_append (hv : '\x7d' ∉ v) {t : Text} (ht : '\\' ∉ t) (d : Nat) (part : Text)
    (done : List Text) :
    alternatives? d part done (t ++ v) =
      (alternatives? d part done t).map fun p => (p.1, p.2 ++ v) := by
  induction t generalizing d part done with
  | nil => rw [List.nil_append, alternatives?_eq_none hv, alternatives?]; rfl
  | cons c r ih =>
    simp only [List.mem_cons, not_or] at ht
    rw [List.cons_append, alternatives?_cons (Ne.symm ht.1), alternatives?_cons (Ne.symm ht.1)]
    split
    · exact ih ht.2 _ _ _
    · split
      · split
        · rfl
        · exact ih ht.2 _ _ _
      · split <;> exact ih ht.2 _ _ _

theorem firstGroup?_eq_none {t : Text} (hopen : '\x7b' ∉ t) (before : Text) :
    firstGroup? before t = none := by
  fun_induction firstGroup? before t <;> simp_all

theorem firstGroup?_append (hv : '\x7d' ∉ v) (hopen : '\x7b' ∉ v) {t : Text} (ht : '\\' ∉ t)
    (before : Text) :
    firstGroup? (before ++ u.reverse) (t ++ v) = (firstGroup? before t).map (·.surround u v) := by
  induction t generalizing before with
  | nil => rw [List.nil_append, firstGroup?_eq_none hopen, firstGroup?]; rfl
  | cons c r ih =>
    simp only [List.mem_cons, not_or] at ht
    rw [List.cons_append]
    by_cases hc : c = '\x7b'
    · subst hc
      have hpassed := ih ht.2 ('\x7b' :: before)
      rw [firstGroup?_open, firstGroup?_open, alternatives?_append hv ht.2]
      rcases alternatives? 0 [] [] r with _ | ⟨_ | ⟨a, _ | ⟨b, alts⟩⟩, after⟩
      · exact hpassed
      · exact hpassed
      · exact hpassed
      · simp [BraceGroup.surround]
    · rw [firstGroup?_cons (Ne.symm ht.1) hc, firstGroup?_cons (Ne.symm ht.1) hc]
      exact ih ht.2 (c :: before)

theorem firstGroup?_surrounded (hopen : '\x7b' ∉ u) (hu : '\\' ∉ u) (before t : Text) :
    firstGroup? before (u ++ t) = firstGroup? (u.reverse ++ before) t := by
  induction u generalizing before with
  | nil => rfl
  | cons c u ih =>
    simp only [List.mem_cons, not_or] at hopen hu
    rw [List.cons_append, firstGroup?_cons (Ne.symm hu.1) (Ne.symm hopen.1), ih hopen.2 hu.2]
    simp

/-- What stands around a glob stands around each of its alternatives. -/
theorem mem_expand_surrounded (hopen : '\x7b' ∉ u) (hu : '\\' ∉ u) (hopen' : '\x7b' ∉ v)
    (hv : '\x7d' ∉ v) {glob : Text} (hglob : '\\' ∉ glob) (a : Text) :
    a ∈ expand (u ++ glob ++ v) ↔ ∃ b ∈ expand glob, a = u ++ b ++ v := by
  induction hn : glob.length using Nat.strongRecOn generalizing glob a with
  | ind n ih =>
    have hgroup : firstGroup? [] (u ++ glob ++ v) = (firstGroup? [] glob).map (·.surround u v) := by
      rw [List.append_assoc, firstGroup?_surrounded hopen hu, List.append_nil]
      exact firstGroup?_append hv hopen' hglob []
    cases hg : firstGroup? [] glob with
    | none =>
      rw [hg] at hgroup
      rw [expand_of_none hgroup, expand_of_none hg]
      simp
    | some g =>
      rw [hg] at hgroup
      rw [expand_of_some hgroup, expand_of_some hg]
      simp only [List.mem_eraseDups, List.mem_flatMap]
      have hchoice : ∀ b ∈ g.alternatives,
          a ∈ expand ((g.surround u v).before ++ b ++ (g.surround u v).after) ↔
            ∃ c ∈ expand (g.before ++ b ++ g.after), a = u ++ c ++ v := by
        intro b hb
        have hlt := length_of_firstGroup? hg hb
        have hfree : '\\' ∉ g.before ++ b ++ g.after := fun h =>
          hglob (by simpa using mem_of_mem_firstGroup? hg hb h)
        have hsame : (g.surround u v).before ++ b ++ (g.surround u v).after =
            u ++ (g.before ++ b ++ g.after) ++ v := by simp [BraceGroup.surround]
        rw [hsame]
        exact ih _ (by simpa [← hn] using hlt) hfree a rfl
      constructor
      · rintro ⟨b, hb, ha⟩
        obtain ⟨c, hc, rfl⟩ := (hchoice b hb).mp ha
        exact ⟨c, ⟨b, hb, hc⟩, rfl⟩
      · rintro ⟨c, ⟨b, hb, hc⟩, rfl⟩
        exact ⟨b, hb, (hchoice b hb).mpr ⟨c, hc, rfl⟩⟩

end Surrounding

/-- Empty names and dots, with a slash before each of them. -/
inductive Silent : Text → Prop
  | nil : Silent []
  | empty {s : Text} : Silent s → Silent ('/' :: s)
  | here {s : Text} : Silent s → Silent ('/' :: '.' :: s)

theorem Silent.append {s t : Text} (hs : Silent s) (ht : Silent t) : Silent (s ++ t) := by
  induction hs with
  | nil => exact ht
  | empty _ ih => exact .empty ih
  | here _ ih => exact .here ih

theorem Silent.mem {s : Text} (h : Silent s) {c : Char} (hc : c ∈ s) : c = '/' ∨ c = '.' := by
  induction h with
  | nil => cases hc
  | empty _ ih =>
    rcases List.mem_cons.mp hc with rfl | hc
    · exact Or.inl rfl
    · exact ih hc
  | here _ ih =>
    rcases List.mem_cons.mp hc with rfl | hc
    · exact Or.inl rfl
    rcases List.mem_cons.mp hc with rfl | hc
    · exact Or.inr rfl
    · exact ih hc

theorem Silent.alternatives? {s : Text} (h : Silent s) (d : Nat) (part : Text) (done : List Text)
    (r : Text) :
    alternatives? d part done (s ++ r) = alternatives? d (s.reverse ++ part) done r := by
  have hmem : ∀ c ∈ s, c = '/' ∨ c = '.' := fun c hc => h.mem hc
  clear h
  induction s generalizing part with
  | nil => rfl
  | cons c s ih =>
    have hc : c ≠ '\\' ∧ c ≠ '\x7b' ∧ c ≠ '\x7d' ∧ c ≠ ',' := by
      rcases hmem c List.mem_cons_self with rfl | rfl <;> decide
    rw [List.cons_append, alternatives?_cons hc.1, if_neg hc.2.1, if_neg hc.2.2.1,
      if_neg fun h => hc.2.2.2 h.1, ih _ fun c hc => hmem c (List.mem_cons_of_mem _ hc)]
    simp

/-- The second text has no backslash, and is the first one without some of its empty names and dots,
which all have a slash after them. -/
inductive Thins : Text → Text → Prop
  | nil : Thins [] []
  | keep {c : Char} {t t' : Text} : c ≠ '\\' → Thins t t' → Thins (c :: t) (c :: t')
  | drop {s t t' : Text} : Silent s → Thins t t' → Thins (s ++ '/' :: t) ('/' :: t')

theorem Thins.refl {t : Text} (h : '\\' ∉ t) : Thins t t := by
  induction t with
  | nil => exact .nil
  | cons c t ih =>
    simp only [List.mem_cons, not_or] at h
    exact .keep (Ne.symm h.1) (ih h.2)

theorem Thins.append {t t' u u' : Text} (ht : Thins t t') (hu : Thins u u') :
    Thins (t ++ u) (t' ++ u') := by
  induction ht with
  | nil => exact hu
  | keep hc _ ih => exact .keep hc ih
  | drop hs _ ih =>
    rw [List.append_assoc]
    exact .drop hs ih

theorem Thins.snoc {t t' : Text} (h : Thins t.reverse t'.reverse) {c : Char} (hc : c ≠ '\\') :
    Thins (c :: t).reverse (c :: t').reverse := by
  rw [List.reverse_cons, List.reverse_cons]
  exact h.append (.keep hc .nil)

section Thinning

open List (Forall₂)

/-- What reading on in a group gives on both sides. -/
def ThinsChoices (p p' : List Text × Text) : Prop := Forall₂ Thins p.1 p'.1 ∧ Thins p.2 p'.2

structure ThinsGroup (g g' : BraceGroup) : Prop where
  before : Thins g.before g'.before
  alternatives : Forall₂ Thins g.alternatives g'.alternatives
  after : Thins g.after g'.after

theorem exists_thins_of_mem {ts ts' : List Text} (h : Forall₂ Thins ts ts') {t' : Text}
    (ht : t' ∈ ts') : ∃ t ∈ ts, Thins t t' := by
  induction h with
  | nil => cases ht
  | @cons t u ts us hthins _ ih =>
    rcases List.mem_cons.mp ht with rfl | ht
    · exact ⟨t, List.mem_cons_self, hthins⟩
    · obtain ⟨s, hs, hst⟩ := ih ht
      exact ⟨s, List.mem_cons_of_mem t hs, hst⟩

theorem Thins.alternatives? {t t' : Text} (h : Thins t t') (d : Nat) {part part' : Text}
    (hpart : Thins part.reverse part'.reverse) {done done' : List Text}
    (hdone : Forall₂ Thins done done') :
    Option.Rel ThinsChoices (alternatives? d part done t) (alternatives? d part' done' t') := by
  induction h generalizing d part part' done done' with
  | nil => exact .none
  | @keep c t t' hc ht ih =>
    have hnext := hpart.snoc hc
    rw [alternatives?_cons hc, alternatives?_cons hc]
    split
    · exact ih _ hnext hdone
    · split
      · cases d with
        | zero =>
          refine .some ⟨?_, ht⟩
          exact List.rel_reverse (.cons hpart hdone)
        | succ d => exact ih d hnext hdone
      · split
        · exact @ih 0 [] [] .nil _ _ (.cons hpart hdone)
        · exact ih d hnext hdone
  | @drop s t t' hs ht ih =>
    have hplain : ∀ (part : Text) (done : List Text) (r : Text),
        Glob.alternatives? d part done ('/' :: r) = Glob.alternatives? d ('/' :: part) done r := by
      intro part done r
      rw [alternatives?_cons (by decide), if_neg (by decide), if_neg (by decide),
        if_neg fun h => absurd h.1 (by decide)]
    rw [hs.alternatives?, hplain, hplain]
    refine ih d ?_ hdone
    rw [List.reverse_cons, List.reverse_cons, List.reverse_append, List.reverse_reverse,
      List.append_assoc]
    exact hpart.append (.drop hs .nil)

theorem Thins.firstGroup? {t t' : Text} (h : Thins t t') {before before' : Text}
    (hbefore : Thins before.reverse before'.reverse) :
    Option.Rel ThinsGroup (firstGroup? before t) (firstGroup? before' t') := by
  induction h generalizing before before' with
  | nil => exact .none
  | @keep c t t' hc ht ih =>
    by_cases hopen : c = '\x7b'
    · subst hopen
      have hpassed := ih (hbefore.snoc hc)
      have halts := @Thins.alternatives? t t' ht 0 [] [] .nil [] [] .nil
      rw [firstGroup?_open, firstGroup?_open]
      -- One alternative makes no group, and both sides have equally many.
      generalize Glob.alternatives? 0 [] [] t = r at halts
      generalize Glob.alternatives? 0 [] [] t' = r' at halts
      rcases halts with ⟨hchoices, hafter⟩ | _
      · next p p' =>
        obtain ⟨alts, after⟩ := p
        obtain ⟨alts', after'⟩ := p'
        rcases hchoices with _ | ⟨ha, _ | ⟨hb, hrest⟩⟩
        · exact hpassed
        · exact hpassed
        · exact .some ⟨hbefore, .cons ha (.cons hb hrest), hafter⟩
      · exact hpassed
    · rw [firstGroup?_cons hc hopen, firstGroup?_cons hc hopen]
      exact ih (hbefore.snoc hc)
  | @drop s t t' hs ht ih =>
    have hsilent : '\x7b' ∉ s ∧ '\\' ∉ s := by
      constructor <;> intro hc <;> rcases hs.mem hc with h | h <;> exact absurd h (by decide)
    rw [firstGroup?_surrounded hsilent.1 hsilent.2, firstGroup?_cons (by decide) (by decide),
      firstGroup?_cons (by decide) (by decide)]
    apply ih
    rw [List.reverse_cons, List.reverse_cons, List.reverse_append, List.reverse_reverse,
      List.append_assoc]
    exact hbefore.append (.drop hs .nil)

end Thinning

/-- Each alternative of the thinner glob is a thinner alternative. -/
theorem exists_mem_expand {glob glob' a' : Text} (h : Thins glob glob') (ha : a' ∈ expand glob') :
    ∃ a ∈ expand glob, Thins a a' := by
  induction hn : glob'.length using Nat.strongRecOn generalizing glob glob' a' with
  | ind n ih =>
    have hgroup := @Thins.firstGroup? glob glob' h [] [] .nil
    cases hg' : firstGroup? [] glob' with
    | none =>
      cases hg : firstGroup? [] glob with
      | none =>
        rw [expand_of_none hg'] at ha
        obtain rfl := List.mem_singleton.mp ha
        rw [expand_of_none hg]
        exact ⟨glob, List.mem_singleton_self _, h⟩
      | some g =>
        rw [hg, hg'] at hgroup
        cases hgroup
    | some g' =>
      cases hg : firstGroup? [] glob with
      | none =>
        rw [hg, hg'] at hgroup
        cases hgroup
      | some g =>
        rw [hg, hg'] at hgroup
        obtain ⟨hbefore, halts, hafter⟩ : ThinsGroup g g' := by
          cases hgroup with
          | some h => exact h
        rw [expand_of_some hg', List.mem_eraseDups, List.mem_flatMap] at ha
        obtain ⟨b', hb', ha⟩ := ha
        obtain ⟨b, hb, hthins⟩ := exists_thins_of_mem halts hb'
        have hlt := length_of_firstGroup? hg' hb'
        obtain ⟨a, ha, hthins⟩ := ih _ (by simpa [← hn] using hlt)
          ((hbefore.append hthins).append hafter) ha rfl
        refine ⟨a, ?_, hthins⟩
        rw [expand_of_some hg, List.mem_eraseDups, List.mem_flatMap]
        exact ⟨b, hb, ha⟩

/-- Between two slashes there is nothing that has bonds. -/
theorem Silent.exists_pieces {s : Text} (h : Silent s) (t : Text) :
    ∃ ps, Text.pieces '/' (s ++ '/' :: t) = [] :: (ps ++ Text.pieces '/' t) ∧
      ∀ p ∈ ps, segmentBonds? p = some [] := by
  induction h with
  | nil => exact ⟨[], by simp [Text.pieces], by simp⟩
  | empty _ ih =>
    obtain ⟨ps, hps, hloose⟩ := ih
    refine ⟨[] :: ps, by simp [Text.pieces, hps], ?_⟩
    intro p hp
    rcases List.mem_cons.mp hp with rfl | hp
    · exact segmentBonds?_nil
    · exact hloose p hp
  | here _ ih =>
    obtain ⟨ps, hps, hloose⟩ := ih
    refine ⟨['.'] :: ps, by simp [Text.pieces, hps], ?_⟩
    intro p hp
    rcases List.mem_cons.mp hp with rfl | hp
    · exact segmentBonds?_dot
    · exact hloose p hp

theorem Thins.exists_pieces {t t' : Text} (h : Thins t t') :
    ∃ p ps ps', Text.pieces '/' t = p :: ps ∧ Text.pieces '/' t' = p :: ps' ∧
      Glob.pathBonds? ps = Glob.pathBonds? ps' := by
  induction h with
  | nil => exact ⟨[], [], [], rfl, rfl, rfl⟩
  | @keep c t t' hc _ ih =>
    obtain ⟨p, ps, ps', hp, hp', hbonds⟩ := ih
    by_cases hslash : c = '/'
    · refine ⟨[], p :: ps, p :: ps', ?_, ?_, ?_⟩
      · rw [Text.pieces, if_pos hslash, hp]
      · rw [Text.pieces, if_pos hslash, hp']
      · rw [Glob.pathBonds?, Glob.pathBonds?, hbonds]
    · refine ⟨c :: p, ps, ps', ?_, ?_, hbonds⟩
      · rw [Text.pieces, if_neg hslash, hp]
      · rw [Text.pieces, if_neg hslash, hp']
  | @drop s t t' hs _ ih =>
    obtain ⟨p, ps, ps', hp, hp', hbonds⟩ := ih
    obtain ⟨qs, hqs, hloose⟩ := hs.exists_pieces t
    refine ⟨[], qs ++ Text.pieces '/' t, Text.pieces '/' t', hqs, by rw [Text.pieces, if_pos rfl], ?_⟩
    rw [pathBonds?_append_of_loose hloose, hp, hp', Glob.pathBonds?, Glob.pathBonds?, hbonds]

theorem Thins.pathBonds? {t t' : Text} (h : Thins t t') :
    pathBonds? (Text.pieces '/' t) = pathBonds? (Text.pieces '/' t') := by
  obtain ⟨p, ps, ps', hp, hp', hbonds⟩ := h.exists_pieces
  rw [hp, hp', Glob.pathBonds?, Glob.pathBonds?, hbonds]

end TreeCensus.Glob
