import TreeCensus.Glob.Brace
import TreeCensus.Glob.Token

/-!
# Characters of alternatives and segments

Expanding braces, dropping what leads a glob, and cutting it into segments bring in no characters, apart
from the slashes that stand for backslashes.
-/

namespace TreeCensus.Glob

set_option autoImplicit false

theorem mem_of_mem_pieces {sep c : Char} {t p : Text} (hp : p ∈ Text.pieces sep t) (hc : c ∈ p) :
    c ∈ t := by
  induction t generalizing p with
  | nil =>
    obtain rfl : p = [] := by simpa [Text.pieces] using hp
    exact hc
  | cons d r ih =>
    rw [Text.pieces] at hp
    split at hp
    · rcases List.mem_cons.mp hp with rfl | hp
      · cases hc
      · exact List.mem_cons_of_mem d (ih hp hc)
    · cases hr : Text.pieces sep r with
      | nil => exact absurd hr (Text.pieces_ne_nil sep r)
      | cons q qs =>
        rw [hr] at hp ih
        rcases List.mem_cons.mp hp with rfl | hp
        · rcases List.mem_cons.mp hc with rfl | hc
          · exact List.mem_cons_self
          · exact List.mem_cons_of_mem d (ih List.mem_cons_self hc)
        · exact List.mem_cons_of_mem d (ih (List.mem_cons_of_mem q hp) hc)

theorem mem_of_mem_bare {c : Char} {t : Text} (h : c ∈ bare t) : c = '/' ∨ c ∈ t := by
  have hreplace : c ∈ Text.replace '\\' '/' t → c = '/' ∨ c ∈ t := by
    intro h
    obtain ⟨d, hd, hdc⟩ := List.mem_map.mp h
    split at hdc
    · exact Or.inl hdc.symm
    · exact Or.inr (hdc ▸ hd)
  apply hreplace
  unfold bare at h
  split at h
  · next hr => exact hr ▸ List.mem_cons_of_mem _ h
  · next hr => exact hr ▸ List.mem_cons_of_mem _ (List.mem_cons_of_mem _ h)
  · exact h

theorem mem_of_mem_collapse {s : Text} {segs : List Text} (h : s ∈ collapse segs) : s ∈ segs := by
  fun_induction collapse segs with
  | case1 s t r _ ih => exact List.mem_cons_of_mem s (ih h)
  | case2 a t r _ ih =>
    rcases List.mem_cons.mp h with rfl | h
    · exact List.mem_cons_self
    · exact List.mem_cons_of_mem a (ih h)
  | case3 => exact h

theorem mem_of_mem_alternatives? {d : Nat} {part : Text} {done : List Text} {t : Text}
    {alts : List Text} {rest : Text} (h : alternatives? d part done t = some (alts, rest)) (c : Char) :
    (∀ a ∈ alts, c ∈ a → c ∈ part ∨ (∃ b ∈ done, c ∈ b) ∨ c ∈ t) ∧ (c ∈ rest → c ∈ t) := by
  fun_induction alternatives? d part done t with
  | case1 => simp at h
  | case2 => simp at h
  | case5 part done r =>
    obtain ⟨rfl, rfl⟩ : (part.reverse :: done).reverse = alts ∧ r = rest := by simpa using h
    refine ⟨?_, fun hc => List.mem_cons_of_mem _ hc⟩
    intro a ha hc
    rcases List.mem_cons.mp (List.mem_reverse.mp ha) with rfl | ha
    · exact Or.inl (List.mem_reverse.mp hc)
    · exact Or.inr (Or.inl ⟨a, ha, hc⟩)
  | _ =>
    rename_i ih
    obtain ⟨halts, hrest⟩ := ih h
    refine ⟨?_, fun hc => by simp [hrest hc]⟩
    intro a ha hc
    have := halts a ha hc
    simp only [List.mem_cons, List.mem_reverse, List.not_mem_nil, exists_eq_or_imp] at this ⊢
    grind

theorem mem_of_mem_firstGroup? {before t : Text} {g : BraceGroup} (h : firstGroup? before t = some g)
    {a : Text} (ha : a ∈ g.alternatives) {c : Char} (hc : c ∈ g.before ++ a ++ g.after) :
    c ∈ before ∨ c ∈ t := by
  fun_induction firstGroup? before t with
  | case1 => simp at h
  | case2 => simp at h
  | case4 before r a' b alts after hg =>
    obtain rfl : BraceGroup.mk before.reverse (a' :: b :: alts) after = g := by simpa using h
    obtain ⟨halts, hrest⟩ := mem_of_mem_alternatives? hg c
    have := halts a ha
    simp only [List.mem_append, List.mem_reverse] at hc
    grind
  | _ =>
    rename_i ih
    have := ih h
    grind

theorem mem_of_mem_expand {glob a : Text} (ha : a ∈ expand glob) {c : Char} (hc : c ∈ a) :
    c ∈ glob := by
  induction hn : glob.length using Nat.strongRecOn generalizing glob a with
  | ind n ih =>
    cases hg : firstGroup? [] glob with
    | none =>
      rw [expand_of_none hg] at ha
      exact List.mem_singleton.mp ha ▸ hc
    | some g =>
      rw [expand_of_some hg, List.mem_eraseDups, List.mem_flatMap] at ha
      obtain ⟨b, hb, ha⟩ := ha
      have hlt := length_of_firstGroup? hg hb
      have hmem := ih _ (by simpa [← hn] using hlt) ha hc rfl
      simpa using mem_of_mem_firstGroup? hg hb hmem

theorem not_mem_of_mem_segments {glob s : Text} (hs : s ∈ segments glob) : '/' ∉ s :=
  Text.not_mem_of_mem_pieces (mem_of_mem_collapse hs)

theorem mem_of_mem_segments {glob s : Text} (hs : s ∈ segments glob) {c : Char} (hc : c ∈ s) :
    c ∈ glob := by
  have hbare := mem_of_mem_bare (mem_of_mem_pieces (mem_of_mem_collapse hs) hc)
  apply hbare.resolve_left
  rintro rfl
  exact not_mem_of_mem_segments hs hc

end TreeCensus.Glob
