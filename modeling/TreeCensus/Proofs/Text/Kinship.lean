import Mathlib.Data.List.Forall2
import Mathlib.Data.List.Sort
import TreeCensus.Text.Kin

/-!
# Kinship is an equivalence

No letter lies in two of the clusters and runs of letters with variants, so kin have the same kin
(`mem_kin_iff_of_mem_kin`). The runs are told apart by their bounds, in one pass over them in order, and
never letter by letter.
-/

namespace TreeCensus.Text

set_option autoImplicit false

/-- Every `step`-th number from `first` to `last`. -/
structure Stride where
  first : Nat
  last : Nat
  step : Nat

namespace Stride

def Holds (s : Stride) (n : Nat) : Prop := s.first ≤ n ∧ n ≤ s.last ∧ (n - s.first) % s.step = 0

/-- One of two strides ends before the other one begins, or they step past each other. -/
def Apart (s s' : Stride) : Prop :=
  s.last < s'.first ∨ s'.last < s.first ∨ s.step = s'.step ∧ s.first % s.step ≠ s'.first % s.step

instance (s s' : Stride) : Decidable (s.Apart s') := inferInstanceAs (Decidable (_ ∨ _ ∨ _ ∧ _))

theorem Apart.symm {s s' : Stride} (h : s.Apart s') : s'.Apart s := by
  rcases h with h | h | ⟨hstep, hmod⟩
  · exact .inr (.inl h)
  · exact .inl h
  · exact .inr (.inr ⟨hstep.symm, hstep ▸ hmod.symm⟩)

theorem Holds.mod_eq {s : Stride} {n : Nat} (h : s.Holds n) : n % s.step = s.first % s.step := by
  obtain ⟨hfirst, -, hstep⟩ := h
  rw [← Nat.sub_add_cancel hfirst, Nat.add_mod, hstep, Nat.zero_add, Nat.mod_mod]

theorem Apart.not_holds {s s' : Stride} (h : s.Apart s') {n : Nat} (hs : s.Holds n) : ¬ s'.Holds n := by
  intro hs'
  rcases h with h | h | ⟨hstep, hmod⟩
  · exact absurd (Nat.le_trans hs'.1 hs.2.1) (Nat.not_le.mpr h)
  · exact absurd (Nat.le_trans hs.1 hs'.2.1) (Nat.not_le.mpr h)
  · exact hmod (hs.mod_eq.symm.trans (hstep ▸ hs'.mod_eq))

/-- Whether a stride is apart from those after it, of which each begins no earlier than the one before: only
those that begin before it ends are looked at. -/
def keepsOff (s : Stride) : List Stride → Bool
  | [] => true
  | t :: ts => s.last < t.first || (s.Apart t && keepsOff s ts)

def keepOff : List Stride → Bool
  | [] => true
  | s :: ss => s.keepsOff ss && keepOff ss

theorem apart_of_keepsOff {s : Stride} {ss : List Stride} (hs : ss.Pairwise (·.first ≤ ·.first))
    (h : s.keepsOff ss = true) : ∀ t ∈ ss, s.Apart t := by
  induction ss with
  | nil => simp
  | cons t ts ih =>
    obtain ⟨hle, hts⟩ := List.pairwise_cons.mp hs
    rw [keepsOff, Bool.or_eq_true, Bool.and_eq_true, decide_eq_true_iff, decide_eq_true_iff] at h
    rw [List.forall_mem_cons]
    rcases h with hlast | ⟨ht, hrest⟩
    · exact ⟨.inl hlast, fun u hu => .inl (Nat.lt_of_lt_of_le hlast (hle u hu))⟩
    · exact ⟨ht, ih hts hrest⟩

theorem pairwise_of_keepOff {ss : List Stride} (hs : ss.Pairwise (·.first ≤ ·.first))
    (h : keepOff ss = true) : ss.Pairwise Apart := by
  induction ss with
  | nil => exact .nil
  | cons s ss ih =>
    rw [keepOff, Bool.and_eq_true] at h
    obtain ⟨-, hss⟩ := List.pairwise_cons.mp hs
    exact .cons (apart_of_keepsOff hss h.1) (ih hss h.2)

instance : IsTrans Stride (·.first ≤ ·.first) := ⟨fun _ _ _ => Nat.le_trans⟩

instance : Std.Total (fun s t : Stride => s.first ≤ t.first) := ⟨fun s t => Nat.le_total s.first t.first⟩

end Stride

namespace CaseRun

variable {r : CaseRun} {n m : Nat}

/-- The letters of a run, and their variants. -/
def strides (r : CaseRun) : List Stride :=
  [⟨r.first, r.last, r.step⟩, ⟨r.first + r.shift, r.last + r.shift, r.step⟩]

theorem holds_add_shift (h : r.Holds n) :
    Stride.Holds ⟨r.first + r.shift, r.last + r.shift, r.step⟩ (n + r.shift) := by
  obtain ⟨hfirst, hlast, hstep⟩ := h
  exact ⟨Nat.add_le_add_right hfirst _, Nat.add_le_add_right hlast _, by rwa [Nat.add_sub_add_right]⟩

theorem holds_of_partner? (h : r.partner? n = some m) : ∃ s ∈ r.strides, s.Holds n := by
  unfold partner? at h
  split at h
  · next hn => exact ⟨_, List.mem_cons_self, hn⟩
  · split at h
    · next hn =>
      have hshift := holds_add_shift hn.2
      rw [Nat.sub_add_cancel hn.1] at hshift
      exact ⟨_, List.mem_cons_of_mem _ (List.mem_singleton_self _), hshift⟩
    · cases h

/-- No letter of a run is the variant of another one, so the variant's variant is the letter. -/
theorem partner?_symm (hr : r.strides.Pairwise Stride.Apart) (h : r.partner? n = some m) :
    r.partner? m = some n := by
  unfold partner? at h
  split at h
  · next hn =>
    obtain rfl := Option.some.inj h
    have hnot : ¬ r.Holds (n + r.shift) := by
      have hapart := (List.pairwise_cons.mp hr).1 _ (List.mem_singleton_self _)
      exact hapart.symm.not_holds (holds_add_shift hn)
    rw [partner?, if_neg hnot, if_pos ⟨Nat.le_add_left _ _, (Nat.add_sub_cancel n r.shift).symm ▸ hn⟩,
      Nat.add_sub_cancel]
  · split at h
    · next hn =>
      obtain rfl := Option.some.inj h
      rw [partner?, if_pos hn.2, Nat.sub_add_cancel hn.1]
    · cases h

end CaseRun

section Runs

variable {r : CaseRun} {n m : Nat}

theorem pairwise_apart : (caseRuns.flatMap CaseRun.strides).Pairwise Stride.Apart := by
  have hsorted : Stride.keepOff ((caseRuns.flatMap CaseRun.strides).insertionSort (·.first ≤ ·.first)) = true := by
    decide +kernel
  rw [← (List.perm_insertionSort (·.first ≤ ·.first) _).pairwise_iff Stride.Apart.symm]
  exact Stride.pairwise_of_keepOff (List.pairwise_insertionSort _ _) hsorted

theorem partner?_symm (hr : r ∈ caseRuns) (h : r.partner? n = some m) : r.partner? m = some n :=
  CaseRun.partner?_symm ((List.pairwise_flatMap.mp pairwise_apart).1 r hr) h

/-- No other run holds a letter of this one. -/
theorem findSome?_partner? (hr : r ∈ caseRuns) (h : r.partner? n = some m) :
    caseRuns.findSome? (·.partner? n) = some m := by
  obtain ⟨s, hs, hn⟩ := CaseRun.holds_of_partner? h
  have hpairwise := (List.pairwise_flatMap.mp pairwise_apart).2
  generalize caseRuns = rs at hr hpairwise
  induction rs with
  | nil => cases hr
  | cons r' rs ih =>
    obtain ⟨hhead, hrest⟩ := List.pairwise_cons.mp hpairwise
    rw [List.findSome?_cons]
    rcases List.mem_cons.mp hr with rfl | hr
    · rw [h]
    · cases h' : r'.partner? n with
      | none => exact ih hr hrest
      | some m' =>
        obtain ⟨s', hs', hn'⟩ := CaseRun.holds_of_partner? h'
        exact absurd hn ((hhead r hr s' hs' s hs).not_holds hn')

theorem bounds_of_partner? (h : r.partner? n = some m) : r.first ≤ n ∧ n ≤ r.last + r.shift := by
  obtain ⟨s, hs, hfirst, hlast, -⟩ := CaseRun.holds_of_partner? h
  simp only [CaseRun.strides, List.mem_cons, List.not_mem_nil, or_false] at hs
  rcases hs with rfl | rfl <;> dsimp only at hfirst hlast <;> omega

theorem isValidChar_of_partner? (hr : r ∈ caseRuns) (h : r.partner? n = some m) : m.isValidChar := by
  have hbounds : ∀ r ∈ caseRuns,
      r.last + r.shift < 0xD800 ∨ 0xDFFF < r.first ∧ r.last + r.shift < 0x110000 := by
    decide +kernel
  have hr' := hbounds r hr
  have hm := bounds_of_partner? (partner?_symm hr h)
  rw [Nat.isValidChar]
  omega

theorem toNat_ofNat_of_partner? (hr : r ∈ caseRuns) (h : r.partner? n = some m) : (Char.ofNat m).toNat = m := by
  rw [Char.ofNat, dif_pos (isValidChar_of_partner? hr h)]
  rfl

end Runs

theorem find?_of_mem_cluster :
    ∀ cluster ∈ caseClusters, ∀ d ∈ cluster, caseClusters.find? (d ∈ ·) = some cluster := by
  have hall : (caseClusters.all fun cluster =>
      cluster.all fun d => caseClusters.find? (d ∈ ·) = some cluster) = true := by
    decide +kernel
  simpa only [List.all_eq_true, decide_eq_true_eq] using hall

/-- A letter of a cluster that lies in a run too has its variant in the cluster. -/
theorem partner?_of_mem_cluster {cluster : List Char} (hcluster : cluster ∈ caseClusters) {d : Char}
    (hd : d ∈ cluster) {r : CaseRun} (hr : r ∈ caseRuns) {m : Nat} (h : r.partner? d.toNat = some m) :
    Char.ofNat m ∈ cluster := by
  have hall : (caseClusters.all fun cluster => cluster.all fun d =>
      (caseRuns.filter fun r => Nat.ble r.first d.toNat && Nat.ble d.toNat (r.last + r.shift)).all fun r =>
        (r.partner? d.toNat).all fun m => Char.ofNat m ∈ cluster) = true := by
    decide +kernel
  simp only [List.all_eq_true, Option.all_eq_true, decide_eq_true_eq] at hall
  have hbounds := bounds_of_partner? h
  refine hall cluster hcluster d hd r (List.mem_filter.mpr ⟨hr, ?_⟩) m h
  rw [Bool.and_eq_true, Nat.ble_eq, Nat.ble_eq]
  exact hbounds

theorem mem_kin_iff_of_mem_kin {c d : Char} (h : d ∈ kin c) (x : Char) : x ∈ kin d ↔ x ∈ kin c := by
  cases hc : caseClusters.find? (c ∈ ·) with
  | some cluster =>
    have hkin : kin c = cluster := by rw [kin, hc]
    have hd := find?_of_mem_cluster cluster (List.mem_of_find?_eq_some hc) d (hkin ▸ h)
    rw [hkin, kin, hd]
  | none =>
    cases hrun : caseRuns.findSome? (·.partner? c.toNat) with
    | none =>
      have hkin : kin c = [c] := by rw [kin, hc, hrun]
      rw [hkin] at h
      rw [List.mem_singleton.mp h]
    | some n =>
      have hkin : kin c = [c, Char.ofNat n] := by rw [kin, hc, hrun]
      obtain ⟨r, hr, hn⟩ := List.exists_of_findSome?_eq_some hrun
      have hback : r.partner? (Char.ofNat n).toNat = some c.toNat := by
        rw [toNat_ofNat_of_partner? hr hn]
        exact partner?_symm hr hn
      rw [hkin] at h ⊢
      rcases List.mem_cons.mp h with rfl | h
      · rw [hkin]
      · obtain rfl := List.mem_singleton.mp h
        -- A variant in a cluster would have its own variant there, and that is `c`.
        have hfree : caseClusters.find? (Char.ofNat n ∈ ·) = none := by
          rw [List.find?_eq_none]
          intro cluster hcluster hmem
          have hpartner := partner?_of_mem_cluster hcluster (of_decide_eq_true hmem) hr hback
          rw [Char.ofNat_toNat] at hpartner
          exact List.find?_eq_none.mp hc cluster hcluster (decide_eq_true hpartner)
        have hkin' : kin (Char.ofNat n) = [Char.ofNat n, c] := by
          rw [kin, hfree, findSome?_partner? hr hback]
          simp only [Char.ofNat_toNat]
        rw [hkin']
        simp [or_comm]

theorem mem_kin_symm {c d : Char} (h : d ∈ kin c) : c ∈ kin d :=
  (mem_kin_iff_of_mem_kin h c).mpr (mem_kin_self c)

/-- A character without variants is nobody's variant. -/
theorem eq_iff_of_mem_kin {x c d : Char} (hx : kin x = [x]) (h : d ∈ kin c) : c = x ↔ d = x := by
  constructor
  · rintro rfl
    rw [hx] at h
    exact List.mem_singleton.mp h
  · rintro rfl
    have hc := mem_kin_symm h
    rw [hx] at hc
    exact List.mem_singleton.mp hc

theorem toLower_mem_kin (c : Char) : c.toLower ∈ kin c := by
  by_cases hc : c.val ≥ 'A'.val ∧ c.val ≤ 'Z'.val
  · have hletters : ∀ n < 26, (Char.ofNat (65 + n)).toLower ∈ kin (Char.ofNat (65 + n)) := by decide +kernel
    have hfirst : 65 ≤ c.toNat := UInt32.le_iff_toNat_le.mp hc.1
    have hlast : c.toNat ≤ 90 := UInt32.le_iff_toNat_le.mp hc.2
    have hmem := hletters (c.toNat - 65) (by omega)
    rwa [Nat.add_sub_cancel' hfirst, Char.ofNat_toNat] at hmem
  · have hsame : c.toLower = c := dif_neg hc
    rw [hsame]
    exact mem_kin_self c

/-- Two texts of the same length that differ at most in case. -/
def Alike (t u : Text) : Prop := List.Forall₂ (fun c d => d ∈ kin c) t u

instance (t u : Text) : Decidable (Alike t u) := inferInstanceAs (Decidable (List.Forall₂ _ t u))

/-- Texts are alike if they are the same in small letters of the alphabet. -/
theorem alike_of_map_toLower {t u : Text} (h : t.map Char.toLower = u.map Char.toLower) : Alike t u := by
  have hlower : List.Forall₂ (fun c d : Char => c.toLower = d.toLower) t u := by
    have heq : List.Forall₂ (· = ·) (t.map Char.toLower) (u.map Char.toLower) := List.forall₂_eq_eq_eq ▸ h
    rwa [List.forall₂_map_left_iff, List.forall₂_map_right_iff] at heq
  refine hlower.imp fun c d hcd => ?_
  have hd : c.toLower ∈ kin d := hcd ▸ toLower_mem_kin d
  rw [← mem_kin_iff_of_mem_kin (toLower_mem_kin c) d]
  exact mem_kin_symm hd

end TreeCensus.Text
