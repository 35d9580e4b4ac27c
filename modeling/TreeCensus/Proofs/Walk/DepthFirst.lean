import TreeCensus.Walk.Advance
import Mathlib.Data.List.Induction
import Mathlib.Logic.Relation

/-!
# The order of priorities

A priority is created under another one by adding places behind it, so what was created under it are the
lists that it is a proper prefix of. In the order of lists they come right behind it, and all that was created
under one sibling comes before the next sibling: the order goes through a tree of priorities as a walk does
that comes to a node before what is under it, and to all that is under one child before the next child.
-/

namespace TreeCensus

set_option autoImplicit false

namespace Priority

variable {p q r s parent : Priority} {i j : Int}

/-- `q` was created under `p`, at any depth. -/
def Above : Priority → Priority → Prop := Relation.TransGen fun p q => ∃ place, q = create place p

/-- `q` is `p`, or was created under it. -/
def Holds : Priority → Priority → Prop := Relation.ReflTransGen fun p q => ∃ place, q = create place p

theorem holds_iff : Holds p q ↔ p <+: q := by
  constructor
  · intro h
    induction h with
    | refl => exact List.prefix_refl p
    | @tail q r _ hchild ih =>
      obtain ⟨place, rfl⟩ := hchild
      exact ih.trans (List.prefix_append q [place])
  · rintro ⟨places, rfl⟩
    induction places using List.reverseRecOn with
    | nil => exact (List.append_nil p).symm ▸ Relation.ReflTransGen.refl
    | append_singleton places place ih =>
      exact ih.tail ⟨place, (List.append_assoc p places [place]).symm⟩

theorem Above.holds (h : Above p q) : Holds p q := Relation.TransGen.to_reflTransGen h

/-- What was created under a priority is longer. -/
theorem Above.length_lt (h : Above p q) : p.length < q.length := by
  obtain ⟨q', hq', place, rfl⟩ := Relation.TransGen.tail'_iff.mp h
  have hle := (holds_iff.mp hq').length_le
  simp only [create, List.length_append, List.length_singleton]
  omega

theorem above_iff : Above p q ↔ Holds p q ∧ p ≠ q := by
  constructor
  · intro h
    exact ⟨h.holds, fun heq => Nat.lt_irrefl _ (heq ▸ h.length_lt)⟩
  · rintro ⟨h, hne⟩
    exact (Relation.reflTransGen_iff_eq_or_transGen.mp h).resolve_left (Ne.symm hne)

/-- A priority comes before all that were created under it. -/
theorem Above.before (h : Above p q) : Before p q := by
  obtain ⟨hholds, hne⟩ := above_iff.mp h
  obtain ⟨places, rfl⟩ := holds_iff.mp hholds
  cases places with
  | nil => exact absurd (List.append_nil p).symm hne
  | cons place places =>
    have hlt : p ++ [] < p ++ place :: places := List.append_left_lt (List.nil_lt_cons place places)
    rwa [List.append_nil] at hlt

/-- What two siblings hold is in their order. -/
theorem before_of_siblings (hlt : i < j) (hp : Holds (create i parent) p) (hq : Holds (create j parent) q) :
    Before p q := by
  obtain ⟨ps, rfl⟩ := holds_iff.mp hp
  obtain ⟨qs, rfl⟩ := holds_iff.mp hq
  unfold create
  rw [List.append_assoc, List.append_assoc]
  exact List.append_left_lt (List.cons_lt_cons_iff.mpr (.inl hlt))

/-- A list between two that start with `p` starts with `p`. -/
theorem prefix_of_between (hq : p <+: q) (hr : p <+: r) (hqs : Before q s) (hsr : Before s r) : p <+: s := by
  induction p generalizing q r s with
  | nil => exact List.nil_prefix
  | cons place p ih =>
    obtain ⟨qs, rfl⟩ := hq
    obtain ⟨rs, rfl⟩ := hr
    cases s with
    | nil => exact absurd hqs (List.not_lt_nil _)
    | cons place' s =>
      -- the head of the one between is neither smaller nor larger
      rcases List.cons_lt_cons_iff.mp hqs with hlt | ⟨rfl, hqs'⟩ <;>
        rcases List.cons_lt_cons_iff.mp hsr with hlt' | ⟨_, hsr'⟩
      · omega
      · omega
      · omega
      · exact List.cons_prefix_cons.mpr
          ⟨rfl, ih (List.prefix_append p qs) (List.prefix_append p rs) hqs' hsr'⟩

/-- What comes between two that `p` holds was created under `p`. -/
theorem above_of_between (hq : Holds p q) (hr : Holds p r) (hqs : Before q s) (hsr : Before s r) : Above p s := by
  have hs : p <+: s := prefix_of_between (holds_iff.mp hq) (holds_iff.mp hr) hqs hsr
  refine above_iff.mpr ⟨holds_iff.mpr hs, ?_⟩
  -- `p` itself is not later than `q`, which is before `s`
  rintro rfl
  rcases Relation.reflTransGen_iff_eq_or_transGen.mp hq with rfl | habove
  · exact List.lt_irrefl _ hqs
  · exact List.lt_irrefl _ (List.lt_trans (Above.before habove) hqs)

/-- An order goes through the priorities as a walk does that comes to a node before what is under it, and to
all that is under one child before the next child. -/
structure DepthFirst (before : Priority → Priority → Prop) : Prop where
  irrefl : ∀ p, ¬ before p p
  trans : ∀ {p q r}, before p q → before q r → before p r
  total : ∀ p q, before p q ∨ p = q ∨ before q p
  above : ∀ {p q}, Above p q → before p q
  siblings : ∀ {parent p q} {i j : Int}, i < j → Holds (create i parent) p → Holds (create j parent) q → before p q
  interval : ∀ {p q r s}, Holds p q → Holds p r → before q s → before s r → Above p s

theorem before_depthFirst : DepthFirst Before where
  irrefl := List.lt_irrefl
  trans := List.lt_trans
  total p q := by
    by_cases hlt : p < q
    · exact .inl hlt
    · exact .inr ((List.le_iff_lt_or_eq.mp (List.not_lt.mp hlt)).symm.imp Eq.symm id)
  above := Above.before
  siblings := before_of_siblings
  interval := above_of_between

end Priority

namespace Walk

open Priority (Above Before Holds)

/-- Every job of a level but the listing of a directory has a priority of its own under that of the level. -/
theorem Job.above_priority {job : Job} (hjob : ∀ info, job ≠ .entries info) (level : Priority) (index : Nat) :
    Above level (job.priority level index) := by
  have hunder : ∀ tier place : Int, Above level (Priority.create place (Priority.create tier level)) :=
    fun tier place => .tail (.single ⟨tier, rfl⟩) ⟨place, rfl⟩
  cases job with
  | info => exact hunder _ _
  | target info => exact hunder _ _
  | report info tally => exact hunder _ _
  | entries info => exact absurd rfl (hjob info)

/-- What is done below a directory comes behind the look-ups of its level, and before what is done with the
other items of the level, wherever they stand in it. -/
theorem Job.before_of_tier {directory other : FileInfo} {p : Priority} {i j k : Nat} (level : Priority)
    (hdirectory : directory.kind = .directory) (hother : other.kind ≠ .directory)
    (hp : Holds ((Job.report directory .zero).priority level i) p) (tally : Tally) :
    Before (Job.info.priority level j) p ∧ Before p ((Job.report other tally).priority level k) := by
  have htier : Holds (Priority.create Tier.directory.place level) p := by
    rw [Job.priority, if_pos hdirectory] at hp
    exact .head ⟨i, rfl⟩ hp
  refine ⟨Priority.before_of_siblings (by decide) (.single ⟨j, rfl⟩) htier, ?_⟩
  rw [Job.priority, if_neg hother]
  exact Priority.before_of_siblings (by decide) htier (.single ⟨k, rfl⟩)

end Walk

end TreeCensus
