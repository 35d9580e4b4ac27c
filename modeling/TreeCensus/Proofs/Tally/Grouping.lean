import TreeCensus.Tally.Store
import TreeCensus.Proofs.Walk.Shares

/-!
# Adding up in any order and grouping

To add a tally to another one in place is to put their sum in the place of the other one, and nothing else is
changed (`addTo_eq`). A new tally that is filled over subtotals comes to the sum of the tallies that went into
it, in whatever depth. So neither the order nor the grouping can be seen in it. A new tally has the beginning of
time for its newest time; that shows in a subtotal whose times are all earlier, but then it shows in the total
as well.
-/

namespace TreeCensus

set_option autoImplicit false

theorem Tally.sum_concat (ts : List Tally) (t : Tally) : sum (ts ++ [t]) = (sum ts).add t := by
  rw [sum_append, sum_cons, sum_nil, add_comm t, ← add_assoc, sum_add_zero]

namespace Store

variable {s : Store} {total item place : Nat} {f g : Tally → Tally} {t : Tally} {ts : List Tally}

theorem getElem?_change (s : Store) (total : Nat) (f : Tally → Tally) (place : Nat) :
    (s.change total f).tallies[place]? =
      if total = place then s.tallies[place]?.map f else s.tallies[place]? := by
  unfold change
  rw [List.getElem?_modify]
  split <;> simp

theorem read_change (htotal : total < s.tallies.length) (f : Tally → Tally) (place : Nat) :
    (s.change total f).read place = if total = place then f (s.read place) else s.read place := by
  unfold read
  rw [getElem?_change]
  split
  · next heq => simp [← heq, htotal]
  · rfl

/-- Only the tally that is changed counts, if there is one. -/
theorem change_congr (h : total < s.tallies.length → f (s.read total) = g (s.read total)) :
    s.change total f = s.change total g := by
  refine congrArg mk (List.ext_getElem? fun place => ?_)
  have hf := getElem?_change s total f place
  have hg := getElem?_change s total g place
  unfold change at hf hg
  rw [hf, hg]
  split
  · next heq =>
    subst heq
    by_cases htotal : total < s.tallies.length
    · simpa [read, htotal] using h htotal
    · simp [htotal]
  · rfl

theorem change_change (s : Store) (total : Nat) (f g : Tally → Tally) :
    (s.change total f).change total g = s.change total (g ∘ f) := by
  unfold change
  rw [List.modify_modify_eq]

/-- When its five fields have been added up, one tally has been added to the other, be they two or one. -/
theorem addTo_eq (s : Store) (total item : Nat) :
    s.addTo total item = s.change total fun t => t.add (s.read item) := by
  unfold addTo
  simp only [change_change]
  apply change_congr
  intro htotal
  by_cases heq : total = item
  · subst heq
    simp only [read_change htotal, if_true, Function.comp_apply, Tally.add]
  · simp only [read_change htotal, if_neg heq, Function.comp_apply, Tally.add]

theorem read_append (hplace : place < ts.length) (us : List Tally) : read ⟨ts ++ us⟩ place = read ⟨ts⟩ place := by
  unfold read
  rw [List.getElem?_append_left hplace]

theorem read_append_cons (ts us : List Tally) (t : Tally) : read ⟨ts ++ t :: us⟩ ts.length = t := by
  simp [read]

theorem change_append_cons (ts us : List Tally) (t : Tally) (f : Tally → Tally) :
    change ⟨ts ++ t :: us⟩ ts.length f = ⟨ts ++ f t :: us⟩ := by
  refine congrArg mk ?_
  induction ts with
  | nil => rfl
  | cons a ts ih => exact congrArg (a :: ·) ih

end Store

namespace Grouping

variable {s : Store} {g g' : Grouping}

/-- A new tally that is filled holds the sum of what was added to it in any depth. It stands behind all that
there were, which are as before, and the subtotals stand behind it. -/
theorem fill_eq (hplaces : ∀ place ∈ g.places, place < s.tallies.length) :
    ∃ subtotals, g.fill s = (⟨s.tallies ++ Tally.sum (g.places.map s.read) :: subtotals⟩, s.tallies.length) := by
  induction g generalizing s with
  | new => exact ⟨[], rfl⟩
  | tally before place ih =>
    obtain ⟨subtotals, hbefore⟩ := ih fun p hp => hplaces p (List.mem_append_left _ hp)
    have hplace : place < s.tallies.length := hplaces place (List.mem_append_right _ List.mem_cons_self)
    refine ⟨subtotals, ?_⟩
    simp only [fill, hbefore, places, List.map_append, List.map_cons, List.map_nil, Tally.sum_concat]
    rw [Store.addTo_eq, Store.change_append_cons, Store.read_append hplace]
  | subtotal before inner ihbefore ihinner =>
    have hinner : ∀ place ∈ inner.places, place < s.tallies.length :=
      fun p hp => hplaces p (List.mem_append_right _ hp)
    obtain ⟨subtotals, hbefore⟩ := ihbefore fun p hp => hplaces p (List.mem_append_left _ hp)
    obtain ⟨subtotals', hsubtotal⟩ := @ihinner ⟨s.tallies ++ Tally.sum (before.places.map s.read) :: subtotals⟩
      fun p hp => by
        rw [List.length_append]
        exact Nat.lt_add_right _ (hinner p hp)
    -- the tallies of the subtotal read as they did before anything was filled
    have hread : inner.places.map (Store.read ⟨s.tallies ++ Tally.sum (before.places.map s.read) :: subtotals⟩) =
        inner.places.map s.read :=
      List.map_congr_left fun p hp => Store.read_append (hinner p hp) _
    rw [hread] at hsubtotal
    refine ⟨subtotals ++ Tally.sum (inner.places.map s.read) :: subtotals', ?_⟩
    simp only [fill, hbefore, hsubtotal, places, List.map_append, Tally.sum_append]
    rw [Store.addTo_eq, Store.read_append_cons, List.append_assoc, List.cons_append, Store.change_append_cons]

theorem total_eq (hplaces : ∀ place ∈ g.places, place < s.tallies.length) :
    g.total s = Tally.sum (g.places.map s.read) := by
  obtain ⟨subtotals, hfill⟩ := fill_eq hplaces
  simp only [total, hfill]
  exact Store.read_append_cons _ _ _

end Grouping

/-- What is filled with the same tallies comes to the same total, in whatever order and over whatever subtotals,
and the tallies are as before. A call that adds to a tally changes no other one, and adds to it what the other one
held when it was made, also if that was the same one. -/
theorem Store.add_in_any_grouping (s : Store) :
    (∀ g g' : Grouping, (∀ place ∈ g.places, place < s.tallies.length) → g.places.Perm g'.places →
      g.total s = g'.total s) ∧
    (∀ g : Grouping, (∀ place ∈ g.places, place < s.tallies.length) →
      ∀ place < s.tallies.length, (g.fill s).1.read place = s.read place) ∧
    ∀ total item place, (s.addTo total item).tallies[place]? =
      if total = place then s.tallies[place]?.map fun t => t.add (s.read item) else s.tallies[place]? := by
  refine ⟨fun g g' hplaces hperm => ?_, fun g hplaces place hplace => ?_, fun total item place => ?_⟩
  · have hplaces' : ∀ place ∈ g'.places, place < s.tallies.length :=
      fun place hp => hplaces place (hperm.mem_iff.mpr hp)
    rw [Grouping.total_eq hplaces, Grouping.total_eq hplaces']
    exact Tally.sum_perm (hperm.map s.read)
  · obtain ⟨subtotals, hfill⟩ := Grouping.fill_eq hplaces
    rw [hfill]
    exact Store.read_append hplace _
  · rw [addTo_eq, getElem?_change]

/-- Both times are earlier than that of a new tally. -/
theorem Store.add_in_any_grouping_of_old_times :
    let s : Store := ⟨[⟨3, 1, 0, 0, -5⟩, ⟨4, 1, 0, 0, -9⟩]⟩
    let g := Grouping.new.tally 0 |>.tally 1
    let g' := Grouping.new.subtotal (.tally (.subtotal .new .new) 1) |>.tally 0
    g.total s = g'.total s ∧ g.total s = ⟨7, 2, 0, 0, 0⟩ :=
  ⟨(add_in_any_grouping _).1 _ _ (by decide) (by decide), by decide⟩

end TreeCensus
