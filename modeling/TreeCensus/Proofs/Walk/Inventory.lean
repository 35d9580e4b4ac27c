import Mathlib
import TreeCensus.Walk.Advance

/-!
# Inventories

An inventory holds the objects that a walk has come to, each with what it adds by itself to the tally
it has become a part of: its size, its count, both or nothing. The objects belong to the task that
came to them until the task adds its tally to the total of its level.
-/

namespace TreeCensus

set_option autoImplicit false

/-- What of a tally adds up item by item: the size, and the numbers of files, directories and links. -/
def Tally.amounts (t : Tally) : Int × Int × Int × Int := (t.size, t.files, t.directories, t.links)

namespace Tally

@[simp] theorem amounts_zero : zero.amounts = 0 := rfl

theorem amounts_add (t u : Tally) : (t.add u).amounts = t.amounts + u.amounts := rfl

theorem amounts_count (kind : ItemKind) (t : Tally) :
    (t.count kind).amounts = t.amounts + (zero.count kind).amounts := by
  cases kind <;> simp [count, amounts, zero]

end Tally

namespace Walk

/-- An object that was come to, and what it adds by itself. -/
structure Item where
  place : Path
  info : FileInfo
  /-- Whether its own size is a part of the tally. -/
  sized : Bool
  /-- Whether it is counted. -/
  counted : Bool

namespace Item

def id (x : Item) : Text := x.info.identity x.place

def object (x : Item) : Path × FileInfo := (x.place, x.info)

def worth (x : Item) : Int × Int × Int × Int :=
  (if x.sized then x.info.tally.amounts else 0) +
    (if x.counted then (Tally.zero.count x.info.kind).amounts else 0)

/-- The item adds nothing yet. -/
def Blank (x : Item) : Prop := x.sized = false ∧ x.counted = false

theorem Blank.worth {x : Item} (h : x.Blank) : x.worth = 0 := by
  simp [Item.worth, h.1, h.2]

theorem id_of_object {x y : Item} (h : x.object = y.object) : x.id = y.id := by
  obtain ⟨hplace, hinfo⟩ := Prod.mk.inj h
  unfold id
  rw [hplace, hinfo]

/-- What some items add together. -/
def sum (xs : List Item) : Int × Int × Int × Int := (xs.map worth).sum

@[simp] theorem sum_nil : sum [] = 0 := rfl

@[simp] theorem sum_cons (x : Item) (xs : List Item) : sum (x :: xs) = x.worth + sum xs := by
  simp [sum]

theorem sum_of_blank {xs : List Item} (h : ∀ x ∈ xs, x.Blank) : sum xs = 0 := by
  induction xs with
  | nil => rfl
  | cons x xs ih =>
    rw [sum_cons, (h x List.mem_cons_self).worth, ih fun y hy => h y (List.mem_cons_of_mem _ hy),
      add_zero]

end Item

/-- Objects that a visit came to, the last one first, can be counted such that they make up what the
visit comes to. -/
theorem settle_counted {verdict : Verdict} {outer : List FileInfo} {i info : FileInfo}
    {t tally : Tally} (h : settle verdict outer i t = .counted info tally) {xs : List Item}
    (hxs : xs.map (·.info) = i :: outer) (huncounted : ∀ x ∈ xs, x.counted = false) :
    ∃ ys : List Item, ys.map (·.object) = xs.map (·.object) ∧
      tally.amounts + Item.sum xs = t.amounts + Item.sum ys ∧
      ∀ y, ys.getLast? = some y → y.info = info := by
  induction outer generalizing i t xs with
  | nil =>
    obtain ⟨x, rfl, hx⟩ := List.map_eq_singleton_iff.mp hxs
    have hcount := huncounted x List.mem_cons_self
    unfold settle at h
    dsimp only at h
    split at h
    · obtain ⟨rfl, rfl⟩ := Outcome.counted.inj h
      refine ⟨[{ x with counted := true }], rfl, ?_, ?_⟩
      · rw [Tally.amounts_count]
        simp only [Item.sum_cons, Item.sum_nil, Item.worth, hcount, ← hx, if_true,
          Bool.false_eq_true, if_false]
        abel
      · intro y hy
        rw [← Option.some.inj hy]
        exact hx
    · cases h
  | cons link rest ih =>
    obtain ⟨x, zs, rfl, hx, hzs⟩ := List.map_eq_cons_iff.mp hxs
    have hcount := huncounted x List.mem_cons_self
    unfold settle at h
    dsimp only at h
    obtain ⟨ys, hobjects, hsum, hlast⟩ :=
      ih h hzs fun z hz => huncounted z (List.mem_cons_of_mem _ hz)
    have hne : ys ≠ [] := by
      rintro rfl
      rw [List.map_nil, eq_comm, List.map_eq_nil_iff] at hobjects
      rw [hobjects] at hzs
      cases hzs
    have hlast' : ∀ z : Item, ∀ y, (z :: ys).getLast? = some y → y.info = info := by
      intro z y hy
      refine hlast y ?_
      rw [← hy, List.getLast?_cons_of_ne_nil hne]
    by_cases hcounts : verdict = .included ∨ 1 ≤ t.items
    · refine ⟨{ x with counted := true } :: ys, ?_, ?_, hlast' _⟩
      · rw [List.map_cons, List.map_cons, hobjects]
        rfl
      · rw [if_pos hcounts, Tally.amounts_count] at hsum
        simp only [Item.sum_cons, Item.worth, hcount, hx, if_true, Bool.false_eq_true, if_false]
        linear_combination hsum
    · refine ⟨x :: ys, ?_, ?_, hlast' _⟩
      · rw [List.map_cons, List.map_cons, hobjects]
      · rw [if_neg hcounts] at hsum
        simp only [Item.sum_cons]
        linear_combination hsum

/-- The same where the last object comes with its own tally. -/
theorem settle_own {verdict : Verdict} {outer : List FileInfo} {i info : FileInfo} {tally : Tally}
    (h : settle verdict outer i i.tally = .counted info tally) {xs : List Item}
    (hxs : xs.map (·.info) = i :: outer) (hblank : ∀ x ∈ xs, x.Blank) :
    ∃ ys : List Item, ys.map (·.object) = xs.map (·.object) ∧ Item.sum ys = tally.amounts ∧
      ∀ y, ys.getLast? = some y → y.info = info := by
  obtain ⟨x, zs, rfl, hx, hzs⟩ := List.map_eq_cons_iff.mp hxs
  have hx₀ := hblank x List.mem_cons_self
  have hzs₀ : ∀ z ∈ zs, z.Blank := fun z hz => hblank z (List.mem_cons_of_mem _ hz)
  have hsized : ∀ y ∈ { x with sized := true } :: zs, y.counted = false := by
    intro y hy
    rcases List.mem_cons.mp hy with rfl | hy
    · exact hx₀.2
    · exact (hzs₀ y hy).2
  have hinfos : ({ x with sized := true } :: zs).map (·.info) = i :: outer := by
    rw [List.map_cons, hzs, hx]
  obtain ⟨ys, hobjects, hsum, hlast⟩ := settle_counted h hinfos hsized
  refine ⟨ys, hobjects, ?_, hlast⟩
  rw [Item.sum_cons, Item.sum_of_blank hzs₀] at hsum
  simp only [Item.worth, hx₀.2, hx, if_true, Bool.false_eq_true, if_false, add_zero] at hsum
  linear_combination -hsum

/-- The same where the object that was come to last was passed over. -/
theorem unwind_counted {verdict : Verdict} {outer : List FileInfo} {info : FileInfo} {tally : Tally}
    (h : unwind verdict none outer = .counted info tally) {xs : List Item}
    (hxs : xs.map (·.info) = outer) (hblank : ∀ x ∈ xs, x.Blank) :
    ∃ ys : List Item, ys.map (·.object) = xs.map (·.object) ∧ Item.sum ys = tally.amounts ∧
      ∀ y, ys.getLast? = some y → y.info = info := by
  cases outer with
  | nil => cases h
  | cons link rest => exact settle_own h hxs hblank

/-- Whom an item belongs to. -/
inductive Owner
  | task (i : Nat)
  | level (k : Nat)
  deriving DecidableEq

abbrev Inventory := List (Owner × Item)

namespace Inventory

variable (inv : Inventory) {o o' p : Owner} {x y : Item}

def ids : List Text := inv.map (·.2.id)

def held (o : Owner) : List Item := inv.filterMap fun e => if e.1 = o then some e.2 else none

/-- What the items of an owner add together. -/
def worth (o : Owner) : Int × Int × Int × Int := Item.sum (inv.held o)

/-- All items of one owner go to another. -/
def pass (o o' : Owner) : Inventory := inv.map fun e => if e.1 = o then (o', e.2) else e

theorem mem_held : x ∈ inv.held o ↔ (o, x) ∈ inv := by
  unfold held
  rw [List.mem_filterMap]
  constructor
  · rintro ⟨⟨p, y⟩, he, h⟩
    split at h
    · next hp =>
      cases h
      subst hp
      exact he
    · cases h
  · intro he
    exact ⟨_, he, if_pos rfl⟩

theorem held_cons_self : held ((o, x) :: inv) o = x :: inv.held o := by
  simp [held]

theorem held_cons_of_ne (h : o ≠ o') : held ((o, x) :: inv) o' = inv.held o' := by
  simp [held, h]

theorem pass_cons (e : Owner × Item) :
    pass (e :: inv) o o' = (if e.1 = o then (o', e.2) else e) :: inv.pass o o' := rfl

theorem map_pass {α : Type} (f : Item → α) :
    (inv.pass o o').map (fun e => f e.2) = inv.map fun e => f e.2 := by
  unfold pass
  rw [List.map_map]
  apply List.map_congr_left
  intro e _
  dsimp only [Function.comp_apply]
  split <;> rfl

theorem ids_pass : (inv.pass o o').ids = inv.ids := inv.map_pass Item.id

theorem held_pass_of_ne (h : p ≠ o) (h' : p ≠ o') : (inv.pass o o').held p = inv.held p := by
  induction inv with
  | nil => rfl
  | cons e inv ih =>
    rw [pass_cons]
    split
    · next he =>
      obtain ⟨q, x⟩ := e
      obtain rfl : q = o := he
      rw [held_cons_of_ne _ (Ne.symm h'), held_cons_of_ne _ (Ne.symm h), ih]
    · obtain ⟨q, x⟩ := e
      by_cases hq : q = p
      · subst hq
        rw [held_cons_self, held_cons_self, ih]
      · rw [held_cons_of_ne _ hq, held_cons_of_ne _ hq, ih]

theorem held_pass_perm (h : o ≠ o') : ((inv.pass o o').held o').Perm (inv.held o ++ inv.held o') := by
  induction inv with
  | nil => exact .refl _
  | cons e inv ih =>
    obtain ⟨q, x⟩ := e
    rw [pass_cons]
    by_cases hq : q = o
    · subst hq
      rw [if_pos rfl, held_cons_self, held_cons_self, held_cons_of_ne _ h]
      exact ih.cons x
    · rw [if_neg hq, held_cons_of_ne _ hq]
      by_cases hq' : q = o'
      · subst hq'
        rw [held_cons_self, held_cons_self]
        exact (ih.cons x).trans List.perm_middle.symm
      · rw [held_cons_of_ne _ hq', held_cons_of_ne _ hq']
        exact ih

theorem worth_pass (h : o ≠ o') : (inv.pass o o').worth o' = inv.worth o' + inv.worth o := by
  unfold worth
  induction inv with
  | nil => rfl
  | cons e inv ih =>
    obtain ⟨q, x⟩ := e
    rw [pass_cons]
    by_cases hq : q = o
    · subst hq
      rw [if_pos rfl, held_cons_self, held_cons_self, held_cons_of_ne _ h, Item.sum_cons,
        Item.sum_cons, ih]
      abel
    · rw [if_neg hq]
      by_cases hq' : q = o'
      · subst hq'
        rw [held_cons_self, held_cons_self, held_cons_of_ne _ hq, Item.sum_cons, Item.sum_cons, ih]
        abel
      · rw [held_cons_of_ne _ hq', held_cons_of_ne _ hq', held_cons_of_ne _ hq, ih]

/-- The items of an owner can be marked anew. -/
theorem exists_held {xs : List Item} (h : xs.map (·.object) = (inv.held o).map (·.object)) :
    ∃ inv' : Inventory, inv'.map (fun e => (e.1, e.2.object)) = inv.map (fun e => (e.1, e.2.object)) ∧
      inv'.held o = xs ∧ ∀ p, p ≠ o → inv'.held p = inv.held p := by
  induction inv generalizing xs with
  | nil =>
    obtain rfl := List.map_eq_nil_iff.mp h
    exact ⟨[], rfl, rfl, fun _ _ => rfl⟩
  | cons e inv ih =>
    obtain ⟨q, x⟩ := e
    by_cases hq : q = o
    · subst hq
      rw [held_cons_self, List.map_cons] at h
      obtain ⟨y, ys, rfl, hy, hys⟩ := List.map_eq_cons_iff.mp h
      obtain ⟨inv', hobjects, hheld, hothers⟩ := ih hys
      refine ⟨(q, y) :: inv', ?_, ?_, ?_⟩
      · rw [List.map_cons, List.map_cons, hobjects]
        dsimp only
        rw [hy]
      · rw [held_cons_self, hheld]
      · intro p hp
        rw [held_cons_of_ne _ (Ne.symm hp), held_cons_of_ne _ (Ne.symm hp), hothers p hp]
    · rw [held_cons_of_ne _ hq] at h
      obtain ⟨inv', hobjects, hheld, hothers⟩ := ih h
      refine ⟨(q, x) :: inv', ?_, ?_, ?_⟩
      · rw [List.map_cons, List.map_cons, hobjects]
      · rw [held_cons_of_ne _ hq, hheld]
      · intro p hp
        by_cases hqp : q = p
        · subst hqp
          rw [held_cons_self, held_cons_self, hothers q hp]
        · rw [held_cons_of_ne _ hqp, held_cons_of_ne _ hqp, hothers p hp]

variable {inv}

/-- No owner has an object twice. -/
theorem nodup_held (h : inv.ids.Nodup) (o : Owner) : ((inv.held o).map Item.id).Nodup := by
  refine h.sublist ?_
  induction inv with
  | nil => exact List.Sublist.refl _
  | cons e inv ih =>
    obtain ⟨q, x⟩ := e
    have hrest := ih (List.nodup_cons.mp h).2
    by_cases hq : q = o
    · subst hq
      rw [held_cons_self]
      exact hrest.cons_cons x.id
    · rw [held_cons_of_ne _ hq]
      exact hrest.cons x.id

/-- No two owners have an object in common. -/
theorem id_ne (h : inv.ids.Nodup) (hx : x ∈ inv.held o) (hy : y ∈ inv.held o') (hne : o ≠ o') :
    x.id ≠ y.id := by
  intro hid
  have := List.inj_on_of_nodup_map h ((mem_held inv).mp hx) ((mem_held inv).mp hy) hid
  exact hne (Prod.mk.inj this).1

end Inventory

end Walk

end TreeCensus
