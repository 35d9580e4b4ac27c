import TreeCensus.Proofs.Walk.Tiers

/-!
# What the items of a visit make up

The tally to which a visit comes is the sum of what its items add by themselves, each of them its size, its
count, or both. Either all of them are counted or none is.
-/

namespace TreeCensus

set_option autoImplicit false

instance : LeftCommutative Tally.add where
  left_comm t u v := by rw [← Tally.add_assoc, Tally.add_comm t u, Tally.add_assoc]

namespace Tally

def sum (ts : List Tally) : Tally := ts.foldr add zero

variable {t : Tally} {ts us : List Tally}

@[simp] theorem sum_nil : sum [] = zero := rfl

@[simp] theorem sum_cons (t : Tally) (ts : List Tally) : sum (t :: ts) = t.add (sum ts) := rfl

theorem sum_perm (h : ts.Perm us) : sum ts = sum us := h.foldr_eq _

theorem add_zero (h : 0 ≤ t.newest) : t.add zero = t := by
  simp [add, zero, h]

theorem newest_sum (ts : List Tally) : 0 ≤ (sum ts).newest := by
  induction ts with
  | nil => exact le_refl _
  | cons t ts ih => exact le_trans ih (le_max_right _ _)

/-- A sum takes no time that is before the beginning of time. -/
theorem sum_add_zero (ts : List Tally) : (sum ts).add zero = sum ts := add_zero (newest_sum ts)

theorem sum_append (ts us : List Tally) : sum (ts ++ us) = (sum ts).add (sum us) := by
  induction ts with
  | nil => rw [List.nil_append, sum_nil, add_comm, sum_add_zero]
  | cons t ts ih => rw [List.cons_append, sum_cons, sum_cons, ih, add_assoc]

theorem count_add (kind : ItemKind) (t : Tally) (us : List Tally) :
    (t.count kind).add (sum us) = t.add ((zero.count kind).add (sum us)) := by
  have hpos := newest_sum us
  cases kind <;> simp only [count, add, zero, mk.injEq] <;> omega

/-- Counting some items adds what each of them counts. -/
theorem foldl_count (kinds : List ItemKind) (t : Tally) :
    (kinds.foldl (fun t kind => t.count kind) t).add zero =
      t.add (sum (kinds.map fun kind => zero.count kind)) := by
  induction kinds generalizing t with
  | nil => rfl
  | cons kind kinds ih => rw [List.foldl_cons, ih, count_add]; rfl

theorem items_le_count (kind : ItemKind) (t : Tally) : t.items ≤ (t.count kind).items := by
  cases kind <;> simp only [count, items] <;> omega

theorem items_zero_count (kind : ItemKind) : 0 ≤ (zero.count kind).items := by
  cases kind <;> decide

end Tally

namespace Walk

/-- A visit comes to all of its items or to none. -/
theorem settle_eq (verdict : Verdict) (outer : List FileInfo) (i : FileInfo) (t : Tally) :
    settle verdict outer i t =
      if verdict = .included ∨ 1 ≤ t.items then
        .counted ((i :: outer).getLast (List.cons_ne_nil _ _))
          (((i :: outer).map (·.kind)).foldl (fun t kind => t.count kind) t)
      else .over (some t) := by
  induction outer generalizing i t with
  | nil =>
    unfold settle
    by_cases hcounts : verdict = .included ∨ 1 ≤ t.items
    · simp [hcounts]
    · simp [hcounts]
  | cons link rest ih =>
    unfold settle
    by_cases hcounts : verdict = .included ∨ 1 ≤ t.items
    · have hstill : verdict = .included ∨ 1 ≤ (t.count i.kind).items :=
        hcounts.imp_right fun h => le_trans h (Tally.items_le_count _ _)
      dsimp only
      rw [if_pos hcounts, if_pos hcounts, ih, if_pos hstill, List.getLast_cons_cons]
      rfl
    · dsimp only
      rw [if_neg hcounts, if_neg hcounts, ih, if_neg hcounts]

namespace Item

/-- What an item adds to a tally. -/
def share (x : Item) : Tally :=
  (if x.sized then x.info.tally else .zero).add (if x.counted then Tally.zero.count x.info.kind else .zero)

variable {σ : Type} (env : Environment σ) (x : Item)

/-- A walk goes on from the item. -/
def Leads : Prop := ∃ name b, env.Leads ⟨name, x.place⟩ x.info b

/-- The item is counted, and so is its size unless a walk goes on from it. -/
def Whole : Prop := x.counted = true ∧ (x.sized = true ∨ x.Leads env)

/-- There is no need to count the item, since the filter does not include it. -/
def Dropped : Prop := x.info.kind ≠ .file ∧ env.options.filter ≠ none

variable {env x}

theorem Leads.kind_ne (h : x.Leads env) : x.info.kind ≠ .file := by
  obtain ⟨_, _, hleads⟩ := h
  intro hkind
  cases hleads with
  | inside kind | behind kind => rw [hkind] at kind; cases kind

theorem Blank.share (h : x.Blank) : x.share = .zero := by
  unfold Item.share
  rw [h.1, h.2]
  rfl

theorem items_share_nonneg (x : Item) : 0 ≤ x.share.items := by
  have htally : x.info.tally.items = 0 := by
    unfold FileInfo.tally
    split <;> rfl
  unfold share
  rw [Tally.items_add]
  have hcount := Tally.items_zero_count x.info.kind
  have hzero : Tally.zero.items = 0 := rfl
  split <;> split <;> omega

theorem items_shares_nonneg (xs : List Item) : 0 ≤ (Tally.sum (xs.map share)).items := by
  induction xs with
  | nil => exact le_refl _
  | cons x xs ih =>
    rw [List.map_cons, Tally.sum_cons, Tally.items_add]
    have := x.items_share_nonneg
    omega

/-- A file that is counted shows in the number of items. -/
theorem one_le_items {xs : List Item} (hx : x ∈ xs) (hcounted : x.counted = true) (hkind : x.info.kind = .file) :
    1 ≤ (Tally.sum (xs.map share)).items := by
  induction xs with
  | nil => cases hx
  | cons y xs ih =>
    rw [List.map_cons, Tally.sum_cons, Tally.items_add]
    have hrest := items_shares_nonneg xs
    rcases List.mem_cons.mp hx with rfl | hx
    · have hown : 1 ≤ x.share.items := by
        have htally : x.info.tally.items = 0 := by
          unfold FileInfo.tally
          split <;> rfl
        have hzero : Tally.zero.items = 0 := rfl
        have hone : (Tally.zero.count .file).items = 1 := rfl
        unfold share
        rw [Tally.items_add, hcounted, hkind, if_pos rfl]
        split <;> omega
      omega
    · have := y.items_share_nonneg
      have := ih hx
      omega

end Item

/-- Links that were followed, each of them left blank. -/
def Trailing {σ : Type} (env : Environment σ) (xs : List Item) (outer : List FileInfo) : Prop :=
  xs.map (·.info) = outer ∧ ∀ x ∈ xs, x.Blank ∧ x.Leads env

section Marks

variable {σ : Type} {env : Environment σ} {xs : List Item} {outer : List FileInfo} {verdict : Verdict}
  {x : Item} {t : Tally}

/-- The items of a visit as they are counted. -/
def marked (sized : Bool) (x : Item) (xs : List Item) : List Item :=
  { x with sized, counted := true } :: xs.map fun y => { y with counted := true }

theorem object_marked (sized : Bool) (x : Item) (xs : List Item) :
    (marked sized x xs).map (·.object) = (x :: xs).map (·.object) := by
  unfold marked
  rw [List.map_cons, List.map_cons, List.map_map]
  rfl

theorem share_marked (sized : Bool) (hxs : Trailing env xs outer) :
    Tally.sum ((marked sized x xs).map Item.share) =
      (if sized then x.info.tally else .zero).add
        (Tally.sum (((x.info :: outer).map (·.kind)).map fun kind => Tally.zero.count kind)) := by
  have hrest : (xs.map fun y => { y with counted := true }).map Item.share =
      (outer.map (·.kind)).map fun kind => Tally.zero.count kind := by
    rw [← hxs.1]
    simp only [List.map_map]
    apply List.map_congr_left
    intro y hy
    have hblank := (hxs.2 y hy).1
    have hpos : Tally.zero.add (Tally.zero.count y.info.kind) = Tally.zero.count y.info.kind := by
      cases y.info.kind <;> rfl
    simp [Item.share, hblank.1, hpos]
  unfold marked
  rw [List.map_cons, Tally.sum_cons, hrest]
  simp only [Item.share, if_true, List.map_cons, Tally.sum_cons]
  rw [Tally.add_assoc]

theorem whole_marked {sized : Bool} (hxs : Trailing env xs outer) (hx : sized = true ∨ x.Leads env) :
    ∀ y ∈ marked sized x xs, y.Whole env := by
  intro y hy
  rcases List.mem_cons.mp hy with rfl | hy
  · exact ⟨rfl, hx⟩
  · obtain ⟨z, hz, rfl⟩ := List.mem_map.mp hy
    exact ⟨rfl, .inr (hxs.2 z hz).2⟩

end Marks

end Walk

end TreeCensus
