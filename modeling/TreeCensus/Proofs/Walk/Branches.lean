import TreeCensus.Proofs.Walk.Shares

/-!
# Branches

What a walk without links counts forms trees: each item with those that were counted below it. The tally of
an item is told by its branch alone. Its newest time is that of the newest item in it which is no directory,
unless all of them are from before the beginning of time (`newest_sum`).
-/

namespace TreeCensus.Walk

set_option autoImplicit false

variable {σ : Type}

/-- An item, and what was counted below it. -/
inductive Branch
  | node (place : Path) (info : FileInfo) (inside : List Branch)

namespace Branch

/-- What holds of a branch if it holds of all that are inside it holds of all branches. -/
@[elab_as_elim, induction_eliminator]
theorem induct {P : Branch → Prop} (node : ∀ place info inside, (∀ b ∈ inside, P b) → P (node place info inside)) :
    ∀ b, P b
  | .node place info inside => node place info inside fun b _ => induct node b

def place : Branch → Path
  | node place _ _ => place

def info : Branch → FileInfo
  | node _ info _ => info

def inside : Branch → List Branch
  | node _ _ inside => inside

def id (b : Branch) : Text := b.info.identity b.place

/-- What is told of an item: a directory has the tally of what is inside it, and each item counts itself. -/
def tally : Branch → Tally
  | node _ info inside =>
    (if info.kind = .directory then Tally.sum (inside.map tally) else info.tally).count info.kind

/-- The branch itself and all branches inside it, in any depth. -/
def nodes : Branch → List Branch
  | node place info inside => node place info inside :: inside.flatMap nodes

variable {b d : Branch} {bs : List Branch} {env : Environment σ}

theorem tally_eq (b : Branch) : b.tally =
    (if b.info.kind = .directory then Tally.sum (b.inside.map tally) else b.info.tally).count b.info.kind := by
  cases b
  rw [tally]
  rfl

theorem nodes_eq (b : Branch) : b.nodes = b :: b.inside.flatMap nodes := by
  cases b
  rw [nodes]
  rfl

theorem mem_nodes_self (b : Branch) : b ∈ b.nodes := by
  rw [nodes_eq]
  exact List.mem_cons_self

theorem nodes_trans {e : Branch} (he : e ∈ b.nodes) (hb : b ∈ d.nodes) : e ∈ d.nodes := by
  induction d with
  | node place info inside ih =>
    rw [nodes_eq (node place info inside)] at hb ⊢
    rcases List.mem_cons.mp hb with rfl | hb
    · rwa [nodes_eq] at he
    · obtain ⟨c, hc, hb⟩ := List.mem_flatMap.mp hb
      exact List.mem_cons_of_mem _ (List.mem_flatMap.mpr ⟨c, hc, ih c hc hb⟩)

/-- What is inside a branch of some is inside them. -/
theorem mem_nodes_inside (hb : b ∈ bs.flatMap nodes) (hd : d ∈ b.inside.flatMap nodes) : d ∈ bs.flatMap nodes := by
  obtain ⟨c, hc, hb⟩ := List.mem_flatMap.mp hb
  refine List.mem_flatMap.mpr ⟨c, hc, nodes_trans ?_ hb⟩
  rw [nodes_eq]
  exact List.mem_cons_of_mem _ hd

/-- The times of the items in some branches that are not directories. -/
def times (bs : List Branch) : Set Int :=
  {t | ∃ b ∈ bs.flatMap nodes, b.info.kind ≠ .directory ∧ b.info.modified = t}

theorem mem_times {t : Int} :
    t ∈ times bs ↔ ∃ b ∈ bs.flatMap nodes, b.info.kind ≠ .directory ∧ b.info.modified = t := Iff.rfl

theorem times_cons (b : Branch) (bs : List Branch) : times (b :: bs) = times [b] ∪ times bs := by
  ext t
  simp only [mem_times, List.flatMap_cons, List.flatMap_nil, List.append_nil, List.mem_append, Set.mem_union,
    or_and_right, exists_or]

theorem mem_times_singleton {t : Int} :
    t ∈ times [b] ↔ b.info.kind ≠ .directory ∧ b.info.modified = t ∨ t ∈ times b.inside := by
  rw [mem_times, mem_times, List.flatMap_cons, List.flatMap_nil, List.append_nil, nodes_eq]
  simp only [List.mem_cons, or_and_right, exists_or, exists_eq_left]

/-- Nothing is inside an item that is no directory. -/
def Plain (b : Branch) : Prop := b.info.kind ≠ .directory → b.inside = []

theorem newest_count (kind : ItemKind) (t : Tally) : (t.count kind).newest = t.newest := by
  cases kind <;> rfl

/-- If the newest time of each branch is right, so is that of their sum. -/
theorem isGreatest_sum (h : ∀ b ∈ bs, IsGreatest (insert 0 (times [b])) (max 0 b.tally.newest)) :
    IsGreatest (insert 0 (times bs)) (Tally.sum (bs.map tally)).newest := by
  induction bs with
  | nil =>
    refine ⟨Set.mem_insert _ _, ?_⟩
    rintro t (rfl | ⟨b, hb, _⟩)
    · exact le_refl _
    · exact absurd hb List.not_mem_nil
  | cons b bs ih =>
    have hrest := ih fun d hd => h d (List.mem_cons_of_mem _ hd)
    have hboth := (h b List.mem_cons_self).union hrest
    rw [times_cons, Set.insert_union_distrib]
    have hnewest : (Tally.sum ((b :: bs).map tally)).newest =
        max (max 0 b.tally.newest) (Tally.sum (bs.map tally)).newest := by
      have hpos := Tally.newest_sum (bs.map tally)
      rw [List.map_cons, Tally.sum_cons]
      change max _ _ = _
      omega
    rwa [hnewest]

theorem isGreatest_max (b : Branch) (hplain : ∀ d ∈ b.nodes, d.Plain) :
    IsGreatest (insert 0 (times [b])) (max 0 b.tally.newest) := by
  induction b with
  | node place info inside ih =>
    rw [nodes_eq] at hplain
    by_cases hkind : info.kind = .directory
    · have hinside : IsGreatest (insert 0 (times inside)) (Tally.sum (inside.map tally)).newest :=
        isGreatest_sum fun d hd => ih d hd fun e he =>
          hplain e (List.mem_cons_of_mem _ (List.mem_flatMap.mpr ⟨d, hd, he⟩))
      have htimes : times [Branch.node place info inside] = times inside :=
        Set.ext fun t => mem_times_singleton.trans (or_iff_right fun h => h.1 hkind)
      rw [htimes, tally, if_pos hkind, newest_count, max_eq_right (Tally.newest_sum _)]
      exact hinside
    · obtain rfl : inside = [] := hplain _ List.mem_cons_self hkind
      have htimes : times [Branch.node place info []] = {info.modified} := by
        refine Set.ext fun t => mem_times_singleton.trans ⟨?_, fun h => .inl ⟨hkind, Eq.symm h⟩⟩
        rintro (⟨_, h⟩ | ⟨_, hnone, _⟩)
        · exact h.symm
        · exact absurd hnone List.not_mem_nil
      have htally : info.tally.newest = info.modified := by
        rw [FileInfo.tally, if_neg hkind]
      rw [htimes, tally, if_neg hkind, newest_count, htally]
      exact isGreatest_pair

/-- The time is that of the newest item in some branches which is no directory, or the beginning of time if that
is later. -/
structure Newest (bs : List Branch) (t : Int) : Prop where
  greatest : IsGreatest (insert 0 (times bs)) t
  /-- It is the time of an item unless all of them are older than the beginning of time. -/
  attained : (∃ u ∈ times bs, 0 ≤ u) → IsGreatest (times bs) t

theorem newest_of_isGreatest {t : Int} (h : IsGreatest (insert 0 (times bs)) t) : Newest bs t := by
  refine ⟨h, ?_⟩
  rintro ⟨u, hu, hlate⟩
  have hupper : t ∈ upperBounds (times bs) := fun v hv => h.2 (Set.mem_insert_of_mem 0 hv)
  rcases Set.mem_insert_iff.mp h.1 with rfl | ht
  · -- then the item is from the beginning of time
    obtain rfl : u = 0 := le_antisymm (hupper hu) hlate
    exact ⟨hu, hupper⟩
  · exact ⟨ht, hupper⟩

/-- The newest time in what some branches come to. -/
theorem newest_sum (hplain : ∀ b ∈ bs.flatMap nodes, b.Plain) : Newest bs (Tally.sum (bs.map tally)).newest :=
  newest_of_isGreatest (isGreatest_sum fun b hb => isGreatest_max b fun d hd =>
    hplain d (List.mem_flatMap.mpr ⟨b, hb, hd⟩))

end Branch

end TreeCensus.Walk
