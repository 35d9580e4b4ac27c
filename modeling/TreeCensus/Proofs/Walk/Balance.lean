import TreeCensus.Proofs.Walk.Permits
import TreeCensus.Proofs.Walk.Recursion

/-!
# What is left to a walk

What a task has left is what it will still add to the total of its level, the marks that it will still
leave, and a bound on the steps that it and the levels it will open are going to make. In a walk that
is not disturbed, what has been done and what is left add up to the same all the time.
-/

namespace TreeCensus.Walk

set_option autoImplicit false

variable {σ : Type}

structure Left extends Yield where
  work : Nat

namespace Plan

/-- A bound on the steps of the level that is opened for a directory, and of its tasks. -/
def work (plan : Plan) : (fuel : Nat) → Path → Nat
  | 0, _ => 0
  | fuel + 1, place =>
    match plan.files.entries place with
    | .ok names => (names.map fun name =>
        9 + plan.work fuel (Path.resolve plan.files.cwd (Path.under place name))).sum + 1
    | .error _ => 0

end Plan

section Position
variable (plan : Plan) (fuel depth : Nat) (v : Visit)

def Visit.full : Yield := (plan.visit? fuel depth v.place v.verdict).getD .nothing

def Visit.inside? (info : FileInfo) : Option Yield :=
  plan.inside? depth v.place (plan.visit? (fuel - 1) (depth + 1)) v.verdict info

def Visit.inside (info : FileInfo) : Yield := (v.inside? plan fuel depth info).getD .nothing

/-- What is left of a visit that has not begun. -/
def Visit.ahead : Left := ⟨v.full plan fuel depth, 9 + plan.work fuel v.place⟩

def Visit.counted (info : FileInfo) (tally : Tally) : Yield :=
  plan.counted depth v.place v.verdict info tally

/-- What is left when the call for a job is in progress, or is about to be. -/
def Job.left : Job → Left
  | .info => ⟨v.full plan fuel depth, 7 + plan.work fuel v.place⟩
  | .target _ => ⟨.nothing, 0⟩
  | .entries found => ⟨v.inside plan fuel depth found, 5 + plan.work fuel v.place⟩
  | .report found tally => ⟨plan.reported depth v.place found tally, 2⟩

/-- What is left when the call for a job has failed. -/
def Job.leftOver : Job → Left
  | .info => ⟨.nothing, 1⟩
  | .target found | .entries found => ⟨v.counted plan depth found found.tally, 4⟩
  | .report _ _ => ⟨.nothing, 1⟩

/-- What is left of a task in this phase, where `sums` holds what each level will come to. -/
def Phase.left (sums : List Tally) : Phase → Left
  | fresh => v.ahead plan fuel depth
  | queued _ job => { job.left plan fuel depth v with work := (job.left plan fuel depth v).work + 1 }
  | calling (.report info tally) => ⟨plan.answered depth v.place info tally, 2⟩
  | calling job => job.left plan fuel depth v
  | consulting job _ => job.leftOver plan depth v
  | logging _ => ⟨.nothing, 1⟩
  | descending k info => ⟨v.counted plan depth info (sums.getD k .zero), 4⟩
  | ended _ => ⟨.nothing, 0⟩

/-- What is left from a cursor on. -/
def Cursor.left : Cursor → Left
  | conclude _ => ⟨.nothing, 0⟩
  | log tally => ⟨⟨none, plan.lines depth v.place tally⟩, 1⟩
  | accept tally => ⟨plan.accepted depth v.place tally, 1⟩
  | seek job => { job.left plan fuel depth v with work := (job.left plan fuel depth v).work + 1 }
  | follow (.over _) => ⟨.nothing, 0⟩
  | follow (.counted info tally) => ⟨plan.reported depth v.place info tally, 3⟩
  | enter info => ⟨v.inside plan fuel depth info, 6 + plan.work fuel v.place⟩
  | onInfo _ => ⟨v.full plan fuel depth, 6 + plan.work fuel v.place⟩
  | onTarget _ _ => ⟨.nothing, 0⟩
  | onEntries info _ => ⟨v.inside plan fuel depth info, 4 + plan.work fuel v.place⟩
  | giveBack next => next.left
  | onAnswer job _ _ | consult job _ =>
    { job.leftOver plan depth v with work := (job.leftOver plan depth v).work - 1 }
  | offer job _ => job.leftOver plan depth v
  | onReply _ tally (.ok true) => ⟨plan.accepted depth v.place tally, 1⟩
  | onReply _ _ _ => ⟨.nothing, 1⟩
  | stop _ tally reply =>
    match reply.answer with
    | .ok true => ⟨plan.accepted depth v.place tally, 1⟩
    | _ => ⟨.nothing, 1⟩
  | report info tally | answer (.report info tally) =>
    ⟨plan.answered depth v.place info tally, 1⟩
  | begin job => job.left plan fuel depth v
  | answer job => { job.left plan fuel depth v with work := (job.left plan fuel depth v).work - 1 }

end Position

/-- Adds a share, if there is one, to the total of a level. -/
def credit (totals : List Tally) (l : Nat × Left) : List Tally :=
  match l.2.share with
  | some x => totals.modify l.1 (·.add x)
  | none => totals

/-- The totals of levels after all shares that are left were added. -/
def pay (totals : List Tally) (lefts : List (Nat × Left)) : List Tally := lefts.foldl credit totals

theorem credit_none {l : Nat × Left} (h : l.2.share = none) (totals : List Tally) :
    credit totals l = totals := by
  unfold credit
  rw [h]

theorem credit_some {l : Nat × Left} {x : Tally} (h : l.2.share = some x) (totals : List Tally) :
    credit totals l = totals.modify l.1 (·.add x) := by
  unfold credit
  rw [h]

/-- What has been done and what is left come to the given sums and marks, within a bound on work. -/
structure Balanced (totals : List Tally) (done : List Mark) (lefts : List (Nat × Left)) (opened : Nat)
    (sums : List Tally) (goal : List Mark) (bound : Nat) : Prop where
  shares : pay totals lefts = sums
  marks : (done ++ lefts.flatMap (·.2.marks)).Perm goal
  work : (lefts.map (·.2.work)).sum + opened ≤ bound

theorem modify_add_comm (ts : List Tally) (k j : Nat) (x y : Tally) :
    (ts.modify k (·.add x)).modify j (·.add y) = (ts.modify j (·.add y)).modify k (·.add x) := by
  by_cases hkj : k = j
  · subst hkj
    rw [List.modify_modify_eq, List.modify_modify_eq]
    congr 1
    funext t
    exact RightCommutative.right_comm t x y
  · exact List.modify_modify_ne _ _ ts hkj

instance : RightCommutative credit where
  right_comm ts l m := by
    cases hl : l.2.share with
    | none => rw [credit_none hl, credit_none hl]
    | some x =>
      cases hm : m.2.share with
      | none => rw [credit_none hm, credit_none hm]
      | some y =>
        rw [credit_some hl, credit_some hm, credit_some hl, credit_some hm]
        exact modify_add_comm ts l.1 m.1 x y

theorem pay_perm {lefts lefts' : List (Nat × Left)} (h : lefts.Perm lefts') (totals : List Tally) :
    pay totals lefts = pay totals lefts' := h.foldl_eq totals

theorem pay_cons (totals : List Tally) (l : Nat × Left) (lefts : List (Nat × Left)) :
    pay totals (l :: lefts) = pay (credit totals l) lefts := rfl

theorem pay_append (totals : List Tally) (lefts lefts' : List (Nat × Left)) :
    pay totals (lefts ++ lefts') = pay (pay totals lefts) lefts' := List.foldl_append

theorem length_credit (totals : List Tally) (l : Nat × Left) :
    (credit totals l).length = totals.length := by
  cases h : l.2.share with
  | none => rw [credit_none h]
  | some x => rw [credit_some h, List.length_modify]

theorem length_pay (lefts : List (Nat × Left)) :
    ∀ totals, (pay totals lefts).length = totals.length := by
  induction lefts with
  | nil => exact fun _ => rfl
  | cons l lefts ih =>
    intro totals
    rw [pay_cons, ih, length_credit]

/-- A level to which nothing is left to be added keeps its total. -/
theorem getElem?_pay {k : Nat} {lefts : List (Nat × Left)}
    (h : ∀ l ∈ lefts, l.1 = k → l.2.share = none) : ∀ totals, (pay totals lefts)[k]? = totals[k]? := by
  induction lefts with
  | nil => exact fun _ => rfl
  | cons l lefts ih =>
    intro totals
    rw [pay_cons, ih fun m hm => h m (List.mem_cons_of_mem l hm)]
    have hl := h l List.mem_cons_self
    cases hshare : l.2.share with
    | none => rw [credit_none hshare]
    | some x =>
      rw [credit_some hshare]
      apply List.getElem?_modify_ne
      intro heq
      rw [hl heq] at hshare
      cases hshare

/-- A level that is opened gets nothing from tasks of other levels. -/
theorem pay_append_totals {lefts : List (Nat × Left)} (more : List Tally) :
    ∀ {totals : List Tally}, (∀ l ∈ lefts, l.1 < totals.length) →
      pay (totals ++ more) lefts = pay totals lefts ++ more := by
  induction lefts with
  | nil => exact fun _ => rfl
  | cons l lefts ih =>
    intro totals h
    have hl := h l List.mem_cons_self
    have hcredit : credit (totals ++ more) l = credit totals l ++ more := by
      cases hshare : l.2.share with
      | none => rw [credit_none hshare, credit_none hshare]
      | some x => rw [credit_some hshare, credit_some hshare, modify_append hl]
    rw [pay_cons, pay_cons, hcredit]
    apply ih
    intro m hm
    rw [length_credit]
    exact h m (List.mem_cons_of_mem l hm)

theorem modify_append_length {α : Type} (l : List α) (a : α) (f : α → α) :
    (l ++ [a]).modify l.length f = l ++ [f a] := by
  induction l with
  | nil => rfl
  | cons b l ih => exact congrArg (b :: ·) ih

/-- What the tasks of a new level have left makes up its sum. -/
theorem pay_new (totals : List Tally) (ys : List Left) (t : Tally) :
    pay (totals ++ [t]) (ys.map fun y => (totals.length, y)) =
      totals ++ [(ys.filterMap (·.share)).foldl Tally.add t] := by
  induction ys generalizing t with
  | nil => rfl
  | cons y ys ih =>
    rw [List.map_cons, pay_cons, List.filterMap_cons]
    cases hshare : y.share with
    | none =>
      rw [credit_none hshare]
      exact ih t
    | some x =>
      rw [credit_some hshare, modify_append_length]
      exact ih (t.add x)

namespace Balanced

variable {totals sums : List Tally} {done goal : List Mark} {rest lefts : List (Nat × Left)}
  {opened bound k : Nat} {l l' : Left}

theorem perm {lefts' : List (Nat × Left)} (h : Balanced totals done lefts opened sums goal bound)
    (hperm : lefts.Perm lefts') : Balanced totals done lefts' opened sums goal bound := by
  refine ⟨?_, ?_, ?_⟩
  · rw [← pay_perm hperm]
    exact h.shares
  · exact (List.Perm.append_left done (hperm.flatMap_right _)).symm.trans h.marks
  · rw [← (hperm.map (·.2.work)).sum_eq]
    exact h.work

theorem still (h : Balanced totals done ((k, l) :: rest) opened sums goal bound)
    (hyield : l'.toYield = l.toYield) (hwork : l'.work ≤ l.work) :
    Balanced totals done ((k, l') :: rest) opened sums goal bound := by
  refine ⟨?_, ?_, ?_⟩
  · rw [← h.shares, pay_cons, pay_cons]
    unfold credit
    dsimp only
    rw [hyield]
  · have hmarks := h.marks
    simp only [List.flatMap_cons] at hmarks ⊢
    rw [hyield]
    exact hmarks
  · have := h.work
    simp only [List.map_cons, List.sum_cons] at this ⊢
    omega

theorem mark (h : Balanced totals done ((k, l) :: rest) opened sums goal bound) {m : Mark}
    {done' : List Mark} (hdone : done'.Perm (m :: done)) (hshare : l'.share = l.share)
    (hmarks : l.marks = m :: l'.marks) (hwork : l'.work ≤ l.work) :
    Balanced totals done' ((k, l') :: rest) opened sums goal bound := by
  refine ⟨?_, ?_, ?_⟩
  · rw [← h.shares, pay_cons, pay_cons]
    unfold credit
    dsimp only
    rw [hshare]
  · have hbefore := h.marks
    simp only [List.flatMap_cons, hmarks, List.cons_append] at hbefore ⊢
    exact ((hdone.append_right _).trans List.perm_middle.symm).trans hbefore
  · have := h.work
    simp only [List.map_cons, List.sum_cons] at this ⊢
    omega

theorem credit (h : Balanced totals done ((k, l) :: rest) opened sums goal bound) {x : Tally}
    (hbefore : l.share = some x) (hshare : l'.share = none) (hmarks : l'.marks = l.marks)
    (hwork : l'.work ≤ l.work) :
    Balanced (totals.modify k (·.add x)) done ((k, l') :: rest) opened sums goal bound := by
  refine ⟨?_, ?_, ?_⟩
  · rw [← h.shares, pay_cons, pay_cons, credit_none hshare, credit_some hbefore]
  · have := h.marks
    simp only [List.flatMap_cons, hmarks] at this ⊢
    exact this
  · have := h.work
    simp only [List.map_cons, List.sum_cons] at this ⊢
    omega

/-- What a task has left is handed over to the tasks of a level that it opens. -/
theorem descend (h : Balanced totals done ((k, l) :: rest) opened sums goal bound) {ys : List Left}
    (hk : k < totals.length) (hrest : ∀ m ∈ rest, m.1 < totals.length) (hshare : l'.share = l.share)
    (hmarks : l.marks = ys.flatMap (·.marks) ++ l'.marks)
    (hwork : l'.work + (ys.map (·.work)).sum + 1 ≤ l.work) :
    Balanced (totals ++ [.zero]) done ((k, l') :: rest ++ ys.map fun y => (totals.length, y)) (opened + 1)
      (sums ++ [(ys.filterMap (·.share)).foldl Tally.add .zero]) goal bound := by
  refine ⟨?_, ?_, ?_⟩
  · have hsame : pay totals ((k, l') :: rest) = sums := by
      rw [← h.shares, pay_cons, pay_cons]
      unfold TreeCensus.Walk.credit
      dsimp only
      rw [hshare]
    have hall : ∀ m ∈ (k, l') :: rest, m.1 < totals.length := by
      intro m hm
      rcases List.mem_cons.mp hm with rfl | hm
      · exact hk
      · exact hrest m hm
    rw [pay_append, pay_append_totals _ hall, hsame]
    have hlength : totals.length = sums.length := by rw [← hsame, length_pay]
    rw [hlength]
    exact pay_new sums ys .zero
  · have hbefore := h.marks
    have hnew : (ys.map fun y => (totals.length, y)).flatMap (·.2.marks) = ys.flatMap (·.marks) :=
      List.flatMap_map ..
    simp only [List.flatMap_cons, List.flatMap_append, hnew, hmarks] at hbefore ⊢
    refine .trans (List.Perm.append_left done ?_) hbefore
    rw [List.append_assoc (ys.flatMap _)]
    exact List.perm_append_comm
  · have := h.work
    have hnew : ((ys.map fun y => (totals.length, y)).map (·.2.work)).sum = (ys.map (·.work)).sum := by
      rw [List.map_map]
      rfl
    simp only [List.map_cons, List.map_append, List.sum_cons, List.sum_append, hnew] at this ⊢
    omega

/-- A step costs some of the work that is left. -/
theorem spend (h : Balanced totals done ((k, l) :: rest) opened sums goal bound)
    (hyield : l'.toYield = l.toYield) (hwork : l'.work + 1 ≤ l.work) :
    0 < bound ∧ Balanced totals done ((k, l') :: rest) opened sums goal (bound - 1) := by
  have hsame := h.still hyield (Nat.le_of_succ_le hwork)
  have hbefore := h.work
  simp only [List.map_cons, List.sum_cons] at hbefore
  refine ⟨by omega, hsame.shares, hsame.marks, ?_⟩
  simp only [List.map_cons, List.sum_cons]
  omega

end Balanced

end TreeCensus.Walk
