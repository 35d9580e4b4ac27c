import TreeCensus.Glob.Reading

/-!
# Condensed patterns

In a condensed pattern no group chooses between single characters. What all choices of a group begin
with stands before the group, and choices of one character each are the members of one bracket
expression. A bracket expression that lists a single character is that character. When case is
ignored, the members of a bracket expression follow a rule of their own (`Casing.members`), so a
pattern has to be condensed before it reads. As long as case is heeded, a condensed pattern reads what
the pattern reads (`reads_condense`).
-/

namespace TreeCensus.Glob.Pattern

set_option autoImplicit false

/-- Whether a pattern reads exactly one character. -/
def isSingle : Pattern → Bool
  | atom (.char _) | atom .one | bracket _ => true
  | _ => false

/-- One pattern after the other. -/
def sequence : List Pattern → Pattern
  | [] => empty
  | p :: ps => seq p (sequence ps)

/-- The first choice, or one of the others. -/
def either : List Pattern → List (List Pattern) → Pattern
  | c, [] => sequence c
  | c, d :: ds => alt (sequence c) (either d ds)

/-- The patterns of single characters that the first choice and all others begin with. -/
def sharedStart : List Pattern → List (List Pattern) → List Pattern
  | [], _ => []
  | p :: c, others =>
    if p.isSingle ∧ others.all (·.head? = some p) then p :: sharedStart c (others.map List.tail)
    else []

/-- The members of a bracket expression that stands for a choice. -/
def members? : List Pattern → Option (List Member)
  | [atom (.char x)] => some [.single x]
  | [bracket b] => if b.negated then none else some b.members
  | _ => none

/-- A group of choices. -/
def group (c : List Pattern) (others : List (List Pattern)) : Pattern :=
  match (c :: others).mapM members? with
  | some ms => bracket ⟨false, ms.flatten.eraseDups⟩
  | none => either c others

/-- What a group of choices comes to; with a single choice it is no group. -/
def gather : List (List Pattern) → List Pattern
  | [] => []
  | [c] => c
  | c :: others =>
    let start := sharedStart c others
    start ++ [group (c.drop start.length) (others.map (·.drop start.length))]

/-- A bracket expression without repetitions. -/
def ofBracket (b : Bracket) : Pattern :=
  match b.negated, b.members.eraseDups with
  | false, [.single x] => atom (.char x)
  | negated, members => bracket ⟨negated, members⟩

/-- The choices of a pattern, each one a list of condensed patterns. -/
def choices : Pattern → List (List Pattern)
  | empty => [[]]
  | atom a => [[atom a]]
  | bracket b => [[ofBracket b]]
  | seq p q => [gather (choices p) ++ gather (choices q)]
  | alt p q => choices p ++ [gather (choices q)]

def condense (p : Pattern) : Pattern := sequence (gather (choices p))

theorem reads_sequence_append (k : Casing) (ps qs : List Pattern) (K : Text → Bool) :
    (sequence (ps ++ qs)).reads k K = (sequence ps).reads k ((sequence qs).reads k K) := by
  induction ps with
  | nil => rfl
  | cons p ps ih => simp [sequence, reads, ih]

theorem reads_either (k : Casing) (c : List Pattern) (others : List (List Pattern))
    (K : Text → Bool) (t : Text) :
    (either c others).reads k K t = (c :: others).any fun d => (sequence d).reads k K t := by
  induction others generalizing c with
  | nil => simp only [either, List.any_cons, List.any_nil, Bool.or_false]
  | cons d ds ih => simp only [either, reads, ih, List.any_cons]

theorem exists_readNext_of_isSingle (k : Casing) {p : Pattern} (h : p.isSingle = true) :
    ∃ f, ∀ K, p.reads k K = readNext f K := by
  cases p with
  | atom a =>
    cases a with
    | char x => exact ⟨fun c => x ∈ k.kin c, fun K => by simp only [reads, Atom.reads]⟩
    | one => exact ⟨inName, fun K => by simp only [reads, Atom.reads]⟩
    | _ => cases h
  | bracket b => exact ⟨fun c => b.Accepts k c, fun K => by simp only [reads]⟩
  | _ => cases h

theorem readNext_any {α : Type} (f : Char → Bool) (l : List α) (G : α → Text → Bool) (t : Text) :
    readNext f (fun s => l.any fun a => G a s) t = l.any fun a => readNext f (G a) t := by
  cases t with
  | nil => simp [readNext]
  | cons c r => cases h : f c <;> simp [readNext, h]

/-- What reads single characters may be read before or after a choice is made. -/
theorem reads_any_of_isSingle {α : Type} (k : Casing) {ps : List Pattern}
    (h : ∀ p ∈ ps, p.isSingle = true) (l : List α) (G : α → Text → Bool) (t : Text) :
    (sequence ps).reads k (fun s => l.any fun a => G a s) t =
      l.any fun a => (sequence ps).reads k (G a) t := by
  induction ps generalizing t with
  | nil => rfl
  | cons p ps ih =>
    obtain ⟨f, hf⟩ := exists_readNext_of_isSingle k (h p (by simp))
    have hps : (sequence ps).reads k (fun s => l.any fun a => G a s) =
        fun s => l.any fun a => (sequence ps).reads k (G a) s :=
      funext fun s => ih (fun q hq => h q (by simp [hq])) s
    simp only [sequence, reads, hf, hps]
    exact readNext_any f l _ t

theorem isSingle_of_mem_sharedStart {c : List Pattern} {others : List (List Pattern)} {p : Pattern}
    (h : p ∈ sharedStart c others) : p.isSingle = true := by
  induction c generalizing others with
  | nil => simp [sharedStart] at h
  | cons q c ih =>
    unfold sharedStart at h
    split at h
    · rename_i hq
      rcases List.mem_cons.mp h with rfl | h
      · exact hq.1
      · exact ih h
    · cases h

theorem sharedStart_append_drop {c : List Pattern} {others : List (List Pattern)} {d : List Pattern}
    (hd : d ∈ c :: others) :
    sharedStart c others ++ d.drop (sharedStart c others).length = d := by
  induction c generalizing others d with
  | nil => simp [sharedStart]
  | cons p c ih =>
    unfold sharedStart
    split
    · rename_i h
      obtain ⟨e, rfl, he⟩ : ∃ e, d = p :: e ∧ e ∈ c :: others.map List.tail := by
        rcases List.mem_cons.mp hd with rfl | hd'
        · exact ⟨c, rfl, by simp⟩
        · have hp := List.all_eq_true.mp h.2 d hd'
          cases d with
          | nil => simp at hp
          | cons q e =>
            obtain rfl : q = p := by simpa using hp
            exact ⟨e, rfl, by simpa using Or.inr ⟨q :: e, hd', rfl⟩⟩
      simpa using ih he
    · simp

theorem reads_of_members? {d : List Pattern} {ms : List Member} (h : members? d = some ms)
    (K : Text → Bool) (t : Text) :
    (sequence d).reads .heeded K t = readNext (fun c => ∃ m ∈ ms, m.Holds .heeded c) K t := by
  unfold members? at h
  split at h
  · obtain rfl := Option.some.inj h
    simp [sequence, reads, Atom.reads, Member.Holds, Casing.kin]
  · rename_i b
    split at h
    · cases h
    · rename_i hb
      obtain rfl := Option.some.inj h
      simp [sequence, reads, Bracket.Accepts, Bracket.Lists, hb]
  · cases h

theorem any_reads_of_members? {cs : List (List Pattern)} {mss : List (List Member)}
    (h : cs.mapM members? = some mss) (K : Text → Bool) (t : Text) :
    (cs.any fun d => (sequence d).reads .heeded K t) =
      readNext (fun c => ∃ m ∈ mss.flatten, m.Holds .heeded c) K t := by
  induction cs generalizing mss with
  | nil =>
    obtain rfl : mss = [] := by simpa using h.symm
    cases t <;> simp [readNext]
  | cons d cs ih =>
    rw [List.mapM_cons] at h
    obtain ⟨ms, hd, h⟩ := Option.bind_eq_some_iff.mp h
    obtain ⟨rest, hr, h⟩ := Option.bind_eq_some_iff.mp h
    obtain rfl : ms :: rest = mss := by simpa using h
    simp only [List.any_cons, reads_of_members? hd, ih hr]
    cases t with
    | nil => rfl
    | cons c r =>
      rw [Bool.eq_iff_iff]
      simp only [readNext, List.flatten_cons, List.mem_append, Bool.or_eq_true, Bool.and_eq_true,
        decide_eq_true_eq, or_and_right, exists_or]

theorem reads_group (c : List Pattern) (others : List (List Pattern)) (K : Text → Bool) (t : Text) :
    (group c others).reads .heeded K t =
      (c :: others).any fun d => (sequence d).reads .heeded K t := by
  unfold group
  split
  · rename_i mss h
    have hm : ∀ m, m ∈ mss.flatten.eraseDups ↔ m ∈ mss.flatten := fun m => List.mem_eraseDups
    rw [any_reads_of_members? h]
    simp only [reads, Bracket.Accepts, Bracket.Lists, hm]
    rfl
  · exact reads_either _ _ _ _ _

theorem any_congr {α : Type} {l : List α} {f g : α → Bool} (h : ∀ a ∈ l, f a = g a) :
    l.any f = l.any g := by
  induction l with
  | nil => rfl
  | cons a l ih => simp [h a (by simp), ih fun b hb => h b (by simp [hb])]

theorem reads_gather {cs : List (List Pattern)} (h : cs ≠ []) (K : Text → Bool) (t : Text) :
    (sequence (gather cs)).reads .heeded K t =
      cs.any fun d => (sequence d).reads .heeded K t := by
  match cs with
  | [] => exact absurd rfl h
  | [c] => simp [gather]
  | c :: d :: ds =>
    have hg : (sequence [group (c.drop (sharedStart c (d :: ds)).length)
          ((d :: ds).map (·.drop (sharedStart c (d :: ds)).length))]).reads .heeded K =
        fun s => (c :: d :: ds).any fun e =>
          (sequence (e.drop (sharedStart c (d :: ds)).length)).reads .heeded K s := by
      funext s
      simp [sequence, reads, reads_group, List.any_map, Function.comp_def]
    simp only [gather, reads_sequence_append]
    rw [hg, reads_any_of_isSingle _ fun p hp => isSingle_of_mem_sharedStart hp]
    refine any_congr fun e he => ?_
    rw [← reads_sequence_append, sharedStart_append_drop he]

theorem choices_ne_nil (p : Pattern) : choices p ≠ [] := by
  cases p <;> simp [choices]

theorem reads_ofBracket (b : Bracket) (K : Text → Bool) :
    (ofBracket b).reads .heeded K = (bracket b).reads .heeded K := by
  have hm : ∀ m, m ∈ b.members.eraseDups ↔ m ∈ b.members := fun m => List.mem_eraseDups
  unfold ofBracket
  split
  · rename_i x hn hx
    simp only [hx, List.mem_singleton] at hm
    simp [reads, Atom.reads, Bracket.Accepts, Bracket.Lists, hn, ← hm, Member.Holds, Casing.kin]
  · simp [reads, Bracket.Accepts, Bracket.Lists, hm]

theorem any_reads_choices (p : Pattern) (K : Text → Bool) (t : Text) :
    ((choices p).any fun d => (sequence d).reads .heeded K t) = p.reads .heeded K t := by
  induction p generalizing K t with
  | empty => simp [choices, sequence]
  | atom a => simp [choices, sequence, reads]
  | bracket b => simp [choices, sequence, reads, reads_ofBracket]
  | seq p q ihp ihq =>
    have hq : (sequence (gather (choices q))).reads .heeded K = q.reads .heeded K :=
      funext fun s => (reads_gather (choices_ne_nil q) K s).trans (ihq K s)
    simp only [choices, List.any_cons, List.any_nil, Bool.or_false, reads_sequence_append, hq, reads]
    rw [reads_gather (choices_ne_nil p), ihp]
  | alt p q ihp ihq =>
    simp only [choices, List.any_append, List.any_cons, List.any_nil, Bool.or_false, ihp, reads]
    rw [reads_gather (choices_ne_nil q), ihq]

theorem reads_condense (p : Pattern) (K : Text → Bool) :
    p.condense.reads .heeded K = p.reads .heeded K :=
  funext fun t => (reads_gather (choices_ne_nil p) K t).trans (any_reads_choices p K t)

/-- A pattern as it is used where case is heeded or ignored. -/
def under : Casing → Pattern → Pattern
  | .heeded, p => p
  | .ignored, p => p.condense

end TreeCensus.Glob.Pattern
