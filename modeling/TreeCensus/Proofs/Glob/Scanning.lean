import TreeCensus.Proofs.Glob.Bonds
import TreeCensus.Proofs.Glob.Members
import TreeCensus.Proofs.Glob.Segment

/-!
# Scanning a segment

`Scan s bs o` says that a segment, read from left to right, has the bracket expressions `bs` and that `o` is
what stands outside of them. Either a segment has a scan or the scan meets a bracket that is not closed
(`scan_or_unclosed`), and the tokens of a segment are what its scan shows (`Scan.exists_readTokens?`).

So a glob without braces compiles just if its segments have scans, no span of a bracket expression ends before
it begins, and the parentheses outside of bracket expressions are balanced, where they are taken for groups
(`not_exists_ofGlob_iff`).
-/

namespace TreeCensus.Glob

set_option autoImplicit false

inductive Scan : Text → List WrittenBracket → Text → Prop
  | nil : Scan [] [] []
  | char {c : Char} {t : Text} {bs : List WrittenBracket} {o : Text} : c ≠ '[' → Scan t bs o →
      Scan (c :: t) bs (c :: o)
  | bracket (b : WrittenBracket) {t : Text} {bs : List WrittenBracket} {o : Text} : Scan t bs o →
      Scan (b.text ++ t) (b :: bs) o

/-- A scan comes to an opening bracket at which no bracket expression begins. -/
def Unclosed (s : Text) : Prop :=
  ∃ u bs o r, s = u ++ '[' :: r ∧ Scan u bs o ∧ ∀ (b : WrittenBracket) t, r ≠ b.inside ++ t

theorem Unclosed.char {c : Char} (hc : c ≠ '[') {t : Text} (h : Unclosed t) : Unclosed (c :: t) := by
  obtain ⟨u, bs, o, r, rfl, hu, hr⟩ := h
  exact ⟨c :: u, bs, c :: o, r, rfl, .char hc hu, hr⟩

theorem Unclosed.bracket (b : WrittenBracket) {t : Text} (h : Unclosed t) : Unclosed (b.text ++ t) := by
  obtain ⟨u, bs, o, r, rfl, hu, hr⟩ := h
  exact ⟨b.text ++ u, b :: bs, o, r, by simp, .bracket b hu, hr⟩

theorem scan_or_unclosed (s : Text) : (∃ bs o, Scan s bs o) ∨ Unclosed s := by
  -- on the length: behind a bracket expression the scan goes on several characters later
  induction hn : s.length using Nat.strongRecOn generalizing s with
  | ind n ih =>
    cases s with
    | nil => exact .inl ⟨[], [], .nil⟩
    | cons c r =>
      by_cases hc : c = '['
      · subst hc
        cases hr : bracketText? r with
        | none =>
          refine .inr ⟨[], [], [], r, rfl, .nil, ?_⟩
          rintro b t rfl
          rw [b.bracketText?_inside t] at hr
          cases hr
        | some x =>
          obtain ⟨b, -, -, rfl⟩ := exists_of_bracketText? hr
          have hlt : x.after.length < n := by
            rw [← hn]
            simp only [List.length_cons, List.length_append]
            omega
          change (∃ bs o, Scan (b.text ++ x.after) bs o) ∨ Unclosed (b.text ++ x.after)
          rcases ih _ hlt x.after rfl with ⟨bs, o, h⟩ | h
          · exact .inl ⟨b :: bs, o, .bracket b h⟩
          · exact .inr (h.bracket b)
      · rcases ih r.length (by rw [← hn]; exact Nat.lt_succ_self _) r rfl with ⟨bs, o, h⟩ | h
        · exact .inl ⟨bs, c :: o, .char hc h⟩
        · exact .inr (h.char hc)

def Token.bracket? : Token → Option (Bool × Text)
  | .bracket negated members => some (negated, members)
  | _ => none

def Token.parenthesis? : Token → Option Char
  | .opening => some '('
  | .closing => some ')'
  | _ => none

def isParenthesis (c : Char) : Bool := c = '(' || c = ')'

/-- Tokens show bracket expressions and parentheses, and nothing else of what can keep them from being put
together. -/
structure Shows (ts : List Token) (bs : List WrittenBracket) (o : Text) : Prop where
  brackets : ts.filterMap Token.bracket? = bs.map fun b => (b.negated, b.body)
  parentheses : ts.filterMap Token.parenthesis? = o.filter isParenthesis

namespace Shows

variable {ts : List Token} {bs : List WrittenBracket} {o : Text}

theorem atom (a : Atom) (h : Shows ts bs o) : Shows (.atom a :: ts) bs o := ⟨h.brackets, h.parentheses⟩

theorem bar (h : Shows ts bs o) : Shows (.bar :: ts) bs o := ⟨h.brackets, h.parentheses⟩

theorem opening (h : Shows ts bs o) : Shows (.opening :: ts) bs ('(' :: o) :=
  ⟨h.brackets, congrArg ('(' :: ·) h.parentheses⟩

theorem closing (h : Shows ts bs o) : Shows (.closing :: ts) bs (')' :: o) :=
  ⟨h.brackets, congrArg (')' :: ·) h.parentheses⟩

theorem bracket (b : WrittenBracket) (h : Shows ts bs o) :
    Shows (.bracket b.negated b.body :: ts) (b :: bs) o :=
  ⟨congrArg ((b.negated, b.body) :: ·) h.brackets, h.parentheses⟩

theorem skip {c : Char} (hc : isParenthesis c = false) (h : Shows ts bs o) : Shows ts bs (c :: o) :=
  ⟨h.brackets, by rw [h.parentheses, List.filter_cons_of_neg (by simp [hc])]⟩

end Shows

section Reading

variable {groups : Bool}

/-- The tokens of a segment show its bracket expressions, and its parentheses outside of them if they count
as groups. -/
theorem Scan.exists_readTokens? {s : Text} {bs : List WrittenBracket} {o : Text} (h : Scan s bs o) (d : Int) :
    ∃ ts, readTokens? groups d s = some ts ∧ Shows ts bs (if groups then o else []) := by
  induction h generalizing d with
  | nil => exact ⟨[], by rw [readTokens?], by cases groups <;> exact ⟨rfl, rfl⟩⟩
  | @bracket b t bs o _ ih =>
    obtain ⟨ts, hts, hshows⟩ := ih d
    exact ⟨_, by rw [readTokens?_bracket, hts]; rfl, hshows.bracket b⟩
  | @char c t bs o hc _ ih =>
    -- a character that is no parenthesis, where parentheses count, shows nothing
    have hskip : ∀ {ts}, (groups = true → isParenthesis c = false) →
        Shows ts bs (if groups then o else []) → Shows ts bs (if groups then c :: o else []) := by
      intro ts hnot hshows
      cases groups with
      | false => exact hshows
      | true => exact hshows.skip (hnot rfl)
    obtain ⟨ts, hts, hshows⟩ := ih d
    by_cases hstar : c = '*'
    · subst hstar
      by_cases hnext : t.head? = some '*'
      · exact ⟨ts, by rw [readTokens?]; simp [hnext, hts], hskip (fun _ => rfl) hshows⟩
      · exact ⟨_, by rw [readTokens?_star groups d hnext, hts]; rfl, (hskip (fun _ => rfl) hshows).atom .run⟩
    by_cases hone : c = '?'
    · subst hone
      exact ⟨_, by rw [readTokens?_one, hts]; rfl, (hskip (fun _ => rfl) hshows).atom .one⟩
    by_cases hopen : groups = true ∧ c = '('
    · obtain ⟨rfl, rfl⟩ := hopen
      obtain ⟨ts, hts, hshows⟩ := ih (d + 1)
      exact ⟨_, by rw [readTokens?_opening, hts]; rfl, hshows.opening⟩
    by_cases hclose : groups = true ∧ c = ')'
    · obtain ⟨rfl, rfl⟩ := hclose
      obtain ⟨ts, hts, hshows⟩ := ih (d - 1)
      exact ⟨_, by rw [readTokens?_closing, hts]; rfl, hshows.closing⟩
    have hplain : groups = true → c ≠ '(' ∧ c ≠ ')' :=
      fun hg => ⟨fun h => hopen ⟨hg, h⟩, fun h => hclose ⟨hg, h⟩⟩
    have hnot : groups = true → isParenthesis c = false := fun hg => by simp [isParenthesis, hplain hg]
    by_cases hbar : groups = true ∧ 0 < d ∧ c = '|'
    · obtain ⟨rfl, hd, rfl⟩ := hbar
      exact ⟨_, by rw [readTokens?_bar hd, hts]; rfl, (hskip hnot hshows).bar⟩
    · refine ⟨_, ?_, (hskip hnot hshows).atom (.char c)⟩
      rw [readTokens?_char hstar hone hc hplain (fun hg hd he => hbar ⟨hg, hd, he⟩), hts]
      rfl

/-- A bracket that is not closed leaves a segment without tokens. -/
theorem readTokens?_eq_none {s : Text} (h : Unclosed s) (d : Int) : readTokens? groups d s = none := by
  obtain ⟨u, bs, o, r, rfl, hu, hr⟩ := h
  induction hu generalizing d with
  | nil =>
    have hnone : bracketText? r = none := by
      cases hx : bracketText? r with
      | none => rfl
      | some x =>
        obtain ⟨b, -, -, heq⟩ := exists_of_bracketText? hx
        exact absurd heq (hr b x.after)
    rw [List.nil_append, readTokens?]
    simp only [if_neg (show '[' ≠ '*' by decide), if_neg (show '[' ≠ '?' by decide), if_true]
    split
    · rfl
    · next x hx => rw [hnone] at hx; cases hx
  | char hc _ ih =>
    rw [List.cons_append, readTokens?]
    simp [hc, ih]
  | bracket b _ ih => rw [List.append_assoc, readTokens?_bracket, ih, Option.map_none]

end Reading

theorem Scan.eq_nil {s : Text} {bs : List WrittenBracket} {o : Text} (h : Scan s bs o) (hs : '[' ∉ s) :
    bs = [] := by
  induction h with
  | nil => rfl
  | char _ _ ih => exact ih fun hmem => hs (List.mem_cons_of_mem _ hmem)
  | bracket b _ _ => exact absurd List.mem_cons_self hs

theorem Scan.exists_segmentTokens? {s : Text} {bs : List WrittenBracket} {o : Text} (h : Scan s bs o) :
    ∃ ts, segmentTokens? s = some ts ∧ Shows ts bs (if HasGroups s then o else []) := by
  unfold segmentTokens?
  by_cases hstars : s ≠ [] ∧ s.all (· = '*') = true
  · have hfree : ∀ {c : Char}, c ≠ '*' → c ∉ s := fun hc hmem =>
      hc (of_decide_eq_true (List.all_eq_true.mp hstars.2 _ hmem))
    obtain rfl := h.eq_nil (hfree (by decide))
    rw [if_pos hstars, if_neg fun hg : HasGroups s => hfree (by decide) hg.1]
    exact ⟨_, rfl, rfl, rfl⟩
  · rw [if_neg hstars]
    obtain ⟨ts, hts, hshows⟩ := @Scan.exists_readTokens? (decide (HasGroups s)) _ _ _ h 0
    exact ⟨ts, hts, by simpa using hshows⟩

/-- The bracket expressions of several segments, and what stands outside of them in the segments whose
parentheses are groups. -/
inductive Scans : List Text → List WrittenBracket → Text → Prop
  | nil : Scans [] [] []
  | cons {s : Text} {rest : List Text} {bs bs' : List WrittenBracket} {o o' : Text} : Scan s bs o →
      Scans rest bs' o' → Scans (s :: rest) (bs ++ bs') ((if HasGroups s then o else []) ++ o')

theorem scans_or_unclosed (segs : List Text) : (∃ bs o, Scans segs bs o) ∨ ∃ s ∈ segs, Unclosed s := by
  induction segs with
  | nil => exact .inl ⟨[], [], .nil⟩
  | cons s rest ih =>
    rcases scan_or_unclosed s with ⟨bs, o, hs⟩ | hs
    · rcases ih with ⟨bs', o', hrest⟩ | ⟨t, ht, hopen⟩
      · exact .inl ⟨_, _, .cons hs hrest⟩
      · exact .inr ⟨t, List.mem_cons_of_mem s ht, hopen⟩
    · exact .inr ⟨s, List.mem_cons_self, hs⟩

theorem Shows.append {ts us : List Token} {bs bs' : List WrittenBracket} {o o' : Text} (ht : Shows ts bs o)
    (hu : Shows us bs' o') : Shows (ts ++ us) (bs ++ bs') (o ++ o') :=
  ⟨by rw [List.filterMap_append, List.map_append, ht.brackets, hu.brackets],
    by rw [List.filterMap_append, List.filter_append, ht.parentheses, hu.parentheses]⟩

/-- What tokens show that are no atoms, their bonds show. -/
theorem filterMap_bonds {α : Type} (f : Token → Option α) (hf : ∀ a, f (.atom a) = none) (ts : List Token) :
    (bonds ts).filterMap f = ts.filterMap f := by
  rw [bonds, List.filterMap_filter]
  congr 1
  funext t
  cases t <;> simp [Token.isBond, hf]

theorem Shows.bonds {ts : List Token} {bs : List WrittenBracket} {o : Text} (h : Shows ts bs o) :
    Shows (bonds ts) bs o :=
  ⟨(filterMap_bonds _ (fun _ => rfl) ts).trans h.brackets,
    (filterMap_bonds _ (fun _ => rfl) ts).trans h.parentheses⟩

theorem Scans.exists_pathBonds? {segs : List Text} {bs : List WrittenBracket} {o : Text}
    (h : Scans segs bs o) : ∃ ts, pathBonds? segs = some ts ∧ Shows ts bs o := by
  induction h with
  | nil => exact ⟨[], rfl, rfl, rfl⟩
  | cons hs _ ih =>
    obtain ⟨here, hhere, hshows⟩ := hs.exists_segmentTokens?
    obtain ⟨there, hthere, hshows'⟩ := ih
    refine ⟨_, ?_, hshows.bonds.append hshows'⟩
    rw [pathBonds?, segmentBonds?, hhere, hthere]
    rfl

theorem segmentTokens?_eq_none {s : Text} (h : Unclosed s) : segmentTokens? s = none := by
  have hbracket : '[' ∈ s := by
    obtain ⟨u, -, -, r, rfl, -, -⟩ := h
    simp
  rw [segmentTokens?, if_neg, readTokens?_eq_none h]
  exact fun hstars => absurd (List.all_eq_true.mp hstars.2 _ hbracket) (by decide)

theorem pathBonds?_eq_none {segs : List Text} {s : Text} (hs : s ∈ segs) (h : Unclosed s) :
    pathBonds? segs = none := by
  have hnone : segmentBonds? s = none := by rw [segmentBonds?, segmentTokens?_eq_none h, Option.map_none]
  induction segs with
  | nil => cases hs
  | cons t rest ih =>
    rw [pathBonds?]
    rcases List.mem_cons.mp hs with rfl | hs
    · rw [hnone]
    · rw [ih hs]
      cases segmentBonds? t <;> rfl

theorem openParentheses?_filter (n : Nat) (t : Text) :
    openParentheses? n (t.filter isParenthesis) = openParentheses? n t := by
  fun_induction openParentheses? n t with
  | case1 => rfl
  | case2 n r ih => simpa [isParenthesis, openParentheses?] using ih
  | case3 r => simp [isParenthesis, openParentheses?]
  | case4 n r ih => simpa [isParenthesis, openParentheses?] using ih
  | case5 n c r hopen hzero hsucc ih =>
    have hc : c ≠ '(' ∧ c ≠ ')' := ⟨hopen, fun hc => by cases n <;> simp_all⟩
    rw [List.filter_cons_of_neg (by simp [isParenthesis, hc]), ih]

/-- Tokens can be put together just if every bracket expression can be read and every group is closed. -/
theorem fastens_iff (d : Nat) (ts : List Token) :
    Fastens d ts ↔ (∀ x ∈ ts.filterMap Token.bracket?, ¬ Reversed (allMembers x.1 x.2)) ∧
      openParentheses? d (ts.filterMap Token.parenthesis?) = some 0 := by
  induction ts generalizing d with
  | nil => simp [Fastens, openParentheses?]
  | cons t ts ih =>
    cases t with
    | atom a => exact ih d
    | bar => exact ih d
    | bracket negated members =>
      have hbrackets : (Token.bracket negated members :: ts).filterMap Token.bracket? =
          (negated, members) :: ts.filterMap Token.bracket? := rfl
      rw [Fastens, exists_readMembers_iff, ih, hbrackets, List.forall_mem_cons, and_assoc]
      rfl
    | opening => exact ih (d + 1)
    | closing =>
      cases d with
      | zero => simp [Fastens, Token.parenthesis?, openParentheses?]
      | succ d => exact ih d

/-- The body as it is read: behind a slash, if the expression is negated. -/
def WrittenBracket.read (b : WrittenBracket) : Text := allMembers b.negated b.body

theorem Shows.fastens_iff {ts : List Token} {bs : List WrittenBracket} {o : Text} (h : Shows ts bs o) :
    Fastens 0 ts ↔ (∀ b ∈ bs, ¬ Reversed b.read) ∧ Nested True o := by
  rw [Glob.fastens_iff, h.brackets, h.parentheses, openParentheses?_filter, nested_iff, List.forall_mem_map]
  rfl

/-- What keeps a glob without braces from compiling. -/
theorem not_exists_ofGlob_iff (a : Text) :
    (¬ ∃ p, Pattern.ofGlob a = .ok p) ↔ (∃ s ∈ Path.parts (bare a), Unclosed s) ∨
      ∃ bs o, Scans (Path.parts (bare a)) bs o ∧ ((∃ b ∈ bs, Reversed b.read) ∨ ¬ Nested True o) := by
  rw [exists_ofGlob_iff, ← pathBonds?_bare]
  change (¬ ∃ ts, pathBonds? (Path.parts (bare a)) = some ts ∧ _) ↔ _
  constructor
  · intro hnot
    refine (scans_or_unclosed _).symm.imp_right ?_
    rintro ⟨bs, o, hscans⟩
    obtain ⟨ts, hts, hshows⟩ := hscans.exists_pathBonds?
    refine ⟨bs, o, hscans, ?_⟩
    by_contra hgood
    rw [not_or, not_exists, not_not] at hgood
    exact hnot ⟨ts, hts, hshows.fastens_iff.mpr ⟨fun b hb h => hgood.1 b ⟨hb, h⟩, hgood.2⟩⟩
  · rintro (⟨s, hs, hopen⟩ | ⟨bs, o, hscans, hbad⟩) ⟨ts, hts, hfastens⟩
    · rw [pathBonds?_eq_none hs hopen] at hts
      cases hts
    · obtain ⟨us, hus, hshows⟩ := hscans.exists_pathBonds?
      obtain rfl := Option.some.inj (hus.symm.trans hts)
      obtain ⟨hspans, hnested⟩ := hshows.fastens_iff.mp hfastens
      rcases hbad with ⟨b, hb, hreversed⟩ | hbad
      · exact hspans b hb hreversed
      · exact hbad hnested

theorem exists_error_iff (k : Casing) (g : Text) :
    (∃ message, matcher k g = .error (.invalidPattern g message)) ↔
      ∃ a ∈ expand g, ¬ ∃ p, Pattern.ofGlob a = .ok p := by
  have hcompile := Matcher.exists_compile_iff k g
  unfold matcher
  cases h : Matcher.compile k g with
  | ok m =>
    have hall := hcompile.mp ⟨m, h⟩
    simp only [reduceCtorEq, exists_false, false_iff]
    rintro ⟨a, ha, hnot⟩
    exact hnot (hall a ha)
  | error flaw =>
    rw [h] at hcompile
    simp only [reduceCtorEq, exists_false, false_iff] at hcompile
    refine iff_of_true ⟨_, rfl⟩ ?_
    by_contra hnone
    refine hcompile fun a ha => ?_
    by_contra hnot
    exact hnone ⟨a, ha, hnot⟩

/-- No parenthesis in the body, and no hyphen that a slash before it makes the middle of a span. -/
structure WrittenBracket.Tame (b : WrittenBracket) : Prop where
  opening : '(' ∉ b.body
  closing : ')' ∉ b.body
  hyphen : b.negated = true → ¬ LeadingHyphen b.body

theorem WrittenBracket.Tame.reversed_read_iff {b : WrittenBracket} (h : b.Tame) :
    Reversed b.read ↔ Reversed b.body := by
  unfold read allMembers
  split
  · next hn => simp [Reversed, spans_slash (h.hyphen hn)]
  · exact Iff.rfl

theorem nested_of_not_mem {t : Text} (hopen : '(' ∉ t) (hclose : ')' ∉ t) : Nested True t := by
  induction t with
  | nil => exact .nil
  | cons c t ih =>
    simp only [List.mem_cons, not_or] at hopen hclose
    exact .char (fun _ => ⟨Ne.symm hopen.1, Ne.symm hclose.1⟩) (ih hopen.2 hclose.2)

/-- All parentheses stand outside of the bracket expressions. -/
theorem Scan.openParentheses?_eq {s : Text} {bs : List WrittenBracket} {o : Text} (h : Scan s bs o)
    (hfree : ∀ b ∈ bs, '(' ∉ b.body ∧ ')' ∉ b.body) (n : Nat) :
    openParentheses? n s = openParentheses? n o := by
  induction h generalizing n with
  | nil => rfl
  | @char c t _ o hc _ ih =>
    have hrest := ih hfree
    by_cases hopen : c = '('
    · subst hopen
      exact hrest (n + 1)
    by_cases hclose : c = ')'
    · subst hclose
      cases n with
      | zero => rfl
      | succ n => exact hrest n
    have hskip : ∀ r, openParentheses? n (c :: r) = openParentheses? n r := by
      intro r
      rw [openParentheses?] <;> simp_all
    rw [hskip, hskip, hrest]
  | @bracket b _ _ _ _ ih =>
    obtain ⟨hb, hbs⟩ := List.forall_mem_cons.mp hfree
    rw [openParentheses?_nested, ih hbs]
    exact nested_of_not_mem (b.not_mem_text (by decide) hb.1) (b.not_mem_text (by decide) hb.2)

theorem Scan.nested {s : Text} {bs : List WrittenBracket} {o : Text} (h : Scan s bs o)
    (hfree : ∀ b ∈ bs, '(' ∉ b.body ∧ ')' ∉ b.body) (hgroups : HasGroups s) : Nested True o := by
  rw [nested_iff, ← h.openParentheses?_eq hfree, hgroups.2]

theorem Scans.nested {segs : List Text} {bs : List WrittenBracket} {o : Text} (h : Scans segs bs o)
    (htame : ∀ b ∈ bs, b.Tame) : Nested True o := by
  induction h with
  | nil => exact .nil
  | @cons s rest bs bs' o o' hs _ ih =>
    obtain ⟨hbs, hbs'⟩ := List.forall_mem_append.mp htame
    have hhere : Nested True (if HasGroups s then o else []) := by
      split
      · next hgroups => exact hs.nested (fun b hb => ⟨(hbs b hb).opening, (hbs b hb).closing⟩) hgroups
      · exact .nil
    rw [nested_iff, openParentheses?_nested hhere, ← nested_iff]
    exact ih hbs'

/-- A segment has at most one scan. -/
theorem Scan.unique {s : Text} {bs bs' : List WrittenBracket} {o o' : Text} (h : Scan s bs o)
    (h' : Scan s bs' o') : bs = bs' ∧ o = o' := by
  induction h generalizing bs' o' with
  | nil =>
    cases h' with
    | nil => exact ⟨rfl, rfl⟩
  | @char c t bs o hc _ ih =>
    generalize ht : c :: t = u at h'
    cases h' with
    | nil => cases ht
    | char _ hrest =>
      obtain ⟨rfl, rfl⟩ := List.cons.inj ht
      obtain ⟨rfl, rfl⟩ := ih hrest
      exact ⟨rfl, rfl⟩
    | bracket b _ => exact absurd (List.cons.inj ht).1 hc
  | @bracket b t bs o _ ih =>
    generalize ht : b.text ++ t = u at h'
    cases h' with
    | nil => cases ht
    | char hc _ => exact absurd (List.cons.inj ht).1.symm hc
    | @bracket b' t' _ _ hrest =>
      have hinside : b.inside ++ t = b'.inside ++ t' := (List.cons.inj ht).2
      -- Where a bracket expression ends is read off the text.
      have hread := b.bracketText?_inside t
      rw [hinside, b'.bracketText?_inside t'] at hread
      obtain ⟨hnegated, hbody, rfl⟩ := BracketText.mk.inj (Option.some.inj hread)
      obtain rfl : b' = b := WrittenBracket.ext hnegated hbody
      obtain ⟨rfl, rfl⟩ := ih hrest
      exact ⟨rfl, rfl⟩

theorem Scans.mem_iff {segs : List Text} {bs : List WrittenBracket} {o : Text} (h : Scans segs bs o)
    (b : WrittenBracket) : b ∈ bs ↔ ∃ s ∈ segs, ∃ bs' o', Scan s bs' o' ∧ b ∈ bs' := by
  induction h with
  | nil => simp
  | @cons s rest bs bs' o o' hs _ ih =>
    have hhere : (∃ bs' o', Scan s bs' o' ∧ b ∈ bs') ↔ b ∈ bs := by
      constructor
      · rintro ⟨bs', o', hs', hb⟩
        rwa [(hs.unique hs').1]
      · exact fun hb => ⟨bs, o, hs, hb⟩
    rw [List.mem_append, ih, List.exists_mem_cons_iff, hhere]

/-- A glob does not compile just if one of its alternatives has a bracket that is not closed, or a bracket
expression that is read with a span which ends before it begins, or parentheses that are not balanced outside
of the bracket expressions although they count as groups. Unless bracket expressions hold parentheses, or
negated ones a hyphen in front, it is enough that a bracket is not closed or a span, as it stands, ends before
it begins. -/
theorem rejects_iff (k : Casing) (g : Text) :
    ((∃ message, matcher k g = .error (.invalidPattern g message)) ↔
      ∃ a ∈ expand g, (∃ s ∈ Path.parts (bare a), Unclosed s) ∨
        ∃ bs o, Scans (Path.parts (bare a)) bs o ∧ ((∃ b ∈ bs, Reversed b.read) ∨ ¬ Nested True o)) ∧
    ((∀ a ∈ expand g, ∀ s ∈ Path.parts (bare a), ∀ bs o, Scan s bs o → ∀ b ∈ bs, b.Tame) →
      ((∃ message, matcher k g = .error (.invalidPattern g message)) ↔
        ∃ a ∈ expand g, ∃ s ∈ Path.parts (bare a),
          Unclosed s ∨ ∃ bs o, Scan s bs o ∧ ∃ b ∈ bs, Reversed b.body)) := by
  have hfirst : (∃ message, matcher k g = .error (.invalidPattern g message)) ↔
      ∃ a ∈ expand g, (∃ s ∈ Path.parts (bare a), Unclosed s) ∨
        ∃ bs o, Scans (Path.parts (bare a)) bs o ∧ ((∃ b ∈ bs, Reversed b.read) ∨ ¬ Nested True o) := by
    simp only [exists_error_iff, not_exists_ofGlob_iff]
  refine ⟨hfirst, fun htame => hfirst.trans (exists_congr fun a => and_congr_right fun ha => ?_)⟩
  constructor
  · rintro (⟨s, hs, hopen⟩ | ⟨bs, o, hscans, hbad⟩)
    · exact ⟨s, hs, .inl hopen⟩
    · have hbs : ∀ b ∈ bs, b.Tame := by
        intro b hb
        obtain ⟨s, hs, bs', o', hscan, hmem⟩ := (hscans.mem_iff b).mp hb
        exact htame a ha s hs bs' o' hscan b hmem
      rcases hbad with ⟨b, hb, hreversed⟩ | hbad
      · obtain ⟨s, hs, bs', o', hscan, hmem⟩ := (hscans.mem_iff b).mp hb
        exact ⟨s, hs, .inr ⟨bs', o', hscan, b, hmem, (hbs b hb).reversed_read_iff.mp hreversed⟩⟩
      · exact absurd (hscans.nested hbs) hbad
  · rintro ⟨s, hs, hopen | ⟨bs', o', hscan, b, hb, hreversed⟩⟩
    · exact .inl ⟨s, hs, hopen⟩
    · refine (scans_or_unclosed _).symm.imp_right ?_
      rintro ⟨bs, o, hscans⟩
      have hread := (htame a ha s hs bs' o' hscan b hb).reversed_read_iff.mpr hreversed
      exact ⟨bs, o, hscans, .inl ⟨b, (hscans.mem_iff b).mpr ⟨s, hs, bs', o', hscan, hb⟩, hread⟩⟩

/-- A parenthesis in brackets makes a group of the one behind them, which nothing opens; a span that ends before
it begins is refused as it stands. -/
theorem rejects_parenthesis_in_brackets :
    (∃ message, matcher .heeded ['[', '(', ']', ')'] = .error (.invalidPattern ['[', '(', ']', ')'] message)) ∧
      (∀ a ∈ expand ['x', '[', 'b', '-', 'a', ']'], ∀ s ∈ Path.parts (bare a), ∀ bs o, Scan s bs o →
        ∀ b ∈ bs, b.Tame) ∧
      ∃ message, matcher .heeded ['x', '[', 'b', '-', 'a', ']'] =
        .error (.invalidPattern ['x', '[', 'b', '-', 'a', ']'] message) := by
  have hexpand : expand ['[', '(', ']', ')'] = [['[', '(', ']', ')']] := expand_of_none (by decide)
  have hexpand' : expand ['x', '[', 'b', '-', 'a', ']'] = [['x', '[', 'b', '-', 'a', ']']] :=
    expand_of_none (by decide)
  have hparts' : Path.parts (bare ['x', '[', 'b', '-', 'a', ']']) = [['x', '[', 'b', '-', 'a', ']']] := by
    decide
  let b : WrittenBracket := ⟨false, ['('], by decide, by decide, by decide⟩
  let b' : WrittenBracket := ⟨false, ['b', '-', 'a'], by decide, by decide, by decide⟩
  have hscan : Scan ['[', '(', ']', ')'] [b] [')'] := .bracket b (.char (by decide) .nil)
  have hscan' : Scan ['x', '[', 'b', '-', 'a', ']'] [b'] ['x'] := .char (by decide) (.bracket b' .nil)
  have htame : ∀ a ∈ expand ['x', '[', 'b', '-', 'a', ']'], ∀ s ∈ Path.parts (bare a), ∀ bs o,
      Scan s bs o → ∀ b ∈ bs, b.Tame := by
    intro a ha s hs bs o hs'
    rw [hexpand', List.mem_singleton] at ha
    subst ha
    rw [hparts', List.mem_singleton] at hs
    subst hs
    obtain rfl := (hscan'.unique hs').1
    intro c hc
    obtain rfl := List.mem_singleton.mp hc
    exact ⟨by decide, by decide, by decide⟩
  have hmem : ['[', '(', ']', ')'] ∈ expand ['[', '(', ']', ')'] := hexpand ▸ List.mem_singleton_self _
  have hmem' : ['x', '[', 'b', '-', 'a', ']'] ∈ expand ['x', '[', 'b', '-', 'a', ']'] :=
    hexpand' ▸ List.mem_singleton_self _
  have hpart' : ['x', '[', 'b', '-', 'a', ']'] ∈ Path.parts (bare ['x', '[', 'b', '-', 'a', ']']) :=
    hparts' ▸ List.mem_singleton_self _
  have hscans : Scans (Path.parts (bare ['[', '(', ']', ')'])) [b] [')'] := Scans.cons hscan Scans.nil
  have hunbalanced : ¬ Nested True [')'] := by
    rw [nested_iff]
    decide
  have hreversed : ∃ c ∈ [b'], Reversed c.body := ⟨b', List.mem_singleton_self b', by decide⟩
  exact ⟨(rejects_iff .heeded _).1.mpr ⟨_, hmem, .inr ⟨_, _, hscans, .inr hunbalanced⟩⟩, htame,
    ((rejects_iff .heeded _).2 htame).mpr ⟨_, hmem', _, hpart', .inr ⟨_, _, hscan', hreversed⟩⟩⟩

end TreeCensus.Glob
