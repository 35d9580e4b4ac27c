import Mathlib.Data.List.DropRight
import TreeCensus.Filter.Source
import TreeCensus.Proofs.Filter.Shifting
import TreeCensus.Proofs.Glob.AnyDepth

/-!
# Loading ignore files

The lines of an ignore file become raw globs with the names of its directory before them
(`slashed_ofLine`), in the root directory as well as further down. Read again, such a glob has the marks
that its line has, and that of an exclusion if the file makes exclusions (`readMarks_ofLine`).
-/

namespace TreeCensus

set_option autoImplicit false

open Glob (IsLiteral below trail anyDepth globstar)
open TreeCensus.Path (isAbsolute slashed under up here ofParts parts way IsName IsClean)

namespace Text

theorem dropEndWhile_cons (p : Char → Bool) (c : Char) (t : Text) : dropEndWhile p (c :: t) =
    if dropEndWhile p t = [] ∧ p c = true then [] else c :: dropEndWhile p t := by
  rw [dropEndWhile, List.reverse_cons, List.dropWhile_append]
  by_cases h : t.reverse.dropWhile p = []
  · cases hc : p c <;> simp [dropEndWhile, h, hc]
  · simp [dropEndWhile, h]

theorem strip_cons {c : Char} (hc : isBlank c = false) (t : Text) :
    strip (c :: t) = c :: dropEndWhile isBlank t := by
  rw [strip, List.dropWhile_cons_of_neg (by simp [hc]), dropEndWhile_cons, if_neg (by simp [hc])]

theorem strip_blank {c : Char} (hc : isBlank c = true) (t : Text) : strip (c :: t) = strip t := by
  rw [strip, List.dropWhile_cons_of_pos hc]
  rfl

/-- Blanks at the end may be dropped before. -/
theorem strip_dropEndWhile (t : Text) : strip (dropEndWhile isBlank t) = strip t := by
  induction t with
  | nil => rfl
  | cons c t ih =>
    rw [dropEndWhile_cons]
    cases hc : isBlank c with
    | true =>
      rw [strip_blank hc]
      split
      · next h =>
        rw [h.1] at ih
        exact ih
      · rw [strip_blank hc, ih]
    | false =>
      rw [if_neg (by simp), strip_cons hc, strip_cons hc]
      exact congrArg (c :: ·) (List.rdropWhile_idempotent isBlank t)

theorem strip_eq_self {t : Text} (hfront : ∀ c ∈ t.head?, isBlank c = false)
    (hback : ∀ c ∈ t.getLast?, isBlank c = false) : strip t = t := by
  cases t with
  | nil => rfl
  | cons c r =>
    have hc := hfront c rfl
    have hdrop : dropEndWhile isBlank (c :: r) = c :: r := dropEndWhile_eq_self hback
    rwa [dropEndWhile_cons, if_neg (by simp [hc]), ← strip_cons hc] at hdrop

end Text

namespace Path

theorem normal_of_isClean {p : Path} (h : IsClean p) : normal p = p := by
  obtain ⟨n, ns, hparts⟩ := List.exists_cons_of_ne_nil (Text.pieces_ne_nil '/' p)
  have hclean : ∀ m ∈ n :: ns, m ≠ [] ∧ m ≠ here ∧ m ≠ up := by
    intro m hm
    apply h
    rwa [parts, hparts]
  have hrelative : isAbsolute p = false := by
    unfold isAbsolute
    split
    · rw [Text.pieces, if_pos rfl] at hparts
      exact absurd (List.cons.inj hparts).1.symm (hclean n List.mem_cons_self).1
    · rfl
  have hup : up ∉ parts p := fun hmem => (h up hmem).2.2 rfl
  have hne : p ≠ [] := by
    rintro rfl
    exact (h [] List.mem_cons_self).1 rfl
  rw [normal, (root_eq_nil_iff p).mpr hrelative, hrelative, reduce_of_not_up hup]
  change (if ofParts (steps p) = [] then here else ofParts (steps p)) = p
  rw [Filter.ofParts_steps_of_isClean h, if_neg hne]

theorem slashed_slashed (p : Path) : slashed (slashed p) = slashed p :=
  Glob.replace_of_not_mem (Filter.not_mem_replace (by decide) p)

theorem head?_slashed (p : Path) : (slashed p).head? = p.head?.map fun c => if c = '\\' then '/' else c :=
  List.head?_map

end Path

/-- A character that a glob can begin with. -/
def Opens (c : Char) : Prop := c ≠ '!' ∧ c ≠ '^' ∧ Text.isBlank c = false

instance (c : Char) : Decidable (Opens c) := inferInstanceAs (Decidable (_ ∧ _ ∧ _))

theorem option_all_iff {P : Char → Prop} [DecidablePred P] {o : Option Char} :
    o.all (fun c => P c) = true ↔ ∀ c ∈ o, P c := by
  cases o <;> simp

/-- Names of directories, one below the other, that a raw glob can begin with. -/
structure IsHome (dirs : List Text) : Prop where
  names : ∀ n ∈ dirs, IsLiteral n
  front : ∀ c ∈ (ofParts dirs).head?, Opens c
  back : ∀ c ∈ (ofParts dirs).getLast?, Text.isBlank c = false
  inward : ¬ up <+: ofParts dirs

instance (dirs : List Text) : Decidable (IsHome dirs) :=
  decidable_of_iff (dirs.all (fun n => IsLiteral n) = true ∧ (ofParts dirs).head?.all (fun c => Opens c) = true ∧
    (ofParts dirs).getLast?.all (fun c => Text.isBlank c = false) = true ∧ ¬ up <+: ofParts dirs)
    ⟨fun h => ⟨by simpa using h.1, option_all_iff.mp h.2.1, option_all_iff.mp h.2.2.1, h.2.2.2⟩,
      fun h => ⟨by simpa using h.names, option_all_iff.mpr h.front, option_all_iff.mpr h.back, h.inward⟩⟩

/-- A line of an ignore file. -/
structure IgnoreLine where
  negated : Bool
  anchored : Bool
  body : Text
  slashes : Nat

namespace Filter

/-- The marks of a raw glob. -/
def marks (exclude negative : Bool) : Text :=
  (if exclude then ['^'] else []) ++ if negative then ['!'] else []

theorem takeMark_self (mark : Char) (t : Text) : takeMark mark (mark :: t) = (true, Text.strip t) := by
  simp [takeMark]

theorem takeMark_of_head {mark : Char} {t : Text} (h : ∀ c ∈ t.head?, c ≠ mark) :
    takeMark mark t = (false, t) := by
  cases t with
  | nil => rfl
  | cons c r => rw [takeMark, if_neg (h c rfl)]

theorem takeMark_strip {mark : Char} (h : Text.isBlank mark = false) (t : Text) :
    takeMark mark (Text.strip (mark :: t)) = (true, Text.strip t) := by
  rw [Text.strip_cons h, takeMark_self, Text.strip_dropEndWhile]

/-- The marks in front of a glob are read, and what is behind them is the glob. -/
theorem readMarks_eq {raw y : Text} {exclude negative : Bool}
    (hraw : slashed raw = marks exclude negative ++ y)
    (hfront : ∀ c ∈ (Text.strip y).head?, c ≠ '!' ∧ c ≠ '^') :
    readMarks raw = .ok ⟨exclude, negative, Text.strip y⟩ := by
  have hcaret : takeMark '^' (Text.strip (marks exclude negative ++ y)) =
      (exclude, Text.strip (marks false negative ++ y)) := by
    cases exclude with
    | true => exact takeMark_strip (by decide) (marks false negative ++ y)
    | false =>
      apply takeMark_of_head
      cases negative with
      | true =>
        change ∀ c ∈ (Text.strip ('!' :: y)).head?, _
        rw [Text.strip_cons (by decide)]
        simp
      | false => exact fun c hc => (hfront c hc).2
  have hmark : takeMark '!' (Text.strip (marks false negative ++ y)) = (negative, Text.strip y) := by
    cases negative with
    | true => exact takeMark_strip (by decide) y
    | false => exact takeMark_of_head fun c hc => (hfront c hc).1
  have hleft : ¬ ((Text.strip y).head? = some '!' ∨ (Text.strip y).head? = some '^') := by
    rintro (h | h)
    · exact (hfront _ h).1 rfl
    · exact (hfront _ h).2 rfl
  rw [slashed] at hraw
  simp only [readMarks, hraw, hcaret, hmark, if_neg hleft]

end Filter

namespace Path

variable {p : Path}

theorem isClean_slashed_append {q : Path} (h : IsClean (slashed (p ++ '/' :: q))) :
    IsClean (slashed p) ∧ IsClean (slashed q) := by
  have hslashed : slashed (p ++ '/' :: q) = slashed p ++ '/' :: slashed q := by simp [slashed, Text.replace]
  rw [hslashed, IsClean, parts_append_slash] at h
  exact ⟨fun n hn => h n (List.mem_append_left _ hn), fun n hn => h n (List.mem_append_right _ hn)⟩

/-- A clean path neither begins nor ends with a slash, and has no dots before its first one. -/
theorem ends_of_isClean (h : IsClean (slashed p)) : (∀ r, p ≠ '/' :: r) ∧ (∀ r, p ≠ '.' :: '/' :: r) ∧
    (∀ r, p ≠ '.' :: '.' :: '/' :: r) ∧ ∀ c ∈ p.getLast?, c ≠ '/' := by
  have hfront : ∀ n, ¬ IsClean (slashed n) → ∀ r, p ≠ n ++ '/' :: r := by
    rintro n hn r rfl
    exact hn (isClean_slashed_append h).1
  refine ⟨hfront [] (by decide), hfront here (by decide), hfront up (by decide), ?_⟩
  rintro c hc rfl
  obtain ⟨r, rfl⟩ := List.getLast?_eq_some_iff.mp hc
  exact absurd (isClean_slashed_append (q := []) h).2 (by decide)

theorem ne_nil_of_isClean (h : IsClean (slashed p)) : p ≠ [] := by
  rintro rfl
  exact (h [] List.mem_cons_self).1 rfl

end Path

namespace Glob

variable {t : Text}

theorem splitMark_of_head {mark : Char} (h : ∀ c ∈ t.head?, c ≠ mark) : splitMark mark t = ([], t) := by
  cases t with
  | nil => rfl
  | cons c r => rw [splitMark, if_neg (h c rfl)]

theorem splitMark_fst (mark : Char) (t : Text) :
    (splitMark mark t).1 = if t.head? = some mark then [mark] else [] := by
  cases t with
  | nil => rfl
  | cons c r =>
    rw [splitMark, List.head?_cons]
    by_cases hc : c = mark
    · rw [if_pos hc, if_pos (by rw [hc])]
    · rw [if_neg hc, if_neg (by simpa using hc)]

theorem splitMark_marks (negative : Bool) (h : ∀ c ∈ t.head?, c ≠ '!') :
    splitMark '!' (Filter.marks false negative ++ t) = (Filter.marks false negative, t) := by
  cases negative with
  | true => rfl
  | false => exact splitMark_of_head h

/-- A line without its marks. -/
def unmark (line : Text) : Text := (splitMark '!' (splitMark '^' line).2).2

/-- What a line without marks puts behind a directory. -/
def inner (t : Text) : Text :=
  match t with
  | '/' :: r => r
  | '.' :: '/' :: r => r
  | '*' :: '*' :: r => '*' :: '*' :: r
  | t => anyDepth t

theorem ofIgnoreLine_eq (negative : Bool) (hmark : ∀ c ∈ t.head?, c ≠ '!')
    (hhere : ∀ r, t ≠ '.' :: '/' :: r) (hup : ∀ r, t ≠ '.' :: '.' :: '/' :: r) :
    ofIgnoreLine (Filter.marks false negative ++ t) = Filter.marks false negative ++ inner t := by
  rw [ofIgnoreLine, splitMark_marks negative hmark]
  unfold inner
  dsimp only
  congr 1
  split
  · rfl
  · rfl
  · exact absurd rfl (hup _)
  · next hslash hstars _ =>
    split
    · exact absurd rfl (hslash _)
    · exact absurd rfl (hhere _)
    · exact absurd rfl (hstars _)
    · rfl

theorem normalGlob_eq (t : Text) : normalGlob t =
    if Text.endsWith ['/'] (slashed t) ∧ ¬ Text.endsWith ['/'] (Path.normal (slashed t)) then
      Path.normal (slashed t) ++ ['/']
    else Path.normal (slashed t) := rfl

theorem normalGlob_of_isClean (h : IsClean (slashed t)) : normalGlob t = slashed t := by
  rw [normalGlob_eq, Path.normal_of_isClean h, if_neg fun hend => hend.2 hend.1]

end Glob

namespace IsHome

variable {dirs : List Text} (h : IsHome dirs) (hne : dirs ≠ [])

include h

theorem not_mem {c : Char} (hslash : c ≠ '/') (hc : ∀ n, IsLiteral n → c ∉ n) : c ∉ ofParts dirs := by
  intro hmem
  rcases Text.mem_of_mem_join hmem with rfl | ⟨n, hn, hmem⟩
  · exact hslash rfl
  · exact hc n (h.names n hn) hmem

theorem unbraced : '\x7b' ∉ ofParts dirs := h.not_mem (by decide) fun _ hn => hn.unbraced

theorem unbacked : '\\' ∉ ofParts dirs := h.not_mem (by decide) fun _ hn => hn.back

theorem slashed_ofParts : slashed (ofParts dirs) = ofParts dirs := Glob.replace_of_not_mem h.unbacked

theorem slashed_trail_append (x : Text) : slashed (trail dirs ++ x) = trail dirs ++ slashed x := by
  rw [Filter.slashed_append]
  congr 1
  exact Glob.replace_of_not_mem (Glob.not_mem_trail h.names (by decide) fun n hn => hn.back)

include hne

theorem parts_ofParts : parts (ofParts dirs) = dirs :=
  Path.parts_ofParts (fun n hn => (h.names n hn).name) hne

theorem isClean : IsClean (ofParts dirs) := by
  intro n hn
  rw [h.parts_ofParts hne] at hn
  exact ⟨(h.names n hn).name.ne_nil, (h.names n hn).name.ne_here, (h.names n hn).name.ne_up⟩

theorem ne_nil : ofParts dirs ≠ [] := Path.ofParts_ne_nil (fun n hn => (h.names n hn).name) hne

theorem ne_here : ofParts dirs ≠ here := by
  intro hhere
  have hclean := h.isClean hne
  rw [hhere] at hclean
  exact absurd hclean (by decide)

theorem getLast_ne : ∀ c ∈ (ofParts dirs).getLast?, c ≠ '/' :=
  (Path.ends_of_isClean (h.slashed_ofParts.symm ▸ h.isClean hne)).2.2.2

theorem not_endsWith : Text.endsWith ['/'] (ofParts dirs) = false := by
  rw [Bool.eq_false_iff]
  intro hend
  obtain ⟨d, hd⟩ := List.isSuffixOf_iff_suffix.mp hend
  exact h.getLast_ne hne '/' (by simp [← hd]) rfl

/-- Moving a glob into the directory puts names and slashes before what there is behind its first slash. -/
theorem moveInto_eq {t : Text} (hup : ∀ r, t ≠ '.' :: '.' :: '/' :: r) :
    Glob.moveInto (ofParts dirs) t = Glob.normalGlob (trail dirs ++ Glob.inner t) := by
  have hstart : Text.startsWith ['.', '.'] (ofParts dirs) = false := by
    rw [Bool.eq_false_iff]
    exact fun hstart => h.inward (List.isPrefixOf_iff_prefix.mp hstart)
  have htrail : ofParts dirs ++ ['/'] = trail dirs := Glob.join_append_slash hne
  have hslashes : Text.dropEndWhile (· = '/') (ofParts dirs) = ofParts dirs :=
    Text.dropEndWhile_eq_self fun c hc => decide_eq_false (h.getLast_ne hne c hc)
  unfold Glob.moveInto Glob.inner
  simp only [h.not_endsWith hne, hstart, htrail, hslashes, Bool.false_eq_true, if_false]
  congr 1
  split
  · exact (Glob.trail_append_eq hne _).symm
  · rfl
  · exact absurd rfl (hup _)
  · rfl
  · next hslash hhere _ hstars =>
    split
    · exact absurd rfl (hslash _)
    · exact absurd rfl (hhere _)
    · exact absurd rfl (hstars _)
    · rfl

/-- Relocating a line leaves its marks in front. -/
theorem relocate_eq (t : Text) : Glob.relocate (ofParts dirs) t =
    Filter.marks (decide (t.head? = some '^')) (decide ((Glob.splitMark '^' t).2.head? = some '!')) ++
      Glob.moveInto (ofParts dirs) (Glob.unmark t) := by
  have hdir : ¬ (ofParts dirs = [] ∨ ofParts dirs = here) := by
    rintro (hnil | hhere)
    · exact h.ne_nil hne hnil
    · exact h.ne_here hne hhere
  rw [Glob.relocate, if_neg hdir]
  change (Glob.splitMark '^' t).1 ++ (Glob.splitMark '!' (Glob.splitMark '^' t).2).1 ++
    Glob.moveInto (slashed (ofParts dirs)) (Glob.unmark t) = _
  rw [h.slashed_ofParts, Glob.splitMark_fst, Glob.splitMark_fst]
  simp [Filter.marks]

theorem relocate_marks (negative : Bool) {t : Text} (hfront : ∀ c ∈ t.head?, Opens c) :
    Glob.relocate (ofParts dirs) (Filter.marks false negative ++ t) =
      Filter.marks false negative ++ Glob.moveInto (ofParts dirs) t := by
  have hcaret : ∀ c ∈ (Filter.marks false negative ++ t).head?, c ≠ '^' := by
    cases negative with
    | true => simp [Filter.marks]
    | false => exact fun c hc => (hfront c hc).2.1
  have hsplit := Glob.splitMark_marks negative fun c hc => (hfront c hc).1
  have hmark : Filter.marks false (decide ((Filter.marks false negative ++ t).head? = some '!')) =
      Filter.marks false negative := by
    have hfst := Glob.splitMark_fst '!' (Filter.marks false negative ++ t)
    rw [hsplit] at hfst
    simpa [Filter.marks] using hfst.symm
  have hno : decide ((Filter.marks false negative ++ t).head? = some '^') = false :=
    decide_eq_false fun hc => hcaret '^' hc rfl
  rw [h.relocate_eq hne, hno, Glob.unmark, Glob.splitMark_of_head hcaret, hsplit, hmark]

end IsHome

theorem GlobSource.slashed_mark (s : GlobSource) (g : Text) :
    slashed (s.mark g) = Filter.marks s.exclude false ++ slashed g := by
  rw [mark]
  cases s.exclude <;> rfl

namespace IgnoreLine

def lead (l : IgnoreLine) : Text := if l.anchored then ['/'] else []

def text (l : IgnoreLine) : Text :=
  Filter.marks false l.negated ++ (l.lead ++ l.body) ++ List.replicate l.slashes '/'

/-- Whether the glob of a line is not held to any depth. -/
def verbatim (l : IgnoreLine) : Bool := l.anchored || Text.startsWith globstar l.body

/-- A line that is read in the same way wherever its file is. -/
structure IsTidy (l : IgnoreLine) : Prop where
  clean : IsClean (slashed l.body)
  front : ∀ c ∈ l.body.head?, Opens c
  back : ∀ c ∈ l.body.getLast?, Text.isBlank c = false

instance (l : IgnoreLine) : Decidable l.IsTidy :=
  decidable_of_iff (IsClean (slashed l.body) ∧ l.body.head?.all (fun c => Opens c) = true ∧
    l.body.getLast?.all (fun c => Text.isBlank c = false) = true)
    ⟨fun h => ⟨h.1, option_all_iff.mp h.2.1, option_all_iff.mp h.2.2⟩,
      fun h => ⟨h.clean, option_all_iff.mpr h.front, option_all_iff.mpr h.back⟩⟩

namespace IsTidy

variable {l : IgnoreLine} (h : l.IsTidy)

include h

theorem body_ne_nil : l.body ≠ [] := Path.ne_nil_of_isClean h.clean

theorem dropEndSlashes_text :
    GlobSource.dropEndSlashes l.text = Filter.marks false l.negated ++ (l.lead ++ l.body) := by
  have hdrop : Text.dropEndWhile (· = '/') l.text = Filter.marks false l.negated ++ (l.lead ++ l.body) := by
    rw [text, ← List.append_assoc]
    apply Text.dropEndWhile_append
    · rw [List.getLast?_append_of_ne_nil _ h.body_ne_nil]
      exact fun c hc => decide_eq_false ((Path.ends_of_isClean h.clean).2.2.2 c hc)
    · simp
  have hne : Filter.marks false l.negated ++ (l.lead ++ l.body) ≠ [] := by simp [h.body_ne_nil]
  rw [GlobSource.dropEndSlashes]
  simp only [hdrop, if_neg hne]

theorem inner_eq : Glob.inner (l.lead ++ l.body) = if l.verbatim then l.body else anyDepth l.body := by
  cases hanchored : l.anchored with
  | true => simp [lead, verbatim, hanchored, Glob.inner]
  | false =>
    obtain ⟨hslash, hhere, -, -⟩ := Path.ends_of_isClean h.clean
    rw [lead, verbatim, hanchored, Bool.false_or, if_neg (by decide), List.nil_append]
    generalize l.body = body at hslash hhere
    unfold Glob.inner
    split
    · exact absurd rfl (hslash _)
    · exact absurd rfl (hhere _)
    · exact (if_pos (by simp [globstar, Text.startsWith])).symm
    · next hstars =>
      rw [if_neg]
      intro hstart
      obtain ⟨r, hr⟩ := List.isPrefixOf_iff_prefix.mp hstart
      exact hstars r hr.symm

theorem front_lead : (∀ c ∈ (l.lead ++ l.body).head?, Opens c) ∧
    (∀ r, l.lead ++ l.body ≠ '.' :: '/' :: r) ∧ ∀ r, l.lead ++ l.body ≠ '.' :: '.' :: '/' :: r := by
  cases hanchored : l.anchored with
  | true => simp [lead, hanchored, Opens, Text.isBlank]
  | false =>
    obtain ⟨-, hhere, hup, -⟩ := Path.ends_of_isClean h.clean
    rw [lead, hanchored, if_neg (by decide), List.nil_append]
    exact ⟨h.front, hhere, hup⟩

variable {dirs : List Text} (hdirs : IsHome dirs)

include hdirs

/-- What a line says comes behind the names of its directory, with the marks before it. -/
theorem slashed_ofLine : slashed (GlobSource.ofLine (way dirs) l.text) =
    Filter.marks false l.negated ++ below dirs l.verbatim (slashed l.body) := by
  obtain ⟨hfront, hhere, hup⟩ := h.front_lead
  have hmarks : slashed (Filter.marks false l.negated) = Filter.marks false l.negated := by
    cases l.negated <;> rfl
  have hbody : slashed (if l.verbatim then l.body else anyDepth l.body) =
      if l.verbatim then slashed l.body else anyDepth (slashed l.body) := by
    split <;> rfl
  rw [GlobSource.ofLine, h.dropEndSlashes_text]
  by_cases hne : dirs = []
  · subst hne
    rw [if_pos (show way [] = here from rfl), Glob.ofIgnoreLine_eq l.negated (fun c hc => (hfront c hc).1) hhere hup,
      Filter.slashed_append, hmarks, h.inner_eq, hbody]
    rfl
  · have hslashed : slashed (trail dirs ++ Glob.inner (l.lead ++ l.body)) =
        below dirs l.verbatim (slashed l.body) := by
      rw [hdirs.slashed_trail_append, h.inner_eq, hbody]
      rfl
    have hclean : IsClean (below dirs l.verbatim (slashed l.body)) :=
      Glob.isClean_below hdirs.names l.verbatim h.clean
    have hway : way dirs = ofParts dirs := if_neg hne
    rw [hway, if_neg (hdirs.ne_here hne), hdirs.relocate_marks hne l.negated hfront, hdirs.moveInto_eq hne hup,
      Glob.normalGlob_of_isClean (hslashed ▸ hclean), Filter.slashed_append, hmarks, Path.slashed_slashed,
      hslashed]

theorem front_below : ∀ c ∈ (below dirs l.verbatim (slashed l.body)).head?, Opens c := by
  by_cases hne : dirs = []
  · subst hne
    change ∀ c ∈ (if l.verbatim = true then slashed l.body else anyDepth (slashed l.body)).head?, Opens c
    split
    · rw [Path.head?_slashed]
      intro c hc
      obtain ⟨d, hd, rfl⟩ := Option.map_eq_some_iff.mp hc
      split
      · decide
      · exact h.front d hd
    · simp [anyDepth, Opens, Text.isBlank]
  · have hhead : (below dirs l.verbatim (slashed l.body)).head? = (ofParts dirs).head? := by
      rw [below, Glob.trail_append_eq hne]
      exact List.head?_append_of_ne_nil _ (hdirs.ne_nil hne)
    rw [hhead]
    exact hdirs.front

omit hdirs in
variable (dirs) in
theorem back_below : ∀ c ∈ (below dirs l.verbatim (slashed l.body)).getLast?, Text.isBlank c = false := by
  have hne : slashed l.body ≠ [] := by simpa [slashed, Text.replace] using h.body_ne_nil
  have hsame : (below dirs l.verbatim (slashed l.body)).getLast? = (slashed l.body).getLast? := by
    rw [below]
    split
    · exact List.getLast?_append_of_ne_nil _ hne
    · change (trail dirs ++ (['*', '*', '/'] ++ slashed l.body)).getLast? = _
      rw [← List.append_assoc, List.getLast?_append_of_ne_nil _ hne]
  rw [hsame, slashed, Text.replace, List.getLast?_map]
  intro c hc
  obtain ⟨d, hd, rfl⟩ := Option.map_eq_some_iff.mp hc
  split
  · decide
  · exact h.back d hd

/-- The raw glob of a line is read as the marks of the line and its file, and the glob below the names of
its directory. -/
theorem readMarks_ofLine (s : GlobSource) :
    Filter.readMarks (s.mark (GlobSource.ofLine (way dirs) l.text)) =
      .ok ⟨s.exclude, l.negated, below dirs l.verbatim (slashed l.body)⟩ := by
  have hfront := h.front_below hdirs
  have hstrip := Text.strip_eq_self (fun c hc => (hfront c hc).2.2) (h.back_below dirs)
  have hraw : slashed (s.mark (GlobSource.ofLine (way dirs) l.text)) =
      Filter.marks s.exclude l.negated ++ below dirs l.verbatim (slashed l.body) := by
    rw [s.slashed_mark, h.slashed_ofLine hdirs]
    simp [Filter.marks]
  have hread := Filter.readMarks_eq hraw
  rw [hstrip] at hread
  exact hread fun c hc => ⟨(hfront c hc).1, (hfront c hc).2.1⟩

end IsTidy

end IgnoreLine

namespace Filter

/-- What a clean glob without a directory says. -/
theorem readCondition?_of_isClean (cwd : Path) {k : Glob.Casing} {raw : Text} {m : Marked}
    (hm : readMarks raw = .ok m) (hclean : IsClean m.glob) :
    readCondition? ⟨cwd, none⟩ k raw =
      match Glob.Matcher.compile k m.glob with
      | .ok matcher => .ok (some ⟨m.exclude, m.negative, matcher⟩)
      | .error flaw => .error (.invalidPattern raw flaw.message) := by
  have hfree := not_mem_of_readMarks hm
  have hslashed : slashed m.glob = m.glob := Glob.replace_of_not_mem hfree
  have hplace : (Base.mk cwd none).place m.glob = m.glob := by
    have hhere := (Path.ends_of_isClean (hslashed.symm ▸ hclean)).2.1
    unfold Base.place
    dsimp only
    split
    · exact absurd ‹_› (hhere _)
    · rfl
  have hall : m.glob.all (· = '/') = false := all_slashes_of_isClean hclean []
  have hne : m.glob ≠ [] := Path.ne_nil_of_isClean (hslashed.symm ▸ hclean)
  unfold readCondition?
  rw [hm]
  cases hc : Glob.Matcher.compile k m.glob <;>
    simp only [hplace, hall, hne, hc, Bool.false_eq_true, or_self, if_false]

end Filter

/-- A file system of which only the texts of some files are known. -/
def FileSystem.ofFiles (cwd : Path) (files : List (Path × Text)) : FileSystem where
  cwd := cwd
  info p := .error (.system .noEntry (some (.text p)))
  target p := .error (.system .noEntry (some (.text p)))
  entries p := .error (.system .noEntry (some (.text p)))
  content p :=
    match files.find? (·.1 = p) with
    | some f => .ok f.2
    | none => .error (.system .noEntry (some (.text p)))

/-- A file of ignore lines in the directory that some names lead to from the root directory. -/
structure IgnoreFile (fs : FileSystem) (root : Option Path) (dirs : List Text) (s : GlobSource)
    (content : Text) : Prop where
  rooted : isAbsolute fs.cwd = true
  form : s.form = .file
  given : s.value ≠ []
  place : ∃ name, IsName name ∧ Path.absolute fs.cwd (under (GlobSource.rootOr root) s.value) =
    under (dirs.foldl under (Path.absolute fs.cwd (GlobSource.rootOr root))) name
  content : fs.content (Path.absolute fs.cwd (under (GlobSource.rootOr root) s.value)) = .ok content

/-- Loading a file makes a raw glob of each of its lines. -/
theorem IgnoreFile.load_eq {fs : FileSystem} {root : Option Path} {dirs : List Text} {s : GlobSource}
    {content : Text} (h : IgnoreFile fs root dirs s content) (hdirs : ∀ n ∈ dirs, IsName n) :
    GlobSource.load fs root [s] = .ok ((GlobSource.ignoreLines content).map fun line =>
      s.mark (GlobSource.ofLine (way dirs) line)) := by
  obtain ⟨name, hname, hplace⟩ := h.place
  obtain ⟨ns, hbase⟩ : ∃ ns, Path.IsBase (Path.absolute fs.cwd (GlobSource.rootOr root)) ns :=
    Path.exists_isBase_normal (Path.isAbsolute_under h.rooted _)
  have hway : Path.relativeTo (Path.absolute fs.cwd (GlobSource.rootOr root))
      (Path.directory (Path.absolute fs.cwd (under (GlobSource.rootOr root) s.value))) =
        way dirs := by
    rw [hplace, (hbase.foldl_under hdirs).directory_under hname]
    exact hbase.relativeTo_foldl hdirs
  have hfile : GlobSource.loadFile fs (GlobSource.rootOr root) s = .ok ((GlobSource.ignoreLines content).map
      fun line => s.mark (GlobSource.ofLine (way dirs) line)) := by
    rw [GlobSource.loadFile]
    simp only [h.content, hway]
    rfl
  simp [GlobSource.load, h.form, h.given, hfile, pure, Except.pure, bind, Except.bind, Except.map]

end TreeCensus
