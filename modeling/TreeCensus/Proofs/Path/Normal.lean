import TreeCensus.Proofs.Glob.Matching

/-!
# The normal form below a directory

The parts of a path are what its slashes divide. An absolute path in normal form is made of names that
the normal form keeps, so a path below it that does not go up only adds its own names
(`normal_under`).
-/

namespace TreeCensus

set_option autoImplicit false

namespace Text

variable {sep : Char}

theorem pieces_append_sep (t u : Text) : pieces sep (t ++ sep :: u) = pieces sep t ++ pieces sep u := by
  induction t with
  | nil => simp [pieces]
  | cons c t ih =>
    rw [List.cons_append, pieces, pieces, ih]
    split
    · rfl
    · cases h : pieces sep t with
      | nil => exact absurd h (pieces_ne_nil sep t)
      | cons p ps => rfl

theorem pieces_join {ps : List Text} (hne : ps ≠ []) (h : ∀ p ∈ ps, sep ∉ p) :
    pieces sep (join sep ps) = ps := by
  induction ps with
  | nil => exact absurd rfl hne
  | cons p ps ih =>
    have hp := h p List.mem_cons_self
    cases ps with
    | nil => exact Glob.pieces_of_not_mem hp
    | cons q ps =>
      rw [join, Glob.pieces_append hp, ih (by simp) fun r hr => h r (List.mem_cons_of_mem p hr)]

theorem join_append {ps qs : List Text} (hp : ps ≠ []) (hq : qs ≠ []) :
    join sep (ps ++ qs) = join sep ps ++ sep :: join sep qs := by
  induction ps with
  | nil => exact absurd rfl hp
  | cons p ps ih =>
    cases ps with
    | nil =>
      cases qs with
      | nil => exact absurd rfl hq
      | cons q qs => rfl
    | cons r ps =>
      have hrest := ih (by simp)
      rw [List.cons_append] at hrest
      rw [List.cons_append, List.cons_append, join, hrest, join, List.append_assoc, List.cons_append]

theorem mem_of_mem_join {c : Char} {ps : List Text} (h : c ∈ join sep ps) :
    c = sep ∨ ∃ p ∈ ps, c ∈ p := by
  induction ps with
  | nil => cases h
  | cons p ps ih =>
    cases ps with
    | nil => exact Or.inr ⟨p, List.mem_cons_self, h⟩
    | cons q ps =>
      rw [join, List.mem_append, List.mem_cons] at h
      rcases h with h | rfl | h
      · exact Or.inr ⟨p, List.mem_cons_self, h⟩
      · exact Or.inl rfl
      · rcases ih h with hc | ⟨r, hr, hc⟩
        · exact Or.inl hc
        · exact Or.inr ⟨r, List.mem_cons_of_mem p hr, hc⟩

variable {p : Char → Bool}

/-- What is dropped at the end stops where something is to be kept. -/
theorem dropEndWhile_append {t u : Text} (ht : ∀ c ∈ t.getLast?, p c = false) (hu : ∀ c ∈ u, p c = true) :
    dropEndWhile p (t ++ u) = t := by
  have hkept : t.reverse.dropWhile p = t.reverse := by
    rw [← List.head?_reverse] at ht
    cases hr : t.reverse with
    | nil => rfl
    | cons c r =>
      rw [hr] at ht
      rw [List.dropWhile_cons_of_neg (by simp [ht c rfl])]
  rw [dropEndWhile, List.reverse_append, List.dropWhile_append_of_pos (by simpa using hu), hkept,
    List.reverse_reverse]

theorem dropEndWhile_eq_self {t : Text} (ht : ∀ c ∈ t.getLast?, p c = false) : dropEndWhile p t = t := by
  have h := dropEndWhile_append (u := []) ht (by simp)
  rwa [List.append_nil] at h

end Text

namespace Path

/-- The parts of a path that neither are empty nor stand for the directory before them. -/
def steps (p : Path) : List Text := (parts p).filter fun n => n ≠ [] ∧ n ≠ here

/-- A path written with slashes only. -/
def slashed (p : Path) : Path := Text.replace '\\' '/' p

/-- Whether a path is a directory or lies below it, by the way it is written. -/
def IsWithin (dir p : Path) : Prop := p = dir ∨ under dir [] <+: p

instance (dir p : Path) : Decidable (IsWithin dir p) := inferInstanceAs (Decidable (_ ∨ _))

/-- A path that the normal form leaves as it is when it stands below a directory. -/
def IsClean (p : Path) : Prop := ∀ n ∈ parts p, n ≠ [] ∧ n ≠ here ∧ n ≠ up

instance (p : Path) : Decidable (IsClean p) :=
  inferInstanceAs (Decidable (∀ n ∈ parts p, n ≠ [] ∧ n ≠ here ∧ n ≠ up))

/-- A name that the normal form keeps wherever it stands. -/
structure IsName (n : Text) : Prop where
  ne_nil : n ≠ []
  ne_here : n ≠ here
  ne_up : n ≠ up
  single : '/' ∉ n

instance (n : Text) : Decidable (IsName n) :=
  decidable_of_iff (n ≠ [] ∧ n ≠ here ∧ n ≠ up ∧ '/' ∉ n)
    ⟨fun ⟨nil, here, up, single⟩ => ⟨nil, here, up, single⟩,
      fun h => ⟨h.ne_nil, h.ne_here, h.ne_up, h.single⟩⟩

/-- The way down through some names. -/
def way (ns : List Text) : Path := if ns = [] then here else ofParts ns

theorem not_slash_of_mem_parts {p : Path} {n : Text} (h : n ∈ parts p) : '/' ∉ n :=
  Text.not_mem_of_mem_pieces h

theorem parts_append_slash (p q : Path) : parts (p ++ '/' :: q) = parts p ++ parts q :=
  Text.pieces_append_sep p q

theorem parts_slash (p : Path) : parts ('/' :: p) = [] :: parts p := by
  simp [parts, Text.pieces]

theorem steps_append_slash (p q : Path) : steps (p ++ '/' :: q) = steps p ++ steps q := by
  rw [steps, parts_append_slash, List.filter_append]
  rfl

theorem steps_slash (p : Path) : steps ('/' :: p) = steps p := steps_append_slash [] p

theorem steps_eq_self {p : Path} {ns : List Text} (hparts : parts p = ns) (hns : ∀ n ∈ ns, IsName n) :
    steps p = ns := by
  rw [steps, hparts]
  exact List.filter_eq_self.mpr fun n hn => by simp [(hns n hn).ne_nil, (hns n hn).ne_here]

/-- Where no part goes up, the normal form only leaves parts out. -/
theorem reduce_of_not_up {rooted : Bool} {kept ps : List Text} (h : up ∉ ps) :
    reduce rooted kept ps = kept.reverse ++ ps.filter fun n => n ≠ [] ∧ n ≠ here := by
  induction ps generalizing kept with
  | nil => simp [reduce]
  | cons n ps ih =>
    simp only [List.mem_cons, not_or] at h
    unfold reduce
    split
    · next hn =>
      rw [ih h.2, List.filter_cons_of_neg]
      rcases hn with rfl | rfl <;> simp
    · next hn =>
      rw [if_neg (Ne.symm h.1), ih h.2, List.filter_cons_of_pos (by simpa using hn)]
      simp

/-- The names kept in an absolute path do not go up. -/
theorem isName_of_mem_reduce {kept ps : List Text} (hkept : ∀ n ∈ kept, IsName n)
    (hps : ∀ n ∈ ps, '/' ∉ n) {n : Text} (hn : n ∈ reduce true kept ps) : IsName n := by
  induction ps generalizing kept with
  | nil => exact hkept n (List.mem_reverse.mp hn)
  | cons m ps ih =>
    have hrest : ∀ n ∈ ps, '/' ∉ n := fun n h => hps n (List.mem_cons_of_mem m h)
    unfold reduce at hn
    split at hn
    · exact ih hkept hrest hn
    · next hm =>
      split at hn
      · split at hn
        · exact ih hkept hrest hn
        · next last before =>
          rw [if_neg (hkept last List.mem_cons_self).ne_up] at hn
          exact ih (fun n h => hkept n (List.mem_cons_of_mem last h)) hrest hn
      · next hup =>
        refine ih ?_ hrest hn
        intro n h
        rcases List.mem_cons.mp h with rfl | h
        · exact ⟨fun h => hm (Or.inl h), fun h => hm (Or.inr h), hup, hps _ List.mem_cons_self⟩
        · exact hkept n h

theorem root_cases {p : Path} (h : isAbsolute p = true) : root p = ['/'] ∨ root p = ['/', '/'] := by
  unfold root
  split
  · exact Or.inl rfl
  · exact Or.inr rfl
  · exact Or.inl rfl
  · unfold isAbsolute at h
    split at h <;> simp_all

theorem root_append {r t : Text} (hr : r = ['/'] ∨ r = ['/', '/']) (ht : isAbsolute t = false) :
    root (r ++ t) = r := by
  cases t with
  | nil => rcases hr with rfl | rfl <;> rfl
  | cons c t =>
    have hc : c ≠ '/' := fun h => by simp [h, isAbsolute] at ht
    rcases hr with rfl | rfl <;> simp [root, hc]

theorem isAbsolute_append {p : Path} (hp : p ≠ []) (q : Path) : isAbsolute (p ++ q) = isAbsolute p := by
  cases p with
  | nil => exact absurd rfl hp
  | cons c p =>
    rw [List.cons_append]
    unfold isAbsolute
    split <;> simp_all

section Names

variable {ns : List Text} (hns : ∀ n ∈ ns, IsName n)

include hns

theorem isAbsolute_ofParts : isAbsolute (ofParts ns) = false := by
  cases ns with
  | nil => rfl
  | cons n ns =>
    have hn := hns n List.mem_cons_self
    cases n with
    | nil => exact absurd rfl hn.ne_nil
    | cons c n =>
      rw [ofParts, Text.join_cons_cons]
      have hc : c ≠ '/' := fun h => hn.single (h ▸ List.mem_cons_self)
      unfold isAbsolute
      split <;> simp_all

theorem parts_ofParts (hne : ns ≠ []) : parts (ofParts ns) = ns :=
  Text.pieces_join hne fun n hn => (hns n hn).single

theorem ofParts_ne_nil (hne : ns ≠ []) : ofParts ns ≠ [] := by
  intro h
  have hparts := parts_ofParts hns hne
  rw [h] at hparts
  exact (hns [] (hparts ▸ List.mem_singleton_self [])).ne_nil rfl

end Names

/-- An absolute path in normal form: one or two slashes, and names. -/
structure IsBase (dir : Path) (ns : List Text) : Prop where
  eq : dir = root dir ++ ofParts ns
  root : root dir = ['/'] ∨ root dir = ['/', '/']
  names : ∀ n ∈ ns, IsName n

theorem exists_isBase_normal {p : Path} (h : isAbsolute p = true) : ∃ ns, IsBase (normal p) ns := by
  have hnames : ∀ n ∈ reduce true [] (parts p), IsName n :=
    fun n hn => isName_of_mem_reduce (by simp) (fun m hm => not_slash_of_mem_parts hm) hn
  have hnormal : normal p = root p ++ ofParts (reduce true [] (parts p)) := by
    have hne : root p ++ ofParts (reduce true [] (parts p)) ≠ [] := by
      rcases root_cases h with hr | hr <;> simp [hr]
    rw [normal, h, if_neg hne]
  have hroot : root (normal p) = root p := by
    rw [hnormal, root_append (root_cases h) (isAbsolute_ofParts hnames)]
  exact ⟨_, hroot ▸ hnormal, hroot ▸ root_cases h, hnames⟩

theorem isAbsolute_under {dir : Path} (h : isAbsolute dir = true) (p : Path) : isAbsolute (under dir p) = true := by
  have hne : dir ≠ [] := fun hnil => by rw [hnil] at h; cases h
  unfold under
  split
  · assumption
  · split <;> rw [isAbsolute_append hne, h]

theorem exists_isBase_resolve {cwd : Path} (hcwd : isAbsolute cwd = true) (p : Path) :
    ∃ ns, IsBase (resolve cwd p) ns :=
  exists_isBase_normal (isAbsolute_under hcwd _)

theorem exists_isBase {dir : Path} (habs : isAbsolute dir = true) (hnormal : normal dir = dir) :
    ∃ ns, IsBase dir ns := hnormal ▸ exists_isBase_normal habs

namespace IsBase

variable {dir : Path} {ns : List Text}

theorem steps (h : IsBase dir ns) : steps dir = ns := by
  have hroot : Path.steps dir = Path.steps (ofParts ns) := by
    rw [h.eq]
    rcases h.root with hr | hr <;> rw [hr] <;> simp [steps_slash]
  by_cases hne : ns = []
  · rw [hroot, hne]
    rfl
  · rw [hroot, steps_eq_self (parts_ofParts h.names hne) h.names]

theorem up_not_mem (h : IsBase dir ns) : up ∉ parts dir := by
  intro hup
  have hstep : up ∈ Path.steps dir := List.mem_filter.mpr ⟨hup, by decide⟩
  rw [h.steps] at hstep
  exact (h.names up hstep).ne_up rfl

theorem ne_nil (h : IsBase dir ns) : dir ≠ [] := by
  rw [h.eq]
  rcases h.root with hr | hr <;> rw [hr] <;> simp

/-- Below a directory there are its parts, and then those of the path. -/
theorem parts_under (h : IsBase dir ns) {p : Path} (hp : isAbsolute p = false) :
    ∃ es, (es = parts dir ∨ es ++ [[]] = parts dir) ∧ parts (under dir p) = es ++ parts p := by
  rw [under, hp, if_neg Bool.false_ne_true]
  split
  · next hend =>
    rcases hend with hnil | hend
    · exact absurd hnil h.ne_nil
    · obtain ⟨d, rfl⟩ := List.isSuffixOf_iff_suffix.mp hend
      refine ⟨parts d, Or.inr (parts_append_slash d []).symm, ?_⟩
      rw [List.append_assoc]
      exact parts_append_slash d p
  · exact ⟨parts dir, Or.inl rfl, parts_append_slash dir p⟩

theorem root_under (h : IsBase dir ns) {p : Path} (hp : isAbsolute p = false) :
    Path.root (under dir p) = Path.root dir := by
  have key : ∃ t, under dir p = Path.root dir ++ t ∧ isAbsolute t = false := by
    rw [under, hp, if_neg Bool.false_ne_true]
    by_cases hne : ns = []
    · have hdir : dir = Path.root dir := by simpa [hne, ofParts, Text.join] using h.eq
      have hend : Text.endsWith ['/'] dir = true := by
        rw [hdir]
        rcases h.root with hr | hr <;> rw [hr] <;> rfl
      rw [if_pos (Or.inr hend)]
      exact ⟨p, congrArg (· ++ p) hdir, hp⟩
    · have hfront := (isAbsolute_append (ofParts_ne_nil h.names hne) · |>.trans
        (isAbsolute_ofParts h.names))
      split
      · refine ⟨ofParts ns ++ p, ?_, hfront p⟩
        rw [← List.append_assoc, ← h.eq]
      · refine ⟨ofParts ns ++ '/' :: p, ?_, hfront ('/' :: p)⟩
        rw [← List.append_assoc, ← h.eq]
  obtain ⟨t, ht, hrel⟩ := key
  rw [ht, root_append h.root hrel]

/-- A path that does not go up adds its names to those of the directory. -/
theorem normal_under (h : IsBase dir ns) {p : Path} (hp : isAbsolute p = false)
    (hup : up ∉ parts p) :
    normal (under dir p) = Path.root dir ++ ofParts (ns ++ Path.steps p) := by
  obtain ⟨es, hes, hparts⟩ := h.parts_under hp
  have hno : up ∉ parts (under dir p) := by
    rw [hparts, List.mem_append, not_or]
    refine ⟨fun hmem => h.up_not_mem ?_, hup⟩
    rcases hes with rfl | hes
    · exact hmem
    · exact hes ▸ List.mem_append_left _ hmem
  have hsteps : Path.steps (under dir p) = ns ++ Path.steps p := by
    rw [Path.steps, hparts, List.filter_append, ← h.steps, Path.steps]
    rcases hes with rfl | hes
    · rfl
    · rw [← hes, List.filter_append]
      simp [Path.steps]
  have hne : Path.root dir ++ ofParts (ns ++ Path.steps p) ≠ [] := by
    rcases h.root with hr | hr <;> rw [hr] <;> simp
  rw [normal, h.root_under hp, reduce_of_not_up hno, List.reverse_nil, List.nil_append]
  change (if Path.root dir ++ ofParts (Path.steps (under dir p)) = [] then here
    else Path.root dir ++ ofParts (Path.steps (under dir p))) = _
  rw [hsteps, if_neg hne]

theorem isAbsolute_eq (h : IsBase dir ns) : isAbsolute dir = true := by
  rw [h.eq]
  rcases h.root with hr | hr <;> rw [hr] <;> rfl

theorem normal_eq (h : IsBase dir ns) : normal dir = dir := by
  rw [normal, h.isAbsolute_eq, reduce_of_not_up h.up_not_mem, List.reverse_nil, List.nil_append]
  change (if Path.root dir ++ ofParts (Path.steps dir) = [] then here
    else Path.root dir ++ ofParts (Path.steps dir)) = dir
  rw [h.steps, ← h.eq, if_neg h.ne_nil]

/-- Only the root ends with a slash. -/
theorem not_endsWith (h : IsBase dir ns) (hne : ns ≠ []) : Text.endsWith ['/'] dir = false := by
  rw [Bool.eq_false_iff]
  intro hend
  obtain ⟨d, hd⟩ := List.isSuffixOf_iff_suffix.mp hend
  have hslash : ∃ e, ofParts ns = e ++ ['/'] := by
    rw [h.eq] at hd
    rcases List.append_eq_append_iff.mp hd with ⟨e, _, he⟩ | ⟨e, _, he⟩
    · rcases List.append_eq_singleton_iff.mp he.symm with ⟨rfl, hnames⟩ | ⟨_, hnames⟩
      · exact ⟨[], hnames⟩
      · exact absurd hnames (ofParts_ne_nil h.names hne)
    · exact ⟨e, he⟩
  obtain ⟨e, he⟩ := hslash
  have hparts := parts_ofParts h.names hne
  rw [he, parts_append_slash] at hparts
  exact (h.names [] (hparts ▸ List.mem_append_right _ List.mem_cons_self)).ne_nil rfl

theorem eq_root (h : IsBase dir []) : dir = Path.root dir := by
  simpa [ofParts, Text.join] using h.eq

/-- Only behind the root there is no slash to be put. -/
theorem under_eq (h : IsBase dir ns) {p : Path} (hp : isAbsolute p = false) :
    under dir p = if ns = [] then dir ++ p else dir ++ '/' :: p := by
  rw [under, hp, if_neg Bool.false_ne_true]
  by_cases hne : ns = []
  · subst hne
    have hend : Text.endsWith ['/'] dir = true := by
      rw [h.eq_root]
      rcases h.root with hr | hr <;> rw [hr] <;> rfl
    rw [if_pos (.inr hend), if_pos rfl]
  · rw [if_neg (by simp [h.ne_nil, h.not_endsWith hne]), if_neg hne]

/-- A name in a directory makes a path in normal form again. -/
theorem under_name (h : IsBase dir ns) {n : Text} (hn : IsName n) : IsBase (under dir n) (ns ++ [n]) := by
  have hnames : ∀ m ∈ [n], IsName m := fun m hm => List.mem_singleton.mp hm ▸ hn
  have hrelative : isAbsolute n = false := isAbsolute_ofParts hnames
  have hroot := h.root_under hrelative
  refine ⟨?_, hroot ▸ h.root, ?_⟩
  · rw [hroot, h.under_eq hrelative]
    split
    · next hne =>
      subst hne
      exact congrArg (· ++ n) h.eq_root
    · next hne =>
      rw [ofParts, Text.join_append hne (by simp), ← List.append_assoc]
      exact congrArg (· ++ '/' :: n) h.eq
  · intro m hm
    rcases List.mem_append.mp hm with hm | hm
    · exact h.names m hm
    · exact hnames m hm

theorem resolve_eq (h : IsBase dir ns) (cwd : Path) : resolve cwd dir = dir := by
  have habsolute : ∀ {p : Path}, isAbsolute p = true → absolute cwd p = normal p := by
    intro p hp
    unfold Path.absolute under
    rw [if_pos hp]
  unfold resolve
  split
  · next hcolon =>
    have hend : Text.endsWith ['/'] dir = false := by
      obtain ⟨d, rfl⟩ := List.isSuffixOf_iff_suffix.mp hcolon
      rw [Text.endsWith, List.isSuffixOf, List.reverse_append]
      rfl
    have hunder : dir ++ ['/'] = under dir [] := by
      rw [under, if_neg (by decide), if_neg (by simp [h.ne_nil, hend])]
    rw [habsolute ((isAbsolute_append h.ne_nil _).trans h.isAbsolute_eq), hunder, h.normal_under rfl (by decide)]
    exact (congrArg (Path.root dir ++ ofParts ·) (List.append_nil ns)).trans h.eq.symm
  · rw [habsolute h.isAbsolute_eq, h.normal_eq]

/-- A path in normal form is what names in a directory come to one below the other. -/
theorem foldl_under (h : IsBase dir ns) {names : List Text} (hnames : ∀ n ∈ names, IsName n) :
    IsBase (names.foldl under dir) (ns ++ names) := by
  induction names generalizing dir ns with
  | nil => simpa using h
  | cons n names ih =>
    have := ih (h.under_name (hnames n List.mem_cons_self)) fun m hm => hnames m (List.mem_cons_of_mem _ hm)
    simpa using this

theorem directory_under (h : IsBase dir ns) {n : Text} (hn : IsName n) : directory (under dir n) = dir := by
  have hnames : ∀ m ∈ [n], IsName m := fun m hm => List.mem_singleton.mp hm ▸ hn
  have hrelative : isAbsolute n = false := isAbsolute_ofParts hnames
  have hname : ∀ c ∈ n, decide (c ≠ '/') = true := by
    intro c hc
    rw [decide_eq_true_iff]
    rintro rfl
    exact hn.single hc
  rw [h.under_eq hrelative, directory]
  by_cases hne : ns = []
  · subst hne
    have hslash : ∀ c ∈ dir, c = '/' := by
      rw [h.eq_root]
      rcases h.root with hr | hr <;> rw [hr] <;> simp
    have hhead : Text.dropEndWhile (· ≠ '/') (dir ++ n) = dir :=
      Text.dropEndWhile_append (fun c hc => by simp [hslash c (List.mem_of_getLast? hc)]) hname
    rw [if_pos rfl, hhead, if_pos (by simpa using hslash)]
  · have hhead : Text.dropEndWhile (· ≠ '/') (dir ++ '/' :: n) = dir ++ ['/'] := by
      rw [List.append_cons]
      exact Text.dropEndWhile_append (by simp) hname
    have hlast : ∀ c ∈ dir.getLast?, decide (c = '/') = false := by
      intro c hc
      obtain ⟨d, rfl⟩ := List.getLast?_eq_some_iff.mp hc
      rw [decide_eq_false_iff_not]
      rintro rfl
      exact absurd (h.not_endsWith hne) (by simp [Text.endsWith])
    have hall : ¬ (dir ++ ['/']).all (· = '/') = true := by
      intro hall
      obtain ⟨c, hc⟩ := List.getLast?_isSome.mpr h.ne_nil |> Option.isSome_iff_exists.mp
      have hslash := List.all_eq_true.mp hall c (List.mem_append_left _ (List.mem_of_getLast? hc))
      rw [hlast c hc] at hslash
      cases hslash
    rw [if_neg hne, hhead, if_neg hall]
    exact Text.dropEndWhile_append hlast (by simp)

theorem names_eq (h : IsBase dir ns) : Path.names dir = ns := by
  have hslash : ∀ p, Path.names ('/' :: p) = Path.names p := fun p => by
    rw [Path.names, Path.names, parts_slash, List.filter_cons_of_neg (by simp)]
  have hroot : Path.names dir = Path.names (ofParts ns) := by
    rw [h.eq]
    rcases h.root with hr | hr <;> rw [hr] <;> simp [hslash]
  rw [hroot]
  by_cases hne : ns = []
  · rw [hne]
    rfl
  · rw [Path.names, parts_ofParts h.names hne]
    exact List.filter_eq_self.mpr fun n hn => by simp [(h.names n hn).ne_nil]

theorem dropCommon_append (ps qs : List Text) : dropCommon ps (ps ++ qs) = ([], qs) := by
  induction ps with
  | nil => cases qs <;> rfl
  | cons p ps ih => rw [List.cons_append, dropCommon, if_pos rfl, ih]

/-- The way from a directory down to another one goes through the names between them. -/
theorem relativeTo_foldl (h : IsBase dir ns) {names : List Text} (hnames : ∀ n ∈ names, IsName n) :
    relativeTo dir (names.foldl under dir) = way names := by
  rw [relativeTo, h.names_eq, (h.foldl_under hnames).names_eq, dropCommon_append]
  rfl

end IsBase

end Path

end TreeCensus
