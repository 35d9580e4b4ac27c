import TreeCensus.Proofs.Filter.Rooting

/-!
# Below the root directory

A clean path has no empty name and neither of the two names that stand for directories. Behind a directory
a clean glob reads what it reads on its own, only further down (`compile_behind`), so the filter of the
directory says there what the globs on their own say (`says_below`). The directory of two slashes is an
exception.
-/

namespace TreeCensus.Filter

set_option autoImplicit false

open Glob (Casing Matcher Pattern IsPlain Shifted bare expand bare_of_isClean)
open Glob.Pattern (chain spelled)
open TreeCensus.Path (parts steps isAbsolute slashed up here ofParts normal IsClean)

section Below

theorem bare_cases {glob : Text} (h : '\\' ∉ glob) :
    glob = bare glob ∨ glob = '/' :: bare glob ∨ glob = '.' :: '/' :: bare glob := by
  unfold bare
  rw [Glob.replace_of_not_mem h]
  split
  · exact .inr (.inl rfl)
  · exact .inr (.inr rfl)
  · exact .inl rfl

/-- A clean path is its names. -/
theorem ofParts_steps_of_isClean {p : Path} (h : IsClean p) : ofParts (steps p) = p := by
  have hsteps : steps p = parts p :=
    List.filter_eq_self.mpr fun n hn => by simp [(h n hn).1, (h n hn).2.1]
  rw [hsteps]
  exact Text.join_pieces '/' p

theorem steps_ne_nil_of_isClean {p : Path} (h : IsClean p) : steps p ≠ [] := by
  intro hnil
  have hp := ofParts_steps_of_isClean h
  rw [hnil] at hp
  rw [← hp] at h
  exact (h [] (List.mem_singleton_self [])).1 rfl

/-- What leads a glob adds no name to it. -/
theorem steps_of_isClean_bare {glob : Text} (hglob : '\\' ∉ glob) (h : IsClean (bare glob)) :
    steps glob = steps (bare glob) ∧ up ∉ parts glob := by
  have hup : up ∉ parts (bare glob) := fun hmem => (h up hmem).2.2 rfl
  have key : ∀ x, up ∉ parts x → (glob = x ∨ glob = '/' :: x ∨ glob = '.' :: '/' :: x) →
      steps glob = steps x ∧ up ∉ parts glob := by
    rintro x hx (rfl | rfl | rfl)
    · exact ⟨rfl, hx⟩
    · rw [Path.parts_slash]
      exact ⟨Path.steps_slash x, List.not_mem_cons_of_ne_of_not_mem (by decide) hx⟩
    · have hparts : parts ('.' :: '/' :: x) = here :: parts x := Path.parts_append_slash here x
      rw [hparts]
      exact ⟨Path.steps_append_slash here x, List.not_mem_cons_of_ne_of_not_mem (by decide) hx⟩
  exact key (bare glob) hup (bare_cases hglob)

theorem not_mem_bare {glob : Text} (h : '\\' ∉ glob) : '\\' ∉ bare glob := fun hc =>
  h ((Glob.mem_of_mem_bare hc).resolve_left (by decide))

/-- Without a directory a glob keeps at most a slash before its names. -/
theorem place_none (cwd : Path) {glob : Text} (hglob : '\\' ∉ glob) (h : IsClean (bare glob)) :
    ∃ lead, (lead = [] ∨ lead = ['/']) ∧ (Base.mk cwd none).place glob = lead ++ bare glob := by
  have key : ∀ x, IsClean x → (glob = x ∨ glob = '/' :: x ∨ glob = '.' :: '/' :: x) →
      ∃ lead, (lead = [] ∨ lead = ['/']) ∧ (Base.mk cwd none).place glob = lead ++ x := by
    rintro x hx (rfl | rfl | rfl)
    · refine ⟨[], .inl rfl, ?_⟩
      unfold Base.place
      dsimp only
      split
      · next r =>
        have hmem : here ∈ parts ('.' :: '/' :: r) := by
          have hparts : parts ('.' :: '/' :: r) = here :: parts r := Path.parts_append_slash here r
          exact hparts ▸ List.mem_cons_self
        exact absurd rfl (hx here hmem).2.1
      · rfl
    · exact ⟨['/'], .inr rfl, rfl⟩
    · exact ⟨[], .inl rfl, rfl⟩
  exact key (bare glob) h (bare_cases hglob)

/-- A clean path is not slashes alone. -/
theorem all_slashes_of_isClean {p : Path} (h : IsClean p) (t : Text) :
    (t ++ p).all (· = '/') = false := by
  apply Bool.eq_false_iff.mpr
  intro hall
  obtain ⟨n, hn⟩ := List.exists_mem_of_ne_nil _ (Text.pieces_ne_nil '/' p)
  obtain ⟨c, hc⟩ := List.exists_mem_of_ne_nil _ (h n hn).1
  have hslash : c = '/' := by
    simpa using List.all_eq_true.mp hall c (List.mem_append_right t (Glob.mem_of_mem_pieces hn hc))
  exact Text.not_mem_of_mem_pieces hn (hslash ▸ hc)

/-- Two conditions with the same marks, of which the first reads behind `u` what the second one reads. -/
structure Shifts (u : Text) (c c' : Condition) : Prop where
  exclude : c.exclude = c'.exclude
  negative : c.negative = c'.negative
  accepts : ∀ t, t ≠ [] → (c.matcher.Accepts (u ++ '/' :: t) ↔ c'.matcher.Accepts t)

theorem Shifts.read {u : Text} {c c' : Condition} (h : Shifts u c c') {t : Text} (ht : t ≠ [])
    (s : Standing) : s.read (u ++ '/' :: t) c = s.read t c' := by
  have happly : s.apply c = s.apply c' := by
    unfold Standing.apply
    rw [h.exclude, h.negative]
  unfold Standing.read
  rw [happly]
  exact if_congr (h.accepts t ht) rfl rfl

theorem foldl_read_shifts {u : Text} {cs cs' : List Condition} (h : List.Forall₂ (Shifts u) cs cs')
    {t : Text} (ht : t ≠ []) (s : Standing) :
    cs.foldl (Standing.read (u ++ '/' :: t)) s = cs'.foldl (Standing.read t) s := by
  induction h generalizing s with
  | nil => rfl
  | cons hc _ ih => rw [List.foldl_cons, List.foldl_cons, hc.read ht, ih]

/-- A raw glob that says below `u` what another one says. -/
structure Echoes (base base' : Base) (k : Casing) (u raw raw' : Text) : Prop where
  read : (∃ c, readCondition? base k raw = .ok c) ↔ ∃ c, readCondition? base' k raw' = .ok c
  shifts : ∀ c c', readCondition? base k raw = .ok c → readCondition? base' k raw' = .ok c' →
    Option.Rel (Shifts u) c c'

/-- Filters of such globs are both made or both not made, and the conditions of one say below `u` what those
of the other one say. -/
theorem conditions_shift {base base' : Base} {k : Casing} {u : Text} {globs globs' : List Text}
    (h : List.Forall₂ (Echoes base base' k u) globs globs') :
    ((∃ e, compile base k globs = .error e) ↔ ∃ e, compile base' k globs' = .error e) ∧
    ∀ f f', compile base k globs = .ok f → compile base' k globs' = .ok f' →
      List.Forall₂ (Shifts u) f.conditions f'.conditions := by
  constructor
  · have hiff : (∃ f, compile base k globs = .ok f) ↔ ∃ f, compile base' k globs' = .ok f := by
      rw [exists_compile_iff, exists_compile_iff]
      induction h with
      | nil => simp
      | cons hraw _ ih => rw [List.forall_mem_cons, List.forall_mem_cons, hraw.read, ih]
    cases h₁ : compile base k globs <;> cases h₂ : compile base' k globs' <;> simp_all
  · intro f f' hf hf'
    obtain ⟨cs, hcs, hconditions⟩ := exists_of_compile hf
    obtain ⟨cs', hcs', hconditions'⟩ := exists_of_compile hf'
    have hshifts : List.Forall₂ (Option.Rel (Shifts u)) cs cs' := by
      clear hf hf' hconditions hconditions'
      induction h generalizing cs cs' with
      | nil =>
        cases hcs
        cases hcs'
        exact .nil
      | cons hraw _ ih =>
        cases hcs with
        | cons hc hrest =>
          cases hcs' with
          | cons hc' hrest' => exact .cons (hraw.shifts _ _ hc hc') (ih _ hrest _ hrest')
    rw [hconditions, hconditions']
    exact List.rel_filterMap (fun _ _ h => h) hshifts

variable {cwd dir : Path} (h : IsPlainDir dir) (hroot : dir ≠ ['/']) {u : Text}
  (hu : slashed dir = '/' :: u) (hplain : ∀ s ∈ parts u, IsPlain s) (hback : '\\' ∉ u)
  (hopen : '\x7b' ∉ u)

include hplain hback hopen

/-- A clean glob compiles behind plain names if it does so on its own, and reads behind them what it
reads on its own. -/
theorem compile_behind {x : Text} (hx : '\\' ∉ x) (hclean : ∀ a ∈ x :: expand x, IsClean a)
    {lead : Text} (hlead : lead = [] ∨ lead = ['/']) (k : Casing) :
    ((∃ m, Matcher.compile k ('/' :: u ++ '/' :: x) = .ok m) ↔
      ∃ m, Matcher.compile k (lead ++ x) = .ok m) ∧
    ∀ m m', Matcher.compile k ('/' :: u ++ '/' :: x) = .ok m → Matcher.compile k (lead ++ x) = .ok m' →
      ∀ t, t ≠ [] → (m.Accepts (u ++ '/' :: t) ↔ m'.Accepts t) := by
  have hbehind : ∀ a, a ∈ expand ('/' :: u ++ '/' :: x) ↔ ∃ b ∈ expand x, a = '/' :: u ++ '/' :: b := by
    intro a
    simpa using Glob.mem_expand_surrounded (u := '/' :: u ++ ['/']) (v := [])
      (by simp [hopen]) (by simp [hback]) (by simp) (by simp) hx a
  have hown : ∀ a, a ∈ expand (lead ++ x) ↔ ∃ b ∈ expand x, a = lead ++ b := by
    intro a
    have hfree : '\x7b' ∉ lead ∧ '\\' ∉ lead := by rcases hlead with rfl | rfl <;> decide
    simpa using Glob.mem_expand_surrounded (u := lead) (v := []) hfree.1 hfree.2 (by simp) (by simp)
      hx a
  have hfree : ∀ b ∈ expand x, '\\' ∉ b := fun b hb hc => hx (Glob.mem_of_mem_expand hb hc)
  have hbare : ∀ b, IsClean b → '\\' ∉ b → bare (lead ++ b) = b := by
    intro b hb hfree
    rcases hlead with rfl | rfl
    · exact bare_of_isClean hb hfree
    · exact Glob.bare_slash hfree
  -- Behind the names each alternative fails as it does alone, or its pattern has the names in front.
  have hpair : ∀ b ∈ expand x,
      (∃ f f', Pattern.ofGlob ('/' :: u ++ '/' :: b) = .error f ∧
        Pattern.ofGlob (lead ++ b) = .error f') ∨
      ∃ ps ps', Pattern.ofGlob ('/' :: u ++ '/' :: b) = .ok (chain .empty (spelled u ++ ps)) ∧
        Pattern.ofGlob (lead ++ b) = .ok (chain .empty ps') ∧ Shifted ps ps' := by
    intro b hb
    refine Glob.ofGlob_behind hplain hback (hfree b hb) ?_
    rw [Glob.segments, hbare b (hclean b (List.mem_cons_of_mem x hb)) (hfree b hb)]
  constructor
  · rw [Matcher.exists_compile_iff, Matcher.exists_compile_iff]
    constructor
    · intro hok a ha
      obtain ⟨b, hb, rfl⟩ := (hown a).mp ha
      rcases hpair b hb with ⟨f, -, hf, -⟩ | ⟨-, ps', -, hps', -⟩
      · obtain ⟨p, hp⟩ := hok _ ((hbehind _).mpr ⟨b, hb, rfl⟩)
        rw [hf] at hp
        cases hp
      · exact ⟨_, hps'⟩
    · intro hok a ha
      obtain ⟨b, hb, rfl⟩ := (hbehind a).mp ha
      rcases hpair b hb with ⟨-, f', -, hf'⟩ | ⟨ps, -, hps, -, -⟩
      · obtain ⟨p, hp⟩ := hok _ ((hown _).mpr ⟨b, hb, rfl⟩)
        rw [hf'] at hp
        cases hp
      · exact ⟨_, hps⟩
  · intro m m' hm hm' t ht
    rw [Matcher.accepts_iff_of_compile hm, Matcher.accepts_iff_of_compile hm', List.cons_append,
      Glob.bare_slash (by simp [hback, hx]), hbare x (hclean x List.mem_cons_self) hx]
    refine or_congr (by simp) ?_
    constructor
    · rintro ⟨a, ha, p, hp, hread⟩
      obtain ⟨b, hb, rfl⟩ := (hbehind a).mp ha
      rcases hpair b hb with ⟨f, -, hf, -⟩ | ⟨ps, ps', hps, hps', hshift⟩
      · rw [hf] at hp
        cases hp
      · rw [hps] at hp
        obtain rfl := Except.ok.inj hp
        exact ⟨_, (hown _).mpr ⟨b, hb, rfl⟩, _, hps', (hshift.accepts_iff k ht).mp hread⟩
    · rintro ⟨a, ha, p, hp, hread⟩
      obtain ⟨b, hb, rfl⟩ := (hown a).mp ha
      rcases hpair b hb with ⟨-, f', -, hf'⟩ | ⟨ps, ps', hps, hps', hshift⟩
      · rw [hf'] at hp
        cases hp
      · rw [hps'] at hp
        obtain rfl := Except.ok.inj hp
        exact ⟨_, (hbehind _).mpr ⟨b, hb, rfl⟩, _, hps, (hshift.accepts_iff k ht).mpr hread⟩

include h hroot hu

variable (cwd) in
/-- A raw glob that is clean without its marks says below the directory what it says on its own. -/
theorem readCondition?_below {raw : Text}
    (hclean : ∀ m, readMarks raw = .ok m → ∀ a ∈ bare m.glob :: expand (bare m.glob), IsClean a)
    (k : Casing) :
    ((∃ c, readCondition? ⟨cwd, some dir⟩ k raw = .ok c) ↔
      ∃ c, readCondition? ⟨cwd, none⟩ k raw = .ok c) ∧
    ∀ c c', readCondition? ⟨cwd, some dir⟩ k raw = .ok c → readCondition? ⟨cwd, none⟩ k raw = .ok c' →
      Option.Rel (Shifts u) c c' := by
  cases hm : readMarks raw with
  | error e => simp [readCondition?, hm]
  | ok m =>
    have hglob := not_mem_of_readMarks hm
    have hclean' := hclean m hm
    have hcleanx := hclean' _ List.mem_cons_self
    have hplace : (Base.mk cwd (some dir)).place m.glob = '/' :: u ++ '/' :: bare m.glob := by
      obtain ⟨hsteps, hup⟩ := steps_of_isClean_bare hglob hcleanx
      rcases h.place_cases cwd hglob hup with ⟨hnil, -⟩ | ⟨-, w, hw, hplace⟩
      · exact absurd (hsteps ▸ hnil) (steps_ne_nil_of_isClean hcleanx)
      · obtain rfl := hw.resolve_right fun hw => hroot hw.1
        rw [hplace, hsteps, ofParts_steps_of_isClean hcleanx, hu]
    obtain ⟨lead, hlead, hnone⟩ := place_none cwd hglob hcleanx
    obtain ⟨hiff, haccepts⟩ := compile_behind hplain hback hopen (not_mem_bare hglob) hclean' hlead k
    have hne : m.glob ≠ [] := by
      intro hnil
      rw [hnil] at hcleanx
      exact steps_ne_nil_of_isClean hcleanx rfl
    constructor
    · rw [exists_readCondition?_iff, exists_readCondition?_iff]
      simp only [hm, Except.ok.injEq, exists_eq_left', hne, false_or, hplace, hnone, hiff]
    · intro c c' hc hc'
      have hroot' : '/' :: u ++ '/' :: bare m.glob = ('/' :: u ++ ['/']) ++ bare m.glob := by simp
      have hall : ('/' :: u ++ '/' :: bare m.glob).all (· = '/') = false :=
        hroot' ▸ all_slashes_of_isClean hcleanx _
      have hall' : (lead ++ bare m.glob).all (· = '/') = false := all_slashes_of_isClean hcleanx lead
      unfold readCondition? at hc hc'
      simp only [hm, hplace, hnone, hall, hall', hne, Bool.false_eq_true, or_self, if_false] at hc hc'
      cases hmatcher : Matcher.compile k ('/' :: u ++ '/' :: bare m.glob) with
      | error e => rw [hmatcher] at hc; cases hc
      | ok matcher =>
        cases hmatcher' : Matcher.compile k (lead ++ bare m.glob) with
        | error e => rw [hmatcher'] at hc'; cases hc'
        | ok matcher' =>
          rw [hmatcher] at hc
          rw [hmatcher'] at hc'
          obtain rfl := Except.ok.inj hc
          obtain rfl := Except.ok.inj hc'
          exact .some ⟨rfl, rfl, haccepts matcher matcher' hmatcher hmatcher'⟩

end Below

/-- The characters that a glob may take for something else than themselves. -/
def specials : Text := ['[', ']', '(', ')', '\x7b', '\x7d', '*', '?', '|', '\\']

/-- A raw glob that is clean behind its marks and what leads it, as are all its alternatives. -/
def IsCleanRaw (raw : Text) : Prop :=
  ∀ m, readMarks raw = .ok m → ∀ a ∈ bare m.glob :: expand (bare m.glob), IsClean a

/-- Below the directory its filter says what the globs say on their own. -/
def SaysBelow (cwd dir : Path) (k : Casing) (globs : List Text) : Prop :=
  ((∃ e, compile ⟨cwd, some dir⟩ k globs = .error e) ↔ ∃ e, compile ⟨cwd, none⟩ k globs = .error e) ∧
  ∀ f f', compile ⟨cwd, some dir⟩ k globs = .ok f → compile ⟨cwd, none⟩ k globs = .ok f' →
    ∀ p, IsClean p → '\\' ∉ p → f.verdict (dir ++ '/' :: p) = f'.verdict p

theorem isPlainDir_of_specials {dir : Path} (habs : isAbsolute dir = true) (hnormal : normal dir = dir)
    (hsingle : dir ≠ ['/', '/']) (hchars : ∀ c ∈ dir, c ∉ specials) : IsPlainDir dir := by
  have hfree : ∀ c ∈ specials, c ∉ dir := fun c hc hmem => hchars c hmem hc
  refine ⟨habs, hnormal, hsingle, hfree _ (by decide), ?_⟩
  rw [slashed, Glob.replace_of_not_mem (hfree _ (by decide))]
  intro s hs
  have hname : ∀ c ∈ specials, c ∉ s := fun c hc hmem => hfree c hc (Glob.mem_of_mem_pieces hs hmem)
  refine ⟨?_, fun hgroups => hname '(' (by decide) hgroups.1⟩
  intro c hc
  refine ⟨?_, ?_, ?_⟩ <;> rintro rfl <;> exact hname _ (by decide) hc

/-- Putting globs behind a directory only shifts what they match. -/
theorem says_below (cwd : Path) {dir : Path} (habs : isAbsolute dir = true) (hnormal : normal dir = dir)
    (hroot : dir ≠ ['/']) (hsingle : dir ≠ ['/', '/']) (hchars : ∀ c ∈ dir, c ∉ specials) (k : Casing)
    {globs : List Text} (hclean : ∀ raw ∈ globs, IsCleanRaw raw) : SaysBelow cwd dir k globs := by
  have h := isPlainDir_of_specials habs hnormal hsingle hchars
  have hdir : '\\' ∉ dir := fun hmem => hchars _ hmem (by decide)
  obtain ⟨u, hu, hplain, hback, hopen⟩ := h.exists_slashed
  have hsame : dir = '/' :: u := by rwa [slashed, Glob.replace_of_not_mem hdir] at hu
  have hechoes : List.Forall₂ (Echoes ⟨cwd, some dir⟩ ⟨cwd, none⟩ k u) globs globs := by
    apply List.forall₂_same.mpr
    intro raw hraw
    obtain ⟨hread, hshifts⟩ := readCondition?_below cwd h hroot hu hplain hback hopen (hclean raw hraw) k
    exact ⟨hread, hshifts⟩
  obtain ⟨hiff, hconditions⟩ := conditions_shift hechoes
  refine ⟨hiff, ?_⟩
  intro f f' hf hf' p hp hfree
  have hne : p ≠ [] := by
    rintro rfl
    exact (hp [] (List.mem_singleton_self [])).1 rfl
  have hbehind : bare (dir ++ '/' :: p) = u ++ '/' :: p := by
    rw [hsame, List.cons_append]
    exact Glob.bare_slash (by simp [hback, hfree])
  rw [verdict, verdict, hbehind, bare_of_isClean hp hfree, foldl_read_shifts (hconditions f f' hf hf') hne]

theorem isCleanRaw_of_eq {raw : Text} (glob : Text)
    (hread : (readMarks raw).toOption.map (fun m => bare m.glob) = some glob)
    (hclean : ∀ a ∈ glob :: expand glob, IsClean a) : IsCleanRaw raw := by
  intro m hm
  rw [hm] at hread
  obtain rfl := Option.some.inj hread
  exact hclean

/-- Excluding what two alternatives match, below `/r` and on its own. -/
theorem says_below_alternatives :
    isAbsolute "/r".toList = true ∧ normal "/r".toList = "/r".toList ∧ "/r".toList ≠ ['/'] ∧
      "/r".toList ≠ ['/', '/'] ∧ (∀ c ∈ "/r".toList, c ∉ specials) ∧
      (∀ raw ∈ ["**".toList, "^ ./*.\x7bo,so\x7d".toList], IsCleanRaw raw) ∧
      SaysBelow ['/'] "/r".toList .ignored ["**".toList, "^ ./*.\x7bo,so\x7d".toList] := by
  have habs : isAbsolute "/r".toList = true := by decide
  have hnormal : normal "/r".toList = "/r".toList := by decide +kernel
  have hchars : ∀ c ∈ "/r".toList, c ∉ specials := by
    have hall : "/r".toList.all (fun c => c ∉ specials) = true := by decide
    exact fun c hc => of_decide_eq_true (List.all_eq_true.mp hall c hc)
  have hclean : ∀ raw ∈ ["**".toList, "^ ./*.\x7bo,so\x7d".toList], IsCleanRaw raw := by
    intro raw hraw
    rcases List.mem_pair.mp hraw with rfl | rfl
    · exact isCleanRaw_of_eq "**".toList (by decide +kernel) (by decide +kernel)
    · exact isCleanRaw_of_eq "*.\x7bo,so\x7d".toList (by decide +kernel) (by decide +kernel)
  exact ⟨habs, hnormal, by decide, by decide, hchars, hclean,
    says_below ['/'] habs hnormal (by decide) (by decide) hchars .ignored hclean⟩

/-- Behind a directory of two slashes a glob is not found again: a path below it has three slashes in
front, of which only one is dropped. -/
theorem not_saysBelow_of_two_slashes :
    isAbsolute ['/', '/'] = true ∧ normal ['/', '/'] = ['/', '/'] ∧ ['/', '/'] ≠ ['/'] ∧
      (∀ c ∈ ['/', '/'], c ∉ specials) ∧ (∀ raw ∈ [['*']], IsCleanRaw raw) ∧
      ¬ SaysBelow ['/'] ['/', '/'] .heeded [['*']] := by
  refine ⟨by decide, by decide, by decide, ?_, ?_, ?_⟩
  · have hall : ['/', '/'].all (fun c => c ∉ specials) = true := by decide
    exact fun c hc => of_decide_eq_true (List.all_eq_true.mp hall c hc)
  · intro raw hraw
    obtain rfl := List.mem_singleton.mp hraw
    exact isCleanRaw_of_eq ['*'] (by decide +kernel) (by decide +kernel)
  · intro hsays
    have hrooted : (compile ⟨['/'], some ['/', '/']⟩ .heeded [['*']]).toOption.map
        (·.verdict ['/', '/', '/', 'x']) = some .unmatched := by decide +kernel
    have hown : (compile ⟨['/'], none⟩ .heeded [['*']]).toOption.map (·.verdict ['x']) =
        some .included := by decide +kernel
    cases hf : compile ⟨['/'], some ['/', '/']⟩ .heeded [['*']] with
    | error e => rw [hf] at hrooted; cases hrooted
    | ok f =>
      cases hf' : compile ⟨['/'], none⟩ .heeded [['*']] with
      | error e => rw [hf'] at hown; cases hown
      | ok f' =>
        rw [hf] at hrooted
        rw [hf'] at hown
        have hunmatched : f.verdict (['/', '/'] ++ ['/', 'x']) = .unmatched := Option.some.inj hrooted
        have hincluded : f'.verdict ['x'] = .included := Option.some.inj hown
        have hsame := hsays.2 f f' hf hf' ['x'] (by decide) (by decide)
        rw [hunmatched, hincluded] at hsame
        cases hsame

end TreeCensus.Filter
