import TreeCensus.Proofs.Glob.Splicing

/-!
# Brace expressions

A brace expression is text, two expressions one after the other, or a group of alternatives. Its texts are
those that choosing one alternative in every group gives, in the order in which the last group varies first;
a group with only one alternative keeps its braces. Expanding what an expression is written as gives these
texts without repetitions, and none of them expands any further (`expand_render`).
-/

namespace TreeCensus.Glob

set_option autoImplicit false

/-- Text that says nothing about alternatives. -/
structure Literal where
  text : Text
  unmarked : ∀ c ∈ text, c ∉ ['\x7b', '\x7d', ',', '\\']

mutual

inductive Braces
  | literal (t : Literal)
  | append (a b : Braces)
  | group (choices : Choices)

/-- The alternatives of a group, of which there is at least one. -/
inductive Choices
  | last (a : Braces)
  | more (a : Braces) (rest : Choices)

end

def Choices.toList : Choices → List Braces
  | .last a => [a]
  | .more a cs => a :: cs.toList

mutual

def Braces.render : Braces → Text
  | .literal t => t.text
  | .append a b => a.render ++ b.render
  | .group cs => '\x7b' :: cs.render ++ ['\x7d']

def Choices.render : Choices → Text
  | .last a => a.render
  | .more a cs => a.render ++ ',' :: cs.render

end

/-- Text in braces of its own. -/
def braced (t : Text) : Text := '\x7b' :: t ++ ['\x7d']

mutual

/-- What choosing one alternative in every group gives, the first group varying slowest. -/
def Braces.texts : Braces → List Text
  | .literal t => [t.text]
  | .append a b => a.texts.flatMap fun s => b.texts.map (s ++ ·)
  | .group (.last a) => a.texts.map braced
  | .group (.more a cs) => a.texts ++ cs.texts

def Choices.texts : Choices → List Text
  | .last a => a.texts
  | .more a cs => a.texts ++ cs.texts

end

/-- The expressions that the alternatives of the first group with several of them leave in its place; none
if there is no such group. -/
def Braces.split? : Braces → Option (List Braces)
  | .literal _ => none
  | .append a b =>
    match a.split? with
    | some as => some (as.map (.append · b))
    | none => b.split?.map fun bs => bs.map (.append a)
  | .group (.last a) => a.split?.map fun as => as.map fun a => .group (.last a)
  | .group (.more a cs) => some (a :: cs.toList)

section Reading

variable {d : Nat} {part before rest : Text} {done : List Text}

theorem alternatives?_literal (t : Literal) :
    alternatives? d part done (t.text ++ rest) = alternatives? d (t.text.reverse ++ part) done rest := by
  obtain ⟨t, ht⟩ := t
  induction t generalizing part with
  | nil => rfl
  | cons c t ih =>
    obtain ⟨hc, ht⟩ := List.forall_mem_cons.mp ht
    simp only [List.mem_cons, List.not_mem_nil, or_false, not_or] at hc
    obtain ⟨hopen, hclose, hcomma, hescape⟩ := hc
    simp only [List.cons_append, List.reverse_cons, List.append_assoc, List.nil_append] at ih ⊢
    rw [alternatives?_cons hescape, if_neg hopen, if_neg hclose, if_neg (hcomma ·.1)]
    exact ih ht

theorem firstGroup?_literal (t : Literal) :
    firstGroup? before (t.text ++ rest) = firstGroup? (t.text.reverse ++ before) rest := by
  obtain ⟨t, ht⟩ := t
  induction t generalizing before with
  | nil => rfl
  | cons c t ih =>
    obtain ⟨hc, ht⟩ := List.forall_mem_cons.mp ht
    simp only [List.mem_cons, List.not_mem_nil, or_false, not_or] at hc
    obtain ⟨hopen, -, -, hescape⟩ := hc
    simp only [List.cons_append, List.reverse_cons, List.append_assoc, List.nil_append] at ih ⊢
    rw [firstGroup?_cons hescape hopen]
    exact ih ht

theorem alternatives?_open :
    alternatives? d part done ('\x7b' :: rest) = alternatives? (d + 1) ('\x7b' :: part) done rest := by
  rw [alternatives?_cons (by decide), if_pos rfl]

theorem alternatives?_close :
    alternatives? (d + 1) part done ('\x7d' :: rest) = alternatives? d ('\x7d' :: part) done rest := by
  rw [alternatives?_cons (by decide), if_neg (by decide), if_pos rfl]

theorem alternatives?_comma :
    alternatives? (d + 1) part done (',' :: rest) = alternatives? (d + 1) (',' :: part) done rest := by
  rw [alternatives?_cons (by decide), if_neg (by decide), if_neg (by decide), if_neg (by simp)]

end Reading

-- Whatever group is being read, an expression inside it leaves the depth as it was: none of its braces and
-- commas belong to the group.
mutual

theorem alternatives?_render (e : Braces) (d : Nat) (part : Text) (done : List Text) (rest : Text) :
    alternatives? d part done (e.render ++ rest) = alternatives? d (e.render.reverse ++ part) done rest := by
  match e with
  | .literal t => exact alternatives?_literal t
  | .append a b =>
    rw [Braces.render, List.append_assoc, alternatives?_render a, alternatives?_render b,
      List.reverse_append, List.append_assoc]
  | .group cs =>
    have hinner := alternatives?_choices cs d ('\x7b' :: part) done ('\x7d' :: rest)
    simp only [Braces.render, List.cons_append, List.append_assoc, List.nil_append]
    rw [alternatives?_open, hinner, alternatives?_close]
    simp

theorem alternatives?_choices (cs : Choices) (d : Nat) (part : Text) (done : List Text) (rest : Text) :
    alternatives? (d + 1) part done (cs.render ++ rest) =
      alternatives? (d + 1) (cs.render.reverse ++ part) done rest := by
  match cs with
  | .last a => exact alternatives?_render a (d + 1) part done rest
  | .more a cs =>
    have htail := alternatives?_choices cs d (',' :: (a.render.reverse ++ part)) done rest
    rw [Choices.render, List.append_assoc, alternatives?_render a, List.cons_append, alternatives?_comma,
      htail]
    simp

end

theorem alternatives?_group (cs : Choices) (done : List Text) (rest : Text) :
    alternatives? 0 [] done (cs.render ++ '\x7d' :: rest) =
      some (done.reverse ++ cs.toList.map Braces.render, rest) := by
  match cs with
  | .last a =>
    rw [Choices.render, alternatives?_render, alternatives?_cons (by decide), if_neg (by decide), if_pos rfl]
    simp [Choices.toList]
  | .more a cs =>
    rw [Choices.render, List.append_assoc, alternatives?_render, List.cons_append,
      alternatives?_cons (by decide), if_neg (by decide), if_neg (by decide), if_pos (by decide),
      alternatives?_group cs]
    simp [Choices.toList]

theorem Choices.exists_toList (cs : Choices) : ∃ a as, cs.toList = a :: as := by
  cases cs <;> exact ⟨_, _, rfl⟩

namespace Braces

theorem firstGroup?_of_split?_eq_none {e : Braces} (h : e.split? = none) (before rest : Text) :
    firstGroup? before (e.render ++ rest) = firstGroup? (e.render.reverse ++ before) rest := by
  fun_induction split? e generalizing before rest with
  | case1 t => exact firstGroup?_literal t
  | case2 a b as ha => cases h
  | case3 a b ha iha ihb =>
    rw [render, List.append_assoc, iha ha, ihb (Option.map_eq_none_iff.mp h), List.reverse_append,
      List.append_assoc]
  | case4 a ih =>
    have halternatives := alternatives?_group (.last a) [] rest
    have hinner := ih (Option.map_eq_none_iff.mp h) ('\x7b' :: before) ('\x7d' :: rest)
    simp only [render, Choices.render, List.cons_append, List.append_assoc, List.nil_append] at *
    rw [firstGroup?_open, halternatives]
    refine hinner.trans ?_
    rw [firstGroup?_cons (by decide) (by decide)]
    simp
  | case5 a cs => cases h

/-- The first group of several alternatives is found whatever comes before and after the expression. -/
theorem exists_of_split?_eq_some {e : Braces} {es : List Braces} (h : e.split? = some es) :
    ∃ pre alts post, es.map render = alts.map (fun a => pre ++ a ++ post) ∧
      ∀ before rest, firstGroup? before (e.render ++ rest) =
        some ⟨before.reverse ++ pre, alts, post ++ rest⟩ := by
  -- The group is in the first part, in the second one, inside a group of one alternative, or here.
  fun_induction split? e generalizing es with
  | case1 t => cases h
  | case2 a b as ha ih =>
    obtain rfl := Option.some.inj h
    obtain ⟨pre, alts, post, hrender, hfirst⟩ := ih ha
    refine ⟨pre, alts, post ++ b.render, ?_, ?_⟩
    · calc (as.map (append · b)).map render
          = (as.map render).map (· ++ b.render) := by simp [Function.comp_def, render]
        _ = alts.map fun a => pre ++ a ++ (post ++ b.render) := by simp [hrender, Function.comp_def]
    · intro before rest
      rw [render, List.append_assoc, hfirst, List.append_assoc]
  | case3 a b ha _ ih =>
    obtain ⟨bs, hb, rfl⟩ := Option.map_eq_some_iff.mp h
    obtain ⟨pre, alts, post, hrender, hfirst⟩ := ih hb
    refine ⟨a.render ++ pre, alts, post, ?_, ?_⟩
    · calc (bs.map (append a)).map render
          = (bs.map render).map (a.render ++ ·) := by simp [Function.comp_def, render]
        _ = alts.map fun b => a.render ++ pre ++ b ++ post := by simp [hrender, Function.comp_def]
    · intro before rest
      rw [render, List.append_assoc, firstGroup?_of_split?_eq_none ha, hfirst]
      simp
  | case4 a ih =>
    obtain ⟨as, ha, rfl⟩ := Option.map_eq_some_iff.mp h
    obtain ⟨pre, alts, post, hrender, hfirst⟩ := ih ha
    refine ⟨'\x7b' :: pre, alts, post ++ ['\x7d'], ?_, ?_⟩
    · calc (as.map fun a => group (.last a)).map render
          = (as.map render).map braced := by simp [Function.comp_def, render, Choices.render, braced]
        _ = alts.map fun a => '\x7b' :: pre ++ a ++ (post ++ ['\x7d']) := by
          simp [hrender, Function.comp_def, braced]
    · intro before rest
      have halternatives := alternatives?_group (.last a) [] rest
      have hinner := hfirst ('\x7b' :: before) ('\x7d' :: rest)
      simp only [render, Choices.render, List.cons_append, List.append_assoc, List.nil_append] at *
      rw [firstGroup?_open, halternatives]
      refine hinner.trans ?_
      simp
  | case5 a cs =>
    obtain rfl := Option.some.inj h
    refine ⟨[], (a :: cs.toList).map render, [], by simp, ?_⟩
    intro before rest
    have halternatives := alternatives?_group (.more a cs) [] rest
    obtain ⟨b, bs, hcs⟩ := cs.exists_toList
    simp only [render, List.cons_append, List.append_assoc, List.nil_append] at *
    rw [firstGroup?_open, halternatives]
    simp [Choices.toList, hcs]

end Braces

theorem Choices.texts_eq (cs : Choices) : cs.texts = cs.toList.flatMap Braces.texts := by
  match cs with
  | .last a => simp [texts, toList]
  | .more a cs => rw [texts, toList, List.flatMap_cons, texts_eq cs]

namespace Braces

theorem texts_of_split?_eq_none {e : Braces} (h : e.split? = none) : e.texts = [e.render] := by
  fun_induction split? e with
  | case1 t => rfl
  | case2 a b as ha => cases h
  | case3 a b ha iha ihb =>
    rw [texts, render, iha ha, ihb (Option.map_eq_none_iff.mp h)]
    rfl
  | case4 a ih =>
    rw [texts, ih (Option.map_eq_none_iff.mp h)]
    rfl
  | case5 a cs => cases h

theorem texts_of_split?_eq_some {e : Braces} {es : List Braces} (h : e.split? = some es) :
    e.texts = es.flatMap texts := by
  fun_induction split? e generalizing es with
  | case1 t => cases h
  | case2 a b as ha ih =>
    obtain rfl := Option.some.inj h
    rw [texts, ih ha, List.flatMap_assoc, List.flatMap_map]
    rfl
  | case3 a b ha _ ih =>
    obtain ⟨bs, hb, rfl⟩ := Option.map_eq_some_iff.mp h
    rw [texts, texts_of_split?_eq_none ha, ih hb, List.flatMap_singleton, List.map_flatMap, List.flatMap_map]
    refine List.flatMap_congr fun b _ => ?_
    rw [texts, texts_of_split?_eq_none ha, List.flatMap_singleton]
  | case4 a ih =>
    obtain ⟨as, ha, rfl⟩ := Option.map_eq_some_iff.mp h
    rw [texts, ih ha, List.map_flatMap, List.flatMap_map]
    rfl
  | case5 a cs =>
    obtain rfl := Option.some.inj h
    rw [texts, List.flatMap_cons, Choices.texts_eq]

end Braces

section Repetitions

variable {α β : Type} [BEq α] [LawfulBEq α]

theorem filter_eraseDups (p : α → Bool) (l : List α) : l.eraseDups.filter p = (l.filter p).eraseDups := by
  induction hn : l.length using Nat.strongRecOn generalizing l with
  | ind n ih =>
    cases l with
    | nil => rfl
    | cons a as =>
      have hlt : (as.filter fun b => !b == a).length < n :=
        hn ▸ Nat.lt_succ_of_le (List.length_filter_le _ _)
      rw [List.eraseDups_cons]
      by_cases ha : p a
      · rw [List.filter_cons_of_pos ha, List.filter_cons_of_pos ha, List.eraseDups_cons, ih _ hlt _ rfl,
          List.filter_comm]
      · have hsame : ((as.filter fun b => !b == a).filter p) = as.filter p := by
          rw [List.filter_filter]
          refine List.filter_congr fun b _ => ?_
          by_cases hb : b = a <;> simp_all
        rw [List.filter_cons_of_neg ha, List.filter_cons_of_neg ha, ih _ hlt _ rfl, hsame]

theorem nodup_eraseDups (l : List α) : l.eraseDups.Nodup := by
  induction hn : l.length using Nat.strongRecOn generalizing l with
  | ind n ih =>
    cases l with
    | nil => simp
    | cons a as =>
      have hlt : (as.filter fun b => !b == a).length < n :=
        hn ▸ Nat.lt_succ_of_le (List.length_filter_le _ _)
      rw [List.eraseDups_cons, List.nodup_cons]
      exact ⟨by simp, ih _ hlt _ rfl⟩

theorem eraseDups_of_nodup {l : List α} (h : l.Nodup) : l.eraseDups = l := by
  induction l with
  | nil => rfl
  | cons a as ih =>
    obtain ⟨ha, has⟩ := List.nodup_cons.mp h
    have hkept : (as.filter fun b => !b == a) = as := by
      rw [List.filter_eq_self]
      rintro b hb
      simpa using ne_of_mem_of_not_mem hb ha
    rw [List.eraseDups_cons, hkept, ih has]

theorem eraseDups_append_congr {as as' bs bs' : List α} (ha : as.eraseDups = as'.eraseDups)
    (hb : bs.eraseDups = bs'.eraseDups) : (as ++ bs).eraseDups = (as' ++ bs').eraseDups := by
  have hmem : ∀ x, x ∈ as ↔ x ∈ as' := fun x => by rw [← List.mem_eraseDups, ha, List.mem_eraseDups]
  have hseen : ∀ x, as.elem x = as'.elem x := fun x => by simp [hmem]
  rw [List.eraseDups_append, List.eraseDups_append, ha, List.removeAll, List.removeAll,
    ← filter_eraseDups, ← filter_eraseDups, hb]
  simp only [hseen]

theorem eraseDups_flatMap (l : List β) (f : β → List α) :
    (l.flatMap fun b => (f b).eraseDups).eraseDups = (l.flatMap f).eraseDups := by
  induction l with
  | nil => rfl
  | cons b l ih =>
    rw [List.flatMap_cons, List.flatMap_cons]
    exact eraseDups_append_congr (eraseDups_of_nodup (nodup_eraseDups _)) ih

end Repetitions

/-- What an expansion gives does not expand any further. -/
theorem expand_of_mem_expand {glob t : Text} (ht : t ∈ expand glob) : expand t = [t] := by
  induction hn : glob.length using Nat.strongRecOn generalizing glob with
  | ind n ih =>
    cases hg : firstGroup? [] glob with
    | none =>
      have hexpand := expand_of_none hg
      rw [hexpand, List.mem_singleton] at ht
      exact ht ▸ hexpand
    | some g =>
      rw [expand_of_some hg, List.mem_eraseDups, List.mem_flatMap] at ht
      obtain ⟨a, ha, ht⟩ := ht
      have hlt := length_of_firstGroup? hg ha
      exact ih _ (by simpa [← hn] using hlt) ht rfl

theorem expand_render_eq (e : Braces) : expand e.render = e.texts.eraseDups := by
  induction hn : e.render.length using Nat.strongRecOn generalizing e with
  | ind n ih =>
    cases hsplit : e.split? with
    | none =>
      have hfirst := e.firstGroup?_of_split?_eq_none hsplit [] []
      rw [List.append_nil] at hfirst
      rw [expand_of_none hfirst, e.texts_of_split?_eq_none hsplit,
        eraseDups_of_nodup (List.pairwise_singleton _ _)]
    | some es =>
      obtain ⟨pre, alts, post, hrender, hfirst⟩ := e.exists_of_split?_eq_some hsplit
      have hfirst := hfirst [] []
      simp only [List.append_nil, List.reverse_nil, List.nil_append] at hfirst
      have hshorter : ∀ e' ∈ es, e'.render.length < n := by
        intro e' he'
        obtain ⟨a, ha, heq⟩ := List.mem_map.mp (hrender ▸ List.mem_map_of_mem he')
        have hlt := length_of_firstGroup? hfirst ha
        rw [← heq, ← hn]
        simpa using hlt
      calc expand e.render
          = (alts.flatMap fun a => expand (pre ++ a ++ post)).eraseDups := expand_of_some hfirst
        _ = (es.flatMap fun e' => expand e'.render).eraseDups := by
          rw [← List.flatMap_map, ← hrender, List.flatMap_map]
        _ = (es.flatMap fun e' => e'.texts.eraseDups).eraseDups := by
          rw [List.flatMap_congr fun e' he' => ih _ (hshorter e' he') e' rfl]
        _ = (es.flatMap Braces.texts).eraseDups := eraseDups_flatMap es Braces.texts
        _ = e.texts.eraseDups := by rw [e.texts_of_split?_eq_some hsplit]

/-- Expanding an expression gives its texts, each of them once and in the order in which they occur first,
and none of them expands any further. -/
theorem expand_render (e : Braces) :
    expand e.render = e.texts.eraseDups ∧ (expand e.render).Nodup ∧
      ∀ t ∈ expand e.render, expand t = [t] :=
  have heq := expand_render_eq e
  ⟨heq, heq ▸ nodup_eraseDups _, fun _ => expand_of_mem_expand⟩

/-- A group in a group with one alternative, next to one whose alternatives give the same text twice. -/
theorem expand_render_nested :
    let char (c : Char) (h : ∀ d ∈ [c], d ∉ ['\x7b', '\x7d', ',', '\\']) : Braces := .literal ⟨[c], h⟩
    let a := char 'a' (by simp)
    let b := char 'b' (by simp)
    let inner := Braces.group (.more a (.last b))
    let e := Braces.append (.group (.last inner)) (.group (.more a (.last inner)))
    let t := "\x7bb\x7da".toList
    e.render = "\x7b\x7ba,b\x7d\x7d\x7ba,\x7ba,b\x7d\x7d".toList ∧
      expand e.render = ["\x7ba\x7da", "\x7ba\x7db", "\x7bb\x7da", "\x7bb\x7db"].map String.toList ∧
      t ∈ expand e.render ∧ expand t = [t] := by
  intro char a b inner e t
  obtain ⟨heq, -, hfixed⟩ := expand_render e
  have hmem : t ∈ expand e.render := by
    rw [heq]
    decide +kernel
  exact ⟨by decide +kernel, heq.trans (by decide +kernel), hmem, hfixed t hmem⟩

end TreeCensus.Glob
