import Mathlib
import TreeCensus.FileSystem.Image
import TreeCensus.Proofs.Glob.Matching

/-!
# Finitely many identities

A path in normal form that leads to a node has a bounded number of names, since the names between two
links make up a node's own path and only so many links are followed. So there are only finitely many
such paths, and only finitely many identities at them, even where the path is a part of the identity.
-/

namespace TreeCensus

set_option autoImplicit false

/-- There are only so many identities at the places a walk can come to, and only so many names in a
directory. -/
structure FileSystem.Bounded (files : FileSystem) (ids : Finset Text) (width : Nat) : Prop where
  identities : ∀ p info, files.info (Path.resolve files.cwd p) = .ok info →
    info.identity (Path.resolve files.cwd p) ∈ ids
  width : ∀ p names, files.entries p = .ok names → names.length ≤ width

namespace Path

/-- A name that leads down. -/
structure Plain (name : Text) : Prop where
  nonempty : name ≠ []
  not_here : name ≠ here
  not_up : name ≠ up
  whole : '/' ∉ name

/-- The names that are kept, the last one first: only at the front of a path that has no root there are
steps up. -/
def Kept (rooted : Bool) (kept : List Text) : Prop :=
  ∃ names n, kept = names ++ List.replicate n up ∧ (∀ x ∈ names, Plain x) ∧ (rooted = true → n = 0)

theorem Kept.push {rooted : Bool} {kept : List Text} (h : Kept rooted kept) {name : Text}
    (hname : Plain name) : Kept rooted (name :: kept) := by
  obtain ⟨names, n, rfl, hplain, hn⟩ := h
  refine ⟨name :: names, n, rfl, ?_, hn⟩
  intro x hx
  rcases List.mem_cons.mp hx with rfl | hx
  · exact hname
  · exact hplain x hx

/-- A step up takes the last name away, if there is one. -/
theorem Kept.pop {rooted : Bool} {last : Text} {before : List Text}
    (h : Kept rooted (last :: before)) :
    if last = up then Kept rooted (up :: last :: before) else Kept rooted before := by
  obtain ⟨names, n, heq, hplain, hn⟩ := h
  cases names with
  | nil =>
    cases n with
    | zero => cases heq
    | succ n =>
      rw [List.nil_append, List.replicate_succ] at heq
      obtain ⟨rfl, rfl⟩ := List.cons.inj heq
      rw [if_pos rfl]
      exact ⟨[], n + 1 + 1, rfl, hplain, fun h => absurd (hn h) (Nat.succ_ne_zero n)⟩
  | cons name names =>
    obtain ⟨rfl, rfl⟩ := List.cons.inj heq
    rw [if_neg (hplain last List.mem_cons_self).not_up]
    exact ⟨names, n, rfl, fun x hx => hplain x (List.mem_cons_of_mem _ hx), hn⟩

theorem kept_reduce {rooted : Bool} (parts : List Text) : ∀ {kept : List Text}, Kept rooted kept →
    (∀ x ∈ parts, '/' ∉ x) → Kept rooted (reduce rooted kept parts).reverse := by
  induction parts with
  | nil =>
    intro kept h _
    rw [reduce, List.reverse_reverse]
    exact h
  | cons part parts ih =>
    intro kept h hparts
    have hrest : ∀ x ∈ parts, '/' ∉ x := fun x hx => hparts x (List.mem_cons_of_mem _ hx)
    unfold reduce
    split
    · exact ih h hrest
    · next hskip =>
      rw [not_or] at hskip
      split
      · cases kept with
        | nil =>
          dsimp only
          split
          · exact ih h hrest
          · next hrooted => exact ih ⟨[], 1, rfl, nofun, fun h => absurd h hrooted⟩ hrest
        | cons last before =>
          have hpop := h.pop
          dsimp only
          split
          · next hlast =>
            rw [if_pos hlast] at hpop
            exact ih hpop hrest
          · next hlast =>
            rw [if_neg hlast] at hpop
            exact ih hpop hrest
      · next hup => exact ih (h.push ⟨hskip.1, hskip.2, hup, hparts part List.mem_cons_self⟩) hrest

/-- What a path in normal form looks like. -/
theorem normal_cases (p : Path) : normal p = here ∨ ∃ root names, normal p = root ++ ofParts names ∧
    root ∈ [[], ['/'], ['/', '/']] ∧ ((∀ x ∈ names, Plain x) ∨ root = [] ∧ ∃ rest, names = up :: rest) := by
  have hkept : Kept (isAbsolute p) (reduce (isAbsolute p) [] (parts p)).reverse :=
    kept_reduce _ ⟨[], 0, rfl, nofun, fun _ => rfl⟩ fun x hx => Text.not_mem_of_mem_pieces hx
  unfold normal
  dsimp only
  split
  · exact .inl rfl
  · refine .inr ⟨root p, reduce (isAbsolute p) [] (parts p), rfl, ?_, ?_⟩
    · unfold root
      split <;> simp
    · obtain ⟨names, n, heq, hplain, hn⟩ := hkept
      have hnames := congrArg List.reverse heq
      rw [List.reverse_reverse, List.reverse_append, List.reverse_replicate] at hnames
      cases n with
      | zero =>
        refine .inl ?_
        rw [hnames, List.replicate_zero, List.nil_append]
        exact fun x hx => hplain x (List.mem_reverse.mp hx)
      | succ n =>
        refine .inr ⟨?_, _, hnames⟩
        rw [root_eq_nil_iff]
        exact Bool.not_eq_true _ ▸ fun habsolute => Nat.succ_ne_zero n (hn habsolute)

theorem pieces_join {names : List Text} (hne : names ≠ []) (h : ∀ x ∈ names, '/' ∉ x) :
    Text.pieces '/' (Text.join '/' names) = names := by
  induction names with
  | nil => exact absurd rfl hne
  | cons name names ih =>
    have hname := h name List.mem_cons_self
    cases names with
    | nil => exact Glob.pieces_of_not_mem hname
    | cons next names =>
      rw [Text.join, Glob.pieces_append hname,
        ih (List.cons_ne_nil _ _) fun x hx => h x (List.mem_cons_of_mem _ hx)]

theorem names_slash (p : Path) : names ('/' :: p) = names p := by
  unfold names parts
  rw [Text.pieces, if_pos rfl, List.filter_cons_of_neg (by simp)]

/-- A path in normal form holds the names that it was made of. -/
theorem names_normal {root : Path} (hroot : root ∈ [[], ['/'], ['/', '/']]) {ns : List Text}
    (hplain : ∀ x ∈ ns, Plain x) : names (root ++ ofParts ns) = ns := by
  have hnames : names (ofParts ns) = ns := by
    unfold names parts ofParts
    by_cases hne : ns = []
    · rw [hne]
      rfl
    · rw [pieces_join hne fun x hx => (hplain x hx).whole, List.filter_eq_self]
      exact fun x hx => by simpa using (hplain x hx).nonempty
  simp only [List.mem_cons, List.not_mem_nil, or_false] at hroot
  rcases hroot with rfl | rfl | rfl
  · exact hnames
  · exact (names_slash _).trans hnames
  · exact ((names_slash _).trans (names_slash _)).trans hnames

/-- All paths that begin with a step up share their volume. -/
theorem drive_up (rest : List Text) : drive (ofParts (up :: rest)) = up := by
  cases rest <;> rfl

end Path

namespace Image

variable (img : Image)

/-- A bound on the number of names in the path of a node. -/
def depth : Nat := (img.nodes.map (·.parts.length)).sum

variable {img}

theorem find?_eq_some {parts : List Text} {n : Node} (h : img.find? parts = some n) :
    n ∈ img.nodes ∧ n.parts = parts :=
  ⟨List.mem_of_find?_eq_some h, by simpa using List.find?_some h⟩

theorem length_parts_le {n : Node} (hn : n ∈ img.nodes) : n.parts.length ≤ img.depth :=
  List.single_le_sum (fun _ _ => Nat.zero_le _) _ (List.mem_map_of_mem (f := fun n : Node => n.parts.length) hn)

/-- The names are names of nodes, and there are not too many of them. -/
structure Spells (img : Image) (room : Nat) (names : List Text) : Prop where
  named : ∀ x ∈ names, ∃ m ∈ img.nodes, x ∈ m.parts
  short : names.length ≤ room

theorem Spells.mono {room room' : Nat} {names : List Text} (h : img.Spells room names)
    (hle : room ≤ room') : img.Spells room' names := ⟨h.named, Nat.le_trans h.short hle⟩

theorem Spells.cons {room room' : Nat} {names : List Text} {name : Text} {current : List Text} {m : Node}
    (h : img.Spells room names) (hm : img.find? (current ++ [name]) = some m) (hle : room + 1 ≤ room') :
    img.Spells room' (name :: names) := by
  obtain ⟨hmem, hparts⟩ := find?_eq_some hm
  refine ⟨?_, Nat.le_trans (Nat.succ_le_succ h.short) hle⟩
  intro x hx
  rcases List.mem_cons.mp hx with rfl | hx
  · exact ⟨m, hmem, by rw [hparts]; exact List.mem_append_right _ (List.mem_singleton.mpr rfl)⟩
  · exact h.named x hx

/-- How many names there can be that lead on from a directory, if `before` has to be worked off first. -/
def room (img : Image) (links : Nat) (current before : List Text) : Nat :=
  (if before = [] then img.depth - current.length else img.depth) +
    (maxLinks - links) * (img.depth + 1)

theorem room_le (links : Nat) (current before : List Text) :
    img.room links current before ≤ img.depth + (maxLinks - links) * (img.depth + 1) := by
  unfold room
  split <;> omega

theorem room_of_ne_nil {links : Nat} {current before : List Text} (h : before ≠ []) :
    img.room links current before = img.depth + (maxLinks - links) * (img.depth + 1) := by
  unfold room
  rw [if_neg h]

/-- Following a link makes room for the names of one node less. -/
theorem room_succ (img : Image) {links : Nat} (h : links < maxLinks) :
    img.depth + (maxLinks - (links + 1)) * (img.depth + 1) + 1 ≤
      (maxLinks - links) * (img.depth + 1) := by
  rw [show maxLinks - links = maxLinks - (links + 1) + 1 by omega, Nat.succ_mul]
  omega

/-- A path that is looked up leads to a node of the image. The names at its end are names of nodes, and
there are not many of them; what is before them may be what is left of the target of a link. -/
theorem spells_of_lookup {follow : Bool} {n : Node} (links : Nat) (current parts : List Text) :
    ∀ {before names : List Text}, parts = before ++ names → (∀ x ∈ names, Path.Plain x) →
      img.lookup follow links current parts = .ok n →
        n ∈ img.nodes ∧ img.Spells (img.room links current before) names := by
  -- The path that is looked up begins with names to be worked off, or with the first name itself.
  have hsplit : ∀ {part : Text} {rest before names : List Text}, part :: rest = before ++ names →
      (∃ more, before = part :: more ∧ rest = more ++ names) ∨ before = [] ∧ names = part :: rest := by
    intro part rest before names heq
    cases before with
    | nil => exact .inr ⟨rfl, heq.symm⟩
    | cons first more =>
      obtain ⟨rfl, rfl⟩ := List.cons.inj heq
      exact .inl ⟨more, rfl, rfl⟩
  induction links, current, parts using Image.lookup.induct img follow with
  | case1 links current m hm =>
    intro before names heq _ hlookup
    obtain ⟨-, rfl⟩ := List.append_eq_nil_iff.mp heq.symm
    rw [lookup, hm] at hlookup
    cases hlookup
    exact ⟨(find?_eq_some hm).1, nofun, Nat.zero_le _⟩
  | case2 links current hm =>
    intro before names _ _ hlookup
    rw [lookup, hm] at hlookup
    cases hlookup
  | case3 links current rest ih =>
    intro before names heq hplain hlookup
    rw [lookup, if_pos rfl] at hlookup
    rcases hsplit heq with ⟨more, rfl, hrest⟩ | ⟨rfl, rfl⟩
    · refine (ih hrest hplain hlookup).imp_right fun hspells => hspells.mono ?_
      rw [room_of_ne_nil (List.cons_ne_nil _ _)]
      exact room_le _ _ _
    · exact absurd rfl (hplain _ List.mem_cons_self).not_here
  | case4 links current rest hhere ih =>
    intro before names heq hplain hlookup
    rw [lookup, if_neg hhere, if_pos rfl] at hlookup
    rcases hsplit heq with ⟨more, rfl, hrest⟩ | ⟨rfl, rfl⟩
    · refine (ih hrest hplain hlookup).imp_right fun hspells => hspells.mono ?_
      rw [room_of_ne_nil (List.cons_ne_nil _ _)]
      exact room_le _ _ _
    · exact absurd rfl (hplain _ List.mem_cons_self).not_up
  | case5 links current part rest hhere hup hnone =>
    intro before names _ _ hlookup
    rw [lookup, if_neg hhere, if_neg hup, hnone] at hlookup
    cases hlookup
  | case6 links current part rest hhere hup m hm hlink hfew ih =>
    intro before names heq hplain hlookup
    rw [lookup, if_neg hhere, if_neg hup, hm] at hlookup
    simp only [hlink, hfew, and_self, if_true] at hlookup
    rcases hsplit heq with ⟨more, rfl, hrest⟩ | ⟨rfl, rfl⟩
    · have hnext := @ih (Path.names m.target ++ more) _ (by rw [hrest, List.append_assoc]) hplain
        hlookup
      refine hnext.imp_right fun hspells => hspells.mono (Nat.le_trans (room_le _ _ _) ?_)
      rw [room_of_ne_nil (List.cons_ne_nil _ _)]
      have := img.room_succ hfew
      omega
    · have hnext := ih rfl (fun x hx => hplain x (List.mem_cons_of_mem _ hx)) hlookup
      refine hnext.imp_right fun hspells => hspells.cons hm ?_
      have := img.room_succ hfew
      refine Nat.le_trans (Nat.succ_le_succ (room_le _ _ _)) (Nat.le_trans this ?_)
      exact Nat.le_add_left _ _
  | case7 links current part rest hhere hup m hm hlink hmany =>
    intro before names _ _ hlookup
    rw [lookup, if_neg hhere, if_neg hup, hm] at hlookup
    simp only [hlink, hmany, and_self, if_true, if_false] at hlookup
    cases hlookup
  | case8 links current part rest hhere hup m hm hlink hkind =>
    intro before names _ _ hlookup
    rw [lookup, if_neg hhere, if_neg hup, hm] at hlookup
    dsimp only at hlookup
    rw [if_neg hlink, if_pos hkind] at hlookup
    cases hlookup
  | case9 links current part rest hhere hup m hm hlink hkind ih =>
    intro before names heq hplain hlookup
    rw [lookup, if_neg hhere, if_neg hup, hm] at hlookup
    simp only [hlink, hkind, if_false] at hlookup
    rcases hsplit heq with ⟨more, rfl, hrest⟩ | ⟨rfl, rfl⟩
    · refine (ih hrest hplain hlookup).imp_right fun hspells => hspells.mono ?_
      rw [room_of_ne_nil (List.cons_ne_nil _ _)]
      exact room_le _ _ _
    · have hnext := @ih [] _ rfl (fun x hx => hplain x (List.mem_cons_of_mem _ hx)) hlookup
      refine hnext.imp_right fun hspells => hspells.cons hm ?_
      obtain ⟨hmem, hparts⟩ := find?_eq_some hm
      have hlength := length_parts_le hmem
      rw [hparts, List.length_append, List.length_singleton] at hlength
      unfold room
      rw [if_pos rfl, if_pos rfl, List.length_append, List.length_singleton]
      omega

theorem finite_spells (img : Image) (room : Nat) : {names | img.Spells room names}.Finite := by
  let known := img.nodes.flatMap (·.parts)
  refine ((List.finite_length_le {x // x ∈ known} room).image (List.map Subtype.val)).subset ?_
  intro names h
  have hknown : ∀ x ∈ names, x ∈ known := fun x hx => List.mem_flatMap.mpr (h.named x hx)
  refine ⟨names.attachWith (· ∈ known) hknown, ?_, ?_⟩
  · refine Nat.le_trans (Nat.le_of_eq ?_) h.short
    exact List.length_attachWith
  · exact List.attachWith_map_subtype_val hknown

/-- The paths in normal form that can lead to a node, except those that begin with a step up, for which
the step itself stands. -/
def places (img : Image) : Set Path :=
  {Path.here, Path.up} ∪ Set.image2 (fun root names => root ++ Path.ofParts names)
    {root | root ∈ [[], ['/'], ['/', '/']]} {names | img.Spells (img.room 0 [] []) names}

theorem finite_places (img : Image) : img.places.Finite :=
  ((Set.finite_singleton _).insert _).union
    ((List.finite_toSet _).image2 _ (img.finite_spells _))

/-- The identity at a path in normal form is one at a place. -/
theorem exists_place {p : Path} {n : Node} (h : img.lookup false 0 [] (Path.names (Path.normal p)) = .ok n) :
    n ∈ img.nodes ∧ ∃ place ∈ img.places, n.info.identity (Path.normal p) = n.info.identity place := by
  have hmem := (spells_of_lookup 0 [] _ (List.append_nil _).symm nofun h).1
  refine ⟨hmem, ?_⟩
  rcases Path.normal_cases p with hhere | ⟨root, names, hp, hroot, hplain | ⟨rfl, rest, rfl⟩⟩
  · exact ⟨_, .inl (.inl rfl), by rw [hhere]⟩
  · rw [hp, Path.names_normal hroot hplain] at h
    have hspells := (spells_of_lookup 0 [] names (List.nil_append _).symm hplain h).2
    exact ⟨_, .inr ⟨root, hroot, names, hspells, rfl⟩, by rw [hp]⟩
  · refine ⟨Path.up, .inl (.inr rfl), ?_⟩
    unfold FileInfo.identity
    rw [hp, List.nil_append, Path.drive_up]
    rfl

/-- What there is at a path is a node of the image. -/
theorem info_toFileSystem {cwd p : Path} {info : FileInfo} (h : (img.toFileSystem cwd).info p = .ok info) :
    ∃ n, img.lookup false 0 [] (Path.names p) = .ok n ∧ n.info = info := by
  change img.ask false _ _ p = _ at h
  unfold ask at h
  dsimp only at h
  cases hlookup : img.lookup false 0 [] (Path.names p) with
  | error e =>
    rw [hlookup] at h
    cases h
  | ok n =>
    rw [hlookup] at h
    dsimp only at h
    cases hfailure : n.infoFailure with
    | some e =>
      rw [hfailure] at h
      cases h
    | none =>
      rw [hfailure] at h
      cases h
      exact ⟨n, rfl, rfl⟩

/-- No directory holds more than there is. -/
theorem length_entries {cwd p : Path} {names : List Text}
    (h : (img.toFileSystem cwd).entries p = .ok names) : names.length ≤ img.nodes.length := by
  change img.ask true _ _ p = _ at h
  unfold ask at h
  dsimp only at h
  split at h
  · next result hresult =>
    cases h
    split at hresult
    · cases hresult
    · split at hresult
      · cases hresult
      · split at hresult
        · cases hresult
          exact List.length_filterMap_le _ _
        · cases hresult
  · cases h

/-- There are only finitely many identities in an image. -/
theorem bounded_toFileSystem (img : Image) (cwd : Path) :
    ∃ ids width, (img.toFileSystem cwd).Bounded ids width := by
  have hfinite : (Set.image2 (fun (n : Node) place => n.info.identity place) {n | n ∈ img.nodes}
      img.places).Finite := (List.finite_toSet _).image2 _ img.finite_places
  refine ⟨hfinite.toFinset, img.nodes.length, ?_, fun _ _ => length_entries⟩
  intro p info hinfo
  obtain ⟨n, hlookup, rfl⟩ := info_toFileSystem hinfo
  obtain ⟨hn, place, hplace, hid⟩ := exists_place hlookup
  rw [Set.Finite.mem_toFinset]
  exact ⟨n, hn, place, hplace, hid.symm⟩

end Image

end TreeCensus
