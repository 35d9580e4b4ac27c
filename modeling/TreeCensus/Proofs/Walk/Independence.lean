import TreeCensus.Proofs.Walk.Completeness
import TreeCensus.Proofs.Walk.Recursion

/-!
# Totals that do not depend on the order

Two walks of the same paths without a filter, in which no call fails, find the same objects, whatever the
order in which directories are listed and the order of the steps, if the identity of an object says what it
is and where it leads. Then they count the same, and their totals differ at most in the links that were
followed: such a link is a part of the total with its own size if its target was found before.
-/

namespace TreeCensus

set_option autoImplicit false

namespace Tally

/-- The numbers of files, directories and links. -/
def numbers (t : Tally) : Int × Int × Int := (t.files, t.directories, t.links)

theorem numbers_add (t u : Tally) : (t.add u).numbers = t.numbers + u.numbers := rfl

end Tally

/-- Two lists that hold the same under one aspect hold the same under another that depends on it. -/
theorem perm_map_of_perm_map {α β γ : Type} {f : α → β} {g : α → γ} {l l' : List α}
    (h : (l.map f).Perm (l'.map f)) (hg : ∀ x ∈ l, ∀ y ∈ l', f x = f y → g x = g y) :
    (l.map g).Perm (l'.map g) := by
  induction l generalizing l' with
  | nil =>
    obtain rfl := List.map_eq_nil_iff.mp h.nil_eq.symm
    exact .refl _
  | cons x l ih =>
    obtain ⟨y, hy, hxy⟩ := List.mem_map.mp (h.mem_iff.mp (List.mem_cons_self (a := f x)))
    obtain ⟨before, after, rfl⟩ := List.append_of_mem hy
    have hperm : (before ++ y :: after).Perm (y :: (before ++ after)) := List.perm_middle
    have hrest : (l.map f).Perm ((before ++ after).map f) := by
      have := h.trans (hperm.map f)
      rw [List.map_cons, List.map_cons, hxy] at this
      exact this.cons_inv
    have hstill := ih hrest fun z hz u hu =>
      hg z (List.mem_cons_of_mem _ hz) u (hperm.mem_iff.mpr (List.mem_cons_of_mem _ hu))
    refine List.Perm.trans ?_ (hperm.map g).symm
    rw [List.map_cons, List.map_cons, hg x List.mem_cons_self y hy hxy.symm]
    exact hstill.cons _

namespace Walk

variable {σ : Type}

theorem SameNames.refl (a : Except Fault (List Text)) : SameNames a a := by
  cases a with
  | ok names => exact .names (.refl _)
  | error f => exact .faults f f

theorem SameNames.symm {a b : Except Fault (List Text)} (h : SameNames a b) : SameNames b a := by
  cases h with
  | names perm => exact .names perm.symm
  | faults f g => exact .faults g f

theorem SameNames.mem {a b : Except Fault (List Text)} (h : SameNames a b) {names : List Text}
    (ha : a = .ok names) {name : Text} (hname : name ∈ names) : ∃ names', b = .ok names' ∧ name ∈ names' := by
  cases h with
  | names perm =>
    obtain rfl := Except.ok.inj ha
    exact ⟨_, rfl, perm.mem_iff.mp hname⟩
  | faults => cases ha

/-- Two environments in which directories are listed in different orders at most. -/
structure Environment.Reordered (env env' : Environment σ) : Prop where
  files : Rearranged env.files env'.files
  target : ∀ p, env'.files.target p = env.files.target p
  walkLinks : env'.options.walkLinks = env.options.walkLinks

/-- The identity of an object says what it is and where it leads, wherever a walk comes to it. -/
structure Environment.Coherent (env : Environment σ) (paths : List Path) : Prop where
  alike : ∀ a b i j, env.Comes paths a → env.Comes paths b → env.files.info a.place = .ok i →
    env.files.info b.place = .ok j → i.identity a.place = j.identity b.place →
      i.kind = j.kind ∧ i.size = j.size ∧ i.modified = j.modified
  leads : ∀ a b i j, env.Comes paths a → env.Comes paths b → env.files.info a.place = .ok i →
    env.files.info b.place = .ok j → i.identity a.place = j.identity b.place →
      ∀ c, env.Leads a i c → ∃ d, env.Leads b j d ∧ env.identity? c.place = env.identity? d.place

namespace Environment

variable {env env' : Environment σ} {paths : List Path} {a b : Spot} {i : FileInfo}

namespace Reordered

theorem refl (env : Environment σ) : env.Reordered env :=
  ⟨⟨rfl, fun _ => rfl, fun _ => .refl _⟩, fun _ => rfl, rfl⟩

theorem symm (h : env.Reordered env') : env'.Reordered env :=
  ⟨⟨h.files.cwd.symm, fun p => (h.files.info p).symm, fun p => (h.files.entries p).symm⟩,
    fun p => (h.target p).symm, h.walkLinks.symm⟩

theorem spot (h : env.Reordered env') (p : Path) : env'.spot p = env.spot p := by
  unfold Environment.spot
  rw [h.files.cwd]

theorem behind (h : env.Reordered env') (p : Path) (target : Text) :
    env'.behind p target = env.behind p target := by
  unfold Environment.behind
  rw [h.files.cwd]

theorem leads (h : env.Reordered env') (hleads : env.Leads a i b) : env'.Leads a i b := by
  cases hleads with
  | inside kind entries mem =>
    obtain ⟨names', hentries, hmem⟩ := (h.files.entries a.place).mem entries mem
    rw [← h.spot]
    exact .inside kind hentries hmem
  | behind kind walks reads somewhere =>
    rw [← h.behind]
    exact .behind kind (h.walkLinks.trans walks) ((h.target _).trans reads) somewhere

theorem comes (h : env.Reordered env') (hcomes : env.Comes paths a) : env'.Comes paths a := by
  induction hcomes with
  | top mem =>
    rw [← h.spot]
    exact .top mem
  | on _ info leads ih => exact .on ih ((h.files.info _).trans info) (h.leads leads)

theorem identity? (h : env.Reordered env') (p : Path) : env'.identity? p = env.identity? p := by
  unfold Environment.identity?
  rw [h.files.info]

theorem coherent (h : env.Reordered env') (hcoherent : env.Coherent paths) : env'.Coherent paths := by
  refine ⟨?_, ?_⟩
  · intro a b i j ha hb hi hj
    rw [h.files.info] at hi hj
    exact hcoherent.alike a b i j (h.symm.comes ha) (h.symm.comes hb) hi hj
  · intro a b i j ha hb hi hj hid c hc
    rw [h.files.info] at hi hj
    obtain ⟨d, hd, heq⟩ :=
      hcoherent.leads a b i j (h.symm.comes ha) (h.symm.comes hb) hi hj hid c (h.symm.leads hc)
    exact ⟨d, h.leads hd, by rw [h.identity?, h.identity?, heq]⟩

end Reordered

/-- What was found in one walk was found in the other, which has gone on from all that it found. -/
theorem Coherent.visited_subset (hcoherent : env.Coherent paths) (h : env.Reordered env') {finds finds' : List Find}
    {visited visited' : List Text} (htraced : env.Traced paths finds) (hmet : finds.map Find.id = visited)
    (htraced' : env'.Traced paths finds') (hmet' : finds'.map Find.id = visited')
    (hclosed : ∀ b, env'.Stems paths finds' b → env'.Passed visited' b)
    (hfilter : env'.options.filter = none) : visited ⊆ visited' := by
  have hpassed : ∀ {b : Spot} {id : Text}, env'.Stems paths finds' b → env.identity? b.place = some id →
      id ∈ visited' := by
    intro b id hstems hid
    obtain ⟨i, hi, hskips | hmem⟩ := hclosed b hstems
    · have hverdict : env'.verdict b.name = .included := by
        unfold verdict
        rw [hfilter]
        rfl
      exact absurd hverdict hskips.2
    · rw [h.files.info] at hi
      rw [identity?_of_info hi] at hid
      exact Option.some.inj hid ▸ hmem
  suffices hall : ∀ x ∈ finds, x.id ∈ visited' by
    rw [← hmet]
    intro id hid
    obtain ⟨x, hx, rfl⟩ := List.mem_map.mp hid
    exact hall x hx
  -- The induction is on the order of the first walk: the other one has found what led there, under whatever name.
  clear hmet
  induction htraced with
  | nil => exact fun x hx => absurd hx List.not_mem_nil
  | @cons x finds before stems info ih =>
    intro y hy
    rcases List.mem_cons.mp hy with rfl | hy
    · have hid : env.identity? y.spot.place = some y.id := identity?_of_info info
      rcases stems with ⟨p, hp, hspot⟩ | ⟨z, hz, hleads⟩
      · refine hpassed (.inl ⟨p, hp, rfl⟩) ?_
        rw [h.spot, ← hspot]
        exact hid
      · have hknown := ih z hz
        rw [← hmet'] at hknown
        obtain ⟨u, hu, hsame⟩ := List.mem_map.mp hknown
        have hinfo := htraced'.info hu
        rw [h.files.info] at hinfo
        have hids : z.info.identity z.spot.place = u.info.identity u.spot.place := hsame.symm
        obtain ⟨d, hd, heq⟩ := hcoherent.leads _ _ _ _ (before.comes hz) (h.symm.comes (htraced'.comes hu))
          (before.info hz) hinfo hids _ hleads
        exact hpassed (.inr ⟨u, hu, h.leads hd⟩) (heq ▸ hid)
    · exact ih y hy

end Environment

namespace Item

variable {env env' : Environment σ} {paths : List Path} {x y : Item}

/-- The item is a link, and a walk follows it to somewhere. -/
def Followed (env : Environment σ) (x : Item) : Prop :=
  x.info.kind = .link ∧ env.options.walkLinks = true ∧ (env.files.target x.place).toOption.getD [] ≠ []

instance (env : Environment σ) (x : Item) : Decidable (x.Followed env) := inferInstanceAs (Decidable (_ ∧ _ ∧ _))

theorem Followed.leads (h : x.Followed env) (name : Path) : ∃ b, env.Leads ⟨name, x.place⟩ x.info b := by
  obtain ⟨hkind, hwalks, htarget⟩ := h
  cases hreads : env.files.target x.place with
  | error f =>
    rw [hreads] at htarget
    exact absurd rfl htarget
  | ok target =>
    rw [hreads] at htarget
    exact ⟨_, .behind hkind hwalks hreads htarget⟩

theorem followed_of_leads {a b : Spot} (ha : a.place = x.place) (hkind : x.info.kind = .link)
    (h : env.Leads a x.info b) : x.Followed env := by
  cases h with
  | inside hdirectory => rw [hkind] at hdirectory; cases hdirectory
  | behind _ walks reads somewhere =>
    refine ⟨hkind, walks, ?_⟩
    rw [← ha, reads]
    exact somewhere

/-- What the item adds in any case: a link that is followed adds no size unless its target was found before. -/
def ground (env : Environment σ) (x : Item) : Tally :=
  (if x.Followed env then .zero else x.info.tally).add (Tally.zero.count x.info.kind)

theorem Whole.share (h : x.Whole env) :
    x.share = x.ground env ∨ x.Followed env ∧ x.share = x.info.tally.add (x.ground env) := by
  obtain ⟨hcounted, hsized⟩ := h
  unfold Item.share ground
  rw [hcounted, if_pos rfl]
  by_cases hfollowed : x.Followed env
  · rw [if_pos hfollowed]
    have hzero : Tally.zero.add (Tally.zero.count x.info.kind) = Tally.zero.count x.info.kind := by
      cases x.info.kind <;> rfl
    rw [hzero]
    cases x.sized with
    | true => exact .inr ⟨hfollowed, rfl⟩
    | false => exact .inl hzero
  · rw [if_neg hfollowed]
    left
    rcases hsized with hsized | ⟨name, b, hleads⟩
    · rw [hsized, if_pos rfl]
    · have htally : x.info.tally = .zero := by
        cases hleads with
        | inside kind => rw [FileInfo.tally, if_pos kind]
        | behind kind walks reads somewhere =>
          exact absurd (followed_of_leads rfl kind (.behind kind walks reads somewhere)) hfollowed
      rw [htally, ite_self]

/-- What some items add besides what they add in any case are sizes of links that are followed. -/
theorem sum_shares {items : List Item} (h : ∀ x ∈ items, x.Whole env) : ∃ links : List Item,
    links.Sublist items ∧ (∀ x ∈ links, x.Followed env) ∧ Tally.sum (items.map Item.share) =
      (Tally.sum (items.map (ground env))).add (Tally.sum (links.map fun x => x.info.tally)) := by
  induction items with
  | nil => exact ⟨[], .slnil, fun x hx => absurd hx List.not_mem_nil, rfl⟩
  | cons x items ih =>
    obtain ⟨links, hsublist, hlinks, hsum⟩ := ih fun y hy => h y (List.mem_cons_of_mem _ hy)
    rcases (h x List.mem_cons_self).share with hshare | ⟨hfollowed, hshare⟩
    · refine ⟨links, hsublist.cons x, hlinks, ?_⟩
      rw [List.map_cons, Tally.sum_cons, hsum, hshare, List.map_cons, Tally.sum_cons, Tally.add_assoc]
    · refine ⟨x :: links, hsublist.cons_cons x, ?_, ?_⟩
      · intro y hy
        rcases List.mem_cons.mp hy with rfl | hy
        · exact hfollowed
        · exact hlinks y hy
      · rw [List.map_cons, Tally.sum_cons, hsum, hshare, List.map_cons, Tally.sum_cons, List.map_cons,
          Tally.sum_cons, Tally.add_comm x.info.tally, Tally.add_assoc, Tally.add_assoc]
        congr 1
        rw [← Tally.add_assoc, ← Tally.add_assoc, Tally.add_comm x.info.tally]

/-- Two items of one object add the same in any case. -/
theorem ground_eq (hcoherent : env.Coherent paths) {name name' : Path} (hx : env.Comes paths ⟨name, x.place⟩)
    (hy : env.Comes paths ⟨name', y.place⟩) (hxinfo : env.files.info x.place = .ok x.info)
    (hyinfo : env.files.info y.place = .ok y.info) (hid : x.id = y.id) : x.ground env = y.ground env := by
  obtain ⟨hkind, hsize, hmodified⟩ := hcoherent.alike _ _ _ _ hx hy hxinfo hyinfo hid
  have hfollowed : x.Followed env ↔ y.Followed env := by
    constructor
    · intro h
      obtain ⟨b, hb⟩ := h.leads name
      obtain ⟨d, hd, _⟩ := hcoherent.leads _ _ _ _ hx hy hxinfo hyinfo hid b hb
      exact followed_of_leads rfl (hkind ▸ h.1) hd
    · intro h
      obtain ⟨b, hb⟩ := h.leads name'
      obtain ⟨d, hd, _⟩ := hcoherent.leads _ _ _ _ hy hx hyinfo hxinfo hid.symm b hb
      exact followed_of_leads rfl (hkind ▸ h.1) hd
  have htally : x.info.tally = y.info.tally := by
    unfold FileInfo.tally
    rw [hkind, hsize, hmodified]
  unfold ground
  rw [htally, hkind]
  simp only [hfollowed]

end Item

theorem numbers_links (links : List Item) : (Tally.sum (links.map fun x => x.info.tally)).numbers = 0 := by
  induction links with
  | nil => rfl
  | cons x links ih =>
    have htally : x.info.tally.numbers = 0 := by
      unfold FileInfo.tally
      split <;> rfl
    rw [List.map_cons, Tally.sum_cons, Tally.numbers_add, htally, ih, add_zero]

/-- Two totals count the same, and what they are made up of is the same besides the own sizes and times of
links that lead somewhere. -/
structure Environment.Agree (env : Environment σ) (paths : List Path) (total total' : Tally) : Prop where
  numbers : total.numbers = total'.numbers
  sizes : ∃ (base : Tally) (links links' : List Item),
    (links.map Item.id).Nodup ∧ (links'.map Item.id).Nodup ∧
    (∀ x ∈ links ++ links', x.Followed env ∧ env.files.info x.place = .ok x.info ∧
      ∃ name, env.Comes paths ⟨name, x.place⟩) ∧
    total = base.add (Tally.sum (links.map fun x => x.info.tally)) ∧
    total' = base.add (Tally.sum (links'.map fun x => x.info.tally))
  same : (∀ a i b, env.Comes paths a → env.files.info a.place = .ok i → i.kind = .link → ¬ env.Leads a i b) →
    total = total'

section Runs

variable {env env' : Environment σ} {caller caller' : Caller σ} {paths : List Path}
  {others₀ others₀' others others' : List Pool.Stake} {incidents incidents' : List Incident} {s s' : State σ}
  {items items' : List Item} {total total' : Tally}

/-- Without a filter all items of a total are whole. -/
theorem State.Reckons.all_whole (h : s.Reckons env paths items total) (hfilter : env.options.filter = none) :
    ∀ x ∈ items, x.Whole env :=
  fun x hx => (h.whole x hx).resolve_right fun hdropped => hdropped.2.2 hfilter

theorem State.Reckons.links_distinct (h : s.Reckons env paths items total) {links : List Item}
    (hlinks : links.Sublist items) : (links.map Item.id).Nodup := by
  have hdistinct := h.distinct
  rw [← h.passed] at hdistinct
  exact hdistinct.sublist (hlinks.map _)

/-- What is reckoned where directories are listed in another order can be reckoned here as well. -/
theorem State.Reckons.reordered (hreordered : env.Reordered env') (h : s.Reckons env' paths items total)
    (hfilter' : env'.options.filter = none) : s.Reckons env paths items total where
  passed := h.passed
  distinct := h.distinct
  genuine := by
    intro x hx
    obtain ⟨hinfo, name, hcomes⟩ := h.genuine x hx
    rw [hreordered.files.info] at hinfo
    exact ⟨hinfo, name, hreordered.symm.comes hcomes⟩
  total := h.total
  whole := by
    intro x hx
    obtain ⟨hcounted, hsized⟩ := h.all_whole hfilter' x hx
    exact .inl ⟨hcounted, hsized.imp_right fun ⟨name, b, hleads⟩ => ⟨name, b, hreordered.symm.leads hleads⟩⟩

/-- Two totals of the same objects agree. -/
theorem State.Reckons.agree (hfilter : env.options.filter = none) (hcoherent : env.Coherent paths)
    (h : s.Reckons env paths items total) (h' : s'.Reckons env paths items' total')
    (hvisited : s.visited ⊆ s'.visited) (hvisited' : s'.visited ⊆ s.visited) :
    env.Agree paths total total' := by
  have hids : (items.map Item.id).Perm (items'.map Item.id) := by
    rw [h.passed, h'.passed]
    exact (List.perm_ext_iff_of_nodup h.distinct h'.distinct).mpr
      fun id => ⟨fun hid => hvisited hid, fun hid => hvisited' hid⟩
  have hground : Tally.sum (items.map (Item.ground env)) = Tally.sum (items'.map (Item.ground env)) := by
    refine Tally.sum_perm (perm_map_of_perm_map hids ?_)
    intro x hx y hy hid
    obtain ⟨hxinfo, name, hxcomes⟩ := h.genuine x hx
    obtain ⟨hyinfo, name', hycomes⟩ := h'.genuine y hy
    exact Item.ground_eq hcoherent hxcomes hycomes hxinfo hyinfo hid
  obtain ⟨links, hsublist, hlinks, hsum⟩ := Item.sum_shares (h.all_whole hfilter)
  obtain ⟨links', hsublist', hlinks', hsum'⟩ := Item.sum_shares (h'.all_whole hfilter)
  have htotal := h.total.trans hsum
  have htotal' := h'.total.trans (hground ▸ hsum')
  refine ⟨?_, ⟨_, links, links', h.links_distinct hsublist, h'.links_distinct hsublist', ?_, htotal, htotal'⟩, ?_⟩
  · rw [htotal, htotal', Tally.numbers_add, Tally.numbers_add, numbers_links, numbers_links]
  · intro x hx
    rcases List.mem_append.mp hx with hx | hx
    · exact ⟨hlinks x hx, h.genuine x (hsublist.subset hx)⟩
    · exact ⟨hlinks' x hx, h'.genuine x (hsublist'.subset hx)⟩
  · intro hnowhere
    have hnone : ∀ {l : List Item}, (∀ x ∈ l, x.Followed env) → (∀ x ∈ l, env.files.info x.place = .ok x.info ∧
        ∃ name, env.Comes paths ⟨name, x.place⟩) → l = [] := by
      intro l hfollowed hgenuine
      apply List.eq_nil_iff_forall_not_mem.mpr
      intro x hx
      obtain ⟨hinfo, name, hcomes⟩ := hgenuine x hx
      obtain ⟨b, hleads⟩ := (hfollowed x hx).leads name
      exact hnowhere _ _ b hcomes hinfo (hfollowed x hx).1 hleads
    rw [htotal, htotal', hnone hlinks fun x hx => h.genuine x (hsublist.subset hx),
      hnone hlinks' fun x hx => h'.genuine x (hsublist'.subset hx)]

/-- Two walks without a filter in which no call fails, whatever the order of their steps, the order in which
directories are listed, and the pools that they use, agree if the identity of an object says what it is and
where it leads. -/
theorem State.Passes.order_independent (hreordered : env.Reordered env') (hfilter : env.options.filter = none)
    (hfilter' : env'.options.filter = none) (hcoherent : env.Coherent paths)
    (hpool : Pool.Serves caller.pool others₀) (hpool' : Pool.Serves caller'.pool others₀')
    (h : (State.start env caller paths).Passes env Cursor.Smooth others₀ incidents s others)
    (h' : (State.start env' caller' paths).Passes env' Cursor.Smooth others₀' incidents' s' others') :
    (1 ≤ caller.pool.capacity → s.Returns env others₀ incidents) ∧
    (1 ≤ caller'.pool.capacity → s'.Returns env' others₀' incidents') ∧
    ∀ total total', s.result? = some (.ok total) → s'.result? = some (.ok total') →
      env.Agree paths total total' := by
  refine ⟨fun hsize => h.returns hpool hsize, fun hsize => h'.returns hpool' hsize, ?_⟩
  intro total total' hresult hresult'
  obtain ⟨finds, items, hreckons, htraced, hmet, -, hclosed⟩ := h.reckons hpool hresult
  obtain ⟨finds', items', hreckons', htraced', hmet', -, hclosed'⟩ := h'.reckons hpool' hresult'
  have hopen : ∀ {env : Environment σ}, env.options.filter = none → ∀ p, env.verdict p ≠ .excluded := by
    intro env hnone p
    unfold Environment.verdict
    rw [hnone]
    nofun
  have hvisited : s.visited ⊆ s'.visited :=
    hcoherent.visited_subset hreordered htraced hmet htraced' hmet'
      (fun b hb => hclosed' b hb (hopen hfilter' _)) hfilter'
  have hvisited' : s'.visited ⊆ s.visited :=
    (hreordered.coherent hcoherent).visited_subset hreordered.symm htraced' hmet' htraced hmet
      (fun b hb => hclosed b hb (hopen hfilter _)) hfilter
  exact hreckons.agree hfilter hcoherent (hreckons'.reordered hreordered hfilter') hvisited hvisited'

end Runs

/-- A directory `/r` in which two links lead to a file elsewhere, the links listed in some order. -/
def twoLinks (names : List Text) : Environment Unit :=
  ⟨⟨['/'], fun p => if p = ['/', 'r'] then .ok ⟨.directory, 0, 0, 1, 1⟩
      else if p = ['/', 'r', '/', 'a'] then .ok ⟨.link, 3, 2, 1, 2⟩
      else if p = ['/', 'r', '/', 'b'] then .ok ⟨.link, 4, 1, 1, 3⟩
      else .ok ⟨.file, 5, 7, 1, 4⟩,
    fun _ => .ok ['/', 'o', '/', 'f'], fun _ => .ok names, fun _ => .ok []⟩,
    ⟨.several [['/', 'r']], true, none, none, none, none, defaultPriority⟩, fun _ => none⟩

namespace TwoLinks

variable (names : List Text)

theorem placid : (twoLinks names).Placid := by
  refine ⟨?_, nofun⟩
  rintro f ⟨p, hf | hf | hf⟩
  · unfold twoLinks at hf
    dsimp only at hf
    repeat' split at hf
    all_goals cases hf
  · cases hf
  · cases hf

theorem reordered {names names' : List Text} (h : names.Perm names') :
    (twoLinks names).Reordered (twoLinks names') :=
  ⟨⟨rfl, fun _ => rfl, fun _ => .names h⟩, fun _ => rfl, rfl⟩

/-- All that a walk of the directory comes to. -/
def spots : List Spot :=
  [⟨['/', 'r'], ['/', 'r']⟩, ⟨['/', 'r', '/', 'a'], ['/', 'r', '/', 'a']⟩,
    ⟨['/', 'r', '/', 'b'], ['/', 'r', '/', 'b']⟩, ⟨['/', 'r', '/', 'a'], ['/', 'o', '/', 'f']⟩,
    ⟨['/', 'r', '/', 'b'], ['/', 'o', '/', 'f']⟩]

theorem mem_spots {a : Spot} (h : (twoLinks [['a'], ['b']]).Comes [['/', 'r']] a) : a ∈ spots := by
  have hkinds : ∀ a ∈ spots,
      (((twoLinks [['a'], ['b']]).files.info a.place).toOption.map (·.kind) = some .directory →
        a = ⟨['/', 'r'], ['/', 'r']⟩) ∧
      (((twoLinks [['a'], ['b']]).files.info a.place).toOption.map (·.kind) = some .link →
        a = ⟨['/', 'r', '/', 'a'], ['/', 'r', '/', 'a']⟩ ∨ a = ⟨['/', 'r', '/', 'b'], ['/', 'r', '/', 'b']⟩) := by
    decide +kernel
  induction h with
  | top mem =>
    rw [List.mem_singleton.mp mem]
    decide +kernel
  | @on a b i _ info leads ih =>
    obtain ⟨hdirectory, hlink⟩ := hkinds a ih
    rw [info] at hdirectory hlink
    cases leads with
    | inside kind entries mem =>
      obtain rfl := hdirectory (congrArg some kind)
      obtain rfl := Except.ok.inj entries
      rcases List.mem_pair.mp mem with rfl | rfl <;> decide +kernel
    | behind kind _ reads _ =>
      obtain rfl := Except.ok.inj reads
      rcases hlink (congrArg some kind) with rfl | rfl <;> decide +kernel

/-- Each object but the file is at one place only, and the file leads nowhere. -/
theorem coherent : (twoLinks [['a'], ['b']]).Coherent [['/', 'r']] := by
  have hsame : ∀ a ∈ spots, ∀ b ∈ spots,
      (twoLinks [['a'], ['b']]).identity? a.place = (twoLinks [['a'], ['b']]).identity? b.place →
        a = b ∨ ((twoLinks [['a'], ['b']]).files.info a.place).toOption =
          ((twoLinks [['a'], ['b']]).files.info b.place).toOption ∧
          ((twoLinks [['a'], ['b']]).files.info a.place).toOption.map (·.kind) = some .file := by
    decide +kernel
  have hboth : ∀ a b i j, (twoLinks [['a'], ['b']]).Comes [['/', 'r']] a →
      (twoLinks [['a'], ['b']]).Comes [['/', 'r']] b → (twoLinks [['a'], ['b']]).files.info a.place = .ok i →
      (twoLinks [['a'], ['b']]).files.info b.place = .ok j → i.identity a.place = j.identity b.place →
        i = j ∧ (a = b ∨ i.kind = .file) := by
    intro a b i j ha hb hi hj hid
    have hids := (Environment.identity?_of_info hi).trans ((congrArg some hid).trans
      (Environment.identity?_of_info hj).symm)
    rcases hsame a (mem_spots ha) b (mem_spots hb) hids with rfl | ⟨heq, hkind⟩
    · exact ⟨Except.ok.inj (hi.symm.trans hj), .inl rfl⟩
    · rw [hi, hj] at heq
      rw [hi] at hkind
      exact ⟨Option.some.inj heq, .inr (Option.some.inj hkind)⟩
  refine ⟨?_, ?_⟩
  · intro a b i j ha hb hi hj hid
    obtain ⟨rfl, _⟩ := hboth a b i j ha hb hi hj hid
    exact ⟨rfl, rfl, rfl⟩
  · intro a b i j ha hb hi hj hid c hc
    obtain ⟨rfl, rfl | hkind⟩ := hboth a b i j ha hb hi hj hid
    · exact ⟨c, hc, rfl⟩
    · cases hc with
      | inside kind | behind kind => rw [kind] at hkind; cases hkind

end TwoLinks

/-- Two links to a file elsewhere. The one that comes first adds the file, and the other one adds its own size;
the numbers are the same in either order. -/
theorem State.Passes.order_independent_of_links : ∃ (caller caller' : Caller Unit)
    (incidents incidents' : List Incident) (s s' : State Unit),
    (twoLinks [['a'], ['b']]).Reordered (twoLinks [['b'], ['a']]) ∧
    (twoLinks [['a'], ['b']]).options.filter = none ∧ (twoLinks [['b'], ['a']]).options.filter = none ∧
    (twoLinks [['a'], ['b']]).Coherent [['/', 'r']] ∧
    Pool.Serves caller.pool [] ∧ Pool.Serves caller'.pool [] ∧
    (State.start (twoLinks [['a'], ['b']]) caller [['/', 'r']]).Passes (twoLinks [['a'], ['b']]) Cursor.Smooth []
      incidents s [] ∧
    (State.start (twoLinks [['b'], ['a']]) caller' [['/', 'r']]).Passes (twoLinks [['b'], ['a']]) Cursor.Smooth []
      incidents' s' [] ∧
    s.result? = some (.ok ⟨9, 1, 1, 2, 7⟩) ∧ s'.result? = some (.ok ⟨8, 1, 1, 2, 7⟩) ∧
    (twoLinks [['a'], ['b']]).Agree [['/', 'r']] ⟨9, 1, 1, 2, 7⟩ ⟨8, 1, 1, 2, 7⟩ := by
  let caller : Caller Unit := ⟨⟨1, 0, [], [], 0⟩, false, none, ()⟩
  let caller' : Caller Unit := ⟨⟨5, 0, [], [], 0⟩, false, none, ()⟩
  have hserves : Pool.Serves caller.pool [] := @Pool.serves_create 1 _ rfl
  have hserves' : Pool.Serves caller'.pool [] := @Pool.serves_create 5 _ rfl
  have hreordered := TwoLinks.reordered (List.Perm.swap ['b'] ['a'] [])
  obtain ⟨actors, hpasses⟩ := State.smooth_run (TwoLinks.placid [['a'], ['b']]) caller [['/', 'r']] [] 20
  obtain ⟨actors', hpasses'⟩ := State.smooth_run (TwoLinks.placid [['b'], ['a']]) caller' [['/', 'r']] [] 20
  have hresult : ((State.start (twoLinks [['a'], ['b']]) caller [['/', 'r']]).run (twoLinks [['a'], ['b']])
      20).result? = some (.ok ⟨9, 1, 1, 2, 7⟩) := by decide +kernel
  have hresult' : ((State.start (twoLinks [['b'], ['a']]) caller' [['/', 'r']]).run (twoLinks [['b'], ['a']])
      20).result? = some (.ok ⟨8, 1, 1, 2, 7⟩) := by decide +kernel
  obtain ⟨-, -, hagree⟩ := State.Passes.order_independent hreordered rfl rfl TwoLinks.coherent hserves hserves'
    hpasses hpasses'
  exact ⟨caller, caller', _, _, _, _, hreordered, rfl, rfl, TwoLinks.coherent, hserves, hserves', hpasses,
    hpasses', hresult, hresult', hagree _ _ hresult hresult'⟩

/-- Two walks of the same paths, without a filter and without a path handler, that differ in the order of their
steps and of listings at most, come to totals that differ in some way. -/
def OrderMatters (differ : Tally → Tally → Prop) : Prop :=
  ∃ (env env' : Environment Unit) (caller : Caller Unit) (paths : List Path) (incidents incidents' : List Incident)
    (s s' : State Unit) (total total' : Tally),
    env.Reordered env' ∧ env.options.filter = none ∧ env'.options.filter = none ∧
    env.options.onPath = none ∧ env'.options.onPath = none ∧ Pool.Serves caller.pool [] ∧
    (State.start env caller paths).Passes env Cursor.Smooth [] incidents s [] ∧
    (State.start env' caller paths).Passes env' Cursor.Smooth [] incidents' s' [] ∧
    s.result? = some (.ok total) ∧ s'.result? = some (.ok total') ∧ differ total total'

/-- The size of a total depends on the order in which a directory with two links to one file is listed. -/
theorem size_depends_on_order : OrderMatters fun total total' => total.size = 9 ∧ total'.size = 8 := by
  let caller : Caller Unit := ⟨⟨10, 0, [], [], 0⟩, false, none, ()⟩
  have hserves : Pool.Serves caller.pool [] := @Pool.serves_create 10 _ rfl
  obtain ⟨actors, hpasses⟩ := State.smooth_run (TwoLinks.placid [['a'], ['b']]) caller [['/', 'r']] [] 20
  obtain ⟨actors', hpasses'⟩ := State.smooth_run (TwoLinks.placid [['b'], ['a']]) caller [['/', 'r']] [] 20
  have hresult : ((State.start (twoLinks [['a'], ['b']]) caller [['/', 'r']]).run (twoLinks [['a'], ['b']])
      20).result? = some (.ok ⟨9, 1, 1, 2, 7⟩) := by decide +kernel
  have hresult' : ((State.start (twoLinks [['b'], ['a']]) caller [['/', 'r']]).run (twoLinks [['b'], ['a']])
      20).result? = some (.ok ⟨8, 1, 1, 2, 7⟩) := by decide +kernel
  exact ⟨_, _, caller, _, _, _, _, _, _, _, TwoLinks.reordered (List.Perm.swap ['b'] ['a'] []), rfl, rfl, rfl, rfl,
    hserves, hpasses, hpasses', hresult, hresult', rfl, rfl⟩

/-- Two links lead to a directory with a link that goes up and down again. Where that one leads depends on the
link by which the directory is found first, and with it how many files there are in the total. -/
theorem numbers_depend_on_order : OrderMatters fun total total' => total.files = 1 ∧ total'.files = 0 := by
  let files : FileSystem := ⟨['/'],
    fun p => if p = ['/', 'm', '/', 'a'] then .ok ⟨.link, 3, 1, 1, 1⟩
      else if p = ['/', 'n', '/', 'b'] then .ok ⟨.link, 3, 1, 1, 2⟩
      else if p = ['/', 'x', '/', 'd'] then .ok ⟨.directory, 0, 0, 1, 3⟩
      else if p = ['/', 'm', '/', 'f'] then .ok ⟨.file, 5, 7, 1, 5⟩
      else if p = ['/', 'n', '/', 'f'] then .ok ⟨.directory, 0, 0, 1, 6⟩
      else .ok ⟨.link, 4, 1, 1, 4⟩,
    fun p => if p = ['/', 'm', '/', 'a'] ∨ p = ['/', 'n', '/', 'b'] then .ok ['/', 'x', '/', 'd']
      else .ok ['.', '.', '/', 'f'],
    fun p => if p = ['/', 'x', '/', 'd'] then .ok [['k']] else .ok [],
    fun _ => .ok []⟩
  let paths : List Path := [['/', 'm', '/', 'a'], ['/', 'n', '/', 'b']]
  let env : Environment Unit :=
    ⟨files, ⟨.several paths, true, none, none, none, none, defaultPriority⟩, fun _ => none⟩
  let caller : Caller Unit := ⟨⟨10, 0, [], [], 0⟩, false, none, ()⟩
  have hplacid : env.Placid := by
    refine ⟨?_, nofun⟩
    rintro f ⟨p, hf | hf | hf⟩
    · change (if _ then _ else if _ then _ else if _ then _ else if _ then _ else if _ then _ else _) = _ at hf
      repeat' split at hf
      all_goals cases hf
    · change (if _ then _ else _) = _ at hf
      split at hf <;> cases hf
    · change (if _ then _ else _) = _ at hf
      split at hf <;> cases hf
  have hserves : Pool.Serves caller.pool [] := @Pool.serves_create 10 _ rfl
  obtain ⟨actors, hpasses⟩ := State.smooth_run hplacid caller paths [] 20
  obtain ⟨actors', hpasses'⟩ := State.smooth_run hplacid caller paths (List.replicate 6 (.task 1)) 20
  have hresult : ((State.start env caller paths).run env 20).result? = some (.ok ⟨8, 1, 1, 3, 7⟩) := by
    decide +kernel
  have hresult' : (((List.replicate 6 (.task 1)).foldl (State.stepOr env) (State.start env caller paths)).run env
      20).result? = some (.ok ⟨3, 0, 2, 3, 1⟩) := by decide +kernel
  exact ⟨env, env, caller, paths, _, _, _, _, _, _, .refl env, rfl, rfl, rfl, rfl, hserves, hpasses, hpasses', hresult,
    hresult', rfl, rfl⟩

/-- What a total comes to depends on the order: its size, where an object says by its identity where it leads, and
the numbers in it, where it does not. -/
theorem total_depends_on_order : OrderMatters (fun total total' => total.size = 9 ∧ total'.size = 8) ∧
    OrderMatters fun total total' => total.files = 1 ∧ total'.files = 0 :=
  ⟨size_depends_on_order, numbers_depend_on_order⟩

end Walk

end TreeCensus
