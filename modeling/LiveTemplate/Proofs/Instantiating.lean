import LiveTemplate.Proofs.Carrying
import LiveTemplate.Proofs.Placing

/-!
# New contents

A new content is put in front of an anchor, behind what a cleared one has left. A text
is one new node. A template is mounted in a fragment apart from the document, its table
is patched there, and then all of it is put into the document at once; when that fails,
nothing of it is in the document.
-/
namespace LiveTemplate
open Document Subtree Live

/-- The forest of a block becomes another one, of which something holds. -/
def Becomes (h : Host) (parent : NodeId) (before : List NodeId) (f : List Subtree)
    (behind : List NodeId) (P : List Subtree → Prop) (h' : Host) : Prop :=
  ∃ f', Rewrites h.document h'.document parent before f f' behind ∧ P f'

namespace Live

variable {ω : Watch} {faithful : Prop} {h h₁ : Host} {parent : NodeId}
  {before behind : List NodeId} {f mid forest : List Subtree} {shared : SharedSkeleton}

/-! ### Putting something in front of an anchor -/

theorem insertBefore_runs {id anchor : Nat} (b : Block h.document parent before f behind)
    (head : behind.head? = some anchor)
    (w : Rewrites h.document h₁.document parent before f mid behind)
    (l : Loose h₁.document id forest) (hid : h.document.nodes.size ≤ id)
    (nodup : (idsAll forest).Nodup)
    (new : ∀ n : Nat, n ∈ idsAll forest → h.document.nodes.size ≤ n ∧ n ∉ idsAll mid)
    (idNotMem : id ∉ idsAll mid) {good : Unit → Host → Prop} {bad : Host → Prop}
    (next : ∀ h₂ : Host, Rewrites h.document h₂.document parent before f (mid ++ forest) behind →
      (∀ n, n ≠ parent → n ≠ id → n ∉ roots forest →
        h₂.document.record? n = h₁.document.record? n) → good () h₂) :
    Runs (Host.insertBefore id anchor) h₁ good bad := by
  obtain ⟨d₂, hok, hw, -, frame⟩ := Rewrites.insert b w l hid nodup new idNotMem
  obtain ⟨kind, children, hrec⟩ := l.record?
  have hne : id ≠ anchor := by
    rintro rfl
    exact absurd (b.behind_lt id (List.mem_of_mem_head? head)) (Nat.not_lt.2 hid)
  refine Runs.edit_ok ?_ (next _ hw frame)
  rw [(w.block b).insertBefore_eq head hrec hne]
  exact hok

/-- A node without children. -/
theorem insertLeaf_runs {id anchor : Nat} {kind : NodeKind}
    (b : Block h.document parent before f behind) (head : behind.head? = some anchor)
    (w : Rewrites h.document h₁.document parent before f mid behind)
    (hr : h₁.document.record? id = some { kind }) (hk : kind ≠ .fragment)
    (hid : h.document.nodes.size ≤ id) (idNotMem : id ∉ idsAll mid)
    {good : Unit → Host → Prop} {bad : Host → Prop}
    (next : ∀ h₂ : Host, Rewrites h.document h₂.document parent before f
        (mid ++ [.node id kind []]) behind →
      (∀ n, n ≠ parent → n ≠ id → h₂.document.record? n = h₁.document.record? n) → good () h₂) :
    Runs (Host.insertBefore id anchor) h₁ good bad := by
  have l : Loose h₁.document id [.node id kind []] := .single hr hk trivial
  refine insertBefore_runs b head w l hid (by simp) (fun n hn => ?_) idNotMem
    fun h₂ w₂ same => next h₂ w₂ fun n hp hn => same n hp hn (by simpa [root] using hn)
  obtain rfl : n = id := by simpa using hn
  exact ⟨hid, idNotMem⟩

/-- A new text node. -/
theorem createText_runs {anchor : Nat} {s : String}
    (b : Block h.document parent before f behind) (head : behind.head? = some anchor)
    {good : NodeId → Host → Prop} {bad : Host → Prop}
    (next : ∀ (n : NodeId) (h' : Host), Rewrites h.document h'.document parent before f
      (f ++ [.node n (.text s) []]) behind → good n h') :
    Runs (do
      let n ← Host.create (.text s)
      Host.insertBefore n anchor
      pure n) h good bad := by
  rw [Runs.bind, Runs.create, Runs.bind]
  exact insertLeaf_runs b head ((Rewrites.refl b).create b _) (record?_create_self ..) (by simp) (Nat.le_refl _)
    (fun hm => absurd (b.holds.lt_size _ hm) (Nat.lt_irrefl _)) fun h₂ w _ => next _ h₂ w

/-! ### Mounting with a table -/

theorem showMarkup_fills (looked : Target → Bool) (kids : List Subtree) :
    Fills looked showMarkup (shownMarkup looked) ShowableMarkup kids := fun h node text b =>
  fillMarkup_fills looked _ kids (by simp) h node text b

/-- Places that show nothing show an absent value. -/
theorem shownAt_bare {places : List Place}
    (bare : ∀ (i : Nat) (p : Place), places[i]? = some p → p.bare = p) :
    Places.shownAt places = fun _ => .null := by
  funext i
  cases hp : places[i]? with
  | none => simp [Places.shownAt, Places.previous?, hp]
  | some p =>
    rw [Places.shownAt, Places.previous?, hp, ← bare i p hp]
    cases p <;> rfl

theorem takes_null (p : Place) : p.Takes .null := by
  rcases p with _ | ⟨n, b, v⟩ | ⟨m, item⟩
  · trivial
  · show Applicable b .null
    cases b <;> simp [Applicable, Writable, Binding.Accepts, Value.isTruthy]
  · trivial

theorem bound_bare {ss : List Stem} {i : Nat} {p : Place} (h : (i, p) ∈ Stem.boundAll ss) :
    p.bare = p := by
  rcases (Stem.mem_boundAll ss).1 h with ⟨e, -, b, -, rfl⟩ | ⟨m, -, -, rfl⟩ <;> rfl

/-- The table of a skeleton that has just been mounted. -/
theorem seated_ofBound {ss : List Stem} (made : shared.Made)
    (mountable : Node.MountableAll ShowableMarkup shared.nodes)
    (nodes : Stem.nodes ss = shared.nodes) (proper : Stem.ProperAll ss) :
    Seated shared ss (Places.ofBound shared.holes (Stem.boundAll ss)) ∧
      ∀ (i : Nat) (p : Place),
        (Places.ofBound shared.holes (Stem.boundAll ss))[i]? = some p → p.bare = p := by
  have wf := made.wellFormed
  have sub : ((Stem.boundAll ss).map Prod.fst).Sublist (Node.holesAll shared.nodes) :=
    nodes ▸ Stem.boundAll_sublist ss
  have lt : ∀ b ∈ Stem.boundAll ss, b.1 < shared.holes := fun b hb =>
    wf.lt_holes _ (sub.subset (List.mem_map_of_mem hb))
  obtain ⟨hlen, hget⟩ := Places.ofBound_getElem? (wf.nodup.sublist sub) lt
  have bare : ∀ (i : Nat) (p : Place),
      (Places.ofBound shared.holes (Stem.boundAll ss))[i]? = some p → p.bare = p := by
    intro i p hp
    have hi : i < shared.holes := hlen ▸ (List.getElem?_eq_some_iff.1 hp).1
    rcases (hget i hi p).1 hp with h | ⟨rfl, -⟩
    · exact bound_bare h
    · rfl
  refine ⟨⟨made, mountable, nodes, proper, hlen, fun i p hp => ?_⟩, bare⟩
  rw [List.getElem?_map, Option.map_eq_some_iff]
  constructor
  · rintro ⟨q, hq, rfl⟩
    have hi : i < shared.holes := hlen ▸ (List.getElem?_eq_some_iff.1 hq).1
    rw [bare i q hq] at hp ⊢
    rcases (hget i hi q).1 hq with h | ⟨rfl, -⟩
    · exact h
    · contradiction
  · exact fun h => ⟨p, (hget i (lt _ h) p).2 (.inl h), bound_bare h⟩

/-- Mounting a skeleton returns a table with a bare place for each hole, and what has been mounted
shows an absent value at each of them. -/
theorem mount_seats (looked : Target → Bool) (made : shared.Made)
    (b : Block h.document parent before mid []) :
    Runs (mount shared.skeleton parent) h
      (fun r h' => ∃ ss data fill,
        Rewrites h.document h'.document parent before mid
          (mid ++ Stem.assembleAll data fill ss) [] ∧
        r.1 = ss.map Stem.top ∧ Seated shared ss r.2 ∧
        (∀ (i : Nat) (p : Place), r.2[i]? = some p → p.bare = p) ∧
        Shows looked (shownMarkup looked) (fun _ => .null) (fun _ => []) data fill
          (Stem.elementsAll ss) (Stem.hostsAll ss) (Stem.markersAll ss))
      (fun h' => ¬Node.MountableAll ShowableMarkup shared.nodes ∧ ∃ forest,
        Rewrites h.document h'.document parent before mid (mid ++ forest) []) := by
  rw [mount, Runs.bind]
  refine (mountNodes_runs (showMarkup_fills looked []) shared.nodes made.wellFormed.proper b).mono ?_ ?_
  · rintro ⟨tops, bound⟩ h' ⟨ss, data, fill, w, m, mountable⟩
    obtain ⟨seated, bare⟩ := seated_ofBound made mountable m.nodes m.proper
    have hbound : bound = Stem.boundAll ss := m.places
    subst hbound
    exact ⟨ss, data, fill, w, m.tops, seated, bare, m.shows⟩
  · rintro h' ⟨forest, w, no⟩
    exact ⟨no, forest, w⟩

/-- The table that mounting returns fits what has been mounted, and every place of it
shows an absent value. -/
theorem mount_runs (ω : Watch) (made : shared.Made) (b : Block h.document parent before mid [])
    (clean : Nat → Prop) (kept : NodeId → Target → Prop) :
    Runs (mount shared.skeleton parent) h
      (fun r h' => ∃ ss data fill,
        Rewrites h.document h'.document parent before mid
          (mid ++ Stem.assembleAll data fill ss) [] ∧
        r.1 = ss.map Stem.top ∧ TableFits ω clean kept shared ss data fill r.2 ∧
        PlacesFit ω clean fill r.2 ∧ ∀ (i : Nat) (p : Place), r.2[i]? = some p → p.bare = p)
      (fun h' => ¬Node.MountableAll ShowableMarkup shared.nodes ∧ ∃ forest,
        Rewrites h.document h'.document parent before mid (mid ++ forest) []) := by
  refine (mount_seats ω.looked made b).mono ?_ fun _ stunted => stunted
  rintro ⟨tops, places⟩ h' ⟨ss, data, fill, w, htops, seated, bare, shows⟩
  have hshown : Places.shownAt places = fun _ => .null := shownAt_bare bare
  refine ⟨ss, data, fill, w, htops, ⟨seated, fun i p hp v hv => ?_, shows.tag,
    fun e he x hx _ _ => ?_, fun e he _ => ?_⟩, fun i marker item hi => ?_, bare⟩
  · rw [← bare i p hp] at hv
    obtain rfl : v = .null := by cases p <;> simp_all [Place.bare, Place.shown?, Item.absent, Item.shown]
    exact ⟨trivial, takes_null p⟩
  · rw [hshown]
    exact shows.reading e he x hx
  · rw [hshown]
    exact shows.host e he
  · have hbare := bare i _ hi
    simp only [Place.bare, Place.content.injEq, true_and] at hbare
    subst hbare
    exact .empty fun _ => ⟨shapes_eq_nil (shows.content _ (seated.marker_of hi)), trivial⟩

/-! ### What patching a table comes to -/

/-- The routes that the value of a place takes to what it may clear are taken. -/
def PlaceWithin (ω : Watch) (i : Nat) : Place → Prop
  | .vacant => True
  | .attribute n b v =>
      v ≠ .null → ∀ x ks, ω.looked x = true → Touches x b v ks → ω.taken n x (.hole i ks)
  | .content _ item => ∀ n attrs shown, Mounts n attrs shown item.content → ω.Clears n attrs shown

theorem placeWithin_bare {p : Place} (h : p.bare = p) (i : Nat) : PlaceWithin ω i p := by
  rcases p with _ | ⟨n, b, v⟩ | ⟨m, item⟩
  · trivial
  · simp only [Place.bare, Place.attribute.injEq, true_and] at h
    exact fun hv => absurd h.symm hv
  · simp only [Place.bare, Place.content.injEq, true_and] at h
    subst h
    rintro _ _ _ ⟨⟩

/-- A block becomes what a table fits. Of what fills its spots then something holds. -/
def TableTurns (ω : Watch) (clean : Nat → Prop) (kept : NodeId → Target → Prop)
    (shared : SharedSkeleton) (ss : List Stem) (h : Host) (parent : NodeId)
    (before : List NodeId) (f : List Subtree) (behind : List NodeId) (places : List Place)
    (P : (NodeId → List Subtree) → Prop) (h' : Host) : Prop :=
  ∃ data fill,
    Rewrites h.document h'.document parent before f (Stem.assembleAll data fill ss) behind ∧
    TableFits ω clean kept shared ss data fill places ∧ PlacesFit ω clean fill places ∧ P fill

/-- The contents of a table are carried on, from one of its places on, where they are
clean. In front of that place all is as it was. -/
structure PlacesCarry (ω : Watch) (clean : Nat → Prop) (count first : Nat)
    (fill : NodeId → List Subtree) (places : List Place) (fill' : NodeId → List Subtree)
    (places' : List Place) : Prop where
  grown : ∀ spot, Grown count (fill spot) (fill' spot)
  stays : ∀ (i : Nat) (marker : NodeId) (item item' : Item), i < first →
    places[i]? = some (.content marker item) → places'[i]? = some (.content marker item') →
    item' = item ∧ fill' marker = fill marker
  carries : ∀ (i : Nat) (marker : NodeId) (item item' : Item), first ≤ i → clean i →
    places[i]? = some (.content marker item) → places'[i]? = some (.content marker item') →
    Carries ω count item.content (fill marker) item'.content (fill' marker)

/-- A template whose table is carried on is carried on between its markers. -/
theorem PlacesCarry.nested {clean : Nat → Prop} {count : Nat} {ss : List Stem}
    {data data' : NodeId → ElementData} {fill fill' : NodeId → List Subtree}
    {places places' : List Place} {start stop : NodeId}
    (carry : PlacesCarry ω clean count 0 fill places fill' places') (all : ∀ i, clean i)
    (seated : Seated shared ss places) (seated' : Seated shared ss places')
    (fits : PlacesFit ω clean fill places) (fits' : PlacesFit ω clean fill' places') :
    Carries ω count
      (.nested shared start stop places)
      (.node start .marker [] :: Stem.assembleAll data fill ss ++ [.node stop .marker []])
      (.nested shared start stop places')
      (.node start .marker [] :: Stem.assembleAll data' fill' ss ++ [.node stop .marker []]) := by
  apply Carries.nested seated seated' (fits.mono fun i _ => all i) (fits'.mono fun i _ => all i)
    carry.grown
  intro i marker item item' hi hi'
  exact carry.carries i marker item item' (Nat.zero_le i) (all i) hi hi'

/-- A table becomes one that shows the values, unless a value cannot be shown at its
place: then the place is not clean any more, and what the value may have written to or
cleared is not kept. -/
def PatchesTable (ω : Watch) (shared : SharedSkeleton) (values : List Value)
    (patch : List Place → Host → Patched (List Place)) : Prop :=
  ∀ {clean : Nat → Prop} {kept : NodeId → Target → Prop} {ss : List Stem}
    {data : NodeId → ElementData} {fill : NodeId → List Subtree} {places : List Place} {h : Host}
    {parent : NodeId} {before behind : List NodeId},
    Block h.document parent before (Stem.assembleAll data fill ss) behind →
    TableFits ω clean kept shared ss data fill places → PlacesFit ω clean fill places →
    (∀ (i : Nat) (p : Place), places[i]? = some p → PlaceWithin ω i p) →
    (patch places h).Ends
      (fun places' h' => TableTurns ω clean kept shared ss h parent before
        (Stem.assembleAll data fill ss) behind places'
        (fun fill' => PlacesCarry ω clean h.document.nodes.size 0 fill places fill' places') h' ∧
          Places.Match places' values)
      (fun places' h' => ∃ k p, places[k]? = some p ∧ ¬p.Takes (Markup.valueAt values k) ∧
        TableTurns ω (fun i => clean i ∧ i ≠ k)
          (fun n x => kept n x ∧ p.Spares (Markup.valueAt values k) n x) shared ss h parent before
          (Stem.assembleAll data fill ss) behind places' (fun _ => True) h')

/-- A fragment that has just been made. -/
theorem fragment_block {d : Document} (o : Ordered d.nodes.size d) :
    Block (d.create .fragment).2 d.nodes.size [] [] [] := by
  have record := record?_create_self .fragment d
  refine ⟨(o.create _).grow, ⟨_, record, rfl⟩, ?_, trivial, by simp, by simp, by simp, by simp,
    by simp, by simp, by simp, by simp, by simp⟩
  simp [isContainer, kind?, record]

section
variable {values : List Value} {patch : List Place → Host → Patched (List Place)} {anchor : Nat}

/-- The nodes of a template are put in front of the anchor. -/
theorem insertAll_runs {start stop fragment : Nat} {kids : List Subtree}
    (b : Block h.document parent before f behind) (head : behind.head? = some anchor)
    (w : Rewrites h.document h₁.document parent before f f behind)
    (hstart : h₁.document.record? start = some { kind := .marker })
    (hstop : h₁.document.record? stop = some { kind := .marker })
    (hfragment : h₁.document.record? fragment = some ⟨.fragment, none, roots kids⟩)
    (holds : HoldsAll h₁.document fragment kids) (nodup : (idsAll kids).Nodup)
    (lt₁ : h.document.nodes.size ≤ start) (lt₂ : start < stop) (lt₃ : stop < fragment)
    (lt₄ : ∀ n : Nat, n ∈ idsAll kids → fragment < n) {α : Type} {m : HostM α}
    {good : α → Host → Prop} {bad : Host → Prop}
    (next : ∀ h₂ : Host, Rewrites h.document h₂.document parent before f
      (f ++ (.node start .marker [] :: kids ++ [.node stop .marker []])) behind →
      Runs m h₂ good bad) :
    Runs (do
      Host.insertBefore start anchor
      Host.insertBefore fragment anchor
      Host.insertBefore stop anchor
      m) h₁ good bad := by
  have small : ∀ n : Nat, n ∈ idsAll f → n < h.document.nodes.size := b.holds.lt_size
  have hparent : (parent : Nat) < h.document.nodes.size := b.parent_lt
  have ne_parent : ∀ n : Nat, h.document.nodes.size ≤ n → n ≠ parent := fun n hn he =>
    absurd hparent (Nat.not_lt.2 (he ▸ hn))
  rw [Runs.bind]
  refine insertLeaf_runs b head w hstart (by simp) lt₁
    (fun hn => by have := small _ hn; omega) fun h₂ w₂ same₂ => ?_
  have kept₂ : ∀ n : Nat, start < n → h₂.document.record? n = h₁.document.record? n :=
    fun n hn => same₂ n (ne_parent n (by omega)) (Nat.ne_of_gt hn)
  have mem₂ : ∀ n : Nat, n ∈ idsAll (f ++ [.node start .marker []]) → n ≤ start := by
    intro n hn
    rw [idsAll_append, List.mem_append] at hn
    rcases hn with hm | hm
    · have := small n hm
      omega
    · exact Nat.le_of_eq (by simpa using hm)
  rw [Runs.bind]
  refine insertBefore_runs b head w₂
    (.batch ((kept₂ _ (by omega)).trans hfragment)
      (holds.congr fun n hn => kept₂ n (by have := lt₄ n hn; omega))
      fun hn => Nat.lt_irrefl _ (lt₄ _ hn))
    (by omega) nodup (fun n hn => ⟨?_, fun hm => ?_⟩) (fun hn => ?_) fun h₃ w₃ same₃ => ?_
  · have := lt₄ n hn
    omega
  · have := lt₄ n hn
    have := mem₂ n hm
    omega
  · have := mem₂ _ hn
    omega
  have kept₃ : h₃.document.record? stop = h₂.document.record? stop := by
    refine same₃ stop (ne_parent _ (by omega)) (Nat.ne_of_lt lt₃) fun hn => ?_
    have := lt₄ _ (roots_subset _ hn)
    omega
  rw [Runs.bind]
  refine insertLeaf_runs b head w₃ (kept₃.trans ((kept₂ _ lt₂).trans hstop)) (by simp)
    (by omega) (fun hn => ?_) fun h₄ w₄ _ => next h₄ (by simpa using w₄)
  rw [idsAll_append, List.mem_append] at hn
  rcases hn with hm | hm
  · have := mem₂ _ hm
    omega
  · have := lt₄ _ hm
    omega

/-- A template that is mounted and patched apart from the document is then put into it between two
markers. What is done apart leaves the document as it is. -/
theorem instantiate_inserts (good : List Place → List Subtree → Prop) (bad : Host → Prop)
    (b : Block h.document parent before f behind) (head : behind.head? = some anchor)
    (apart : ∀ {h₁ : Host} {fragment : NodeId}, Block h₁.document fragment [] [] [] →
      (∀ {h' : Host} {kids : List Subtree},
        Rewrites h₁.document h'.document fragment [] [] kids [] →
        Rewrites h.document h'.document parent before f f behind) →
      Runs (mount shared.skeleton fragment) h₁
        (fun r h₂ => (patch r.2 h₂).Ends
          (fun places h' => ∃ kids, Rewrites h₁.document h'.document fragment [] [] kids [] ∧
            good places kids)
          (fun _ h' => bad h'))
        bad) :
    Runs (instantiate shared patch anchor) h
      (fun c h' => ∃ start stop places kids, c = .nested shared start stop places ∧
        Rewrites h.document h'.document parent before f
          (f ++ (.node start .marker [] :: kids ++ [.node stop .marker []])) behind ∧
        good places kids)
      bad := by
  let start := h.document.nodes.size
  let d₁ := (h.document.create .marker).2
  let stop := d₁.nodes.size
  let d₂ := (d₁.create .marker).2
  let fragment := d₂.nodes.size
  let d₃ := (d₂.create .fragment).2
  have lt₁ : stop = start + 1 := size_create ..
  have lt₂ : fragment = stop + 1 := size_create ..
  have w₂ : Rewrites h.document d₂ parent before f f behind :=
    ((Rewrites.refl b).create b .marker).create b .marker
  have w₃ : Rewrites h.document d₃ parent before f f behind := w₂.create b .fragment
  have alone : Block d₃ fragment [] [] [] := fragment_block (w₂.block b).ordered
  have hfragment : d₃.record? fragment = some { kind := .fragment } := record?_create_self ..
  have hstop : d₃.record? stop = some { kind := .marker } :=
    (record?_create_of_lt (by omega)).trans (record?_create_self ..)
  have hstart : d₃.record? start = some { kind := .marker } :=
    (record?_create_of_lt (by omega)).trans
      ((record?_create_of_lt (by omega)).trans (record?_create_self ..))
  have elsewhere : ∀ {d : Document} {kids : List Subtree}, Rewrites d₃ d fragment [] [] kids [] →
      Rewrites h.document d parent before f f behind := fun v =>
    w₃.elsewhere b v (by omega) (fun hm => by have := b.holds.lt_size _ hm; omega) (by simp)
  rw [instantiate, Runs.bind, Runs.create, Runs.bind, Runs.create, Runs.bind, Runs.create,
    Runs.bind]
  show Runs (mount shared.skeleton fragment) { h with document := d₃ } _ _
  refine (@apart { h with document := d₃ } fragment alone elsewhere).mono ?_ fun _ failed => failed
  rintro ⟨tops, places⟩ h₄ patched
  refine Runs.bind.2 (Patched.runs_toStep.2 (patched.mono ?_ fun _ _ failed => failed))
  rintro places' h₅ ⟨kids, v, hgood⟩
  have size₃ : d₃.nodes.size = fragment + 1 := size_create ..
  have others : ∀ n : Nat, n < fragment → h₅.document.record? n = d₃.record? n :=
    fun n hn => v.others n (size₃ ▸ Nat.lt_succ_of_lt hn) (Nat.ne_of_lt hn) (by simp)
  refine insertAll_runs b head (elsewhere v) ((others _ (by omega)).trans hstart)
    ((others _ (by omega)).trans hstop) (by simpa using v.record _ hfragment) v.holds v.nodup
    (Nat.le_refl _) (by omega) (by omega) (fun n hn => ?_) fun h₆ w₆ => ?_
  · rcases v.fresh n hn with hn | hn
    · simp at hn
    · have hn : d₃.nodes.size ≤ n := hn
      omega
  · exact ⟨_, _, _, _, rfl, w₆, hgood⟩

/-- A new template shows the values, if its skeleton can be filled with them. Otherwise
nothing of it is in the document. -/
theorem instantiate_runs (made : shared.Made) (hp : PatchesTable ω shared values patch)
    (b : Block h.document parent before f behind) (head : behind.head? = some anchor)
    (hf : faithful → f = []) (handle : Nat) :
    Runs (instantiate shared patch anchor) h
      (fun c h' => Becomes h parent before f behind
        (Fits ω faithful (.template handle shared values) c) h' ∧ FillsRenderably shared values)
      (fun h' => Rewrites h.document h'.document parent before f f behind ∧
        ¬FillsRenderably shared values) := by
  refine (instantiate_inserts
    (fun places kids => FillsRenderably shared values ∧ ∃ ss data fill,
      kids = Stem.assembleAll data fill ss ∧
      TableFits ω (fun _ => faithful) (fun _ _ => faithful) shared ss data fill places ∧
      PlacesFit ω (fun _ => faithful) fill places ∧ Places.Match places values)
    (fun h' => Rewrites h.document h'.document parent before f f behind ∧
      ¬FillsRenderably shared values) b head fun {h₁ fragment} alone elsewhere => ?_).mono ?_ ?_
  · refine (mount_runs ω made alone (fun _ => faithful) fun _ _ => faithful).mono ?_ ?_
    · rintro ⟨tops, places⟩ h₂ ⟨ss, data, fill, w, -, table, contents, bare⟩
      refine (hp (w.block alone) table contents fun i p hi => ?_).mono ?_ ?_
      · exact placeWithin_bare (bare i p hi) i
      · rintro places' h₃ ⟨⟨data', fill', w', table', contents', -⟩, same⟩
        exact ⟨_, w.trans w', table'.fillsRenderably same, ss, data', fill', rfl, table', contents',
          same⟩
      · rintro places' h₃ ⟨k, p, hk, no, data', fill', w', -⟩
        refine ⟨elsewhere (w.trans w'), fun h => no ?_⟩
        exact (table.seated.fillsRenderably_iff values).1 h k p hk
    · rintro h₂ ⟨no, forest, w⟩
      exact ⟨elsewhere w, fun h => no h.1⟩
  · rintro c h' ⟨start, stop, places, kids, rfl, w, fills, ss, data, fill, rfl, table, contents, same⟩
    refine ⟨⟨_, w, ?_⟩, fills⟩
    rw [← List.append_nil (f ++ _)]
    exact .nested f [] table contents fun h => ⟨hf h, rfl, handle, values, rfl, same⟩
  · exact fun _ failed => failed

end

end Live

end LiveTemplate
