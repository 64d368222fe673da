import LiveTemplate.Proofs.Carrying
import LiveTemplate.Proofs.Ledgers

/-!
# Places that stay

The marker of a place is a node of one skeleton only. If it is in the document before a
patch and after it, each template and each item around the place has been carried on, since
all others are gone or made of new nodes. So the content of the place is carried on too, and
stands in front of the marker both times.
-/
namespace LiveTemplate
open Document Subtree Live

/-! ### The nodes of a skeleton -/

namespace Stem
variable {data : NodeId → ElementData} {fill : NodeId → List Subtree}

mutual
/-- The nodes that the skeleton has been mounted as. -/
def own : Stem → List NodeId
  | .element id _ _ children => id :: ownAll children
  | .host id _ _ _ => [id]
  | .text id _ => [id]
  | .hole marker _ => [marker]
termination_by structural s => s

def ownAll : List Stem → List NodeId
  | [] => []
  | s :: rest => s.own ++ ownAll rest
termination_by structural ss => ss
end

/-- What is put into the spots of a skeleton. -/
def filled (fill : NodeId → List Subtree) (hosts : List (NodeId × Attributes))
    (markers : List (NodeId × Nat)) : List NodeId :=
  (hosts.flatMap fun e => idsAll (fill e.1)) ++ markers.flatMap fun m => idsAll (fill m.1)

mutual
theorem ids_perm (data : NodeId → ElementData) (fill : NodeId → List Subtree) : (s : Stem) →
    (idsAll (s.assemble data fill)).Perm (s.own ++ filled fill s.hosts s.markers)
  | .element id tag attrs children => by
      simp [assemble, own, hosts, markers, idsAll_perm data fill children]
  | .host id tag attrs hidden => by simp [assemble, own, filled, hosts, markers]
  | .text id s => by simp [assemble, own, filled, hosts, markers]
  | .hole marker index => by
      simp [assemble, own, filled, hosts, markers]
termination_by structural s => s

/-- The nodes of a mounted skeleton are its own ones and what is put into its spots. -/
theorem idsAll_perm (data : NodeId → ElementData) (fill : NodeId → List Subtree) :
    (ss : List Stem) →
    (idsAll (assembleAll data fill ss)).Perm
      (ownAll ss ++ filled fill (hostsAll ss) (markersAll ss))
  | [] => by simp [assembleAll, ownAll, filled, hostsAll, markersAll]
  | s :: rest => by
      have first := List.perm_iff_count.1 (ids_perm data fill s)
      have others := List.perm_iff_count.1 (idsAll_perm data fill rest)
      refine List.perm_iff_count.2 fun n => ?_
      specialize first n
      specialize others n
      simp only [assembleAll, idsAll_append, ownAll, filled, hostsAll, markersAll,
        List.flatMap_append, List.count_append] at first others ⊢
      omega
termination_by structural ss => ss
end

section
variable {ss : List Stem} {n : NodeId}

theorem ownAll_subset (data : NodeId → ElementData) (fill : NodeId → List Subtree) :
    ownAll ss ⊆ idsAll (assembleAll data fill ss) := fun _ hn =>
  ((idsAll_perm data fill ss).mem_iff).2 (List.mem_append_left _ hn)

theorem mem_assembleAll (hn : n ∈ idsAll (assembleAll data fill ss)) :
    n ∈ ownAll ss ∨ (∃ e ∈ hostsAll ss, n ∈ idsAll (fill e.1)) ∨
      ∃ m ∈ markersAll ss, n ∈ idsAll (fill m.1) := by
  have h := ((idsAll_perm data fill ss).mem_iff).1 hn
  rwa [filled, List.mem_append, List.mem_append, List.mem_flatMap, List.mem_flatMap] at h

/-- No node of a skeleton is part of a content in front of one of its markers, and neither is
a node that stands in one of its hosts. -/
theorem fill_apart (nodup : (idsAll (assembleAll data fill ss)).Nodup) {m : NodeId × Nat}
    (hm : m ∈ markersAll ss) (hn : n ∈ idsAll (fill m.1)) :
    n ∉ ownAll ss ∧ ∀ e ∈ hostsAll ss, n ∉ idsAll (fill e.1) := by
  have parts := (idsAll_perm data fill ss).nodup_iff.1 nodup
  have hmem : n ∈ (markersAll ss).flatMap fun m => idsAll (fill m.1) :=
    List.mem_flatMap.2 ⟨m, hm, hn⟩
  rw [filled, List.nodup_append, List.nodup_append] at parts
  constructor
  · exact fun h => parts.2.2 n h n (List.mem_append_right _ hmem) rfl
  · exact fun e he h => parts.2.1.2.2 n (List.mem_flatMap.2 ⟨e, he, h⟩) n hmem rfl

end

mutual
theorem marker_mem_own : (s : Stem) → ∀ m ∈ s.markers, m.1 ∈ s.own
  | .element id tag attrs children, m, hm =>
      List.mem_cons_of_mem _ (marker_mem_ownAll children m hm)
  | .host .., m, hm => by simp [markers] at hm
  | .text .., m, hm => by simp [markers] at hm
  | .hole marker index, m, hm => by
      rw [List.mem_singleton.1 hm]
      exact List.mem_singleton_self _
termination_by structural s => s

theorem marker_mem_ownAll : (ss : List Stem) → ∀ m ∈ markersAll ss, m.1 ∈ ownAll ss
  | [], m, hm => by simp [markersAll] at hm
  | s :: rest, m, hm =>
      List.mem_append.2 ((List.mem_append.1 hm).imp (marker_mem_own s m) (marker_mem_ownAll rest m))
termination_by structural ss => ss
end

end Stem

/-! ### What is recorded along a path -/

section
variable {places : List Place} {items : List Item} {rows : List Row} {i : Nat} {path : List Nat}
  {marker : NodeId} {c inner : Content}

theorem recorded_of_mem {item : Item} (h : item ∈ items) :
    item.content.recorded ⊆ (Content.list items).recorded := by
  rw [Content.recorded]
  induction items with
  | nil => simp at h
  | cons first rest ih =>
    rw [recordedOf, Item.recorded_eq]
    rcases List.mem_cons.1 h with rfl | h
    · exact List.subset_append_left ..
    · exact fun n hn => List.mem_append_right _ (ih h hn)

theorem recorded_of_place {item : Item} (h : places[i]? = some (.content marker item)) :
    marker :: item.content.recorded ⊆ recordedAt places := by
  intro n hn
  refine mem_recordedAt.2 ⟨i, _, h, ?_⟩
  rwa [Place.recorded, Item.recorded_eq]

/-- The marker of a place is on record wherever the place is. -/
theorem Recorded.marker_mem (r : Recorded c.parts path ⟨some marker, inner⟩) :
    marker ∈ c.recorded := by
  generalize hparts : c.parts = parts at r
  generalize hpart : (⟨some marker, inner⟩ : Part) = part at r
  induction r generalizing c with
  | here h =>
    subst hparts hpart
    cases c with
    | empty => simp [Content.parts] at h
    | text n => simp [Content.parts] at h
    | nested shared start stop places =>
      obtain ⟨m, item, hi, heq⟩ := part_of_places h
      obtain rfl : marker = m := Option.some.inj (congrArg Part.marker? heq)
      simp [Content.recorded, recorded_of_place hi (List.mem_cons_self ..)]
    | list items =>
      obtain ⟨item, -, heq⟩ := part_of_items h
      exact absurd (congrArg Part.marker? heq) (by simp)
  | inside h r ih =>
    subst hparts
    cases c with
    | empty => simp [Content.parts] at h
    | text n => simp [Content.parts] at h
    | nested shared start stop places =>
      obtain ⟨m, item, hi, rfl⟩ := part_of_places h
      simp [Content.recorded, recorded_of_place hi (List.mem_cons_of_mem _ (ih rfl hpart))]
    | list items =>
      obtain ⟨item, hi, rfl⟩ := part_of_items h
      exact recorded_of_mem (List.mem_of_getElem? hi) (ih rfl hpart)

theorem Recorded.mem_forest {ω : Watch} {v : Value} {f : List Subtree}
    (r : Recorded c.parts path ⟨some marker, inner⟩) (fits : Fits ω True v c f) :
    marker ∈ idsAll f := by
  obtain ⟨l, owns⟩ := fits.owns
  exact owns.recorded r.marker_mem

/-- What is recorded in a list is recorded in one of its rows. -/
theorem Recorded.exists_row
    (r : Recorded (Content.list (Row.items rows)).parts path ⟨some marker, inner⟩) :
    ∃ row ∈ rows, ∃ path', Recorded row.item.content.parts path' ⟨some marker, inner⟩ := by
  cases r with
  | here h =>
    obtain ⟨item, -, heq⟩ := part_of_items h
    exact absurd (congrArg Part.marker? heq) (by simp)
  | @inside _ _ _ _ path' h r =>
    obtain ⟨item, hi, rfl⟩ := part_of_items h
    obtain ⟨row, hrow, rfl⟩ := List.mem_map.1 (List.mem_of_getElem? hi)
    exact ⟨row, hrow, path', r⟩

end

/-! ### The content of a place that stays -/

/-- In front of a marker, inside of two forests, a content is carried on. What is still there
of its old nodes is part of what it has become. -/
structure CarriedAt (ω : Watch) (count : Nat) (d d' : Document) (marker : NodeId)
    (f f' : List Subtree) (c c' : Content) (g g' : List Subtree) : Prop where
  before : ∃ parent left right, Block d parent left g (marker :: right)
  after : ∃ parent left right, Block d' parent left g' (marker :: right)
  carries : Carries ω count c g c' g'
  inside : idsAll g ⊆ idsAll f
  inside' : idsAll g' ⊆ idsAll f'
  placed : marker ∈ idsAll f'
  stays : ∀ n : Nat, n < count → n ∈ idsAll g → n ∈ idsAll f' → n ∈ idsAll g'

theorem CarriedAt.outer {ω : Watch} {count : Nat} {d d' : Document} {marker : NodeId}
    {f f' f₁ f₁' g g' : List Subtree} {c c' : Content}
    (carried : CarriedAt ω count d d' marker f f' c c' g g') (sub : idsAll f ⊆ idsAll f₁)
    (sub' : idsAll f' ⊆ idsAll f₁')
    (stays : ∀ n : Nat, n < count → n ∈ idsAll f → n ∈ idsAll f₁' → n ∈ idsAll f') :
    CarriedAt ω count d d' marker f₁ f₁' c c' g g' where
  before := carried.before
  after := carried.after
  carries := carried.carries
  inside := List.Subset.trans carried.inside sub
  inside' := List.Subset.trans carried.inside' sub'
  placed := sub' carried.placed
  stays n hn hg hf := carried.stays n hn hg (stays n hn (carried.inside hg) hf)

section
variable {ω : Watch} {count : Nat} {d d' : Document} {parent parent' : NodeId}
  {before behind before' behind' : List NodeId} {marker : Nat} {inner inner' : Content}
  {path path' : List Nat} {row : Row} {rows : List Row}

theorem Row.head_block (b : Block d parent before (Row.forests (row :: rows)) behind) :
    Block d parent before row.forest (roots (Row.forests rows) ++ behind) := by
  have b₁ : Block d parent before ([] ++ row.forest ++ Row.forests rows) behind := b
  simpa using b₁.part

theorem Row.tail_block (b : Block d parent before (Row.forests (row :: rows)) behind) :
    Block d parent (before ++ roots row.forest) (Row.forests rows) behind := by
  have b₁ : Block d parent before (row.forest ++ Row.forests rows ++ []) behind := by
    simpa using b
  exact b₁.part

theorem Row.not_mem_tail (b : Block d parent before (Row.forests (row :: rows)) behind)
    {n : NodeId} (hn : n ∈ idsAll row.forest) : n ∉ idsAll (Row.forests rows) := by
  have nodup := b.nodup
  rw [Row.forests_cons, idsAll_append, List.nodup_append] at nodup
  exact fun hm => nodup.2.2 n hn n hm rfl

theorem Row.mem_forests {n : NodeId} :
    n ∈ idsAll (Row.forests rows) ↔ ∃ row ∈ rows, n ∈ idsAll row.forest := by
  induction rows with
  | nil => simp [Row.forests]
  | cons first rest ih => simp [ih]

theorem Row.subset_forests (h : row ∈ rows) : idsAll row.forest ⊆ idsAll (Row.forests rows) :=
  fun _ hn => Row.mem_forests.2 ⟨row, h, hn⟩

/-- No node belongs to two rows. -/
theorem Row.eq_of_mem {row' : Row} (nodup : (idsAll (Row.forests rows)).Nodup) (h : row ∈ rows)
    (h' : row' ∈ rows) {n : NodeId} (hn : n ∈ idsAll row.forest) (hn' : n ∈ idsAll row'.forest) :
    row = row' := by
  induction rows with
  | nil => simp at h
  | cons first rest ih =>
    rw [Row.forests_cons, idsAll_append, List.nodup_append] at nodup
    rcases List.mem_cons.1 h with rfl | hr <;> rcases List.mem_cons.1 h' with rfl | hr'
    · rfl
    · exact absurd rfl (nodup.2.2 n hn n (Row.subset_forests hr' hn'))
    · exact absurd rfl (nodup.2.2 n hn' n (Row.subset_forests hr hn))
    · exact ih nodup.2.1 hr hr'

/-- What is still there of a content in front of a marker is in front of the marker. -/
theorem Stem.fill_stays {ss : List Stem} {data data' : NodeId → ElementData}
    {fill fill' : NodeId → List Subtree} (nodup : (idsAll (assembleAll data fill ss)).Nodup)
    (grown : ∀ spot, Grown count (fill spot) (fill' spot)) {m : NodeId × Nat}
    (hm : m ∈ markersAll ss) (n : Nat) (hn : n < count) (h : n ∈ idsAll (fill m.1))
    (h' : n ∈ idsAll (assembleAll data' fill' ss)) : n ∈ idsAll (fill' m.1) := by
  obtain ⟨notOwn, notHost⟩ := fill_apart nodup hm h
  rcases mem_assembleAll h' with hown | ⟨e, he, h'⟩ | ⟨m', hm', h'⟩
  · exact absurd hown notOwn
  · rcases grown e.1 n h' with h₁ | h₁
    · exact absurd h₁ (notHost e he)
    · omega
  · rcases grown m'.1 n h' with h₁ | h₁
    · rwa [(distinctAll ss nodup).fill_eq m hm m' hm' n h h₁]
    · omega

/-- A place of a table is found again in the table that carries it on, and a place inside of
a content in the one at the same index. -/
theorem Seated.carriedAt {shared : SharedSkeleton} {places places' : List Place}
    {ss : List Stem} {data data' : NodeId → ElementData} {fill fill' : NodeId → List Subtree}
    (seated : Seated shared ss places) (seated' : Seated shared ss places')
    (fits : PlacesFit ω (fun _ => True) fill places)
    (fits' : PlacesFit ω (fun _ => True) fill' places')
    (grown : ∀ spot, Grown count (fill spot) (fill' spot))
    (contents : ∀ (i : Nat) (marker : NodeId) (item item' : Item),
      places[i]? = some (.content marker item) → places'[i]? = some (.content marker item') →
      Carries ω count item.content (fill marker) item'.content (fill' marker))
    (deeper : ∀ (i : Nat) (m : NodeId) (item item' : Item), places[i]? = some (.content m item) →
      places'[i]? = some (.content m item') → ∀ q q' left left' right right',
      Block d q left (fill m) right → Block d' q' left' (fill' m) right' → ∀ path path',
      Recorded item.content.parts path ⟨some marker, inner⟩ →
      Recorded item'.content.parts path' ⟨some marker, inner'⟩ →
      ∃ g g', CarriedAt ω count d d' marker (fill m) (fill' m) inner inner' g g')
    (b : Block d parent before (Stem.assembleAll data fill ss) behind)
    (b' : Block d' parent' before' (Stem.assembleAll data' fill' ss) behind')
    (old : marker < count) (r : Recorded (places.map Place.part?) path ⟨some marker, inner⟩)
    (r' : Recorded (places'.map Place.part?) path' ⟨some marker, inner'⟩) :
    ∃ g g', CarriedAt ω count d d' marker (Stem.assembleAll data fill ss)
      (Stem.assembleAll data' fill' ss) inner inner' g g' := by
  have distinct := Stem.distinctAll ss b.nodup
  cases r with
  | here h =>
    obtain ⟨m, item, hi, heq⟩ := part_of_places h
    cases heq
    have hm := seated.marker_of hi
    cases r' with
    | here h' =>
      obtain ⟨m', item', hi', heq'⟩ := part_of_places h'
      cases heq'
      have hij := distinct.marker_eq _ hm _ (seated'.marker_of hi') rfl
      obtain rfl := congrArg Prod.snd hij
      obtain ⟨q, left, right, f⟩ := Stem.focusAll_marker ss b _ hm
      obtain ⟨q', left', right', f'⟩ := Stem.focusAll_marker ss b' _ hm
      exact ⟨_, _, ⟨q, left, right, f.block⟩, ⟨q', left', right', f'.block⟩,
        contents _ _ _ _ hi hi', Stem.fillAll_subset data fill ss _ hm,
        Stem.fillAll_subset data' fill' ss _ hm,
        Stem.ownAll_subset data' fill' (Stem.marker_mem_ownAll ss _ hm),
        Stem.fill_stays b.nodup grown hm⟩
    | inside h' r' =>
      obtain ⟨m', item', hi', rfl⟩ := part_of_places h'
      have apart := Stem.fill_apart b'.nodup (seated'.marker_of hi') (r'.mem_forest (fits' _ _ _ hi'))
      exact absurd (Stem.marker_mem_ownAll ss _ hm) apart.1
  | inside h r =>
    obtain ⟨m, item, hi, rfl⟩ := part_of_places h
    have hm := seated.marker_of hi
    have hmem := r.mem_forest (fits _ _ _ hi)
    cases r' with
    | here h' =>
      obtain ⟨m', item', hi', heq'⟩ := part_of_places h'
      cases heq'
      have apart := Stem.fill_apart b.nodup hm hmem
      exact absurd (Stem.marker_mem_ownAll ss _ (seated'.marker_of hi')) apart.1
    | inside h' r' =>
      obtain ⟨m', item', hi', rfl⟩ := part_of_places h'
      have hm' := seated'.marker_of hi'
      rcases grown _ marker (r'.mem_forest (fits' _ _ _ hi')) with hmem' | new
      · have hij := distinct.fill_eq _ hm _ hm' marker hmem hmem'
        cases hij
        obtain ⟨q, left, right, f⟩ := Stem.focusAll_marker ss b _ hm
        obtain ⟨q', left', right', f'⟩ := Stem.focusAll_marker ss b' _ hm
        obtain ⟨g, g', carried⟩ :=
          deeper _ _ _ _ hi hi' q q' left left' _ _ f.block f'.block _ _ r r'
        exact ⟨g, g', carried.outer (Stem.fillAll_subset data fill ss _ hm)
          (Stem.fillAll_subset data' fill' ss _ hm) (Stem.fill_stays b.nodup grown hm)⟩
      · omega

/-- What is found in the rows behind a row was found there before. -/
theorem CarriesItems.not_mem {stale : Item → Bool} {fresh : Value → Bool} {rows' : List Row}
    (carried : CarriesItems ω count stale fresh rows rows')
    (b : Block d parent before (Row.forests (row :: rows)) behind) (n : Nat) (hn : n < count)
    (hmem : n ∈ idsAll row.forest) : n ∉ idsAll (Row.forests rows') := by
  intro h
  rcases carried.grown n h with h | h
  · exact Row.not_mem_tail b hmem h
  · omega

mutual
/-- The content of a place inside of a content that is carried on is carried on. -/
theorem Carries.carriedAt (old : marker < count) : {c c' : Content} → {f f' : List Subtree} →
    Carries ω count c f c' f' → ∀ {v : Value} {parent parent' : NodeId}
      {before behind before' behind' : List NodeId} {path path' : List Nat},
    Fits ω True v c' f' → Block d parent before f behind → Block d' parent' before' f' behind' →
    Recorded c.parts path ⟨some marker, inner⟩ → Recorded c'.parts path' ⟨some marker, inner'⟩ →
    ∃ g g', CarriedAt ω count d d' marker f f' inner inner' g g'
  | _, _, _, _, .fresh _ new => by
      intro fits' _ _ _ r'
      have := new marker (r'.mem_forest fits')
      omega
  | _, _, _, _, .text _ _ _ => by
      intro _ _ _ r _
      cases r with
      | here h => simp [Content.parts] at h
      | inside h _ => simp [Content.parts] at h
  | _, _, _, _, @Carries.nested _ _ shared start stop places places' ss data data' fill fill'
      seated seated' fits fits' grown contents => by
      intro _ b b' r r'
      have b₁ : Block d _ _ ([.node start .marker []] ++ Stem.assembleAll data fill ss ++
          [.node stop .marker []]) _ := b
      have b₁' : Block d' _ _ ([.node start .marker []] ++ Stem.assembleAll data' fill' ss ++
          [.node stop .marker []]) _ := b'
      have found : ∃ g g', CarriedAt ω count d d' marker (Stem.assembleAll data fill ss)
          (Stem.assembleAll data' fill' ss) inner inner' g g' := by
        refine seated.carriedAt seated' fits fits' grown contents ?_ b₁.part b₁'.part old r r'
        intro i m item item' hi hi' q q' left left' right right' bq bq' path path' r r'
        exact (contents i m item item' hi hi').carriedAt old (fits' i m item' hi') bq bq' r r'
      obtain ⟨g, g', carried⟩ := found
      refine ⟨g, g', carried.outer (by simp) (by simp) fun n _ hn h => ?_⟩
      simp only [List.cons_append, idsAll_cons, ids_node, idsAll_append, idsAll_nil,
        List.append_nil, List.nil_append, List.mem_cons, List.mem_append, List.not_mem_nil,
        or_false] at h
      rcases h with rfl | h | rfl
      · exact absurd hn (b₁.part.before_notMem n (by simp [root]))
      · exact h
      · exact absurd hn (b₁.part.behind_notMem n (by simp [root]))
  | _, _, _, _, .list items _ _ => by
      intro _ b b' r r'
      obtain ⟨row, hrow, path, r⟩ := r.exists_row
      obtain ⟨row', hrow', path', r'⟩ := r'.exists_row
      exact items.carriedAt old row row' b b' hrow hrow' r r'
termination_by structural _ _ _ _ h => h

theorem CarriesItems.carriedAt (old : marker < count) : {stale : Item → Bool} →
    {fresh : Value → Bool} → {rows rows' : List Row} → CarriesItems ω count stale fresh rows rows' →
    ∀ {parent parent' : NodeId} {before behind before' behind' : List NodeId}
      {path path' : List Nat} (row row' : Row), Block d parent before (Row.forests rows) behind →
    Block d' parent' before' (Row.forests rows') behind' → row ∈ rows → row' ∈ rows' →
    Recorded row.item.content.parts path ⟨some marker, inner⟩ →
    Recorded row'.item.content.parts path' ⟨some marker, inner'⟩ →
    ∃ g g', CarriedAt ω count d d' marker (Row.forests rows) (Row.forests rows') inner inner' g g'
  | _, _, _, _, .nil => by
      intro _ _ _ _ hrow
      simp at hrow
  | _, _, _, _, .remove _ fits rest => by
      intro row row' b b' hrow hrow' r r'
      rcases List.mem_cons.1 hrow with rfl | hrow
      · exact absurd (Row.subset_forests hrow' (r'.mem_forest (rest.fits.2 _ hrow')))
          (rest.not_mem b marker old (r.mem_forest fits))
      · obtain ⟨g, g', carried⟩ :=
          rest.carriedAt old row row' (Row.tail_block b) b' hrow hrow' r r'
        exact ⟨g, g', carried.outer (by simp) (by simp) fun _ _ _ h => h⟩
  | _, _, _, _, .insert _ fits' new rest => by
      intro row row' b b' hrow hrow' r r'
      rcases List.mem_cons.1 hrow' with rfl | hrow'
      · have := new marker (r'.mem_forest fits')
        omega
      · obtain ⟨g, g', carried⟩ :=
          rest.carriedAt old row row' b (Row.tail_block b') hrow hrow' r r'
        refine ⟨g, g', carried.outer (List.Subset.refl _) (by simp) fun n hn _ h => ?_⟩
        rw [Row.forests_cons, idsAll_append, List.mem_append] at h
        rcases h with h | h
        · have := new n h
          omega
        · exact h
  | _, _, _, _, @CarriesItems.reuse _ _ _ _ first first' rows rows' _ _ fits fits' grown carries
      rest => by
      intro row row' b b' hrow hrow' r r'
      -- an old node of the first row is found again in the first row only
      have apart : ∀ n : Nat, n < count → n ∈ idsAll first'.forest →
          n ∉ idsAll (Row.forests rows) := by
        intro n hn h hm
        rcases grown n h with h | h
        · exact Row.not_mem_tail b h hm
        · omega
      rcases List.mem_cons.1 hrow with heq | hrow
      · subst row
        rcases List.mem_cons.1 hrow' with heq' | hrow'
        · subst row'
          obtain ⟨g, g', carried⟩ :=
            carries.carriedAt old fits' (Row.head_block b) (Row.head_block b') r r'
          refine ⟨g, g', carried.outer (by simp) (by simp) fun n hn hf h => ?_⟩
          rw [Row.forests_cons, idsAll_append, List.mem_append] at h
          exact h.elim id fun h => absurd h (rest.not_mem b n hn hf)
        · exact absurd (Row.subset_forests hrow' (r'.mem_forest (rest.fits.2 _ hrow')))
            (rest.not_mem b marker old (r.mem_forest fits))
      · have hmem := Row.subset_forests hrow (r.mem_forest (rest.fits.1 _ hrow))
        rcases List.mem_cons.1 hrow' with heq' | hrow'
        · subst row'
          exact absurd hmem (apart marker old (r'.mem_forest fits'))
        · obtain ⟨g, g', carried⟩ :=
            rest.carriedAt old row row' (Row.tail_block b) (Row.tail_block b') hrow hrow' r r'
          refine ⟨g, g', carried.outer (by simp) (by simp) fun n hn hf h => ?_⟩
          rw [Row.forests_cons, idsAll_append, List.mem_append] at h
          exact h.elim (fun h => absurd hf (apart n hn h)) id
termination_by structural _ _ _ _ h => h
end

end

end LiveTemplate
