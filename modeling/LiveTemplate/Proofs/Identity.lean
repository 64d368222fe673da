import LiveTemplate.Proofs.Keying
import LiveTemplate.Proofs.Ownership
import LiveTemplate.Proofs.Repeating
import LiveTemplate.Proofs.Tracing

/-!
# Rows that keep their nodes

A list of templates with different keys is rendered again, with the keys that it shares with
the old one in the same order. Each of these is shown by the nodes that it was shown by
before, none of which is taken out of its place for a moment. All other rows of the new list
are made of new nodes, all other rows of the old list are gone, and the rows stand in the
order of the new list.
-/
namespace LiveTemplate
open Document Subtree Live Patched

/-! ### Nodes that stay below a container -/

section
variable {d d' between : Document} {q n : Nat}

theorem Document.Consistent.closed (c : d.Consistent) : Closed d := by
  have known : ∀ m n : NodeId, n ∈ d.children m → m < d.nodes.size := by
    intro m n h
    cases hr : d.record? m with
    | none => simp [children, hr] at h
    | some r => exact lt_size_of_record? hr
  intro n r hr
  constructor
  · intro p hp
    rw [← parent?_of_record? hr] at hp
    exact known p n ((c.mem_children p n).2 hp)
  · intro m hm
    rw [← children_of_record hr] at hm
    exact lt_size_of_parent? ((c.mem_children n m).1 hm)

theorem Document.Consistent.low (c : d.Consistent) : Primitive.Low d.nodes.size d := by
  intro n p hn hp
  cases hr : d.record? n with
  | none => simp [parent?, hr] at hp
  | some r => exact (c.closed n r hr).parent_lt p (by rw [← parent?_of_record? hr, hp])

/-- What is below a container at the end has been there all the time, if it is not new. -/
theorem Document.Edits.below (c : d.Consistent) (e : d.Edits d.nodes.size between)
    (e' : between.Edits d.nodes.size d') (below : d'.Below q n) (hn : n < d.nodes.size) :
    between.parent? n = d.parent? n ∧ between.Below q n := by
  have c₁ := e.consistent c
  have c' := e'.consistent c₁
  have low₁ : Primitive.Low d.nodes.size between := c.low.of_parent (e.parent c c.low)
  -- a node that has a parent at the end has had it all the time
  have same : ∀ n p : Nat, n < d.nodes.size → d'.parent? n = some p →
      between.parent? n = some p ∧ d.parent? n = some p := by
    intro n p hn hp
    rcases e'.parent c₁ low₁ n hn with same' | none'
    · rw [same'] at hp
      rcases e.parent c c.low n hn with same | none
      · exact ⟨hp, same ▸ hp⟩
      · rw [none] at hp
        contradiction
    · rw [none'] at hp
      contradiction
  induction below with
  | @child n h =>
    obtain ⟨hp, hp'⟩ := same n q hn ((c'.mem_children q n).1 h)
    exact ⟨hp.trans hp'.symm, .child ((c₁.mem_children q n).2 hp)⟩
  | @step m n _ h ih =>
    obtain ⟨hp, hp'⟩ := same n m hn ((c'.mem_children m n).1 h)
    exact ⟨hp.trans hp'.symm, .step (ih (c.low n m hn hp')).2 ((c₁.mem_children m n).2 hp)⟩

mutual
theorem Document.Holds.parent_mem : {parent : NodeId} → {t : Subtree} → Holds d parent t →
    ∀ n ∈ t.ids, d.parent? n = some parent ∨ ∃ p ∈ t.ids, d.parent? n = some p
  | _, .node id _ children, ⟨record, inner⟩, n, hn => by
      rcases List.mem_cons.1 hn with rfl | hn
      · exact .inl (parent?_of_record? record)
      · rcases inner.parent_mem n hn with h | ⟨p, hp, h⟩
        · exact .inr ⟨id, List.mem_cons_self .., h⟩
        · exact .inr ⟨p, List.mem_cons_of_mem _ hp, h⟩

/-- The parent of a node that is held is held as well, or is the one that all are held below. -/
theorem Document.HoldsAll.parent_mem : {parent : NodeId} → {f : List Subtree} →
    HoldsAll d parent f →
    ∀ n ∈ idsAll f, d.parent? n = some parent ∨ ∃ p ∈ idsAll f, d.parent? n = some p
  | _, [], _, n, hn => by simp at hn
  | _, t :: rest, ⟨first, others⟩, n, hn => by
      rw [idsAll_cons, List.mem_append] at hn
      rcases hn with hn | hn
      · exact (first.parent_mem n hn).imp_right fun ⟨p, hp, h⟩ => ⟨p, by simp [hp], h⟩
      · exact (others.parent_mem n hn).imp_right fun ⟨p, hp, h⟩ => ⟨p, by simp [hp], h⟩
end

end

/-! ### Nodes that go -/

section
variable {d d' : Document} {q : NodeId} {before behind : List NodeId} {f f' : List Subtree} {n : Nat}

/-- What is left of the parents of a node that has gone has gone as well. -/
theorem Document.Rewrites.gone_parent (w : Rewrites d d' q before f f' behind) (c : d.Consistent)
    (e : d.Edits d.nodes.size d') (b : Block d q before f behind) (hn : n ∈ idsAll f)
    (gone : n ∉ idsAll f') {p : NodeId} (hp : d'.parent? n = some p) :
    p ∈ idsAll f ∧ p ∉ idsAll f' := by
  have c' := e.consistent c
  have was : d.parent? n = some p := by
    rcases e.parent c c.low n (b.holds.lt_size n hn) with same | none
    · exact same ▸ hp
    · rw [none] at hp
      contradiction
  have child : n ∈ d'.children p := (c'.mem_children p n).2 hp
  have inside : p ∈ idsAll f := by
    rcases b.holds.parent_mem n hn with h | ⟨p', hp', h⟩
    · obtain rfl : p = q := Option.some.inj (was.symm.trans h)
      rw [(w.block b).children_eq, List.mem_append, List.mem_append] at child
      rcases child with (h | h) | h
      · exact absurd hn (b.before_notMem n h)
      · exact absurd (roots_subset _ h) gone
      · exact absurd hn (b.behind_notMem n h)
    · obtain rfl : p = p' := Option.some.inj (was.symm.trans h)
      exact hp'
  exact ⟨inside, fun h => gone (w.holds.child_mem p h n child)⟩

/-- What has gone is below nothing but what has gone. -/
theorem Document.Rewrites.gone_not_below (w : Rewrites d d' q before f f' behind)
    (c : d.Consistent) (e : d.Edits d.nodes.size d') (b : Block d q before f behind)
    (hn : n ∈ idsAll f)
    (gone : n ∉ idsAll f') {top : NodeId} (htop : top ∉ idsAll f) : ¬d'.Below top n := by
  have c' := e.consistent c
  intro below
  induction below with
  | @child n h =>
    exact htop (w.gone_parent c e b hn gone ((c'.mem_children top n).1 h)).1
  | @step m n _ h ih =>
    obtain ⟨hm, gone⟩ := w.gone_parent c e b hn gone ((c'.mem_children m n).1 h)
    exact ih hm gone

end

/-! ### What a render carries on -/

section
variable {ω : Watch} {shared : SharedSkeleton} {places : List Place} {ss : List Stem}
  {data : NodeId → ElementData} {fill : NodeId → List Subtree} {path : List Nat}
  {marker : NodeId} {inner : Content} {m m' : Mounted} {f f' : List Subtree}
  {renderers : Nat → Renderer} {i : Nat} {container : NodeId} {initial : List NodeId}
  {plots : List Plot} {h : Host} {v : Value} {values : List Value}

theorem Recorded.mem_table (seated : Seated shared ss places)
    (fits : PlacesFit ω (fun _ => True) fill places)
    (r : Recorded (places.map Place.part?) path ⟨some marker, inner⟩) :
    marker ∈ idsAll (Stem.assembleAll data fill ss) := by
  cases r with
  | here h =>
    obtain ⟨m, item, hi, heq⟩ := part_of_places h
    obtain rfl : marker = m := Option.some.inj (congrArg Part.marker? heq)
    exact Stem.ownAll_subset data fill (Stem.marker_mem_ownAll ss _ (seated.marker_of hi))
  | inside h r =>
    obtain ⟨m, item, hi, rfl⟩ := part_of_places h
    exact Stem.fillAll_subset data fill ss _ (seated.marker_of hi) (r.mem_forest (fits _ _ _ hi))

theorem Mounted.Occupies.mem (o : m.Occupies True f)
    (r : Recorded (m.places.map Place.part?) path ⟨some marker, inner⟩) : marker ∈ idsAll f := by
  obtain ⟨ss, data, fill, rfl, -, t, contents⟩ := o
  exact r.mem_table t.seated contents

/-- A place that is on record before and after has its content carried on. -/
def Mounted.Resumes (m m' : Mounted) (d d' : Document) (f f' : List Subtree) : Prop :=
  ∀ path path' marker inner inner',
    Recorded (m.places.map Place.part?) path ⟨some marker, inner⟩ →
    Recorded (m'.places.map Place.part?) path' ⟨some marker, inner'⟩ →
    ∃ g g', CarriedAt .blind d.nodes.size d d' marker f f' inner inner' g g'

namespace Renderer

/-- What is mounted is carried on when a value is filled into it. -/
theorem patchMounted_resumes (p : Plotted True renderers container plots)
    (b : Block h.document container initial (Plot.forests plots) [])
    (hm : (renderers i).mounted? container = some m) (built : Value.BuiltAll values)
    (length : values.length = m.shared.holes) :
    ((renderers i).patchMounted values container h).Ends
      (fun r' h' => ∀ m', r'.mounted? container = some m' → ∃ f',
        Rewrites h.document h'.document container initial (Plot.forests plots) f' [] ∧
          m.Resumes m' h.document h'.document (Plot.forests plots) f')
      (fun _ _ => True) := by
  obtain ⟨left, f, right, rfl, ss, data, fill, rfl, -, t, contents⟩ := p.exists_split hm
  rw [Plot.forests_insert] at b
  rw [patchMounted, hm]
  dsimp only
  rw [ends_map]
  refine (PatchesPlaces.table (patchPlaces_ends .blind m.shared values built) length b.part t
    contents fun i p _ => placeWithin_blind i p).mono ?_ fun _ _ _ => trivial
  rintro places' h' ⟨⟨data', fill', w, t', contents', carry⟩, -⟩ m' hm'
  obtain rfl := Option.some.inj ((mounted?_put _).symm.trans hm')
  rw [Plot.forests_insert]
  refine ⟨_, w.part b, fun path path' marker inner inner' r r' => ?_⟩
  have old : marker < h.document.nodes.size :=
    b.part.holds.lt_size _ (r.mem_table t.seated contents)
  obtain ⟨g, g', carried⟩ := t.seated.carriedAt t'.seated contents contents' carry.grown
    (fun i marker item item' => carry.carries i marker item item' (Nat.zero_le i) trivial)
    (fun i m item item' hi hi' q q' left left' right right' bq bq' path path' r r' =>
      (carry.carries i m item item' (Nat.zero_le i) trivial hi hi').carriedAt old
        (contents' i m item' hi') bq bq' r r')
    b.part (w.block b.part) old r r'
  refine ⟨g, g', carried.outer (by simp) (by simp) fun n _ hn hn' => ?_⟩
  -- no node of the plots around this one stands in it
  have nodup := b.nodup
  simp only [idsAll_append, List.nodup_append, List.mem_append] at nodup hn'
  rcases hn' with (hn' | hn') | hn'
  · exact absurd rfl (nodup.1.2.2 n hn' n hn)
  · exact hn'
  · exact absurd rfl (nodup.2.2 n (.inr hn) n hn')

/-- A render carries on what is mounted, unless it takes all of it down. -/
theorem render_resumes (built : v.Built) (p : Plotted True renderers container plots)
    (b : Block h.document container initial (Plot.forests plots) [])
    (hm : (renderers i).mounted? container = some m) :
    ((renderers i).render v container h).Ends
      (fun r' h' => ∀ m', r'.mounted? container = some m' → ∃ f',
        Rewrites h.document h'.document container initial (Plot.forests plots) f' [] ∧
          m.Resumes m' h.document h'.document (Plot.forests plots) f')
      (fun _ _ => True) := by
  by_cases hshared : m.shared = v.parts.1
  · obtain ⟨-, length, builtAll⟩ := parts_built built
    rw [render_of_shared hm hshared]
    exact patchMounted_resumes p b hm builtAll (hshared ▸ length)
  · obtain ⟨left, f, right, rfl, occupies⟩ := p.exists_split hm
    rw [render_eq, ends_andThen, makeRoom, hm]
    dsimp only
    rw [if_neg hshared, ends_map]
    refine (unmount_vacates p b hm occupies).mono ?_ fun _ _ _ => trivial
    rintro r₁ h₁ ⟨hnone, -, g, hg, w, p₁⟩
    obtain rfl := hg trivial
    have filled := @settle_patch_replots True _ i container initial _ h₁ v built p₁ (w.block b)
      (by simp [hnone])
    rw [Function.update_self] at filled
    refine filled.mono ?_ fun _ _ _ => trivial
    rintro r' h' ⟨-, plots', w', p'⟩ m' hm'
    refine ⟨_, w.trans w', fun path path' marker inner inner' r r' => ?_⟩
    -- the marker would be one of a node that has been taken down
    exfalso
    have mem := occupies.mem r
    obtain ⟨left', f', right', rfl, occupies'⟩ := p'.exists_split (by rwa [Function.update_self])
    have mem' : marker ∈ idsAll (Plot.forests (left' ++ ⟨some i, f'⟩ :: right')) := by
      simp [occupies'.mem r']
    have nodup := b.nodup
    simp only [Plot.forests_append, Plot.forests_cons, idsAll_append, List.nodup_append,
      List.mem_append] at nodup
    rcases w'.fresh marker mem' with hmem | hmem
    · simp only [Plot.forests_append, Plot.forests_cons, List.nil_append, idsAll_append,
        List.mem_append] at hmem
      rcases hmem with hmem | hmem
      · exact nodup.2.2 marker hmem marker (.inl mem) rfl
      · exact nodup.2.1.2.2 marker mem marker hmem rfl
    · have := b.holds.lt_size marker (by simp [mem])
      have := w.size_le
      omega

end Renderer

end

/-! ### What is rendered at a place -/

namespace Value

/-- The values of a template, or the items of a list. -/
def inner : Value → List Value
  | .template _ _ values => values
  | .list _ items => items
  | _ => []

/-- What some values hold along a path, of which each step is the index of one of them. -/
def along : List Nat → List Value → Value
  | [], _ => .null
  | [i], values => Markup.valueAt values i
  | i :: j :: path, values => along (j :: path) (Markup.valueAt values i).inner

theorem along_cons {path : List Nat} (ne : path ≠ []) (i : Nat) (values : List Value) :
    along (i :: path) values = along path (Markup.valueAt values i).inner := by
  cases path with
  | nil => exact absurd rfl ne
  | cons j path => rfl

variable {a b : Value}

theorem Alike.inner_eq (h : a.Alike b) : a.inner = b.inner := by
  rcases h.cases with rfl | ⟨m, n, rfl, rfl, -⟩
  · rfl
  · rfl

/-- A number has no key, so what has one need not be told apart from itself only. -/
theorem eq_of_forall₂_alike {us vs : List Value} (same : List.Forall₂ Alike us vs)
    (own : ∀ v ∈ vs, SameKey v v) : us = vs := by
  induction same with
  | nil => rfl
  | cons head _ ih =>
    rw [List.forall_mem_cons] at own
    obtain ⟨k, -, hk, -⟩ := own.1
    rw [head.eq_of_not_number fun n h => by simp [h, key?] at hk, ih own.2]

end Value
open Value

/-- Each of the parts is a record of the value at its index. -/
def PartsRecord (parts : List (Option Part)) (values : List Value) : Prop :=
  ∀ (i : Nat) (part : Part), parts[i]? = some (some part) →
    ∃ u, Records part.content u ∧ u.Alike (Markup.valueAt values i)

theorem TableRecords.parts {shared : SharedSkeleton} {places : List Place} {values : List Value}
    (t : TableRecords shared places values) : PartsRecord (places.map Place.part?) values := by
  intro i part h
  obtain ⟨marker, item, hi, rfl⟩ := part_of_places h
  exact ⟨_, t.recorded _ (List.mem_of_getElem? hi) marker item rfl, t.same i _ hi _ rfl⟩

theorem Records.parts {c : Content} {v : Value} (r : Records c v) :
    PartsRecord c.parts v.inner := by
  cases c with
  | empty => simp [PartsRecord, Content.parts]
  | text n => simp [PartsRecord, Content.parts]
  | nested shared start stop places =>
    obtain ⟨handle, values, rfl, t⟩ := r.table
    exact t.parts
  | list items =>
    cases r with
    | @list _ handle values same contents =>
      intro i part h
      obtain ⟨item, hi, rfl⟩ := part_of_items h
      refine ⟨item.shown, contents item (List.mem_of_getElem? hi), ?_⟩
      obtain ⟨length, alike⟩ := List.forall₂_iff_get.1 same
      obtain ⟨hlt, hget⟩ := List.getElem?_eq_some_iff.1 hi
      have hlt' : i < values.length := by simpa [← length] using hlt
      have := alike i (by simpa using hlt) hlt'
      simpa [Value.inner, Markup.valueAt, hlt', hget] using this

/-- What is recorded along a path is a record of the value along it. -/
theorem Recorded.records {parts : List (Option Part)} {path : List Nat} {part : Part}
    (r : Recorded parts path part) {values : List Value} (records : PartsRecord parts values) :
    ∃ u, Records part.content u ∧ u.Alike (along path values) := by
  induction r generalizing values with
  | here h => exact records _ _ h
  | inside h r ih =>
    obtain ⟨u, hu, alike⟩ := records _ _ h
    rw [along_cons r.ne_nil, ← alike.inner_eq]
    exact ih hu.parts

/-- Where a list of values with keys is rendered, its items show just these. -/
theorem Mounted.Records.shown {m : Mounted} {values : List Value} (records : m.Records values)
    {path : List Nat} {marker : NodeId} {c : Content}
    (r : Recorded (m.places.map Place.part?) path ⟨some marker, c⟩) {handle : Nat} {vs : List Value}
    (next : along path values = .list handle vs) (own : ∀ v ∈ vs, SameKey v v) :
    ∃ items, c = .list items ∧ items.map Item.shown = vs := by
  obtain ⟨u, hu, alike⟩ := r.records records.parts
  rw [next] at alike
  obtain rfl : u = .list handle vs := alike.eq_of_not_number (by simp)
  obtain ⟨items, rfl, same, -⟩ := hu.items
  exact ⟨items, rfl, eq_of_forall₂_alike same own⟩

/-! ### Rows that are rendered again -/

/-- What a render makes of the rows in front of a marker. Between the two documents lie edits
that put new nodes only, and all rows are younger than the `first` nodes of the document. -/
structure Row.Rerendered (first : Nat) (container marker : NodeId) (d d' : Document)
    (rows rows' : List Row) : Prop where
  edits : d.Edits d.nodes.size d'
  stood : ∃ parent before behind, Block d parent before (Row.forests rows) (marker :: behind)
  stands : ∃ parent before behind, Block d' parent before (Row.forests rows') (marker :: behind)
  fits : (∀ row ∈ rows, row.Fits .blind) ∧ ∀ row' ∈ rows', row'.Fits .blind
  below : ∀ row' ∈ rows', ∀ n ∈ idsAll row'.forest, d'.Below container n
  kept : ∀ row ∈ rows, ∀ row' ∈ rows', SameKey row.item.shown row'.item.shown →
    ∃ nodes, row.Share row' nodes ∧ ∀ n ∈ nodes, ∀ between, d.Edits d.nodes.size between →
      between.Edits d.nodes.size d' → between.parent? n = d.parent? n ∧ between.Below container n
  new : ∀ row' ∈ rows', (∀ row ∈ rows, ¬SameKey row.item.shown row'.item.shown) →
    ∀ n : Nat, n ∈ idsAll row'.forest → d.nodes.size ≤ n
  gone : ∀ row ∈ rows, (∀ row' ∈ rows', ¬SameKey row.item.shown row'.item.shown) →
    (∀ n ∈ roots row.forest, d'.parent? n = none) ∧
      ∀ n ∈ idsAll row.forest, ∀ top : Nat, top < first → ¬d'.Below top n

section
variable {ω : Watch} {count first : Nat} {d d' : Document} {q marker : NodeId}
  {initial : List NodeId} {f f' : List Subtree} {c c' : Content} {row : Row} {rows rows' : List Row}

/-- No node of a row whose key is gone is found again. -/
theorem KeepsRows.not_mem (keeps : KeepsRows ω count rows rows')
    (nodup : (idsAll (Row.forests rows)).Nodup) (hrow : row ∈ rows)
    (lone : ∀ row' ∈ rows', ¬SameKey row.item.shown row'.item.shown) {n : Nat} (hn : n < count)
    (hmem : n ∈ idsAll row.forest) : n ∉ idsAll (Row.forests rows') := by
  intro h
  obtain ⟨row', hrow', h⟩ := Row.mem_forests.1 h
  by_cases partner : ∃ r ∈ rows, SameKey r.item.shown row'.item.shown
  · obtain ⟨r, hr, same⟩ := partner
    rcases (keeps.carries r hr row' hrow' same).1 n h with h | h
    · obtain rfl := Row.eq_of_mem nodup hrow hr hmem h
      exact lone row' hrow' same
    · omega
  · push Not at partner
    have := keeps.new row' hrow' partner n h
    omega

/-- The node below which a place stands is the container, or has stayed in it. -/
theorem CarriedAt.parent_stays {g g' : List Subtree} {parent : NodeId}
    {before behind : List NodeId}
    (carried : CarriedAt ω d.nodes.size d d' marker f f' c c' g g')
    (consistent : d.Consistent) (e : d.Edits d.nodes.size d')
    (w : Rewrites d d' q initial f f' []) (stood : Block d parent before g (marker :: behind)) :
    parent = q ∨ parent ∈ idsAll f' := by
  have was : d.parent? marker = some parent := stood.behind_parent marker (by simp)
  obtain ⟨parent', before', behind', stands⟩ := carried.after
  have is : d'.parent? marker = some parent' := stands.behind_parent marker (by simp)
  obtain rfl : parent' = parent := by
    rcases e.parent consistent consistent.low marker (stood.behind_lt marker (by simp)) with
      same | none
    · exact Option.some.inj (is.symm.trans (same.trans was))
    · rw [none] at is
      contradiction
  rcases w.holds.parent_mem marker carried.placed with h | ⟨p, hp, h⟩
  · exact .inl (Option.some.inj (is.symm.trans h))
  · obtain rfl : parent' = p := Option.some.inj (is.symm.trans h)
    exact .inr hp

/-- What is carried on in front of a marker is rendered again as the keys say. -/
theorem CarriedAt.rerendered (carried : CarriedAt .blind d.nodes.size d d' marker f f' c c'
      (Row.forests rows) (Row.forests rows'))
    (consistent : d.Consistent) (e : d.Edits d.nodes.size d') (b : Block d q initial f [])
    (w : Rewrites d d' q initial f f' []) (young : ∀ n : Nat, n ∈ idsAll f → first ≤ n)
    (fits : ∀ row ∈ rows, row.Fits .blind) (fits' : ∀ row' ∈ rows', row'.Fits .blind)
    (keeps : KeepsRows .blind d.nodes.size rows rows')
    (lists : Relists (Row.shown rows) (Row.shown rows')) :
    Row.Rerendered first q marker d d' rows rows' := by
  obtain ⟨parent, before, behind, stood⟩ := carried.before
  have lt : ∀ row ∈ rows, ∀ n : Nat, n ∈ idsAll row.forest → n < d.nodes.size :=
    fun row hrow n hn => stood.holds.lt_size n (Row.subset_forests hrow hn)
  have below : ∀ row' ∈ rows', ∀ n ∈ idsAll row'.forest, d'.Below q n := fun row' hrow' n hn =>
    (w.block b).below n (carried.inside' (Row.subset_forests hrow' hn))
  have gone : ∀ row ∈ rows, (∀ row' ∈ rows', ¬SameKey row.item.shown row'.item.shown) →
      ∀ n ∈ idsAll row.forest, n ∈ idsAll f ∧ n ∉ idsAll f' := by
    intro row hrow lone n hn
    have hmem := Row.subset_forests hrow hn
    refine ⟨carried.inside hmem, fun h => ?_⟩
    exact keeps.not_mem stood.nodup hrow lone (lt row hrow n hn) hn
      (carried.stays n (lt row hrow n hn) hmem h)
  refine ⟨e, carried.before, carried.after, ⟨fits, fits'⟩, below, ?_, keeps.new, ?_⟩
  · intro row hrow row' hrow' same
    have shared := lists.shared _ (List.mem_map_of_mem hrow) _ (List.mem_map_of_mem hrow') same
    obtain ⟨nodes, share⟩ := (keeps.carries row hrow row' hrow' same).2.share (fits row hrow)
      (fits' row' hrow') same shared
    refine ⟨nodes, share, fun n hn between e₁ e₂ => ?_⟩
    obtain ⟨hn, hn'⟩ := share.mem hn
    exact e₁.below consistent e₂ (below row' hrow' n hn') (lt row hrow n hn)
  · intro row hrow lone
    constructor
    · intro n hn
      have hp : d.parent? n = some parent := stood.holds.parent_eq (by
        obtain ⟨left, right, rfl⟩ := List.append_of_mem hrow
        simp [hn])
      rcases e.parent consistent consistent.low n (lt row hrow n (roots_subset _ hn)) with
        same | none
      · exfalso
        -- only a node that is gone could still be the parent, but the marker's has stayed
        obtain ⟨hn, gone⟩ := gone row hrow lone n (roots_subset _ hn)
        obtain ⟨hparent, gone⟩ := w.gone_parent consistent e b hn gone (same.trans hp)
        rcases carried.parent_stays consistent e w stood with rfl | h
        · exact b.parent_notMem hparent
        · exact gone h
      · exact none
    · intro n hn top htop
      obtain ⟨hn, gone⟩ := gone row hrow lone n hn
      exact w.gone_not_below consistent e b hn gone fun h => by
        have := young top h
        omega

end

namespace Scene
variable {s start : Scene} {moves : List Move} {i : Nat} {q : NodeId} {v : Value}

theorem act_edits {count : Nat} (le : count ≤ s.host.document.nodes.size) (m : Move) :
    s.host.document.Edits count (s.act m).1.host.document := by
  cases m with
  | render i q v => exact Renderer.render_traces v q (s.renderers i) s.host le
  | unmount i q => exact Renderer.unmount_traces q (s.renderers i) s.host le

/-- All moves come down to edits, one after the other. -/
theorem run_edits {count : Nat} (le : count ≤ s.host.document.nodes.size) (moves : List Move) :
    s.host.document.Edits count (s.run moves).host.document := by
  induction moves generalizing s with
  | nil => exact .refl
  | cons m rest ih =>
    have step := act_edits le m
    exact step.trans (ih (Nat.le_trans le step.size_le))

theorem run_keeps_consistent (consistent : s.host.document.Consistent) (moves : List Move) :
    (s.run moves).host.document.Consistent :=
  (run_edits (Nat.zero_le _) moves).consistent consistent

/-- A list of templates that are keyed apart is rendered again in front of a marker, after any
moves that have all succeeded. The keys that are in both lists stand in the same order, each
for the same skeleton. Then each of these keeps the nodes of its markers and of its skeleton,
which stay below the container all the time. All others of the new list are new, all others of
the old list are gone, and the rows stand in the order of the new list. -/
theorem run_rerender (new : start.New) (consistent : start.host.document.Consistent)
    (on : ∀ m ∈ moves ++ [.render i q v], m.On start.host.document)
    (succeeds : start.Succeeds (moves ++ [.render i q v])) {m m' : Mounted}
    (hm : ((start.run moves).renderers i).mounted? q = some m)
    (hm' : ((start.run (moves ++ [.render i q v])).renderers i).mounted? q = some m')
    {path path' : List Nat} {marker : NodeId} {items : List Item} {content : Content}
    {handle : Nat} {vs : List Value}
    (recorded : LiveTemplate.Recorded (m.places.map Place.part?) path ⟨some marker, .list items⟩)
    (recorded' : LiveTemplate.Recorded (m'.places.map Place.part?) path' ⟨some marker, content⟩)
    (next : along path' v.parts.2 = .list handle vs)
    (lists : Relists (items.map Item.shown) vs) :
    ∃ rows rows', items = Row.items rows ∧ content = .list (Row.items rows') ∧
      Row.shown rows' = vs ∧ Row.Rerendered start.host.document.nodes.size q marker
        (start.run moves).host.document (start.run (moves ++ [.render i q v])).host.document
        rows rows' := by
  rw [run_append] at hm' ⊢
  obtain ⟨succeeds₁, succeeds₂, -⟩ := succeeds_append.1 succeeds
  obtain ⟨container, built⟩ : Move.On start.host.document (.render i q v) := on _ (by simp)
  obtain ⟨plots, st⟩ := (new.stands_of_closed consistent.closed).run_clean moves
    (fun m hm => on m (by simp [hm])) succeeds₁
  have consistent₁ := run_keeps_consistent consistent moves
  have known : (start.run moves).Recorded := run_recorded new.recorded succeeds₁
  generalize start.run moves = s at *
  replace hm' : ((s.renderers i).render v q s.host).state.mounted? q = some m' := by
    simpa [run, act] using hm'
  -- the new content is a record of the new list
  have records : ∃ items', content = .list items' ∧ items'.map Item.shown = vs := by
    obtain ⟨⟨m₁, hm₁, -, table⟩, -⟩ := Renderer.render_yields (known i q) succeeds₂
    obtain rfl := Option.some.inj (hm₁.symm.trans hm')
    exact table.shown recorded' next lists.own'.own
  obtain ⟨items', rfl, rfl⟩ := records
  obtain ⟨f', w, resumes⟩ := (Renderer.render_resumes built (st.plotted q container)
    (st.block q container) hm).of_none succeeds₂ m' hm'
  obtain ⟨g, g', carried⟩ := resumes path path' marker _ _ recorded recorded'
  obtain ⟨rows, rows', rfl, rfl, rfl, rfl, fits, fits', keeps⟩ := carried.carries.keeps lists
  rw [Row.map_shown_items, Row.map_shown_items] at lists
  refine ⟨rows, rows', rfl, rfl, (Row.map_shown_items rows').symm, ?_⟩
  have traces := Renderer.render_traces v q (s.renderers i) s.host le_rfl
  exact carried.rerendered consistent₁ traces (st.block q container) w (st.young q container) fits
    fits' keeps lists

/-- The second of three rows is taken out, and one row is put in front of each of the others. -/
theorem run_rerender_rows :
    let row : SharedSkeleton := ⟨.parsed 3, ⟨[.element "li" [("key", .hole 0)] [.hole 1]], 2⟩⟩
    let item (key text : String) : Value := .template 1 row [.text key, .text text]
    let old := [item "a" "1", item "b" "2", item "c" "3"]
    let next := [item "d" "4", item "a" "5", item "e" "6", item "c" "7"]
    let moves : List Move := [.render 0 body (.list 2 old)]
    let before := ({} : Scene).run moves
    let after := ({} : Scene).run (moves ++ [.render 0 body (.list 3 next)])
    after.host.document.innerMarkup body = "<!----><li>4<!----></li><!----><!----><li>5<!----></li>" ++
        "<!----><!----><li>6<!----></li><!----><!----><li>7<!----></li><!----><!---->" ∧
      ∃ marker rows rows', Row.shown rows = old ∧ Row.shown rows' = next ∧
        Row.Rerendered 1 body marker before.host.document after.host.document rows rows' := by
  intro row item old next moves before after
  have lists : Relists old next := by decide +kernel
  have on : ∀ m ∈ moves ++ [.render 0 body (.list 3 next)], m.On ({} : Scene).host.document := by
    have made : row.Made := .inr ⟨["<li key=", ">", "</li>"], by decide +kernel⟩
    have container : ({} : Scene).host.document.isContainer body = true := by decide
    simp [moves, old, next, item, Move.On, container, Value.Built, Value.BuiltAll, made]
    decide
  have succeeds : ({} : Scene).Succeeds (moves ++ [.render 0 body (.list 3 next)]) := by
    refine ⟨?_, ?_, trivial⟩ <;> decide +kernel
  -- the list stands in front of the same marker both times
  let marker? (m : Mounted) := (m.places.map Place.part?)[0]?.map fun p => p.map Part.marker?
  have first : ((before.renderers 0).mounted? body).map marker? = some (some (some (some 1))) := by
    decide +kernel
  have second : ((after.renderers 0).mounted? body).map marker? = some (some (some (some 1))) := by
    decide +kernel
  simp only [marker?, Option.map_eq_some_iff] at first second
  obtain ⟨m, hm, part, hpart, ⟨_, content⟩, rfl, rfl⟩ := first
  obtain ⟨m', hm', part', hpart', ⟨_, content'⟩, rfl, rfl⟩ := second
  have records : m.Records [.list 2 old] := by
    have shows : before.Shows 0 body (.list 2 old) :=
      act_shows (New.recorded fun _ _ => rfl) succeeds.1
    obtain ⟨m₁, hm₁, -, records⟩ := shows
    obtain rfl := Option.some.inj (hm₁.symm.trans hm)
    exact records
  obtain ⟨items, rfl, hitems⟩ := records.shown (.here hpart) rfl lists.own.own
  obtain ⟨rows, rows', rfl, -, shown, again⟩ := run_rerender (fun _ _ => rfl) consistent_empty on
    succeeds hm hm' (.here hpart) (.here hpart') rfl (hitems ▸ lists)
  rw [Row.map_shown_items] at hitems
  exact ⟨by decide +kernel, 1, rows, rows', hitems, shown, again⟩

/-- A list in a container inside of what has been rendered. The markup of the element that it
is changes, and the rows are gone, while they are still on record. When the list is rendered
again, the key that it keeps is shown by nodes without a parent. -/
theorem inner_container_hides_rows :
    let host : SharedSkeleton := ⟨.parsed 2, ⟨[.element "div" [("unsafe-html", .hole 0)] []], 1⟩⟩
    let row : SharedSkeleton := ⟨.parsed 3, ⟨[.element "li" [("key", .hole 0)] [.hole 1]], 2⟩⟩
    let item (key text : String) : Value := .template 1 row [.text key, .text text]
    let old := [item "a" "1", item "b" "2"]
    let next := [item "a" "3"]
    let moves : List Move := [.render 0 body (.template 4 host [.text "x"]),
      .render 0 1 (.list 2 old), .render 0 body (.template 5 host [.text "y"])]
    let before := ({} : Scene).run moves
    let after := ({} : Scene).run (moves ++ [.render 0 1 (.list 3 next)])
    ({} : Scene).Succeeds (moves ++ [.render 0 1 (.list 3 next)]) ∧ Relists old next ∧
      ((before.renderers 0).mounted? 1).map Mounted.recorded =
        some [3, 3, 4, 5, 8, 9, 10, 11, 14, 15] ∧
      ((after.renderers 0).mounted? 1).map Mounted.recorded = some [3, 3, 4, 5, 8, 9] ∧
      after.host.document.innerMarkup body = "<div>y</div>" ∧
      ∀ n ∈ [4, 7, 5], after.host.document.parent? n = none := by
  intro host row item old next moves before after
  refine ⟨⟨?_, ?_, ?_, ?_, trivial⟩, ?_, ?_, ?_, ?_, ?_⟩
  all_goals decide +kernel

end Scene

end LiveTemplate
