import LiveTemplate.Proofs.Dismounting

/-!
# Who a node belongs to

The forest that has been mounted belongs to what is recorded of it, node by node. A node
belongs to one skeleton as a part of it, or was made from the markup of a host, or it is
the text of a content or one of the two markers around it. A ledger lists the nodes of a
forest in the order of the document, each with what it belongs to. So a forest that holds
no node twice gives each node one entry.
-/
namespace LiveTemplate
open Document Subtree Live

/-- What a node belongs to. A skeleton inside of another is known by the marker in front
of it, and a content by its first node. -/
inductive Role where
  | static (start : Option NodeId)
  | markup (host : NodeId)
  | content (first : NodeId)
deriving DecidableEq, Repr

abbrev Ledger := List (NodeId × Role)

namespace Stem

mutual
/-- The entries of a mounted node, with those of what fills its spots. -/
def ledger (start : Option NodeId) (fill : NodeId → List Subtree) (books : Nat → Ledger) :
    Stem → Ledger
  | .element id _ _ children => (id, .static start) :: ledgerAll start fill books children
  | .host id _ _ _ => (id, .static start) :: (idsAll (fill id)).map (·, .markup id)
  | .text id _ => [(id, .static start)]
  | .hole marker index => books index ++ [(marker, .static start)]
termination_by structural s => s

def ledgerAll (start : Option NodeId) (fill : NodeId → List Subtree) (books : Nat → Ledger) :
    List Stem → Ledger
  | [] => []
  | s :: rest => s.ledger start fill books ++ ledgerAll start fill books rest
termination_by structural ss => ss
end

variable {start : Option NodeId} {data : NodeId → ElementData} {fill : NodeId → List Subtree}
  {books : Nat → Ledger}

mutual
theorem names_ledger : (s : Stem) →
    (∀ m ∈ s.markers, Entries.names (books m.2) = idsAll (fill m.1)) →
    Entries.names (s.ledger start fill books) = idsAll (s.assemble data fill)
  | .element id tag attrs children, h => by
      have below := names_ledgerAll children h
      simpa [ledger, assemble, Entries.names] using below
  | .host id tag attrs hidden, _ => by
      simp [ledger, assemble, Entries.names, Function.comp_def]
  | .text id s, _ => rfl
  | .hole marker index, h => by
      have here := h _ (List.mem_singleton_self _)
      simpa [ledger, assemble, Entries.names] using here
termination_by structural s => s

/-- The ledger lists the nodes of the forest in order. -/
theorem names_ledgerAll : (ss : List Stem) →
    (∀ m ∈ markersAll ss, Entries.names (books m.2) = idsAll (fill m.1)) →
    Entries.names (ledgerAll start fill books ss) = idsAll (assembleAll data fill ss)
  | [], _ => rfl
  | s :: rest, h => by
      have first := names_ledger s fun m hm =>
        h m (List.mem_append_left _ hm)
      have others := names_ledgerAll rest fun m hm =>
        h m (List.mem_append_right _ hm)
      rw [ledgerAll, assembleAll, idsAll_append, ← first, ← others]
      exact List.map_append
termination_by structural ss => ss
end

end Stem

mutual
/-- A content has put this forest into the document, and it belongs to the content as the
ledger says. -/
inductive Owns : Content → List Subtree → Ledger → Prop
  | empty : Owns .empty [] []
  | text (n : NodeId) (s : String) : Owns (.text n) [.node n (.text s) []] [(n, .content n)]
  | nested {shared : SharedSkeleton} {start stop : NodeId} {places : List Place} {ss : List Stem}
      {data : NodeId → ElementData} {fill : NodeId → List Subtree} {books : Nat → Ledger}
      (seated : Seated shared ss places)
      (contents : ∀ (i : Nat) (marker : NodeId) (item : Item),
        places[i]? = some (.content marker item) → Owns item.content (fill marker) (books i)) :
      Owns (.nested shared start stop places)
        (.node start .marker [] :: Stem.assembleAll data fill ss ++ [.node stop .marker []])
        ((start, .content start) :: Stem.ledgerAll (some start) fill books ss ++
          [(stop, .content start)])
  | list {items : List Item} {f : List Subtree} {l : Ledger} (owns : OwnsItems items f l) :
      Owns (.list items) f l

/-- The items of a list have put these forests into the document, one behind the other. -/
inductive OwnsItems : List Item → List Subtree → Ledger → Prop
  | nil : OwnsItems [] [] []
  | cons {item : Item} {rest : List Item} {f g : List Subtree} {l m : Ledger}
      (head : Owns item.content f l) (tail : OwnsItems rest g m) :
      OwnsItems (item :: rest) (f ++ g) (l ++ m)
end

/-- What is mounted in a container is this forest, which belongs to it as the ledger says. -/
def Mounted.Owns (m : Mounted) (f : List Subtree) (l : Ledger) : Prop :=
  ∃ ss data fill books, f = Stem.assembleAll data fill ss ∧
    l = Stem.ledgerAll none fill books ss ∧ m.nodes = ss.map Stem.top ∧
    Seated m.shared ss m.places ∧
    ∀ (i : Nat) (marker : NodeId) (item : Item), m.places[i]? = some (.content marker item) →
      LiveTemplate.Owns item.content (fill marker) (books i)

mutual
theorem Owns.names_eq : {c : Content} → {f : List Subtree} → {l : Ledger} → Owns c f l →
    Entries.names l = idsAll f
  | _, _, _, .empty => rfl
  | _, _, _, .text n s => rfl
  | _, _, _, @Owns.nested shared start stop places ss data fill books seated contents => by
      have inner : Entries.names (Stem.ledgerAll (some start) fill books ss) =
          idsAll (Stem.assembleAll data fill ss) := by
        refine Stem.names_ledgerAll ss fun m hm => ?_
        obtain ⟨item, hi⟩ := seated.place_of_marker hm
        exact (contents _ _ _ hi).names_eq
      simpa [Entries.names] using inner
  | _, _, _, .list items => items.names_eq

/-- The ledger of a content lists the nodes that it has put into the document. -/
theorem OwnsItems.names_eq : {items : List Item} → {f : List Subtree} → {l : Ledger} →
    OwnsItems items f l → Entries.names l = idsAll f
  | _, _, _, .nil => rfl
  | _, _, _, .cons head tail => by
      rw [idsAll_append, ← head.names_eq, ← tail.names_eq]
      exact List.map_append
end

/-! ### Whatever is faithful has a ledger -/

/-- The ledgers of the contents of a table. -/
theorem exists_books {places : List Place} {fill : NodeId → List Subtree}
    (h : ∀ (i : Nat) (marker : NodeId) (item : Item), places[i]? = some (.content marker item) →
      ∃ l, Owns item.content (fill marker) l) :
    ∃ books : Nat → Ledger, ∀ (i : Nat) (marker : NodeId) (item : Item),
      places[i]? = some (.content marker item) → Owns item.content (fill marker) (books i) := by
  have : ∀ i : Nat, ∃ l, ∀ (marker : NodeId) (item : Item),
      places[i]? = some (.content marker item) → Owns item.content (fill marker) l := by
    intro i
    by_cases hi : ∃ marker item, places[i]? = some (.content marker item)
    · obtain ⟨marker, item, hi⟩ := hi
      obtain ⟨l, owns⟩ := h i marker item hi
      refine ⟨l, fun marker' item' hi' => ?_⟩
      obtain ⟨rfl, rfl⟩ : marker = marker' ∧ item = item' := by simpa [hi] using hi'
      exact owns
    · exact ⟨[], fun marker item hi' => absurd ⟨marker, item, hi'⟩ hi⟩
  choose books hbooks using this
  exact ⟨books, hbooks⟩

variable {ω : Watch} {v : Value} {c : Content} {f : List Subtree}

mutual
theorem Fits.owns : {v : Value} → {c : Content} → {f : List Subtree} → Fits ω True v c f →
    ∃ l, Owns c f l
  | _, _, _, .empty shows => by
      obtain ⟨rfl, -⟩ := shows trivial
      exact ⟨_, .empty⟩
  | _, _, _, .text left right shows => by
      obtain ⟨rfl, rfl, -⟩ := shows trivial
      exact ⟨_, .text _ _⟩
  | _, _, _, .nested left right table contents shows => by
      obtain ⟨rfl, rfl, -⟩ := shows trivial
      obtain ⟨books, hbooks⟩ := exists_books fun i marker item hi => (contents i marker item hi).owns
      rw [List.nil_append, List.append_nil]
      exact ⟨_, .nested table.seated hbooks⟩
  | _, .list _, _, .list fits _ => by
      obtain ⟨l, owns⟩ := fits.owns
      exact ⟨l, .list owns⟩

/-- Nothing stands around what faithful items have put into the document. -/
theorem FitsItems.owns : {items : List Item} → {f : List Subtree} → FitsItems ω True items f →
    ∃ l, OwnsItems items f l
  | _, _, .nil shows => by
      obtain rfl := shows trivial
      exact ⟨_, .nil⟩
  | _, _, .cons _ _ head tail => by
      obtain ⟨l, owns⟩ := head.owns
      obtain ⟨m, others⟩ := tail.owns
      exact ⟨_, .cons owns others⟩
end

/-! ### What is recorded -/

mutual
/-- All nodes that a content has on record. -/
def Content.recorded : Content → List NodeId
  | .empty => []
  | .text n => [n]
  | .nested _ start stop places => start :: stop :: recordedAt places
  | .list items => recordedOf items
termination_by structural c => c

def Place.recorded : Place → List NodeId
  | .vacant => []
  | .attribute n _ _ => [n]
  | .content marker item => marker :: item.recorded
termination_by structural p => p

def Item.recorded : Item → List NodeId
  | .mk _ content => content.recorded
termination_by structural item => item

def recordedAt : List Place → List NodeId
  | [] => []
  | p :: rest => p.recorded ++ recordedAt rest
termination_by structural places => places

def recordedOf : List Item → List NodeId
  | [] => []
  | item :: rest => item.recorded ++ recordedOf rest
termination_by structural items => items
end

theorem mem_recordedAt {places : List Place} {n : NodeId} :
    n ∈ recordedAt places ↔ ∃ (i : Nat) (p : Place), places[i]? = some p ∧ n ∈ p.recorded := by
  induction places with
  | nil => simp [recordedAt]
  | cons p rest ih =>
    rw [recordedAt, List.mem_append, ih]
    constructor
    · rintro (h | ⟨i, q, hi, h⟩)
      · exact ⟨0, p, rfl, h⟩
      · exact ⟨i + 1, q, hi, h⟩
    · rintro ⟨i, q, hi, h⟩
      cases i with
      | zero =>
        obtain rfl : p = q := by simpa using hi
        exact .inl h
      | succ i => exact .inr ⟨i, q, by simpa using hi, h⟩

@[simp] theorem Item.recorded_eq (item : Item) : item.recorded = item.content.recorded := by
  cases item
  rfl

/-- Everything that a table has on record stands in the document, given that the records of
its contents do. -/
theorem Seated.recorded {shared : SharedSkeleton} {ss : List Stem} {places : List Place}
    {data : NodeId → ElementData} {fill : NodeId → List Subtree} (s : Seated shared ss places)
    (contents : ∀ (i : Nat) (marker : NodeId) (item : Item),
      places[i]? = some (.content marker item) → item.content.recorded ⊆ idsAll (fill marker)) :
    recordedAt places ⊆ idsAll (Stem.assembleAll data fill ss) := by
  intro n hn
  obtain ⟨i, p, hp, hn⟩ := mem_recordedAt.1 hn
  rcases p with _ | ⟨m, b, v⟩ | ⟨marker, item⟩
  · simp [Place.recorded] at hn
  · obtain rfl : n = m := by simpa [Place.recorded] using hn
    obtain ⟨tag, attrs, he, -⟩ := s.element_of hp
    exact (Stem.mem_idsAll data fill ss).1 _ he
  · have hm := s.marker_of hp
    rw [Place.recorded, List.mem_cons, Item.recorded_eq] at hn
    rcases hn with rfl | hn
    · exact (Stem.mem_idsAll data fill ss).2.2 _ hm
    · exact Stem.fillAll_subset data fill ss _ hm (contents i marker item hp hn)

mutual
theorem Owns.recorded : {c : Content} → {f : List Subtree} → {l : Ledger} → Owns c f l →
    c.recorded ⊆ idsAll f
  | _, _, _, .empty => fun _ hn => hn
  | _, _, _, .text n s => fun _ hn => hn
  | _, _, _, @Owns.nested shared start stop places ss data fill books seated contents => by
      have inner : recordedAt places ⊆ idsAll (Stem.assembleAll data fill ss) :=
        seated.recorded fun i marker item hi => (contents i marker item hi).recorded
      intro n hn
      simp only [Content.recorded, List.mem_cons] at hn
      rcases hn with rfl | rfl | hn
      · simp
      · simp
      · simp [inner hn]
  | _, _, _, .list owns => owns.recorded

/-- Everything that a content has on record stands in the document. -/
theorem OwnsItems.recorded : {items : List Item} → {f : List Subtree} → {l : Ledger} →
    OwnsItems items f l → recordedOf items ⊆ idsAll f
  | _, _, _, .nil => fun _ hn => hn
  | _, _, _, .cons head tail => by
      intro n hn
      rw [recordedOf, List.mem_append, Item.recorded_eq] at hn
      rw [idsAll_append, List.mem_append]
      exact hn.imp (fun h => head.recorded h) fun h => tail.recorded h
end

/-! ### Where a content stands -/

/-- A content inside of another one or of a table. The one of a place has the marker of
the place behind it. -/
structure Part where
  marker? : Option NodeId
  content : Content

def Place.part? : Place → Option Part
  | .content marker item => some ⟨some marker, item.content⟩
  | _ => none

/-- The contents at the places of a template, or of the items of a list. -/
def Content.parts : Content → List (Option Part)
  | .nested _ _ _ places => places.map Place.part?
  | .list items => items.map fun item => some ⟨none, item.content⟩
  | _ => []

theorem part_of_places {places : List Place} {i : Nat} {part : Part}
    (h : (places.map Place.part?)[i]? = some (some part)) :
    ∃ marker item, places[i]? = some (.content marker item) ∧
      part = ⟨some marker, item.content⟩ := by
  rw [List.getElem?_map, Option.map_eq_some_iff] at h
  obtain ⟨p, hp, heq⟩ := h
  cases p <;> simp [Place.part?] at heq
  exact ⟨_, _, hp, heq.symm⟩

theorem part_of_items {items : List Item} {i : Nat} {part : Part}
    (h : (Content.list items).parts[i]? = some (some part)) :
    ∃ item, items[i]? = some item ∧ part = ⟨none, item.content⟩ := by
  rw [Content.parts, List.getElem?_map, Option.map_eq_some_iff] at h
  obtain ⟨item, hi, heq⟩ := h
  exact ⟨item, hi, (Option.some.inj heq).symm⟩

/-- What is recorded along a path, of which each step is the index of a hole or of an item. -/
inductive Recorded : List (Option Part) → List Nat → Part → Prop
  | here {parts : List (Option Part)} {i : Nat} {part : Part} (h : parts[i]? = some (some part)) :
      Recorded parts [i] part
  | inside {parts : List (Option Part)} {i : Nat} {part inner : Part} {path : List Nat}
      (h : parts[i]? = some (some part)) (r : Recorded part.content.parts path inner) :
      Recorded parts (i :: path) inner

theorem Recorded.ne_nil {parts : List (Option Part)} {path : List Nat} {part : Part}
    (r : Recorded parts path part) : path ≠ [] := by
  cases r <;> simp

/-- The content of a part stands in its segment among the children of some node, and what
is behind it there begins with the marker, if it has one. -/
def Stood (ω : Watch) (d : Document) (part : Part) (segment : List Subtree) : Prop :=
  ∃ parent before behind v, Block d parent before segment behind ∧
    Fits ω True v part.content segment ∧
    ∀ marker, part.marker? = some marker → behind.head? = some marker

/-- All that is recorded has its segment in the forest, and two segments have a node in
common only if one of them is recorded inside of the other. -/
structure Segments (ω : Watch) (d : Document) (parts : List (Option Part)) (forest : List Subtree)
    (segment : List Nat → List Subtree) : Prop where
  stood : ∀ path part, Recorded parts path part → Stood ω d part (segment path)
  inside : ∀ path part, Recorded parts path part → idsAll (segment path) ⊆ idsAll forest
  apart : ∀ path part path' part', Recorded parts path part → Recorded parts path' part' →
    ¬path <+: path' → ¬path' <+: path →
    ∀ n ∈ idsAll (segment path), n ∉ idsAll (segment path')

variable {d : Document} {parts : List (Option Part)} {forest : List Subtree}

theorem Segments.nil : Segments ω d [] forest fun _ => [] where
  stood _ _ r := by cases r <;> simp at *
  inside _ _ r := by cases r <;> simp at *
  apart _ _ _ _ r := by cases r <;> simp at *

/-- The segment along a path, given those of the parts and those inside of each. -/
def segmentAt (own : Nat → List Subtree) (below : Nat → List Nat → List Subtree) :
    List Nat → List Subtree
  | [] => []
  | i :: path => if path = [] then own i else below i path

theorem Recorded.part_at {i : Nat} {path : List Nat} {part : Part}
    (r : Recorded parts (i :: path) part) : ∃ part', parts[i]? = some (some part') := by
  cases r with
  | here h => exact ⟨_, h⟩
  | inside h r => exact ⟨_, h⟩

section
variable {own : Nat → List Subtree} {below : Nat → List Nat → List Subtree} {i : Nat}
  {path path' : List Nat} {part part' : Part}

theorem segmentAt_single : segmentAt own below [i] = own i := by
  rw [segmentAt, if_pos rfl]

theorem segmentAt_below (h : path ≠ []) : segmentAt own below (i :: path) = below i path :=
  if_neg h

/-- What is recorded in a part stands in the segment of the part. -/
theorem segmentAt_subset
    (within : ∀ (i : Nat) (part : Part), parts[i]? = some (some part) →
      Segments ω d part.content.parts (own i) (below i))
    (r : Recorded parts (i :: path) part) :
    idsAll (segmentAt own below (i :: path)) ⊆ idsAll (own i) := by
  cases r with
  | here h => exact segmentAt_single ▸ List.Subset.refl _
  | inside h r =>
    rw [segmentAt_below r.ne_nil]
    exact (within i _ h).inside path part r

/-- What is recorded in the same part has segments apart as it has there. -/
theorem segmentAt_apart
    (within : ∀ (i : Nat) (part : Part), parts[i]? = some (some part) →
      Segments ω d part.content.parts (own i) (below i))
    (r : Recorded parts (i :: path) part) (r' : Recorded parts (i :: path') part')
    (hp : ¬path <+: path') (hp' : ¬path' <+: path) :
    ∀ n ∈ idsAll (segmentAt own below (i :: path)), n ∉ idsAll (segmentAt own below (i :: path')) := by
  cases r with
  | here h => exact absurd List.nil_prefix hp
  | inside h r =>
    cases r' with
    | here h' => exact absurd List.nil_prefix hp'
    | inside h' r' =>
      obtain rfl := Option.some.inj (Option.some.inj (h.symm.trans h'))
      rw [segmentAt_below r.ne_nil, segmentAt_below r'.ne_nil]
      exact (within i _ h).apart path part path' part' r r' hp hp'

end

/-- The segments inside of all parts, if there are some inside of each. -/
theorem Segments.exists_below {own : Nat → List Subtree}
    (inner : ∀ (i : Nat) (part : Part), parts[i]? = some (some part) →
      ∃ segment, Segments ω d part.content.parts (own i) segment) :
    ∃ below : Nat → List Nat → List Subtree, ∀ (i : Nat) (part : Part),
      parts[i]? = some (some part) → Segments ω d part.content.parts (own i) (below i) := by
  have each : ∀ i : Nat, ∃ segment, ∀ part : Part, parts[i]? = some (some part) →
      Segments ω d part.content.parts (own i) segment := by
    intro i
    by_cases hi : ∃ part : Part, parts[i]? = some (some part)
    · obtain ⟨part, hi⟩ := hi
      obtain ⟨segment, segments⟩ := inner i part hi
      refine ⟨segment, fun part' hi' => ?_⟩
      obtain rfl := Option.some.inj (Option.some.inj (hi.symm.trans hi'))
      exact segments
    · exact ⟨fun _ => [], fun part hi' => absurd ⟨part, hi'⟩ hi⟩
  choose below within using each
  exact ⟨below, within⟩

/-- The segments of some parts and of all that is recorded in them. -/
theorem Segments.exists_of_parts {own : Nat → List Subtree}
    (stood : ∀ (i : Nat) (part : Part), parts[i]? = some (some part) → Stood ω d part (own i))
    (inside : ∀ (i : Nat) (part : Part), parts[i]? = some (some part) →
      idsAll (own i) ⊆ idsAll forest)
    (apart : ∀ (i j : Nat) (part part' : Part), parts[i]? = some (some part) →
      parts[j]? = some (some part') → i ≠ j → ∀ n ∈ idsAll (own i), n ∉ idsAll (own j))
    (inner : ∀ (i : Nat) (part : Part), parts[i]? = some (some part) →
      ∃ segment, Segments ω d part.content.parts (own i) segment) :
    ∃ segment, Segments ω d parts forest segment := by
  obtain ⟨below, within⟩ := exists_below inner
  refine ⟨segmentAt own below, ?_, ?_, ?_⟩
  · intro path part r
    cases r with
    | here h => exact segmentAt_single ▸ stood _ _ h
    | inside h r =>
      rw [segmentAt_below r.ne_nil]
      exact (within _ _ h).stood _ _ r
  · intro path part r n hn
    obtain ⟨i, path, rfl⟩ := List.exists_cons_of_ne_nil r.ne_nil
    obtain ⟨_, h⟩ := r.part_at
    exact inside i _ h (segmentAt_subset within r hn)
  · intro path part path' part' r r' hp hp' n hn hn'
    obtain ⟨i, path, rfl⟩ := List.exists_cons_of_ne_nil r.ne_nil
    obtain ⟨j, path', rfl⟩ := List.exists_cons_of_ne_nil r'.ne_nil
    by_cases hij : i = j
    · subst hij
      rw [List.prefix_cons_inj] at hp hp'
      exact segmentAt_apart within r r' hp hp' n hn hn'
    · obtain ⟨_, h⟩ := r.part_at
      obtain ⟨_, h'⟩ := r'.part_at
      exact apart i j _ _ h h' hij n (segmentAt_subset within r hn)
        (segmentAt_subset within r' hn')

section
variable {parent : NodeId} {before behind : List NodeId}

/-- What stands in front of the marker of a place. -/
def Places.forestAt (places : List Place) (fill : NodeId → List Subtree) (i : Nat) : List Subtree :=
  match places[i]? with
  | some (.content marker _) => fill marker
  | _ => []

/-- The segments of a table that has been mounted, given those of its contents. -/
theorem Seated.segments {shared : SharedSkeleton} {ss : List Stem} {places : List Place}
    {data : NodeId → ElementData} {fill : NodeId → List Subtree} (s : Seated shared ss places)
    (b : Block d parent before (Stem.assembleAll data fill ss) behind)
    (fits : PlacesFit ω (fun _ => True) fill places)
    (contents : ∀ (i : Nat) (marker : NodeId) (item : Item),
      places[i]? = some (.content marker item) → ∀ q before' behind',
      Block d q before' (fill marker) behind' →
      ∃ segment, Segments ω d item.content.parts (fill marker) segment) :
    ∃ segment, Segments ω d (places.map Place.part?) (Stem.assembleAll data fill ss) segment := by
  have distinct := Stem.distinctAll ss b.nodup
  have own_eq : ∀ (i : Nat) (marker : NodeId) (item : Item),
      places[i]? = some (.content marker item) → Places.forestAt places fill i = fill marker := by
    intro i marker item h
    simp only [Places.forestAt, h]
  refine @Segments.exists_of_parts ω d _ _ (Places.forestAt places fill) ?_ ?_ ?_ ?_
  · intro i part h
    obtain ⟨marker, item, hi, rfl⟩ := part_of_places h
    obtain ⟨q, before', rest, f⟩ := Stem.focusAll_marker ss b _ (s.marker_of hi)
    rw [own_eq i marker item hi]
    refine ⟨q, before', _, item.shown, f.block, fits i marker item hi, fun m hm => ?_⟩
    rw [← hm]
    rfl
  · intro i part h
    obtain ⟨marker, item, hi, rfl⟩ := part_of_places h
    rw [own_eq i marker item hi]
    exact Stem.fillAll_subset data fill ss _ (s.marker_of hi)
  · intro i j part part' h h' hij n hn hn'
    obtain ⟨marker, item, hi, rfl⟩ := part_of_places h
    obtain ⟨marker', item', hj, rfl⟩ := part_of_places h'
    rw [own_eq i marker item hi] at hn
    rw [own_eq j marker' item' hj] at hn'
    exact hij (congrArg Prod.snd
      (distinct.fill_eq _ (s.marker_of hi) _ (s.marker_of hj) n hn hn'))
  · intro i part h
    obtain ⟨marker, item, hi, rfl⟩ := part_of_places h
    obtain ⟨q, before', rest, f⟩ := Stem.focusAll_marker ss b _ (s.marker_of hi)
    rw [own_eq i marker item hi]
    exact contents i marker item hi q before' _ f.block

/-- The forests of the items of a list, apart from one another, with their segments. -/
def ItemSegments (ω : Watch) (d : Document) (items : List Item) (f : List Subtree)
    (own : Nat → List Subtree) : Prop :=
  (∀ (k : Nat) (item : Item), items[k]? = some item → Stood ω d ⟨none, item.content⟩ (own k) ∧
      idsAll (own k) ⊆ idsAll f ∧
      ∃ segment, Segments ω d item.content.parts (own k) segment) ∧
    ∀ (k l : Nat) (item item' : Item), items[k]? = some item → items[l]? = some item' → k ≠ l →
      ∀ n ∈ idsAll (own k), n ∉ idsAll (own l)

theorem ItemSegments.cons {item : Item} {rest : List Item} {f g : List Subtree}
    {own : Nat → List Subtree} (b : Block d parent before (f ++ g) behind)
    (head : Fits ω True item.shown item.content f)
    (inner : ∃ segment, Segments ω d item.content.parts f segment)
    (tail : ItemSegments ω d rest g own) :
    ItemSegments ω d (item :: rest) (f ++ g) fun k => Nat.casesOn k f own := by
  have b₁ : Block d parent before ([] ++ f ++ g) behind := b
  have disjoint : ∀ n ∈ idsAll f, n ∉ idsAll g := by
    have nodup := b.nodup
    rw [idsAll_append, List.nodup_append] at nodup
    exact fun n hn hm => nodup.2.2 n hn n hm rfl
  refine ⟨fun k item' hk => ?_, fun k l item₁ item₂ hk hl hkl n hn hm => ?_⟩
  · cases k with
    | zero =>
      obtain rfl : item = item' := by simpa using hk
      exact ⟨⟨_, _, _, _, b₁.part, head, by simp⟩, by simp, inner⟩
    | succ k =>
      obtain ⟨hstood, hsub, hinner⟩ := tail.1 k item' (by simpa using hk)
      refine ⟨hstood, fun n hn => ?_, hinner⟩
      rw [idsAll_append]
      exact List.mem_append_right _ (hsub hn)
  · cases k with
    | zero =>
      cases l with
      | zero => exact hkl rfl
      | succ l => exact disjoint n hn ((tail.1 l item₂ (by simpa using hl)).2.1 hm)
    | succ k =>
      have hn' := (tail.1 k item₁ (by simpa using hk)).2.1 hn
      cases l with
      | zero => exact disjoint n hm hn'
      | succ l =>
        exact tail.2 k l item₁ item₂ (by simpa using hk) (by simpa using hl)
          (fun h => hkl (congrArg _ h)) n hn hm

mutual
theorem Fits.segments : {v : Value} → {c : Content} → {f : List Subtree} → Fits ω True v c f →
    ∀ {parent : NodeId} {before behind : List NodeId}, Block d parent before f behind →
    ∃ segment, Segments ω d c.parts f segment
  | _, _, _, .empty _, _, _, _, _ => ⟨_, .nil⟩
  | _, _, _, .text .., _, _, _, _ => ⟨_, .nil⟩
  | _, _, _, @Fits.nested _ _ v shared start stop places ss data fill left right table contents
      shows, parent, before, behind, b => by
      have b₁ : Block d parent before ((left ++ [.node start .marker []]) ++
          Stem.assembleAll data fill ss ++ (.node stop .marker [] :: right)) behind := by
        simpa using b
      obtain ⟨segment, hs⟩ := table.seated.segments b₁.part contents fun i marker item hi q _ _ b' =>
        (contents i marker item hi).segments b'
      refine ⟨segment, hs.stood, fun path part r n hn => ?_, hs.apart⟩
      simp [hs.inside path part r hn]
  | _, .list items, f, .list fits _, _, _, _, b => by
      obtain ⟨own, hown, apart⟩ := fits.segments b
      refine @Segments.exists_of_parts ω d _ _ own ?_ ?_ ?_ ?_
      · intro k part h
        obtain ⟨item, hk, rfl⟩ := part_of_items h
        exact (hown k item hk).1
      · intro k part h
        obtain ⟨item, hk, rfl⟩ := part_of_items h
        exact (hown k item hk).2.1
      · intro k l part part' h h' hkl
        obtain ⟨item₁, hk, rfl⟩ := part_of_items h
        obtain ⟨item₂, hl, rfl⟩ := part_of_items h'
        exact apart k l item₁ item₂ hk hl hkl
      · intro k part h
        obtain ⟨item, hk, rfl⟩ := part_of_items h
        exact (hown k item hk).2.2

/-- What a faithful content has on record stands in segments of its forest. -/
theorem FitsItems.segments : {items : List Item} → {f : List Subtree} →
    FitsItems ω True items f →
    ∀ {parent : NodeId} {before behind : List NodeId}, Block d parent before f behind →
    ∃ own, ItemSegments ω d items f own
  | _, _, .nil _, _, _, _, _ => ⟨fun _ => [], by simp, by simp⟩
  | _, _, @FitsItems.cons _ _ item rest f g _ _ head tail, parent, before, behind, b => by
      have b₁ : Block d parent before ([] ++ f ++ g) behind := b
      have b₂ : Block d parent before (f ++ g ++ []) behind := by simpa using b
      obtain ⟨own, hown⟩ := tail.segments b₂.part
      exact ⟨_, .cons b head (head.segments b₁.part) hown⟩
end

end

end LiveTemplate
