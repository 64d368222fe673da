import LiveTemplate.Proofs.Echoing
import LiveTemplate.Proofs.Identity
import LiveTemplate.Proofs.Insertion
import LiveTemplate.Proofs.MountedTables

/-!
# Hosts that are guarded

Whatever a render does, it starts at a node that a table has on record: it changes the data of
such a node, takes it or a run of its siblings out, puts new nodes in front of it, or replaces
all that stands in it. A host is guarded as long as no node on record stands below it. Then
no step at another node on record reaches what stands in the host, so it still is what its
markup was mounted as.
-/
namespace LiveTemplate
open Document Subtree

/-! ### What is on record -/

/-- A node on record. With a host goes the value whose markup it shows. -/
abbrev Mark := NodeId × Option Value

mutual
/-- The nodes from which a content is patched or cleared. -/
def Content.marks : Content → List Mark
  | .empty => []
  | .text n => [(n, none)]
  | .nested _ start _ places => (start, none) :: marksAt places
  | .list items => marksOf items
termination_by structural c => c

def Place.marks : Place → List Mark
  | .vacant => []
  | .attribute n b v => [(n, if b = .markup then some v else none)]
  | .content marker item => (marker, none) :: item.marks
termination_by structural p => p

def Item.marks : Item → List Mark
  | .mk _ content => content.marks
termination_by structural item => item

def marksAt : List Place → List Mark
  | [] => []
  | p :: rest => p.marks ++ marksAt rest
termination_by structural places => places

def marksOf : List Item → List Mark
  | [] => []
  | item :: rest => item.marks ++ marksOf rest
termination_by structural items => items
end

theorem Item.marks_eq (item : Item) : item.marks = item.content.marks := by
  cases item
  rfl

theorem marksOf_eq (items : List Item) : marksOf items = items.flatMap Item.marks := by
  induction items with
  | nil => rfl
  | cons item rest ih => rw [marksOf, ih, List.flatMap_cons]

theorem mem_marksAt {places : List Place} {k : Mark} : k ∈ marksAt places ↔
    ∃ (i : Nat) (p : Place), places[i]? = some p ∧ k ∈ p.marks := by
  induction places with
  | nil => simp [marksAt]
  | cons p rest ih =>
    rw [marksAt, List.mem_append, ih]
    constructor
    · rintro (h | ⟨i, q, hq, h⟩)
      · exact ⟨0, p, rfl, h⟩
      · exact ⟨i + 1, q, hq, h⟩
    · rintro ⟨_ | i, q, hq, h⟩
      · obtain rfl := Option.some.inj hq
        exact .inl h
      · exact .inr ⟨i, q, hq, h⟩

mutual
theorem Content.mem_marks_of_firstNode? : (c : Content) → {n : NodeId} → c.firstNode? = some n →
    (n, none) ∈ c.marks
  | .empty, _, h => by simp [Content.firstNode?] at h
  | .text _, _, h => by
      obtain rfl := Option.some.inj h
      exact List.mem_singleton_self _
  | .nested .., _, h => by
      obtain rfl := Option.some.inj h
      exact List.mem_cons_self ..
  | .list items, _, h => mem_marksOf_of_firstNodeOf? items h
termination_by structural c => c

/-- The first node of some items is on record. -/
theorem mem_marksOf_of_firstNodeOf? : (items : List Item) → {n : NodeId} →
    firstNodeOf? items = some n → (n, none) ∈ marksOf items
  | [], _, h => by simp [firstNodeOf?] at h
  | .mk v content :: rest, n, h => by
      rw [firstNodeOf?] at h
      rw [marksOf, Item.marks, List.mem_append]
      cases hc : content.firstNode? with
      | none =>
        rw [hc] at h
        exact .inr (mem_marksOf_of_firstNodeOf? rest h)
      | some m =>
        rw [hc] at h
        obtain rfl := Option.some.inj h
        exact .inl (content.mem_marks_of_firstNode? hc)
termination_by structural items => items
end

/-- What stands first behind an item is on record, or it is the anchor. -/
theorem anchorOf_cases (items : List Item) (anchor : NodeId) :
    anchorOf items anchor = anchor ∨ (anchorOf items anchor, none) ∈ marksOf items := by
  unfold anchorOf
  cases h : firstNodeOf? items with
  | none => exact .inl rfl
  | some n => exact .inr (mem_marksOf_of_firstNodeOf? items h)

/-- The hosts among the nodes on record. -/
def hostsIn (marks : List Mark) : List NodeId := marks.filterMap fun k => k.2.map fun _ => k.1

theorem mem_hostsIn {marks : List Mark} {n : NodeId} :
    n ∈ hostsIn marks ↔ ∃ v, (n, some v) ∈ marks := by
  simp only [hostsIn, List.mem_filterMap, Option.map_eq_some_iff]
  constructor
  · rintro ⟨⟨m, w⟩, hk, v, rfl, rfl⟩
    exact ⟨v, hk⟩
  · rintro ⟨v, hv⟩
    exact ⟨_, hv, v, rfl, rfl⟩

@[simp] theorem hostsIn_append (marks marks' : List Mark) :
    hostsIn (marks ++ marks') = hostsIn marks ++ hostsIn marks' := List.filterMap_append

@[simp] theorem hostsIn_host (n : NodeId) (v : Value) (marks : List Mark) :
    hostsIn ((n, some v) :: marks) = n :: hostsIn marks := rfl

/-! ### What stands in a host -/

namespace Document

/-- These trees, and nothing else, stand in the element. -/
structure Shelters (d : Document) (n : NodeId) (kids : List Subtree) : Prop where
  element : (d.element? n).isSome = true
  children : d.children n = roots kids
  holds : HoldsAll d n kids
  nodup : (idsAll kids).Nodup

theorem record?_congr {d d' : Document} {n : NodeId} (kind : d'.kind? n = d.kind? n)
    (parent : d'.parent? n = d.parent? n) (children : d'.children n = d.children n) :
    d'.record? n = d.record? n := by
  unfold kind? at kind
  unfold parent? at parent
  unfold Document.children at children
  cases h : d.record? n <;> cases h' : d'.record? n <;> simp [h, h'] at kind parent children
  · rfl
  next r r' =>
    obtain ⟨k, p, c⟩ := r
    obtain ⟨k', p', c'⟩ := r'
    simp_all

theorem element?_congr {d d' : Document} {n : NodeId} (kind : d'.kind? n = d.kind? n) :
    d'.element? n = d.element? n := by
  rw [element?, kind, ← element?]

namespace Shelters
variable {d d' : Document} {n k s p : NodeId} {kids : List Subtree}

theorem congr (w : d.Shelters n kids) (element : (d'.element? n).isSome = true)
    (children : d'.children n = d.children n)
    (records : ∀ m ∈ idsAll kids, d'.record? m = d.record? m) : d'.Shelters n kids :=
  ⟨element, children.trans w.children, w.holds.congr records, w.nodup⟩

/-- A node outside stands in no node inside, nor in the host. -/
theorem parent_outside (w : d.Shelters n kids) (c : d.Consistent) (hk : k ∉ idsAll kids)
    (hp : d.parent? k = some p) : p ≠ n ∧ p ∉ idsAll kids := by
  rw [← c.mem_children] at hp
  constructor
  · rintro rfl
    rw [w.children] at hp
    exact hk (roots_subset _ hp)
  · exact fun h => hk (w.holds.child_mem p h k hp)

/-- A node inside stands in the host or in a node inside. -/
theorem parent_inside (w : d.Shelters n kids) (hk : k ∈ idsAll kids) (hp : d.parent? k = some p) :
    p = n ∨ p ∈ idsAll kids := by
  rcases w.holds.parent_mem k hk with h | ⟨q, hq, h⟩
  · exact .inl (Option.some.inj (hp.symm.trans h))
  · obtain rfl : p = q := Option.some.inj (hp.symm.trans h)
    exact .inr hq

/-- Who has a sibling outside is outside. -/
theorem sibling_outside (w : d.Shelters n kids) (c : d.Consistent) (hk : k ∉ idsAll kids)
    (hp : d.parent? k = some p) (hs : d.parent? s = some p) : s ∉ idsAll kids := by
  intro h
  obtain ⟨ne, out⟩ := w.parent_outside c hk hp
  exact (w.parent_inside h hs).elim ne out

/-- The element is a block with these trees in it. -/
theorem block (w : d.Shelters n kids) (c : d.Consistent) (out : n ∉ idsAll kids) :
    Block d n [] kids [] := by
  have container := isContainer_of_element? w.element
  obtain ⟨r, hr⟩ := exists_record_of_isContainer container
  have known := w.children
  rw [children_of_record hr] at known
  exact ⟨(c.block container).ordered, ⟨r, hr, by simpa using known⟩, container, w.holds, w.nodup,
    out, by simp, by simp, by simp, by simp, by simp, by simp, by simp⟩

theorem innerMarkup (w : d.Shelters n kids) : d.innerMarkup n = markupAll kids := by
  rw [Document.innerMarkup, below, w.children, w.holds.seen w.nodup]

/-- What is rewritten elsewhere leaves what stands in the element as it is. -/
theorem beside {q : NodeId} {before behind : List NodeId} {old new : List Subtree}
    (s : d.Shelters n kids) (w : Rewrites d d' q before old new behind)
    (known : (n : Nat) < d.nodes.size) (ne : n ≠ q) (out : n ∉ idsAll old) (away : q ∉ idsAll kids)
    (apart : ∀ m ∈ idsAll kids, m ∉ idsAll old) : d'.Shelters n kids := by
  have here : d'.record? n = d.record? n := w.others n known ne out
  have kind : d'.kind? n = d.kind? n := by rw [kind?, here, ← kind?]
  refine s.congr ?_ ?_ fun m hm => w.others m (s.holds.lt_size m hm) ?_ (apart m hm)
  · rw [element?_congr kind]
    exact s.element
  · rw [Document.children, here, ← Document.children]
  · rintro rfl
    exact away hm

/-- What stands in the element is rewritten. -/
theorem rewrites {kids' : List Subtree} (s : d.Shelters n kids)
    (w : Rewrites d d' n [] kids kids' []) : d'.Shelters n kids' := by
  obtain ⟨data, hdata⟩ := Option.isSome_iff_exists.1 s.element
  obtain ⟨r, hr, hkind⟩ := element?_eq_some.1 hdata
  have hr' := w.record r hr
  refine ⟨?_, ?_, w.holds, w.nodup⟩
  · rw [element?_eq_some.2 ⟨_, hr', hkind⟩]
    rfl
  · rw [children_of_record hr']
    simp

end Shelters

section
variable {d : Document} {m : NodeId} {kids : List Subtree}

mutual
theorem Holds.outside (w : d.Shelters m kids) : {p : NodeId} → {t : Subtree} → Holds d p t →
    p ≠ m → p ∉ idsAll kids → m ∉ t.ids → ∀ x ∈ t.ids, x ∉ idsAll kids
  | p, .node id kind children, ⟨record, inner⟩, ne, out, away, x, hx => by
      rw [ids_node, List.mem_cons, not_or] at away
      have here : id ∉ idsAll kids := fun h =>
        (w.parent_inside h (parent?_of_record? record)).elim ne out
      rcases List.mem_cons.1 hx with rfl | hx
      · exact here
      · exact inner.outside w (Ne.symm away.1) here away.2 x hx

/-- What is held below a node outside of a host is outside, unless the host is part of it. -/
theorem HoldsAll.outside (w : d.Shelters m kids) : {p : NodeId} → {f : List Subtree} →
    HoldsAll d p f → p ≠ m → p ∉ idsAll kids → m ∉ idsAll f → ∀ x ∈ idsAll f, x ∉ idsAll kids
  | _, [], _, _, _, _, x, hx => by simp at hx
  | p, t :: rest, ⟨first, others⟩, ne, out, away, x, hx => by
      rw [idsAll_cons, List.mem_append, not_or] at away
      rw [idsAll_cons, List.mem_append] at hx
      rcases hx with hx | hx
      · exact first.outside w ne out away.1 x hx
      · exact others.outside w ne out away.2 x hx
end

end

end Document

/-- The trees are what the markup of the value comes to, where a document gives it back. -/
def Value.FilledBy (v : Value) (kids : List Subtree) : Prop :=
  v ≠ .null → IsEchoed v.toText → markupAll kids = v.toText

/-! ### Guarded hosts -/

/-- All nodes on record exist, no host is on record twice, and each shows its markup with no
node on record inside. -/
structure Guarded (d : Document) (marks : List Mark) : Prop where
  consistent : d.Consistent
  known : ∀ k ∈ marks, (k.1 : Nat) < d.nodes.size
  once : (hostsIn marks).Nodup
  host : ∀ n v, (n, some v) ∈ marks →
    ∃ kids, d.Shelters n kids ∧ v.FilledBy kids ∧ ∀ k ∈ marks, k.1 ∉ idsAll kids

/-- The node is inside of no host on record. -/
def Outside (d : Document) (marks : List Mark) (m : NodeId) : Prop :=
  ∀ n v kids, (n, some v) ∈ marks → d.Shelters n kids → (∀ k ∈ marks, k.1 ∉ idsAll kids) →
    m ∉ idsAll kids

namespace Outside
variable {d : Document} {marks : List Mark} {k : Mark} {m s p : NodeId}

theorem of_mem (hk : k ∈ marks) : Outside d marks k.1 := fun _ _ _ _ _ outs => outs k hk

theorem sibling (c : d.Consistent) (hm : Outside d marks m) (hp : d.parent? m = some p)
    (hs : d.parent? s = some p) : Outside d marks s :=
  fun n v kids hv w outs => w.sibling_outside c (hm n v kids hv w outs) hp hs

/-- What stands in a node that is outside and no host is outside as well. -/
theorem child (hm : Outside d marks m) (free : m ∉ hostsIn marks) (hs : d.parent? s = some m) :
    Outside d marks s := by
  intro n v kids hv w outs h
  rcases w.parent_inside h hs with rfl | h
  · exact free (mem_hostsIn.2 ⟨v, hv⟩)
  · exact hm n v kids hv w outs h

end Outside

namespace Guarded
variable {d d' : Document} {marks marks' : List Mark} {k : Mark} {n m p : NodeId} {v : Value}

theorem nil (c : d.Consistent) : Guarded d [] := ⟨c, by simp, .nil, by simp⟩

theorem mono (g : Guarded d marks) (sub : marks' ⊆ marks) (once : (hostsIn marks').Nodup) :
    Guarded d marks' := by
  refine ⟨g.consistent, fun k hk => g.known k (sub hk), once, fun n v hv => ?_⟩
  obtain ⟨kids, w, filled, out⟩ := g.host n v (sub hv)
  exact ⟨kids, w, filled, fun k hk => out k (sub hk)⟩

theorem sublist (g : Guarded d marks) (sub : marks'.Sublist marks) : Guarded d marks' :=
  g.mono sub.subset (g.once.sublist (sub.filterMap _))

theorem perm (g : Guarded d marks) (h : marks.Perm marks') : Guarded d marks' :=
  g.mono h.symm.subset ((h.filterMap _).nodup_iff.1 g.once)

theorem cons (g : Guarded d marks) (known : (m : Nat) < d.nodes.size) (out : Outside d marks m) :
    Guarded d ((m, none) :: marks) := by
  refine ⟨g.consistent, List.forall_mem_cons.2 ⟨known, g.known⟩, g.once, fun n v hv => ?_⟩
  obtain ⟨kids, w, filled, outs⟩ := g.host n v (by simpa using hv)
  exact ⟨kids, w, filled, List.forall_mem_cons.2 ⟨out n v kids (by simpa using hv) w outs, outs⟩⟩

/-- More nodes are put on record that are inside of no host. -/
theorem append (g : Guarded d marks) {nodes : List NodeId}
    (known : ∀ m ∈ nodes, (m : Nat) < d.nodes.size) (out : ∀ m ∈ nodes, Outside d marks m) :
    Guarded d (nodes.map (·, none) ++ marks) := by
  induction nodes with
  | nil => exact g
  | cons m rest ih =>
    rw [List.forall_mem_cons] at known out
    refine (ih known.2 out.2).cons known.1 fun n v kids hv w outs => ?_
    exact out.1 n v kids (by simpa using hv) w fun k hk => outs k (List.mem_append_right _ hk)

theorem fragment_free (g : Guarded d marks) (h : d.kind? n = some .fragment) :
    n ∉ hostsIn marks := by
  intro hn
  obtain ⟨v, hv⟩ := mem_hostsIn.1 hn
  obtain ⟨kids, w, -⟩ := g.host n v hv
  have := w.element
  simp [element?, h] at this

/-! ### Edits -/

/-- A document in which every host still shelters what it did. -/
theorem step (g : Guarded d marks) (c : d'.Consistent) (size : d.nodes.size ≤ d'.nodes.size)
    (kept : ∀ n v kids, (n, some v) ∈ marks → d.Shelters n kids →
      (∀ k ∈ marks, k.1 ∉ idsAll kids) → d'.Shelters n kids) : Guarded d' marks := by
  refine ⟨c, fun k hk => Nat.lt_of_lt_of_le (g.known k hk) size, g.once, fun n v hv => ?_⟩
  obtain ⟨kids, w, filled, outs⟩ := g.host n v hv
  exact ⟨kids, kept n v kids hv w outs, filled, outs⟩

/-- The kind of a node on record changes, but an element stays one. -/
theorem recast (g : Guarded d marks) (c : d'.Consistent) (hk : k ∈ marks) (shaped : Shaped d d')
    (element : (d.element? k.1).isSome = true → (d'.element? k.1).isSome = true)
    (others : ∀ m, m ≠ k.1 → d'.record? m = d.record? m) : Guarded d' marks := by
  refine g.step c shaped.1.ge fun n v kids hv w outs => w.congr ?_ (shaped.2.2 n) fun m hm => ?_
  · by_cases hn : n = k.1
    · exact hn ▸ element (hn ▸ w.element)
    · have kind : d'.kind? n = d.kind? n := by rw [kind?, others n hn, ← kind?]
      rw [element?_congr kind]
      exact w.element
  · exact others m fun h => outs k hk (h ▸ hm)

theorem updateElement (g : Guarded d marks) (c : d'.Consistent) (hk : k ∈ marks)
    {f : ElementData → ElementData} (h : d.updateElement k.1 f = .ok d') : Guarded d' marks := by
  have shaped := shaped_updateElement h
  unfold Document.updateElement at h
  split at h
  · contradiction
  next data hdata =>
    obtain rfl := Except.ok.inj h
    refine g.recast c hk shaped (fun _ => ?_) fun m hm => ?_
    · rw [element?, kind?_recast hdata, if_pos rfl]
      rfl
    · rw [record?_update, if_neg hm]
  · contradiction

theorem setText (g : Guarded d marks) (c : d'.Consistent) (hk : k ∈ marks) {text : String}
    (h : d.setText k.1 text = .ok d') : Guarded d' marks := by
  have shaped := shaped_setText h
  unfold Document.setText at h
  split at h
  · contradiction
  next old hold =>
    obtain rfl := Except.ok.inj h
    refine g.recast c hk shaped (fun he => ?_) fun m hm => ?_
    · simp [element?, hold] at he
    · rw [record?_update, if_neg hm]
  · contradiction

/-- Nodes outside of all hosts are put where another one stands, or nowhere. -/
theorem moves {moved : List NodeId} {target reference : Option NodeId} (g : Guarded d marks)
    (c : d'.Consistent) (size : d.nodes.size ≤ d'.nodes.size)
    (w : Moves d d' moved target reference) (hm : ∀ m ∈ moved, Outside d marks m)
    (ht : ∀ p, target = some p → ∃ m, Outside d marks m ∧ d.parent? m = some p) :
    Guarded d' marks := by
  refine g.step c size fun n v kids hv s outs => ?_
  have still : ∀ m ∈ idsAll kids, m ∉ moved :=
    fun m hin hmoved => hm m hmoved n v kids hv s outs hin
  have place : ∀ p, target = some p → p ≠ n ∧ p ∉ idsAll kids := by
    intro p hp
    obtain ⟨m, hout, hparent⟩ := ht p hp
    exact s.parent_outside g.consistent (hout n v kids hv s outs) hparent
  have children : ∀ q, q = n ∨ q ∈ idsAll kids → d'.children q = d.children q := by
    intro q hq
    have inside : d.children q ⊆ idsAll kids := by
      rcases hq with rfl | hq
      · rw [s.children]
        exact roots_subset _
      · exact fun x hx => s.holds.child_mem q hq x hx
    have ne : target ≠ some q := fun h => hq.elim (place q h).1 (place q h).2
    rw [w.children, if_neg ne, List.filter_eq_self]
    exact fun x hx => by simpa using still x (inside hx)
  refine s.congr ?_ (children n (.inl rfl)) fun m hin => ?_
  · rw [element?_congr (w.kind n)]
    exact s.element
  · exact record?_congr (w.kind m) (by rw [w.parent, if_neg (still m hin)]) (children m (.inr hin))

theorem detach (g : Guarded d marks) (hm : Outside d marks m) : Guarded (d.detach m) marks := by
  refine g.moves (g.consistent.detach m) (size_detach _ _).ge (g.consistent.detach_moves m) ?_
    (by simp)
  intro m' hm'
  rwa [List.mem_singleton.1 hm']

/-- A node on record, or what a fragment on record holds, is put in front of another one. -/
theorem insertBefore {a : Mark} (g : Guarded d marks) (hk : k ∈ marks) (ha : a ∈ marks)
    (h : d.insertBefore k.1 a.1 = .ok d') : Guarded d' marks := by
  have c := g.consistent
  have c' : d'.Consistent := Primitive.edit_consistent (p := .insertBefore k.1 a.1) c h
  by_cases same : k.1 = a.1
  · unfold Document.insertBefore at h
    split at h
    · contradiction
    · split at h
      · contradiction
      · rw [if_pos same] at h
        exact Except.ok.inj h ▸ g
  · obtain ⟨q, kind, hq, hkind, above⟩ := Consistent.of_insertBefore_eq_ok same h c
    obtain ⟨d₁, h₁, w⟩ := c.insertBefore_eq_ok hq same hkind above
    obtain rfl : d₁ = d' := Except.ok.inj (h₁.symm.trans h)
    have size : d.nodes.size ≤ d₁.nodes.size := Primitive.size_le (p := .insertBefore k.1 a.1) h
    refine g.moves c' size w (fun m hm => ?_) ?_
    · by_cases hf : d.kind? k.1 = some .fragment
      · rw [handedOver_fragment hf, c.mem_children] at hm
        exact (Outside.of_mem hk).child (g.fragment_free hf) hm
      · rw [handedOver_single hf, List.mem_singleton] at hm
        exact hm ▸ .of_mem hk
    · rintro p ⟨⟩
      exact ⟨a.1, .of_mem ha, hq⟩

/-- A new node is put on record. -/
theorem create (g : Guarded d marks) {kind : NodeKind}
    (wellFormed : ∀ data, kind = .element data → data.WellFormed) :
    Guarded (d.create kind).2 ((d.nodes.size, none) :: marks) := by
  have inside : ∀ n kids, d.Shelters n kids → ∀ m ∈ idsAll kids, m < d.nodes.size :=
    fun n kids w => w.holds.lt_size
  have same : ∀ m : Nat, m < d.nodes.size → (d.create kind).2.record? m = d.record? m :=
    fun m hm => record?_create_of_lt hm
  refine ⟨g.consistent.create kind wellFormed, fun k hk => ?_, g.once, fun n v hv => ?_⟩
  · rw [size_create]
    rcases List.mem_cons.1 hk with rfl | hk
    · exact Nat.lt_succ_self _
    · exact Nat.lt_succ_of_lt (g.known k hk)
  · have hv : (n, some v) ∈ marks := by simpa using hv
    obtain ⟨kids, w, filled, outs⟩ := g.host n v hv
    refine ⟨kids, w.congr ?_ (children_create kind n) fun m hm => same m (inside n kids w m hm),
      filled, List.forall_mem_cons.2 ⟨fun h => ?_, outs⟩⟩
    · have : (d.create kind).2.kind? n = d.kind? n := by
        rw [kind?, same n (g.known _ hv), ← kind?]
      rw [element?_congr this]
      exact w.element
    · exact Nat.lt_irrefl _ (inside n kids w _ h)

/-- New nodes are put at the end of a node on record that is no host, and some of them are put
on record as well. -/
theorem mount {q : NodeId} {before : List NodeId} {f : List Subtree} {fresh : List Mark}
    (g : Guarded d marks) (c : d'.Consistent) (w : Rewrites d d' q before [] f [])
    (hk : k ∈ marks) (hq : k.1 = q) (free : q ∉ hostsIn marks)
    (inside : ∀ k ∈ fresh, k.1 ∈ idsAll f) (once : (hostsIn fresh).Nodup)
    (empty : ∀ n v, (n, some v) ∈ fresh → d'.Shelters n [] ∧ v = .null) :
    Guarded d' (fresh ++ marks) := by
  have young : ∀ k ∈ fresh, d.nodes.size ≤ k.1 := fun k hk =>
    (w.fresh _ (inside k hk)).resolve_left (by simp)
  refine ⟨c, fun k hk => ?_, ?_, fun n v hv => ?_⟩
  · rcases List.mem_append.1 hk with hk | hk
    · exact w.holds.lt_size _ (inside k hk)
    · exact Nat.lt_of_lt_of_le (g.known k hk) w.size_le
  · rw [hostsIn_append, List.nodup_append]
    refine ⟨once, g.once, fun n hn m hm h => ?_⟩
    obtain ⟨v, hv⟩ := mem_hostsIn.1 hn
    obtain ⟨v', hv'⟩ := mem_hostsIn.1 hm
    have h1 : d.nodes.size ≤ m := h ▸ young _ hv
    exact Nat.not_lt.2 h1 (g.known _ hv')
  · rcases List.mem_append.1 hv with hv | hv
    · obtain ⟨shelters, rfl⟩ := empty n v hv
      exact ⟨[], shelters, fun h => absurd rfl h, by simp⟩
    · obtain ⟨kids, s, filled, outs⟩ := g.host n v hv
      have ne : n ≠ q := fun h => free (mem_hostsIn.2 ⟨v, h ▸ hv⟩)
      have kept := s.beside w (g.known _ hv) ne (by simp) (hq ▸ outs k hk) (by simp)
      refine ⟨kids, kept, filled, fun k hk => ?_⟩
      rcases List.mem_append.1 hk with hk | hk
      · exact fun h => Nat.not_lt.2 (young k hk) (s.holds.lt_size _ h)
      · exact outs k hk

/-- What stands in a host is replaced by what the new value shows. -/
theorem refill {v' : Value} {kids kids' : List Subtree} (g : Guarded d ((n, some v) :: marks))
    (c : d'.Consistent) (s : d.Shelters n kids)
    (out : ∀ k ∈ (n, some v) :: marks, k.1 ∉ idsAll kids)
    (w : Rewrites d d' n [] kids kids' []) (filled : v'.FilledBy kids') :
    Guarded d' ((n, some v') :: marks) := by
  obtain ⟨hnew, once⟩ := List.nodup_cons.1 (hostsIn_host n v marks ▸ g.once)
  have hn := g.known _ (List.mem_cons_self ..)
  have outside' : ∀ k ∈ (n, some v) :: marks, k.1 ∉ idsAll kids' := by
    intro k hk h
    rcases w.fresh _ h with h | h
    · exact out k hk h
    · exact absurd (g.known k hk) (Nat.not_lt.2 h)
  refine ⟨c, fun k hk => ?_, g.once, fun m u hu => ?_⟩
  · rcases List.mem_cons.1 hk with rfl | hk
    · exact Nat.lt_of_lt_of_le hn w.size_le
    · exact Nat.lt_of_lt_of_le (g.known k (List.mem_cons_of_mem _ hk)) w.size_le
  · rcases List.mem_cons.1 hu with heq | hu
    · obtain ⟨rfl, hv⟩ := Prod.mk.inj heq
      obtain rfl := Option.some.inj hv
      refine ⟨kids', s.rewrites w, filled, fun k hk => ?_⟩
      rcases List.mem_cons.1 hk with rfl | hk
      · exact outside' (m, some v) (List.mem_cons_self ..)
      · exact outside' k (List.mem_cons_of_mem _ hk)
    · obtain ⟨kids₂, s₂, filled₂, outs₂⟩ := g.host m u (List.mem_cons_of_mem _ hu)
      have ne : m ≠ n := fun h => hnew (mem_hostsIn.2 ⟨u, h ▸ hu⟩)
      have hmem : (m, some u) ∈ (n, some v) :: marks := List.mem_cons_of_mem _ hu
      have away := outs₂ _ (List.mem_cons_self ..)
      have kept := s₂.beside w (g.known _ hmem) ne (out _ hmem) away
        (s₂.holds.outside s ne (out _ hmem) away)
      refine ⟨kids₂, kept, filled₂, fun k hk => ?_⟩
      rcases List.mem_cons.1 hk with rfl | hk
      · exact outs₂ (n, some v) (List.mem_cons_self ..)
      · exact outs₂ k (List.mem_cons_of_mem _ hk)

end Guarded

end LiveTemplate
