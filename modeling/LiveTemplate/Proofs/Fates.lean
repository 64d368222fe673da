import LiveTemplate.Proofs.Transcripts
import LiveTemplate.Proofs.Records
import Mathlib.Data.List.Pairwise

/-!
# What becomes of holes

A hole that is written in a comment is dropped. One among content is a node, and one in a start
tag is the value of an attribute, unless the name of that attribute is written again in the same
tag. There is no other fate, and every hole has only one. Holes come in the order of the source,
so those of a start tag come before those in its element. A template has a value for each of its
holes, and nothing asks it for another.
-/
namespace LiveTemplate
open Text

inductive Fate where
  | dropped
  | child
  | bound
  | overwritten
deriving DecidableEq, Repr

/-- What a fate says of a hole, in the source and among the nodes that are read from it. The
element of a start tag is told by how many nodes are told before it. -/
def Fate.Holds (seen : Transcript) (ns : List Node) (i : Nat) : Fate → Prop
  | .dropped => Piece.dropped i ∈ seen ∧ i ∉ Node.holesAll ns
  | .child =>
      Piece.hole i ∈ seen ∧ (Node.holesAll ns).count i = 1 ∧ Node.hole i ∈ Node.preorderAll ns
  | .bound =>
      ∃ front tag before name after back,
        seen = front ++ Piece.startTag tag (before ++ (name, .hole i) :: after) :: back ∧
        name ∉ Entries.names after ∧ (Node.holesAll ns).count i = 1 ∧
        ∃ attrs children,
          (Node.preorderAll ns)[(Transcript.nodes front).length]? =
            some (.element tag attrs children) ∧
          Entries.get? name attrs = some (.hole i)
  | .overwritten =>
      ∃ tag before name after, Piece.startTag tag (before ++ (name, .hole i) :: after) ∈ seen ∧
        name ∈ Entries.names after ∧ i ∉ Node.holesAll ns

theorem mem_attrHoles {i : Nat} {attrs : List (String × AttrValue)} :
    i ∈ attrHoles attrs ↔ ∃ name, (name, AttrValue.hole i) ∈ attrs := by
  simp only [attrHoles, List.mem_filterMap, Prod.exists]
  constructor
  · rintro ⟨name, value, hmem, heq⟩
    cases value with
    | literal => contradiction
    | hole j =>
      obtain rfl := Option.some.inj heq
      exact ⟨name, hmem⟩
  · rintro ⟨name, hmem⟩
    exact ⟨name, _, hmem, rfl⟩

namespace Node
variable {i : Nat} {ns : List Node}

theorem mem_holesAll : i ∈ holesAll ns ↔ ∃ n ∈ ns, i ∈ n.holes := by
  induction ns with
  | nil => simp
  | cons n rest ih => simp [ih]

mutual
/-- The holes of a node are those of the nodes in it, each taken alone. -/
theorem holesAll_preorder : (n : Node) → holesAll (n.preorder.map alone) = n.holes
  | .element tag attrs children => by
      simp [preorder, alone, holes, holesAll_inOrder children]
  | .text data => rfl
  | .hole index => rfl
termination_by structural n => n

theorem holesAll_inOrder : (ns : List Node) → holesAll ((preorderAll ns).map alone) = holesAll ns
  | [] => rfl
  | n :: rest => by simp [holesAll_preorder n, holesAll_inOrder rest]
termination_by structural ns => ns
end

theorem alone_eq_hole {n : Node} (h : n.alone = .hole i) : n = .hole i := by
  cases n with
  | hole j => exact h
  | element tag attrs children => simp [alone] at h
  | text data => simp [alone] at h

theorem alone_eq_element {n : Node} {tag : String} {attrs : List (String × AttrValue)}
    (h : n.alone = .element tag attrs []) : ∃ children, n = .element tag attrs children := by
  cases n with
  | element tag' attrs' children =>
    simp only [alone, element.injEq, and_true] at h
    exact ⟨children, by rw [h.1, h.2]⟩
  | text data => simp [alone] at h
  | hole j => simp [alone] at h

mutual
/-- The nodes in a node stand together. -/
theorem preorder_sublist_preorder {n : Node} :
    (m : Node) → n ∈ m.preorder → n.preorder.Sublist m.preorder
  | .element tag attrs children, h => by
      rcases List.mem_cons.1 h with rfl | h
      · exact .refl _
      · exact (preorder_sublist children h).cons _
  | .text data, h => by
      obtain rfl := List.mem_singleton.1 h
      exact .refl _
  | .hole index, h => by
      obtain rfl := List.mem_singleton.1 h
      exact .refl _
termination_by structural m => m

theorem preorder_sublist {n : Node} :
    (ns : List Node) → n ∈ preorderAll ns → n.preorder.Sublist (preorderAll ns)
  | [], h => absurd h (List.not_mem_nil)
  | m :: rest, h => by
      rcases List.mem_append.1 h with h | h
      · exact (preorder_sublist_preorder m h).trans (List.sublist_append_left ..)
      · exact (preorder_sublist rest h).trans (List.sublist_append_right ..)
termination_by structural ns => ns
end

end Node

namespace Piece

/-- A node has no holes but those of the piece that it is made from. -/
theorem mem_holes_of_node? {p : Piece} {n : Node} {i : Nat} (h : p.node? = some n)
    (hi : i ∈ n.holes) : i ∈ p.holes := by
  cases p with
  | startTag tag written =>
    obtain rfl := Option.some.inj h
    simp only [Node.holes, Node.holesAll_nil, List.append_nil] at hi
    obtain ⟨name, hmem⟩ := mem_attrHoles.1 hi
    exact mem_attrHoles.2 ⟨name, Entries.mem_ofList hmem⟩
  | hole j =>
    obtain rfl := Option.some.inj h
    exact hi
  | text data =>
    obtain rfl := Option.some.inj h
    simp [Node.holes] at hi
  | closingTag name => contradiction
  | dropped j => contradiction

end Piece

/-! ### The one fate of a hole -/

section
variable {seen : Transcript} {ns : List Node} {i : Nat}

/-- Where every hole is told once, it is told by one piece. -/
theorem Transcript.piece_unique (once : seen.holes.Nodup) {p q : Piece} (hp : p ∈ seen)
    (hq : q ∈ seen) (hip : i ∈ p.holes) (hiq : i ∈ q.holes) : p = q := by
  obtain ⟨-, apart⟩ := List.nodup_flatMap.1 once
  have : Std.Symm (Function.onFun List.Disjoint Piece.holes) := ⟨fun _ _ h _ ha hb => h hb ha⟩
  by_contra hne
  exact apart.forall hp hq hne hip hiq

/-- A hole among the nodes comes from the piece that tells it. -/
theorem Transcript.mem_holesAll_iff (once : seen.holes.Nodup) (told : seen.nodes = Node.inOrder ns)
    {p : Piece} (hp : p ∈ seen) (hi : i ∈ p.holes) :
    i ∈ Node.holesAll ns ↔ ∃ n, p.node? = some n ∧ i ∈ n.holes := by
  rw [← Node.holesAll_inOrder ns]
  change i ∈ Node.holesAll (Node.inOrder ns) ↔ _
  rw [← told, Node.mem_holesAll]
  constructor
  · rintro ⟨n, hn, hin⟩
    obtain ⟨q, hq, hqn⟩ := List.mem_filterMap.1 hn
    obtain rfl := piece_unique once hp hq hi (Piece.mem_holes_of_node? hqn hin)
    exact ⟨n, hqn, hin⟩
  · rintro ⟨n, hpn, hin⟩
    exact ⟨n, List.mem_filterMap.2 ⟨p, hp, hpn⟩, hin⟩

theorem get?_ofList_written {name : String} {value : AttrValue}
    {before after : List (String × AttrValue)} (h : name ∉ Entries.names after) :
    Entries.get? name (Entries.ofList (before ++ (name, value) :: after)) = some value := by
  have hsplit : Entries.ofList (before ++ (name, value) :: after) =
      after.foldl (fun entries a => Entries.put a.1 a.2 entries)
        (Entries.put name value (Entries.ofList before)) := List.foldl_append ..
  rw [hsplit, Entries.get?_foldl_put_of_notMem h, Entries.get?_put, if_pos rfl]

/-- Of the attributes that are written a hole is bound to, the last of its name counts. -/
theorem mem_attrHoles_ofList {name : String} {before after : List (String × AttrValue)}
    (once : (attrHoles (before ++ (name, .hole i) :: after)).Nodup) :
    i ∈ attrHoles (Entries.ofList (before ++ (name, .hole i) :: after)) ↔
      name ∉ Entries.names after := by
  constructor
  · intro hi hname
    obtain ⟨m, hm⟩ := mem_attrHoles.1 hi
    have hget := Entries.get?_of_mem (Entries.names_ofList_nodup _) hm
    have hcons : attrHoles ((name, .hole i) :: after) = i :: attrHoles after := rfl
    rw [attrHoles_append, hcons, List.nodup_append', List.nodup_cons, List.disjoint_cons_right] at once
    obtain ⟨-, ⟨hafter, -⟩, hbefore, -⟩ := once
    rcases List.mem_append.1 (Entries.mem_ofList hm) with hmem | hmem
    · exact hbefore (mem_attrHoles.2 ⟨m, hmem⟩)
    · rcases List.mem_cons.1 hmem with heq | hmem
      · obtain rfl := (Prod.mk.inj heq).1
        rw [Entries.ofList, List.foldl_append] at hget
        exact hafter (mem_attrHoles.2 ⟨m, Entries.mem_of_get?_foldl_put hname hget⟩)
      · exact hafter (mem_attrHoles.2 ⟨m, hmem⟩)
  · intro hname
    exact mem_attrHoles.2 ⟨name, Entries.mem_of_get? (get?_ofList_written hname)⟩

/-- A hole that is written in a start tag is bound there, unless its name is written again. -/
theorem Transcript.mem_holesAll_written (once : seen.holes.Nodup)
    (told : seen.nodes = Node.inOrder ns) {tag name : String}
    {before after : List (String × AttrValue)}
    (hp : Piece.startTag tag (before ++ (name, .hole i) :: after) ∈ seen) :
    i ∈ Node.holesAll ns ↔ name ∉ Entries.names after := by
  have hi : i ∈ (Piece.startTag tag (before ++ (name, .hole i) :: after)).holes :=
    mem_attrHoles.2 ⟨name, by simp⟩
  have hwritten := (List.nodup_flatMap.1 once).1 _ hp
  rw [mem_holesAll_iff once told hp hi, ← mem_attrHoles_ofList hwritten]
  simp [Piece.node?, Node.holes]

/-- The fates of holes in a piece. -/
def Piece.fates : Piece → List Fate
  | .dropped _ => [.dropped]
  | .hole _ => [.child]
  | .startTag _ _ => [.bound, .overwritten]
  | .closingTag _ => []
  | .text _ => []

theorem Fate.Holds.piece {f : Fate} (h : f.Holds seen ns i) :
    ∃ p ∈ seen, i ∈ p.holes ∧ f ∈ p.fates := by
  cases f with
  | dropped => exact ⟨.dropped i, h.1, by simp [Piece.holes], by simp [Piece.fates]⟩
  | child => exact ⟨.hole i, h.1, by simp [Piece.holes], by simp [Piece.fates]⟩
  | bound =>
    obtain ⟨front, tag, before, name, after, back, rfl, -⟩ := h
    exact ⟨.startTag tag (before ++ (name, .hole i) :: after), by simp,
      mem_attrHoles.2 ⟨name, by simp⟩, by simp [Piece.fates]⟩
  | overwritten =>
    obtain ⟨tag, before, name, after, hmem, -⟩ := h
    exact ⟨_, hmem, mem_attrHoles.2 ⟨name, by simp⟩, by simp [Piece.fates]⟩

theorem Fate.Holds.mem_iff {f : Fate} (h : f.Holds seen ns i) :
    i ∈ Node.holesAll ns ↔ f = .child ∨ f = .bound := by
  have occurs : (Node.holesAll ns).count i = 1 → i ∈ Node.holesAll ns := fun h =>
    List.count_pos_iff.1 (by omega)
  cases f with
  | dropped => simpa using h.2
  | child => simpa using occurs h.2.1
  | bound =>
    obtain ⟨_, _, _, _, _, _, _, _, hcount, _⟩ := h
    simpa using occurs hcount
  | overwritten =>
    obtain ⟨_, _, _, _, _, _, habsent⟩ := h
    simpa using habsent

theorem Fate.Holds.unique (once : seen.holes.Nodup) {f g : Fate} (hf : f.Holds seen ns i)
    (hg : g.Holds seen ns i) : f = g := by
  obtain ⟨p, hp, hip, hfp⟩ := hf.piece
  obtain ⟨q, hq, hiq, hgq⟩ := hg.piece
  obtain rfl := Transcript.piece_unique once hp hq hip hiq
  have same := hf.mem_iff.symm.trans hg.mem_iff
  cases p <;> simp only [Piece.fates, List.mem_cons, List.not_mem_nil, or_false] at hfp hgq
  case startTag => rcases hfp with rfl | rfl <;> rcases hgq with rfl | rfl <;> simp at same ⊢
  all_goals exact hfp.trans hgq.symm

/-- A hole that is told has a fate. -/
theorem Transcript.fate_exists (once : seen.holes.Nodup) (told : seen.nodes = Node.inOrder ns)
    (nodup : (Node.holesAll ns).Nodup) (hi : i ∈ seen.holes) : ∃ f : Fate, f.Holds seen ns i := by
  obtain ⟨p, hp, hip⟩ := List.mem_flatMap.1 hi
  have hmem := mem_holesAll_iff once told hp hip
  cases p with
  | dropped j =>
    obtain rfl := List.mem_singleton.1 hip
    refine ⟨.dropped, hp, fun h => ?_⟩
    obtain ⟨n, hn, -⟩ := hmem.1 h
    contradiction
  | hole j =>
    obtain rfl := List.mem_singleton.1 hip
    have hnode : Node.hole i ∈ Node.inOrder ns :=
      told ▸ List.mem_filterMap.2 ⟨_, hp, rfl⟩
    obtain ⟨n, hn, halone⟩ := List.mem_map.1 hnode
    refine ⟨.child, hp, ?_, Node.alone_eq_hole halone ▸ hn⟩
    exact List.count_eq_one_of_mem nodup (hmem.2 ⟨_, rfl, by simp [Node.holes]⟩)
  | startTag tag written =>
    obtain ⟨name, hname⟩ := mem_attrHoles.1 hip
    obtain ⟨before, after, rfl⟩ := List.append_of_mem hname
    have hbound := mem_holesAll_written once told hp
    by_cases hagain : name ∈ Entries.names after
    · exact ⟨.overwritten, tag, before, name, after, hp, hagain, fun h => hbound.1 h hagain⟩
    · have hmem := hbound.2 hagain
      obtain ⟨front, back, rfl⟩ := List.append_of_mem hp
      refine ⟨.bound, front, tag, before, name, after, back, rfl, hagain,
        List.count_eq_one_of_mem nodup hmem, ?_⟩
      have hnode : (Node.inOrder ns)[(nodes front).length]? =
          some (.element tag (Entries.ofList (before ++ (name, .hole i) :: after)) []) := by
        rw [← told, nodes_append, List.getElem?_append_right (Nat.le_refl _), Nat.sub_self]
        rfl
      obtain ⟨n, hn, halone⟩ := Option.map_eq_some_iff.1 ((List.getElem?_map ..).symm.trans hnode)
      obtain ⟨children, rfl⟩ := Node.alone_eq_element halone
      exact ⟨_, children, hn, get?_ofList_written hagain⟩
  | closingTag name => simp [Piece.holes] at hip
  | text data => simp [Piece.holes] at hip

/-! ### Holes in order -/

/-- Holes that are told in order stand in order, whether as nodes or as values. -/
theorem Transcript.holes_ordered (ordered : seen.holes.Pairwise (· < ·))
    (told : seen.nodes = Node.inOrder ns) :
    (Node.preorderAll ns).Pairwise fun m n => ∀ x ∈ m.alone.holes, ∀ y ∈ n.alone.holes, x < y := by
  obtain ⟨-, apart⟩ := List.pairwise_flatMap.1 ordered
  have nodes : seen.nodes.Pairwise fun m n => ∀ x ∈ m.holes, ∀ y ∈ n.holes, x < y := by
    refine apart.filterMap _ fun p q hlt m hm n hn x hx y hy => ?_
    exact hlt x (Piece.mem_holes_of_node? hm hx) y (Piece.mem_holes_of_node? hn hy)
  rw [told] at nodes
  exact List.pairwise_map.1 nodes

def Node.index? : Node → Option Nat
  | .hole index => some index
  | _ => none

/-- The nodes that are holes come in the order of their indices. -/
theorem Transcript.indices_increase (ordered : seen.holes.Pairwise (· < ·))
    (told : seen.nodes = Node.inOrder ns) :
    ((Node.preorderAll ns).filterMap Node.index?).Pairwise (· < ·) := by
  have own : ∀ {n : Node} {i}, n.index? = some i → i ∈ n.alone.holes := by
    intro n i h
    cases n with
    | hole j =>
      obtain rfl := Option.some.inj h
      simp [Node.alone, Node.holes]
    | element tag attrs children => contradiction
    | text data => contradiction
  exact (holes_ordered ordered told).filterMap _ fun m n hlt x hx y hy => hlt x (own hx) y (own hy)

/-- The holes of a start tag come before those in its element. -/
theorem Transcript.attrHoles_lt (ordered : seen.holes.Pairwise (· < ·))
    (told : seen.nodes = Node.inOrder ns) {tag : String} {attrs : List (String × AttrValue)}
    {children : List Node} (h : .element tag attrs children ∈ Node.preorderAll ns) :
    ∀ i ∈ attrHoles attrs, ∀ j ∈ Node.holesAll children, i < j := by
  intro i hi j hj
  have apart := (holes_ordered ordered told).sublist (Node.preorder_sublist ns h)
  rw [← Node.holesAll_inOrder, Node.mem_holesAll] at hj
  obtain ⟨n, hn, hjn⟩ := hj
  obtain ⟨m, hm, rfl⟩ := List.mem_map.1 hn
  exact (List.pairwise_cons.1 apart).1 m hm i (by simpa [Node.alone, Node.holes] using hi) j hjn

end

/-! ### Values for all holes -/

section
variable {options : MarkupOptions} {values more : List Value} {i : Nat}

theorem Markup.valueAt_append (h : i < values.length) :
    valueAt (values ++ more) i = valueAt values i := by
  rw [valueAt, valueAt, List.getElem?_append_left h]

theorem Markup.contentAt_append (h : i < values.length) :
    contentAt options (values ++ more) i = contentAt options values i := by
  induction values generalizing i with
  | nil => simp at h
  | cons v rest ih =>
    cases i with
    | zero => rfl
    | succ i => exact ih (by simpa using h)

theorem Markup.attributes_append {attrs : List (String × AttrValue)}
    (h : ∀ i ∈ attrHoles attrs, i < values.length) :
    attributes options (values ++ more) attrs = attributes options values attrs := by
  unfold attributes
  congr 1
  refine List.map_congr_left fun a ha => ?_
  obtain ⟨name, value⟩ := a
  cases hb : Binding.ofName? name with
  | none => simp only [hb]
  | some b =>
    cases value with
    | literal text => simp only [hb]
    | hole i => simp only [hb, valueAt_append (h i (mem_attrHoles.2 ⟨name, ha⟩))]

theorem Markup.inner?_append {attrs : List (String × AttrValue)}
    (h : ∀ i ∈ attrHoles attrs, i < values.length) :
    inner? (values ++ more) attrs = inner? values attrs := by
  unfold inner?
  split
  · rfl
  · rfl
  next i hsource =>
    have hi := h i (mem_attrHoles.2 ⟨_, Entries.mem_of_get? hsource⟩)
    simp only [valueAt_append hi]

mutual
/-- Markup is written from the values of the holes that it has. -/
theorem Markup.node_append : (n : Node) → (∀ i ∈ n.holes, i < values.length) →
    node options (values ++ more) (contentAt options (values ++ more)) n =
      node options values (contentAt options values) n
  | .text data, _ => rfl
  | .hole index, h => contentAt_append (h index (by simp [Node.holes]))
  | .element tag attrs children, h => by
      have hattrs : ∀ i ∈ attrHoles attrs, i < values.length := fun i hi =>
        h i (List.mem_append_left _ hi)
      have hchildren := Markup.nodes_append children fun i hi => h i (List.mem_append_right _ hi)
      simp only [node, attributes_append hattrs, inner?_append hattrs, hchildren]
termination_by structural n => n

theorem Markup.nodes_append : (ns : List Node) → (∀ i ∈ Node.holesAll ns, i < values.length) →
    nodes options (values ++ more) (contentAt options (values ++ more)) ns =
      nodes options values (contentAt options values) ns
  | [], _ => rfl
  | n :: rest, h => by
      have hn := Markup.node_append n fun i hi => h i (List.mem_append_left _ hi)
      have hrest := Markup.nodes_append rest fun i hi => h i (List.mem_append_right _ hi)
      simp only [nodes, hn, hrest]
termination_by structural ns => ns
end

/-- Places are patched with the values at their indices. -/
theorem Live.patchPlaces_append {places : List Place} {h : Host}
    (length : places.length = values.length) :
    patchPlaces places (values ++ more) h = patchPlaces places values h := by
  induction values generalizing places h with
  | nil =>
    obtain rfl := List.length_eq_zero_iff.1 length
    cases more <;> rfl
  | cons v rest ih =>
    cases places with
    | nil => simp at length
    | cons place places =>
      have hrest : ∀ h, patchPlaces places (rest ++ more) h = patchPlaces places rest h :=
        fun h => ih (by simpa using length)
      rw [List.cons_append]
      unfold patchPlaces
      simp only [hrest]

end

namespace Live

/-- The places are for holes of these. -/
def PlacesIn (holes : List Nat) (bound : List (Nat × Place)) : Prop := ∀ b ∈ bound, b.1 ∈ holes

theorem PlacesIn.append {holes holes' : List Nat} {bound bound' : List (Nat × Place)}
    (h : PlacesIn holes bound) (h' : PlacesIn holes' bound') :
    PlacesIn (holes ++ holes') (bound ++ bound') := by
  intro b hb
  cases List.mem_append.1 hb with
  | inl hb => exact List.mem_append_left _ (h b hb)
  | inr hb => exact List.mem_append_right _ (h' b hb)

variable {fill : NodeId → String → HostM Unit}

theorem mountAttributes_placesIn (node : NodeId) (attrs : List (String × AttrValue)) :
    Yields (mountAttributes fill node attrs) (PlacesIn (attrHoles attrs)) := by
  induction attrs with
  | nil => exact .pure (by simp [PlacesIn])
  | cons a rest ih =>
    obtain ⟨name, value⟩ := a
    have weaken : ∀ bound, PlacesIn (attrHoles rest) bound →
        PlacesIn (attrHoles ((name, value) :: rest)) bound := by
      intro bound h b hb
      obtain ⟨m, hm⟩ := mem_attrHoles.1 (h b hb)
      exact mem_attrHoles.2 ⟨m, List.mem_cons_of_mem _ hm⟩
    have ih' := ih.mono weaken
    unfold mountAttributes
    split
    · exact ih'
    · exact .next fun _ => ih'
    · exact .next fun _ => ih'
    next index hb =>
      refine ih'.bind fun bound hbound => .pure ?_
      intro b hb
      cases List.mem_cons.1 hb with
      | inl hb => exact mem_attrHoles.2 ⟨name, by simp [hb]⟩
      | inr hb => exact hbound b hb

mutual
theorem mountNode_placesIn (fill : NodeId → String → HostM Unit) (parent : NodeId) :
    (n : Node) → Yields (mountNode fill parent n) fun r => PlacesIn n.holes r.2
  | .element tag attrs children => by
      unfold mountNode Node.holes
      refine .next fun node => .next fun _ => ?_
      refine (mountAttributes_placesIn node attrs).bind fun bound hbound => ?_
      split
      · exact .pure fun b hb => List.mem_append_left _ (hbound b hb)
      · exact (mountNodes_placesIn fill node children).bind fun r hr => .pure (hbound.append hr)
  | .text data => by
      unfold mountNode
      exact .next fun node => .next fun _ => .pure (by simp [PlacesIn])
  | .hole index => by
      unfold mountNode
      exact .next fun node => .next fun _ => .pure (by simp [PlacesIn, Node.holes])

theorem mountNodes_placesIn (fill : NodeId → String → HostM Unit) (parent : NodeId) :
    (ns : List Node) → Yields (mountNodes fill parent ns) fun r => PlacesIn (Node.holesAll ns) r.2
  | [] => .pure (by simp [PlacesIn])
  | n :: rest => by
      unfold mountNodes
      refine (mountNode_placesIn fill parent n).bind fun r hr => ?_
      exact (mountNodes_placesIn fill parent rest).bind fun r' hr' => .pure (hr.append hr')
end

theorem length_ofBound {holes : Nat} {bound : List (Nat × Place)} (lt : ∀ b ∈ bound, b.1 < holes) :
    (Places.ofBound holes bound).length = holes := by
  have key : ∀ places : List Place, places.length = holes →
      (bound.foldl (fun places b => Places.put b.1 b.2 places) places).length = holes := by
    induction bound with
    | nil => exact fun places h => h
    | cons b rest ih =>
      intro places h
      refine ih (fun b hb => lt b (List.mem_cons_of_mem _ hb)) _ ?_
      simp only [Places.put_eq (h ▸ lt b (List.mem_cons_self ..)), List.length_set, h]
  exact key _ (List.length_replicate ..)

/-- The table of a skeleton has a place for each hole and no other. -/
theorem mount_length {s : Skeleton} (lt : ∀ i ∈ Node.holesAll s.nodes, i < s.holes)
    (parent : NodeId) : Yields (mount s parent) fun r => r.2.length = s.holes :=
  (mountNodes_placesIn showMarkup parent s.nodes).bind fun _ hr =>
    .pure (length_ofBound fun b hb => lt _ (hr b hb))

/-- A patch goes on from place to place and leaves each of them one place. -/
theorem length_andThen {r : Patched Place} {rest : List Place} {next : Host → Patched (List Place)}
    (hnext : ∀ h, (next h).state.length = rest.length) :
    (r.andThen (fun place h => (next h).map (place :: ·)) (· :: rest)).state.length =
      rest.length + 1 := by
  unfold Patched.andThen
  split
  · simp [Patched.map, hnext]
  · rfl

theorem length_withdrawAll {places : List Place} {h : Host} :
    (withdrawAll places h).state.length = places.length := by
  induction places generalizing h with
  | nil => rfl
  | cons place rest ih => exact length_andThen fun _ => ih

theorem length_patchPlaces {places : List Place} {values : List Value} {h : Host} :
    (patchPlaces places values h).state.length = places.length := by
  induction values generalizing places h with
  | nil => exact length_withdrawAll
  | cons v values ih =>
    cases places with
    | nil => rfl
    | cons place rest => exact length_andThen fun _ => ih

/-- The tables that a skeleton can have: new ones, and those that patches leave, also patches
that fail. -/
inductive TableOf (s : Skeleton) : List Place → Prop
  | mounted {parent : NodeId} {h h' : Host} {nodes : List NodeId} {places : List Place}
      (mount : mount s parent h = .ok (nodes, places) h') : TableOf s places
  | patched {places : List Place} (table : TableOf s places) (values : List Value) (h : Host) :
      TableOf s (patchPlaces places values h).state

theorem TableOf.length {s : Skeleton} (lt : ∀ i ∈ Node.holesAll s.nodes, i < s.holes)
    {places : List Place} (table : TableOf s places) : places.length = s.holes := by
  induction table with
  | mounted mount => exact mount_length lt _ _ _ _ mount
  | patched _ values h ih => exact length_patchPlaces.trans ih

end Live

namespace Skeleton
open Live

/-- Every hole of a skeleton that is read has one fate, holes stand in order, and a template of
the skeleton has values for all of them: neither its markup nor its tables take any other value
into account. -/
theorem parse_fates {fragments : List String} {s : Skeleton} (h : parse fragments = .ok s) :
    s.holes = fragments.length - 1 ∧
    (∀ i < s.holes, ∃! f : Fate, f.Holds (transcript fragments) s.nodes i) ∧
    (∀ i ∈ Node.holesAll s.nodes, i < s.holes) ∧
    ((Node.preorderAll s.nodes).filterMap Node.index?).Pairwise (· < ·) ∧
    (∀ tag attrs children, .element tag attrs children ∈ Node.preorderAll s.nodes →
      ∀ i ∈ attrHoles attrs, ∀ j ∈ Node.holesAll children, i < j) ∧
    ∀ (id : SkeletonId) (values : List Value) (w w' : Workshop) (v : Value),
      Workshop.template ⟨id, s⟩ values w = (.ok v, w') →
      (∀ i ∈ Node.holesAll s.nodes, i < values.length) ∧
      (∀ options more,
        Markup.filled options (values ++ more) s = Markup.filled options values s) ∧
      ∀ places, TableOf s places → places.length = values.length ∧
        ∀ more host, patchPlaces places (values ++ more) host = patchPlaces places values host := by
  obtain ⟨told, holes, count⟩ := parse_told h
  have wellFormed := parse_wellFormed h
  have ordered : (transcript fragments).holes.Pairwise (· < ·) := holes ▸ List.pairwise_lt_range
  have once : (transcript fragments).holes.Nodup := holes ▸ List.nodup_range
  refine ⟨count, ?_, wellFormed.lt_holes, ?_, ?_, ?_⟩
  · intro i hi
    have hmem : i ∈ (transcript fragments).holes := holes ▸ List.mem_range.2 hi
    obtain ⟨f, hf⟩ := Transcript.fate_exists once told wellFormed.nodup hmem
    exact ⟨f, hf, fun g hg => hg.unique once hf⟩
  · exact Transcript.indices_increase ordered told
  · exact fun tag attrs children => Transcript.attrHoles_lt ordered told
  · intro id values w w' v haccepted
    have length : values.length = s.holes := by
      by_contra hne
      simp [Workshop.template, SharedSkeleton.holes, hne] at haccepted
    have lt : ∀ i ∈ Node.holesAll s.nodes, i < values.length := length ▸ wellFormed.lt_holes
    refine ⟨lt, ?_, ?_⟩
    · exact fun options more => Markup.nodes_append s.nodes lt
    · intro places table
      have hplaces := (table.length wellFormed.lt_holes).trans length.symm
      exact ⟨hplaces, fun more host => patchPlaces_append hplaces⟩

/-- Holes of all fates: in a comment, twice in one attribute, in other attributes and among
content. -/
def mixed : List String := ["<!-- ", " --><p a=", " a='", "' b=", "><i c=", "/>", "</p>", ""]

theorem mixed_fates :
    let s : Skeleton := ⟨[.element "p" [("a", .hole 2), ("b", .hole 3)]
      [.element "i" [("c", .hole 4)] [], .hole 5], .hole 6], 7⟩
    let values : List Value := [.null, .null, .text "a", .null, .null, .text "b", .null]
    parse mixed = .ok s ∧
      (∀ i < 7, ∃! f : Fate, f.Holds (transcript mixed) s.nodes i) ∧
      transcript mixed = [.dropped 0, .startTag "p" [("a", .hole 1), ("a", .hole 2), ("b", .hole 3)],
        .startTag "i" [("c", .hole 4)], .hole 5, .closingTag "p", .hole 6] ∧
      Markup.filled ⟨false, false⟩ (values ++ [.text "c"]) s = "<p a=\"a\"><i></i>b</p>" ∧
      ∃ places, TableOf s places ∧ places.length = 7 := by
  intro s values
  have read : parse mixed = .ok s := by decide +kernel
  obtain ⟨-, fates, -, -, -, accepted⟩ := parse_fates read
  obtain ⟨-, written, tables⟩ := accepted (.parsed 0) values {} _ _ rfl
  refine ⟨read, fates, by decide +kernel, ?_, ?_⟩
  · rw [written]
    decide +kernel
  · cases mounting : mount s Document.body {} with
    | error e h =>
      have succeeds : (match mount s Document.body {} with
        | .ok .. => true
        | .error .. => false) = true := by decide +kernel
      simp [mounting] at succeeds
    | ok r h => exact ⟨r.2, .mounted mounting, (tables _ (.mounted mounting)).1⟩

end Skeleton

end LiveTemplate
