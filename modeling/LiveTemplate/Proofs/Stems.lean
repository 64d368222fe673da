import LiveTemplate.Proofs.Editing
import LiveTemplate.Proofs.Picture
import LiveTemplate.Live
import Mathlib.Logic.Function.Basic

/-!
# Mounted skeletons

A stem is a node of a skeleton together with the node of the document that it was
mounted as. What a mounted skeleton looks like in the document depends on the data that
its elements have by now, and on what fills its spots: the content in front of a marker,
and what stands in an element whose children are given as markup. Whoever rewrites one
spot, or the data of one element, rewrites the whole.
-/
namespace LiveTemplate
open Document Subtree Live

/-- A node of a skeleton with the node it was mounted as. A host is an element whose
children are given as markup; the children that its template has are hidden. -/
inductive Stem where
  | element (id : NodeId) (tag : String) (attrs : Attributes) (children : List Stem)
  | host (id : NodeId) (tag : String) (attrs : Attributes) (hidden : List Node)
  | text (id : NodeId) (data : String)
  | hole (marker : NodeId) (index : Nat)

/-- The places that holes in attributes are given, with nothing shown in them yet. -/
def attrPlaces (node : NodeId) (attrs : Attributes) : List (Nat × Place) :=
  attrs.filterMap fun a =>
    match a.2 with
    | .hole index => (Binding.ofName? a.1).map fun b => (index, .attribute node b .null)
    | .literal _ => none

namespace Stem

mutual
/-- The node of the skeleton. -/
def node : Stem → Node
  | .element _ tag attrs children => .element tag attrs (nodes children)
  | .host _ tag attrs hidden => .element tag attrs hidden
  | .text _ data => .text data
  | .hole _ index => .hole index
termination_by structural s => s

def nodes : List Stem → List Node
  | [] => []
  | s :: rest => s.node :: nodes rest
termination_by structural ss => ss
end

mutual
/-- Exactly the hosts are given their children as markup. -/
def Proper : Stem → Prop
  | .element _ _ attrs children => markupSource? attrs = none ∧ ProperAll children
  | .host _ _ attrs _ => (markupSource? attrs).isSome = true
  | .text .. => True
  | .hole .. => True
termination_by structural s => s

def ProperAll : List Stem → Prop
  | [] => True
  | s :: rest => s.Proper ∧ ProperAll rest
termination_by structural ss => ss
end

mutual
/-- What stands in the document, given the data of the elements and what fills the spots. -/
def assemble (data : NodeId → ElementData) (fill : NodeId → List Subtree) : Stem → List Subtree
  | .element id _ _ children => [.node id (.element (data id)) (assembleAll data fill children)]
  | .host id _ _ _ => [.node id (.element (data id)) (fill id)]
  | .text id s => [.node id (.text s) []]
  | .hole marker _ => fill marker ++ [.node marker .marker []]
termination_by structural s => s

def assembleAll (data : NodeId → ElementData) (fill : NodeId → List Subtree) :
    List Stem → List Subtree
  | [] => []
  | s :: rest => s.assemble data fill ++ assembleAll data fill rest
termination_by structural ss => ss
end

mutual
/-- The elements, hosts included, each with its tag and attributes. -/
def elements : Stem → List (NodeId × String × Attributes)
  | .element id tag attrs children => (id, tag, attrs) :: elementsAll children
  | .host id tag attrs _ => [(id, tag, attrs)]
  | _ => []
termination_by structural s => s

def elementsAll : List Stem → List (NodeId × String × Attributes)
  | [] => []
  | s :: rest => s.elements ++ elementsAll rest
termination_by structural ss => ss
end

mutual
/-- The hosts, each with its attributes. -/
def hosts : Stem → List (NodeId × Attributes)
  | .element _ _ _ children => hostsAll children
  | .host id _ attrs _ => [(id, attrs)]
  | _ => []
termination_by structural s => s

def hostsAll : List Stem → List (NodeId × Attributes)
  | [] => []
  | s :: rest => s.hosts ++ hostsAll rest
termination_by structural ss => ss
end

mutual
/-- The markers, each with the index of its hole. -/
def markers : Stem → List (NodeId × Nat)
  | .element _ _ _ children => markersAll children
  | .hole marker index => [(marker, index)]
  | _ => []
termination_by structural s => s

def markersAll : List Stem → List (NodeId × Nat)
  | [] => []
  | s :: rest => s.markers ++ markersAll rest
termination_by structural ss => ss
end

mutual
/-- The holes with their places, as mounting returns them. -/
def bound : Stem → List (Nat × Place)
  | .element id _ attrs children => attrPlaces id attrs ++ boundAll children
  | .host id _ attrs _ => attrPlaces id attrs
  | .text .. => []
  | .hole marker index => [(index, .content marker .absent)]
termination_by structural s => s

def boundAll : List Stem → List (Nat × Place)
  | [] => []
  | s :: rest => s.bound ++ boundAll rest
termination_by structural ss => ss
end

/-- The node that a stem was mounted as. -/
def top : Stem → NodeId
  | .element id _ _ _ => id
  | .host id _ _ _ => id
  | .text id _ => id
  | .hole marker _ => marker

variable {data data' : NodeId → ElementData} {fill fill' : NodeId → List Subtree}

mutual
theorem assemble_congr : (s : Stem) →
    (∀ e ∈ s.elements, data e.1 = data' e.1) → (∀ e ∈ s.hosts, fill e.1 = fill' e.1) →
    (∀ m ∈ s.markers, fill m.1 = fill' m.1) → s.assemble data fill = s.assemble data' fill'
  | .element id tag attrs children, hd, hh, hm => by
      rw [assemble, assemble, hd _ (List.mem_cons_self ..),
        assembleAll_congr children (fun e he => hd e (List.mem_cons_of_mem _ he)) hh hm]
  | .host id tag attrs hidden, hd, hh, _ => by
      rw [assemble, assemble, hd _ (List.mem_singleton_self _), hh _ (List.mem_singleton_self _)]
  | .text .., _, _, _ => rfl
  | .hole marker index, _, _, hm => by
      rw [assemble, assemble, hm _ (List.mem_singleton_self _)]
termination_by structural s => s

/-- Only the data of the elements and what fills the spots matters. -/
theorem assembleAll_congr : (ss : List Stem) →
    (∀ e ∈ elementsAll ss, data e.1 = data' e.1) → (∀ e ∈ hostsAll ss, fill e.1 = fill' e.1) →
    (∀ m ∈ markersAll ss, fill m.1 = fill' m.1) →
    assembleAll data fill ss = assembleAll data' fill' ss
  | [], _, _, _ => rfl
  | s :: rest, hd, hh, hm => by
      simp only [elementsAll, hostsAll, markersAll, List.mem_append] at hd hh hm
      rw [assembleAll, assembleAll,
        assemble_congr s (fun e he => hd e (.inl he)) (fun e he => hh e (.inl he))
          fun m h => hm m (.inl h),
        assembleAll_congr rest (fun e he => hd e (.inr he)) (fun e he => hh e (.inr he))
          fun m h => hm m (.inr h)]
termination_by structural ss => ss
end

mutual
theorem mem_ids (data : NodeId → ElementData) (fill : NodeId → List Subtree) : (s : Stem) →
    (∀ e ∈ s.elements, e.1 ∈ idsAll (s.assemble data fill)) ∧
    (∀ e ∈ s.hosts, e.1 ∈ idsAll (s.assemble data fill)) ∧
    (∀ m ∈ s.markers, m.1 ∈ idsAll (s.assemble data fill))
  | .element id tag attrs children => by
      obtain ⟨h1, h2, h3⟩ := mem_idsAll data fill children
      refine ⟨?_, ?_, ?_⟩
      · rintro e (_ | ⟨_, he⟩)
        · simp [assemble]
        · simp [assemble, h1 e he]
      · exact fun e he => by simp [assemble, h2 e he]
      · exact fun m hm => by simp [assemble, h3 m hm]
  | .host id tag attrs hidden => by simp [elements, hosts, markers, assemble]
  | .text .. => by simp [elements, hosts, markers]
  | .hole marker index => by simp [elements, hosts, markers, assemble]
termination_by structural s => s

/-- Elements and markers stand in the document. -/
theorem mem_idsAll (data : NodeId → ElementData) (fill : NodeId → List Subtree) :
    (ss : List Stem) →
    (∀ e ∈ elementsAll ss, e.1 ∈ idsAll (assembleAll data fill ss)) ∧
    (∀ e ∈ hostsAll ss, e.1 ∈ idsAll (assembleAll data fill ss)) ∧
    (∀ m ∈ markersAll ss, m.1 ∈ idsAll (assembleAll data fill ss))
  | [] => by simp [elementsAll, hostsAll, markersAll]
  | s :: rest => by
      obtain ⟨h1, h2, h3⟩ := mem_ids data fill s
      obtain ⟨k1, k2, k3⟩ := mem_idsAll data fill rest
      simp only [elementsAll, hostsAll, markersAll, assembleAll, idsAll_append, List.mem_append]
      exact ⟨fun e he => he.imp (h1 e) (k1 e), fun e he => he.imp (h2 e) (k2 e),
        fun m hm => hm.imp (h3 m) (k3 m)⟩
termination_by structural ss => ss
end

end Stem

namespace Stem
variable {ss ss' : List Stem}

theorem nodes_append : nodes (ss ++ ss') = nodes ss ++ nodes ss' := by
  induction ss with
  | nil => rfl
  | cons s rest ih => simp [nodes, ih]

theorem properAll_append : ProperAll (ss ++ ss') ↔ ProperAll ss ∧ ProperAll ss' := by
  induction ss with
  | nil => simp [ProperAll]
  | cons s rest ih => simp [ProperAll, ih, and_assoc]

theorem boundAll_append : boundAll (ss ++ ss') = boundAll ss ++ boundAll ss' := by
  induction ss with
  | nil => rfl
  | cons s rest ih => simp [boundAll, ih]

theorem elementsAll_append : elementsAll (ss ++ ss') = elementsAll ss ++ elementsAll ss' := by
  induction ss with
  | nil => rfl
  | cons s rest ih => simp [elementsAll, ih]

theorem hostsAll_append : hostsAll (ss ++ ss') = hostsAll ss ++ hostsAll ss' := by
  induction ss with
  | nil => rfl
  | cons s rest ih => simp [hostsAll, ih]

theorem markersAll_append : markersAll (ss ++ ss') = markersAll ss ++ markersAll ss' := by
  induction ss with
  | nil => rfl
  | cons s rest ih => simp [markersAll, ih]

theorem assembleAll_append (data : NodeId → ElementData) (fill : NodeId → List Subtree) :
    assembleAll data fill (ss ++ ss') = assembleAll data fill ss ++ assembleAll data fill ss' := by
  induction ss with
  | nil => rfl
  | cons s rest ih => simp [assembleAll, ih]

end Stem

/-- What stands in the document is what the skeleton shows with these values: each
element has what it should have, and each spot is filled with what should stand there. -/
structure Shows (looked : Target → Bool) (markup : String → List Shape) (shown : Nat → Value)
    (contentAt : Nat → List Shape) (data : NodeId → ElementData) (fill : NodeId → List Subtree)
    (elements : List (NodeId × String × Attributes)) (hosts : List (NodeId × Attributes))
    (markers : List (NodeId × Nat)) : Prop where
  tag : ∀ e ∈ elements, (data e.1).tag = Text.lower e.2.1
  reading : ∀ e ∈ elements, ∀ x, looked x = true → (data e.1).reading x = look x shown e.2.2
  host : ∀ e ∈ hosts, shapes looked (fill e.1) = markupShapes markup shown e.2
  content : ∀ m ∈ markers, shapes looked (fill m.1) = contentAt m.2

namespace Stem

section
variable {looked : Target → Bool} {markup : String → List Shape} {shown : Nat → Value}
  {contentAt : Nat → List Shape} {data : NodeId → ElementData} {fill : NodeId → List Subtree}

theorem element_shape {id : NodeId} {tag : String} {attrs : Attributes} {kids : List Subtree}
    (htag : (data id).tag = Text.lower tag)
    (hread : ∀ x, looked x = true → (data id).reading x = look x shown attrs) :
    Subtree.shape looked (.node id (.element (data id)) kids) =
      .element (Text.lower tag) (fun x => if looked x then look x shown attrs else [])
        (shapes looked kids) := by
  rw [Subtree.shape, NodeKind.seen, htag]
  congr 2
  funext x
  split
  next hx => exact hread x hx
  next => rfl

mutual
theorem shapes_assemble : (s : Stem) → s.Proper →
    Shows looked markup shown contentAt data fill s.elements s.hosts s.markers →
    shapes looked (s.assemble data fill) = s.node.shapes looked markup shown contentAt
  | .element id tag attrs children, proper, h => by
      rw [assemble, shapes_cons, shapes_nil, element_shape (h.tag _ (List.mem_cons_self ..))
        (h.reading _ (List.mem_cons_self ..)), node, Node.shapes, proper.1]
      rw [shapes_assembleAll children proper.2 ⟨fun e he => h.tag e (List.mem_cons_of_mem _ he),
        fun e he => h.reading e (List.mem_cons_of_mem _ he), h.host, h.content⟩]
      rfl
  | .host id tag attrs hidden, proper, h => by
      have hhost : (markupSource? attrs).isSome = true := proper
      rw [assemble, shapes_cons, shapes_nil, element_shape (h.tag _ (List.mem_singleton_self _))
        (h.reading _ (List.mem_singleton_self _)), node, Node.shapes,
        h.host _ (List.mem_singleton_self _), if_pos hhost]
  | .text .., _, _ => rfl
  | .hole marker index, _, h => by
      rw [assemble, shapes_append, h.content _ (List.mem_singleton_self _), node, Node.shapes]
      rfl
termination_by structural s => s

/-- What is mounted shows what the skeleton should. -/
theorem shapes_assembleAll : (ss : List Stem) → ProperAll ss →
    Shows looked markup shown contentAt data fill (elementsAll ss) (hostsAll ss) (markersAll ss) →
    shapes looked (assembleAll data fill ss) =
      Node.shapesAll looked markup shown contentAt (nodes ss)
  | [], _, _ => rfl
  | s :: rest, proper, h => by
      rw [assembleAll, shapes_append, nodes, Node.shapesAll,
        shapes_assemble s proper.1 ⟨fun e he => h.tag e (List.mem_append_left _ he),
          fun e he => h.reading e (List.mem_append_left _ he),
          fun e he => h.host e (List.mem_append_left _ he),
          fun m hm => h.content m (List.mem_append_left _ hm)⟩,
        shapes_assembleAll rest proper.2 ⟨fun e he => h.tag e (List.mem_append_right _ he),
          fun e he => h.reading e (List.mem_append_right _ he),
          fun e he => h.host e (List.mem_append_right _ he),
          fun m hm => h.content m (List.mem_append_right _ hm)⟩]
termination_by structural ss => ss
end

end

end Stem

/-! ### Looking at a part of a block -/

namespace Document

/-- A block inside another one. Rewriting the inner one rewrites the outer one. -/
structure Focus (d : Document) (parent : NodeId) (before : List NodeId) (whole : List Subtree)
    (behind : List NodeId) (q : NodeId) (before' : List NodeId) (part : List Subtree)
    (behind' : List NodeId) (plug : List Subtree → List Subtree) : Prop where
  block : Block d q before' part behind'
  lift : ∀ d' new, Rewrites d d' q before' part new behind' →
    Rewrites d d' parent before whole (plug new) behind

namespace Focus
variable {d : Document} {parent q : NodeId} {before behind before' behind' : List NodeId}
  {whole part left right kids : List Subtree} {plug : List Subtree → List Subtree}

theorem refl (b : Block d parent before whole behind) :
    Focus d parent before whole behind parent before whole behind fun new => new :=
  ⟨b, fun _ _ w => w⟩

theorem ofPart (b : Block d parent before (left ++ whole ++ right) behind)
    (f : Focus d parent (before ++ roots left) whole (roots right ++ behind) q before' part behind'
      plug) :
    Focus d parent before (left ++ whole ++ right) behind q before' part behind'
      (fun new => left ++ plug new ++ right) :=
  ⟨f.block, fun d' new w => (f.lift d' new w).part b⟩

theorem ofInside {id : NodeId} {kind : NodeKind}
    (b : Block d parent before [.node id kind kids] behind)
    (f : Focus d id [] kids [] q before' part behind' plug) :
    Focus d parent before [.node id kind kids] behind q before' part behind'
      (fun new => [.node id kind (plug new)]) :=
  ⟨f.block, fun d' new w => (f.lift d' new w).inside b⟩

theorem mono {plug' : List Subtree → List Subtree}
    (f : Focus d parent before whole behind q before' part behind' plug)
    (h : ∀ new, plug new = plug' new) :
    Focus d parent before whole behind q before' part behind' plug' :=
  ⟨f.block, fun d' new w => h new ▸ f.lift d' new w⟩

end Focus

end Document

namespace Stem

variable {d : Document} {parent : NodeId} {before behind : List NodeId} {left right : List Subtree}
  {data : NodeId → ElementData} {fill : NodeId → List Subtree} {k : NodeId}

theorem container_of_element {id : NodeId} {e : ElementData} {kids : List Subtree}
    (b : Block d parent before [.node id (.element e) kids] behind) : d.isContainer id = true := by
  have h := b.holds.1.1
  simp [isContainer, kind?, h]

/-- Where a spot is filled anew, the parts that do not have the spot stay. -/
theorem assembleAll_update_fill {ss : List Stem} (new : List Subtree)
    (h : ∀ n ∈ idsAll (assembleAll data fill ss), n ≠ k) :
    assembleAll data (Function.update fill k new) ss = assembleAll data fill ss := by
  obtain ⟨-, h2, h3⟩ := mem_idsAll data fill ss
  exact assembleAll_congr ss (fun _ _ => rfl)
    (fun e he => Function.update_of_ne (h _ (h2 e he)) _ _)
    fun m hm => Function.update_of_ne (h _ (h3 m hm)) _ _

theorem assemble_update_fill {s : Stem} (new : List Subtree)
    (h : ∀ n ∈ idsAll (s.assemble data fill), n ≠ k) :
    s.assemble data (Function.update fill k new) = s.assemble data fill := by
  have all : ∀ n ∈ idsAll (assembleAll data fill [s]), n ≠ k := by simpa [assembleAll] using h
  simpa [assembleAll] using assembleAll_update_fill new all

theorem assembleAll_update_data {ss : List Stem} (new : ElementData)
    (h : ∀ n ∈ idsAll (assembleAll data fill ss), n ≠ k) :
    assembleAll (Function.update data k new) fill ss = assembleAll data fill ss := by
  obtain ⟨h1, -, -⟩ := mem_idsAll data fill ss
  exact assembleAll_congr ss (fun e he => Function.update_of_ne (h _ (h1 e he)) _ _)
    (fun _ _ => rfl) fun _ _ => rfl

theorem assemble_update_data {s : Stem} (new : ElementData)
    (h : ∀ n ∈ idsAll (s.assemble data fill), n ≠ k) :
    s.assemble (Function.update data k new) fill = s.assemble data fill := by
  have all : ∀ n ∈ idsAll (assembleAll data fill [s]), n ≠ k := by simpa [assembleAll] using h
  simpa [assembleAll] using assembleAll_update_data new all

/-- In a block no node of one part is one of another. -/
theorem ne_of_parts {f g : List Subtree} (nodup : (idsAll (f ++ g)).Nodup) :
    (∀ a ∈ idsAll f, ∀ b ∈ idsAll g, b ≠ a) ∧ (∀ a ∈ idsAll g, ∀ b ∈ idsAll f, b ≠ a) := by
  rw [idsAll_append, List.nodup_append] at nodup
  exact ⟨fun a ha b hb h => nodup.2.2 a ha b hb h.symm, fun a ha b hb h => nodup.2.2 b hb a ha h⟩

mutual
theorem focus_marker : (s : Stem) → ∀ {parent : NodeId} {before behind : List NodeId},
    Block d parent before (s.assemble data fill) behind → ∀ m ∈ s.markers,
    ∃ q before' rest, Focus d parent before (s.assemble data fill) behind q before' (fill m.1)
      (m.1 :: rest) fun new => s.assemble data (Function.update fill m.1 new)
  | .element id tag attrs children, parent, before, behind, b, m, hm => by
      obtain ⟨q, before', rest, f⟩ := focusAll_marker children (b.inside (container_of_element b)) m hm
      exact ⟨q, before', rest, .ofInside b f⟩
  | .host .., _, _, _, _, m, hm => by simp [markers] at hm
  | .text .., _, _, _, _, m, hm => by simp [markers] at hm
  | .hole marker index, parent, before, behind, b, m, hm => by
      obtain rfl := List.mem_singleton.1 hm
      have b' : Block d parent before ([] ++ fill marker ++ [.node marker .marker []]) behind := b
      refine ⟨parent, before ++ roots [], behind, (Focus.ofPart b' (Focus.refl b'.part)).mono ?_⟩
      intro new
      simp [assemble]
termination_by structural s => s

/-- What stands in front of a marker can be rewritten, and the marker is right behind it. -/
theorem focusAll_marker : (ss : List Stem) → ∀ {parent : NodeId} {before behind : List NodeId},
    Block d parent before (assembleAll data fill ss) behind → ∀ m ∈ markersAll ss,
    ∃ q before' rest, Focus d parent before (assembleAll data fill ss) behind q before' (fill m.1)
      (m.1 :: rest) fun new => assembleAll data (Function.update fill m.1 new) ss
  | [], _, _, _, _, m, hm => by simp [markersAll] at hm
  | s :: rest, parent, before, behind, b, m, hm => by
      obtain ⟨hne, hne'⟩ := ne_of_parts (f := s.assemble data fill) (g := assembleAll data fill rest)
        b.nodup
      rcases List.mem_append.1 hm with hm | hm
      · have hk := (mem_ids data fill s).2.2 m hm
        have b' : Block d parent before ([] ++ s.assemble data fill ++ assembleAll data fill rest)
            behind := b
        obtain ⟨q, before', r, f⟩ := focus_marker s b'.part m hm
        refine ⟨q, before', r, (Focus.ofPart b' f).mono fun new => ?_⟩
        rw [assembleAll, assembleAll_update_fill new (hne _ hk), List.nil_append]
      · have hk := (mem_idsAll data fill rest).2.2 m hm
        have b' : Block d parent before (s.assemble data fill ++ assembleAll data fill rest ++ [])
            behind := by simpa [assembleAll] using b
        obtain ⟨q, before', r, f⟩ := focusAll_marker rest b'.part m hm
        rw [assembleAll, ← List.append_nil (s.assemble data fill ++ assembleAll data fill rest)]
        refine ⟨q, before', r, (Focus.ofPart b' f).mono fun new => ?_⟩
        rw [assembleAll, assemble_update_fill new (hne' _ hk), List.append_nil]
termination_by structural ss => ss
end

/-- A block that is one element of a mounted skeleton, with what it takes to change its
data, and for a host to change what stands in it. -/
structure ElementFocus (d : Document) (parent : NodeId) (before : List NodeId)
    (behind : List NodeId) (ss : List Stem) (data : NodeId → ElementData)
    (fill : NodeId → List Subtree) (id : NodeId) (q : NodeId) (before' : List NodeId)
    (kids : List Subtree) (behind' : List NodeId) (plug : List Subtree → List Subtree) :
    Prop where
  focus : Focus d parent before (assembleAll data fill ss) behind q before'
    [.node id (.element (data id)) kids] behind' plug
  plug_data : ∀ e, plug [.node id (.element e) kids] =
    assembleAll (Function.update data id e) fill ss
  kids_host : ∀ e ∈ hostsAll ss, e.1 = id → kids = fill id
  plug_fill : ∀ e ∈ hostsAll ss, e.1 = id → ∀ f, plug [.node id (.element (data id)) f] =
    assembleAll data (Function.update fill id f) ss

theorem ElementFocus.ofLeft {s : Stem} {rest : List Stem} {id q : NodeId}
    {before' behind' : List NodeId} {kids : List Subtree} {plug : List Subtree → List Subtree}
    (b : Block d parent before (assembleAll data fill (s :: rest)) behind)
    (hid : id ∈ idsAll (s.assemble data fill))
    (f : ElementFocus d parent before (roots (assembleAll data fill rest) ++ behind) [s] data fill
      id q before' kids behind' plug) :
    ElementFocus d parent before behind (s :: rest) data fill id q before' kids behind'
      (fun new => plug new ++ assembleAll data fill rest) := by
  obtain ⟨hne, -⟩ := ne_of_parts (f := s.assemble data fill) (g := assembleAll data fill rest) b.nodup
  have hrest : ∀ e ∈ hostsAll rest, e.1 ≠ id := fun e he =>
    hne id hid _ ((mem_idsAll data fill rest).2.1 e he)
  have b' : Block d parent before ([] ++ assembleAll data fill [s] ++ assembleAll data fill rest)
      behind := by simpa [assembleAll] using b
  have f' : Focus d (parent) (before ++ roots []) (assembleAll data fill [s])
      (roots (assembleAll data fill rest) ++ behind) q before'
      [.node id (.element (data id)) kids] behind' plug := by
    simpa using f.focus
  have hmem : ∀ e ∈ hostsAll (s :: rest), e.1 = id → e ∈ hostsAll [s] := by
    intro e he h
    rcases List.mem_append.1 he with h' | h'
    · simpa [hostsAll] using h'
    · exact absurd h (hrest e h')
  refine ⟨?_, fun e => ?_, fun e he h => f.kids_host e (hmem e he h) h, fun e he h g => ?_⟩
  · have := Focus.ofPart b' f'
    simpa [assembleAll] using this
  · rw [f.plug_data, assembleAll, assembleAll, assembleAll, assembleAll_update_data e (hne id hid),
      List.append_nil]
  · rw [f.plug_fill e (hmem e he h) h, assembleAll, assembleAll, assembleAll,
      assembleAll_update_fill g (hne id hid), List.append_nil]

theorem ElementFocus.ofRight {s : Stem} {rest : List Stem} {id q : NodeId}
    {before' behind' : List NodeId} {kids : List Subtree} {plug : List Subtree → List Subtree}
    (b : Block d parent before (assembleAll data fill (s :: rest)) behind)
    (hid : id ∈ idsAll (assembleAll data fill rest))
    (f : ElementFocus d parent (before ++ roots (s.assemble data fill)) behind rest data fill
      id q before' kids behind' plug) :
    ElementFocus d parent before behind (s :: rest) data fill id q before' kids behind'
      (fun new => s.assemble data fill ++ plug new) := by
  obtain ⟨-, hne⟩ := ne_of_parts (f := s.assemble data fill) (g := assembleAll data fill rest) b.nodup
  have hs : ∀ e ∈ s.hosts, e.1 ≠ id := fun e he =>
    hne id hid _ ((mem_ids data fill s).2.1 e he)
  have b' : Block d parent before (s.assemble data fill ++ assembleAll data fill rest ++ [])
      behind := by simpa [assembleAll] using b
  have f' : Focus d parent (before ++ roots (s.assemble data fill)) (assembleAll data fill rest)
      (roots [] ++ behind) q before' [.node id (.element (data id)) kids] behind' plug := f.focus
  have hmem : ∀ e ∈ hostsAll (s :: rest), e.1 = id → e ∈ hostsAll rest := by
    intro e he h
    rcases List.mem_append.1 he with h' | h'
    · exact absurd h (hs e h')
    · exact h'
  refine ⟨?_, fun e => ?_, fun e he h => f.kids_host e (hmem e he h) h, fun e he h g => ?_⟩
  · have := Focus.ofPart b' f'
    simpa [assembleAll] using this
  · rw [f.plug_data, assembleAll, assemble_update_data e (hne id hid)]
  · rw [f.plug_fill e (hmem e he h) h, assembleAll, assemble_update_fill g (hne id hid)]

mutual
theorem focus_element : (s : Stem) → ∀ {parent : NodeId} {before behind : List NodeId},
    Block d parent before (s.assemble data fill) behind → ∀ e ∈ s.elements,
    ∃ q before' kids behind' plug,
      ElementFocus d parent before behind [s] data fill e.1 q before' kids behind' plug
  | .element id tag attrs children, parent, before, behind, b, e, he => by
      have nodup := b.nodup
      simp only [assemble, idsAll_cons, ids_node, idsAll_nil, List.append_nil,
        List.nodup_cons] at nodup
      have hne : ∀ n ∈ idsAll (assembleAll data fill children), n ≠ id := fun n hn h =>
        nodup.1 (h ▸ hn)
      obtain ⟨-, hhosts, -⟩ := mem_idsAll data fill children
      rcases List.mem_cons.1 he with rfl | he
      · refine ⟨parent, before, assembleAll data fill children, behind, fun new => new, ?_, fun e => ?_, ?_, ?_⟩
        · simpa [assembleAll, assemble] using Focus.refl b
        · simp [assembleAll, assemble, assembleAll_update_data e hne]
        · exact fun e he h => absurd h (hne _ (hhosts e (by simpa [hostsAll, hosts] using he)))
        · exact fun e he h => absurd h (hne _ (hhosts e (by simpa [hostsAll, hosts] using he)))
      · obtain ⟨q, before', kids, behind', plug, f⟩ :=
          focusAll_element children (b.inside (container_of_element b)) e he
        have hid : e.1 ≠ id := hne _ ((mem_idsAll data fill children).1 e he)
        have hmem : ∀ m ∈ hostsAll [Stem.element id tag attrs children], m ∈ hostsAll children :=
          fun m hm => by simpa [hostsAll, hosts] using hm
        refine ⟨q, before', kids, behind', fun new => [.node id (.element (data id)) (plug new)], ?_,
          fun new => ?_, fun m hm h => f.kids_host m (hmem m hm) h, fun m hm h g => ?_⟩
        · simpa [assembleAll, assemble] using Focus.ofInside b f.focus
        · simp [f.plug_data, assembleAll, assemble, Function.update_of_ne hid.symm]
        · simp [f.plug_fill m (hmem m hm) h, assembleAll, assemble]
  | .host id tag attrs hidden, parent, before, behind, b, e, he => by
      obtain rfl := List.mem_singleton.1 he
      refine ⟨parent, before, fill id, behind, fun new => new, ?_, fun e => ?_, ?_, ?_⟩
      · simpa [assembleAll, assemble] using Focus.refl b
      · simp [assembleAll, assemble]
      · exact fun _ _ _ => rfl
      · exact fun _ _ _ g => by simp [assembleAll, assemble]
  | .text .., _, _, _, _, e, he => by simp [elements] at he
  | .hole .., _, _, _, _, e, he => by simp [elements] at he
termination_by structural s => s

/-- Every element of a mounted skeleton is a block of its own. -/
theorem focusAll_element : (ss : List Stem) → ∀ {parent : NodeId} {before behind : List NodeId},
    Block d parent before (assembleAll data fill ss) behind → ∀ e ∈ elementsAll ss,
    ∃ q before' kids behind' plug,
      ElementFocus d parent before behind ss data fill e.1 q before' kids behind' plug
  | [], _, _, _, _, e, he => by simp [elementsAll] at he
  | s :: rest, parent, before, behind, b, e, he => by
      rcases List.mem_append.1 he with he | he
      · have b' : Block d parent before ([] ++ s.assemble data fill ++ assembleAll data fill rest)
            behind := b
        obtain ⟨q, before', kids, behind', plug, f⟩ := focus_element s b'.part e he
        simp only [roots_nil, List.append_nil] at f
        exact ⟨q, before', kids, behind', _, f.ofLeft b
          ((mem_ids data fill s).1 e he)⟩
      · have b' : Block d parent before (s.assemble data fill ++ assembleAll data fill rest ++ [])
            behind := by simpa [assembleAll] using b
        obtain ⟨q, before', kids, behind', plug, f⟩ := focusAll_element rest b'.part e he
        exact ⟨q, before', kids, behind', _, ElementFocus.ofRight b
          ((mem_idsAll data fill rest).1 e he) f⟩
termination_by structural ss => ss
end

end Stem

end LiveTemplate
