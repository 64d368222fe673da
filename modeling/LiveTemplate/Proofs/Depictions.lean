import LiveTemplate.Proofs.Agreement

/-!
# Depictions

A forest depicts a value when it has the elements, texts and markers that the value shows. What an
element has for its attributes is left open: of that and of the template that the element comes from
something may hold.
-/
namespace LiveTemplate
open Document Subtree

section
variable (P : String → Attributes → (Target → List Value) → Prop) (markup : String → List Shape)
  (shown : Nat → Value) (C : Nat → List Shape → Prop)

mutual
/-- The shapes are those of a node, given what markup shows, the values of the holes, and what
depicts them as content. -/
def Node.Depicted : Node → List Shape → Prop
  | .element tag attrs children, shapes =>
      ∃ reading kids, shapes = [.element (Text.lower tag) reading kids] ∧ P tag attrs reading ∧
        if (markupSource? attrs).isSome then kids = markupShapes markup shown attrs
        else DepictedAll children kids
  | .text data, shapes => shapes = [.text data]
  | .hole index, shapes => ∃ content, C index content ∧ shapes = content ++ [.marker]
termination_by structural n => n

def Node.DepictedAll : List Node → List Shape → Prop
  | [], shapes => shapes = []
  | n :: rest, shapes => ∃ f g, n.Depicted f ∧ DepictedAll rest g ∧ shapes = f ++ g
termination_by structural ns => ns
end

end

/-- Something that may be said of an element: of its tag and its attributes in the template, of the
values of the holes, and of what is seen of it. -/
abbrev Sighting : Type := String → Attributes → List Value → (Target → List Value) → Prop

namespace Value
variable (P : Sighting)

mutual
/-- The shapes are those of a value as content. -/
def Depicted : Value → List Shape → Prop
  | .template _ shared values, shapes =>
      ∃ inside, Node.DepictedAll (fun tag attrs => P tag attrs values)
          (shownMarkup Target.isAttribute) (Markup.valueAt values) (DepictedAt values) shared.nodes
          inside ∧
        shapes = .marker :: (inside ++ [.marker])
  | .list _ items, shapes => DepictedItems items shapes
  | v, shapes => shapes = v.shapes Target.isAttribute
termination_by structural v => v

def DepictedItems : List Value → List Shape → Prop
  | [], shapes => shapes = []
  | v :: rest, shapes => ∃ f g, v.Depicted f ∧ DepictedItems rest g ∧ shapes = f ++ g
termination_by structural vs => vs

def DepictedAt : List Value → Nat → List Shape → Prop
  | [], _, shapes => shapes = []
  | v :: _, 0, shapes => v.Depicted shapes
  | _ :: rest, index + 1, shapes => DepictedAt rest index shapes
termination_by structural vs => vs
end

/-- The shapes are those of a value that is rendered on its own. -/
def DepictedAlone (v : Value) (shapes : List Shape) : Prop :=
  Node.DepictedAll (fun tag attrs => P tag attrs v.parts.2) (shownMarkup Target.isAttribute)
    (Markup.valueAt v.parts.2) (DepictedAt P v.parts.2) v.parts.1.nodes shapes

theorem depictedAt_iff (values : List Value) (index : Nat) (shapes : List Shape) :
    DepictedAt P values index shapes ↔ (Markup.valueAt values index).Depicted P shapes := by
  induction values generalizing index with
  | nil => exact Iff.rfl
  | cons v rest ih =>
    cases index with
    | zero => exact Iff.rfl
    | succ index => exact ih index

end Value

/-! ### Mounted skeletons -/

/-- What is seen of the attributes of an element. -/
def ElementData.seen (data : ElementData) (x : Target) : List Value :=
  if x.isAttribute then data.reading x else []

/-- What stands in the document depicts a mounted skeleton. -/
structure Stem.Depicts (P : String → Attributes → (Target → List Value) → Prop)
    (markup : String → List Shape) (shown : Nat → Value) (C : Nat → List Shape → Prop)
    (data : NodeId → ElementData) (fill : NodeId → List Subtree)
    (elements : List (NodeId × String × Attributes)) (hosts : List (NodeId × Attributes))
    (markers : List (NodeId × Nat)) : Prop where
  tag : ∀ e ∈ elements, (data e.1).tag = Text.lower e.2.1
  holds : ∀ e ∈ elements, P e.2.1 e.2.2 (data e.1).seen
  host : ∀ e ∈ hosts, shapes Target.isAttribute (fill e.1) = markupShapes markup shown e.2
  content : ∀ m ∈ markers, C m.2 (shapes Target.isAttribute (fill m.1))

namespace Stem
variable {P : String → Attributes → (Target → List Value) → Prop} {markup : String → List Shape}
  {shown : Nat → Value} {C : Nat → List Shape → Prop} {data : NodeId → ElementData}
  {fill : NodeId → List Subtree}

theorem shape_element {id : NodeId} {tag : String} (htag : (data id).tag = Text.lower tag)
    (kids : List Subtree) :
    shapes Target.isAttribute [.node id (.element (data id)) kids] =
      [.element (Text.lower tag) (data id).seen (shapes Target.isAttribute kids)] := by
  rw [shapes_cons, shapes_nil, Subtree.shape, NodeKind.seen, htag]
  rfl

mutual
theorem depicted_assemble : (s : Stem) → s.Proper →
    Depicts P markup shown C data fill s.elements s.hosts s.markers →
    s.node.Depicted P markup shown C (shapes Target.isAttribute (s.assemble data fill))
  | .element id tag attrs children, proper, d => by
      have kids := depictedAll_assembleAll children proper.2
        ⟨fun e he => d.tag e (List.mem_cons_of_mem _ he),
          fun e he => d.holds e (List.mem_cons_of_mem _ he), d.host, d.content⟩
      refine ⟨_, _, shape_element (d.tag _ (List.mem_cons_self ..)) _,
        d.holds _ (List.mem_cons_self ..), ?_⟩
      rw [proper.1]
      exact kids
  | .host id tag attrs hidden, proper, d => by
      have given : (markupSource? attrs).isSome = true := proper
      refine ⟨_, _, shape_element (d.tag _ (List.mem_singleton_self _)) _,
        d.holds _ (List.mem_singleton_self _), ?_⟩
      rw [if_pos given]
      exact d.host _ (List.mem_singleton_self _)
  | .text .., _, _ => rfl
  | .hole marker index, _, d => ⟨_, d.content _ (List.mem_singleton_self _), shapes_append ..⟩
termination_by structural s => s

theorem depictedAll_assembleAll : (ss : List Stem) → ProperAll ss →
    Depicts P markup shown C data fill (elementsAll ss) (hostsAll ss) (markersAll ss) →
    Node.DepictedAll P markup shown C (nodes ss) (shapes Target.isAttribute (assembleAll data fill ss))
  | [], _, _ => rfl
  | s :: rest, proper, d => by
      refine ⟨_, _, depicted_assemble s proper.1 ?_, depictedAll_assembleAll rest proper.2 ?_,
        shapes_append ..⟩
      · exact ⟨fun e he => d.tag e (List.mem_append_left _ he),
          fun e he => d.holds e (List.mem_append_left _ he),
          fun e he => d.host e (List.mem_append_left _ he),
          fun m hm => d.content m (List.mem_append_left _ hm)⟩
      · exact ⟨fun e he => d.tag e (List.mem_append_right _ he),
          fun e he => d.holds e (List.mem_append_right _ he),
          fun e he => d.host e (List.mem_append_right _ he),
          fun m hm => d.content m (List.mem_append_right _ hm)⟩
termination_by structural ss => ss
end

end Stem

end LiveTemplate
