import LiveTemplate.Document.View
import LiveTemplate.Markup
import LiveTemplate.Proofs.Routes

/-!
# What values show

The picture of a value is the forest that it shows, without the numbers of nodes. It is
defined from the skeletons and the values alone. Of an element it has the tag, what can
be read for each target that is looked at, and the children.
-/
namespace LiveTemplate

/-- What a node is, with what can be read off an element. -/
inductive ShapeKind where
  | element (tag : String) (reading : Target → List Value)
  | text (data : String)
  | marker
  | fragment

/-- A tree without the numbers of nodes. -/
inductive Shape where
  | node (kind : ShapeKind) (children : List Shape)

namespace Shape

abbrev element (tag : String) (reading : Target → List Value) (children : List Shape) : Shape :=
  .node (.element tag reading) children

abbrev text (data : String) : Shape := .node (.text data) []

abbrev marker : Shape := .node .marker []

end Shape

/-- A kind of node with the given targets looked at. -/
def NodeKind.seen (looked : Target → Bool) : NodeKind → ShapeKind
  | .element data => .element data.tag fun x => if looked x then data.reading x else []
  | .text data => .text data
  | .marker => .marker
  | .fragment => .fragment

namespace Subtree

mutual
/-- The tree with the given targets looked at. -/
def shape (looked : Target → Bool) : Subtree → Shape
  | .node _ kind children => .node (kind.seen looked) (shapes looked children)
termination_by structural t => t

def shapes (looked : Target → Bool) : List Subtree → List Shape
  | [] => []
  | t :: rest => t.shape looked :: shapes looked rest
termination_by structural ts => ts
end

variable {looked : Target → Bool}

@[simp] theorem shapes_nil : shapes looked [] = [] := rfl

@[simp] theorem shapes_cons (t : Subtree) (rest : List Subtree) :
    shapes looked (t :: rest) = t.shape looked :: shapes looked rest := rfl

@[simp] theorem shapes_append (f g : List Subtree) :
    shapes looked (f ++ g) = shapes looked f ++ shapes looked g := by
  induction f with
  | nil => rfl
  | cons t rest ih => simp [ih]

end Subtree

/-! ### The picture of a skeleton -/

/-- What an element shows in place of its children, given what markup shows. -/
def markupShapes (markup : String → List Shape) (shown : Nat → Value) (attrs : Attributes) :
    List Shape :=
  match markupSource? attrs with
  | some (.literal text) => markup text
  | some (.hole index) => if shown index = .null then [] else markup (shown index).toText
  | none => []

namespace Node

mutual
/-- What a node shows, given what markup shows, the values of the holes, and what they
show as content. Content stands in front of a marker. -/
def shapes (looked : Target → Bool) (markup : String → List Shape) (shown : Nat → Value)
    (contentAt : Nat → List Shape) : Node → List Shape
  | .element tag attrs children =>
      [.element (Text.lower tag) (fun x => if looked x then look x shown attrs else [])
        (if (markupSource? attrs).isSome then markupShapes markup shown attrs
          else shapesAll looked markup shown contentAt children)]
  | .text data => [.text data]
  | .hole index => contentAt index ++ [.marker]
termination_by structural n => n

def shapesAll (looked : Target → Bool) (markup : String → List Shape) (shown : Nat → Value)
    (contentAt : Nat → List Shape) : List Node → List Shape
  | [] => []
  | n :: rest =>
      n.shapes looked markup shown contentAt ++ shapesAll looked markup shown contentAt rest
termination_by structural ns => ns
end

end Node

/-- What markup shows, with markup inside it down to a depth. -/
def fillShapes (looked : Target → Bool) : Nat → String → List Shape
  | 0, _ => []
  | depth + 1, markup =>
      match Skeleton.parse [markup] with
      | .ok skeleton =>
          Node.shapesAll looked (fillShapes looked depth) (fun _ => .null) (fun _ => [])
            skeleton.nodes
      | .error _ => [.text markup]

def shownMarkup (looked : Target → Bool) (markup : String) : List Shape :=
  fillShapes looked (markup.utf8ByteSize + 1) markup

namespace Value

mutual
/-- What a value shows as content. A template stands between two markers. -/
def shapes (looked : Target → Bool) : Value → List Shape
  | .template _ shared values =>
      .marker :: (Node.shapesAll looked (shownMarkup looked) (Markup.valueAt values)
        (shapesAt looked values) shared.nodes ++ [.marker])
  | .list _ items => shapesAll looked items
  | .bool b => [.text (Value.bool b).toText]
  | .number n => [.text (Value.number n).toText]
  | .text s => [.text s]
  | _ => []
termination_by structural v => v

def shapesAll (looked : Target → Bool) : List Value → List Shape
  | [] => []
  | v :: rest => v.shapes looked ++ shapesAll looked rest
termination_by structural vs => vs

def shapesAt (looked : Target → Bool) : List Value → Nat → List Shape
  | [], _ => []
  | v :: _, 0 => v.shapes looked
  | _ :: rest, index + 1 => shapesAt looked rest index
termination_by structural vs => vs
end

/-- What a value shows when it is rendered on its own. -/
def picture (looked : Target → Bool) (v : Value) : List Shape :=
  Node.shapesAll looked (shownMarkup looked) (Markup.valueAt v.parts.2)
    (shapesAt looked v.parts.2) v.parts.1.nodes

theorem shapesAt_eq (looked : Target → Bool) (values : List Value) (index : Nat) :
    shapesAt looked values index = (Markup.valueAt values index).shapes looked := by
  induction values generalizing index with
  | nil => rfl
  | cons v rest ih =>
    cases index with
    | zero => rfl
    | succ index => exact ih index

end Value

/-! ### Values that can be rendered -/

/-- Where a hole of a skeleton stands: in an attribute of an element, or among nodes. -/
inductive Seat where
  | attribute (binding : Binding) (attrs : Attributes)
  | content
deriving DecidableEq, Repr

def attrSeats (attrs : Attributes) : List (Nat × Seat) :=
  attrs.filterMap fun a =>
    match a.2 with
    | .hole index => (Binding.ofName? a.1).map fun b => (index, .attribute b attrs)
    | .literal _ => none

namespace Node

mutual
/-- The holes that get a place when a node is mounted. -/
def seats : Node → List (Nat × Seat)
  | .element _ attrs children =>
      attrSeats attrs ++ if (markupSource? attrs).isSome then [] else seatsAll children
  | .text _ => []
  | .hole index => [(index, .content)]
termination_by structural n => n

def seatsAll : List Node → List (Nat × Seat)
  | [] => []
  | n :: rest => n.seats ++ seatsAll rest
termination_by structural ns => ns
end

/-- Whether the literals among attributes can be written, given which markup can be
shown. -/
def LiteralsAccepted (markup : String → Prop) (attrs : Attributes) : Prop :=
  ∀ a ∈ attrs, ∀ text, a.2 = .literal text → ∀ b, Binding.ofName? a.1 = some b →
    if b = .markup then markup text else b.Accepts (.text text)

mutual
/-- Whether a node can be mounted. Only names of tags and attributes prevent it. -/
def Mountable (markup : String → Prop) : Node → Prop
  | .element tag attrs children =>
      isValidTag tag = true ∧ LiteralsAccepted markup attrs ∧
        if (markupSource? attrs).isSome then True else MountableAll markup children
  | .text _ => True
  | .hole _ => True
termination_by structural n => n

def MountableAll (markup : String → Prop) : List Node → Prop
  | [] => True
  | n :: rest => n.Mountable markup ∧ MountableAll markup rest
termination_by structural ns => ns
end

end Node

/-- Whether markup can be shown, with markup inside it down to a depth. -/
def Fillable : Nat → String → Prop
  | 0, _ => True
  | depth + 1, markup =>
      match Skeleton.parse [markup] with
      | .ok skeleton => Node.MountableAll (Fillable depth) skeleton.nodes
      | .error _ => True

def ShowableMarkup (markup : String) : Prop := Fillable (markup.utf8ByteSize + 1) markup

/-- Whether a value can be applied to an element through a binding. -/
def Applicable (b : Binding) (v : Value) : Prop :=
  if b = .markup then v ≠ .null → ShowableMarkup v.toText else Writable b v

namespace Value

mutual
/-- Whether a value can be shown as content. -/
def Renderable : Value → Prop
  | .template _ shared values =>
      Node.MountableAll ShowableMarkup shared.nodes ∧
        ∀ s ∈ Node.seatsAll shared.nodes,
          match s.2 with
          | .attribute b _ => Applicable b (Markup.valueAt values s.1)
          | .content => RenderableAt values s.1
  | .list _ items => RenderableAll items
  | _ => True
termination_by structural v => v

def RenderableAll : List Value → Prop
  | [] => True
  | v :: rest => v.Renderable ∧ RenderableAll rest
termination_by structural vs => vs

def RenderableAt : List Value → Nat → Prop
  | [], _ => True
  | v :: _, 0 => v.Renderable
  | _ :: rest, index + 1 => RenderableAt rest index
termination_by structural vs => vs
end

theorem renderableAt_iff (values : List Value) (index : Nat) :
    RenderableAt values index ↔ (Markup.valueAt values index).Renderable := by
  induction values generalizing index with
  | nil => exact Iff.rfl
  | cons v rest ih =>
    cases index with
    | zero => exact Iff.rfl
    | succ index => exact ih index

end Value

/-- Whether values fill the holes of a skeleton so that all of it can be shown. -/
def FillsRenderably (shared : SharedSkeleton) (values : List Value) : Prop :=
  Node.MountableAll ShowableMarkup shared.nodes ∧
    ∀ s ∈ Node.seatsAll shared.nodes,
      match s.2 with
      | .attribute b _ => Applicable b (Markup.valueAt values s.1)
      | .content => (Markup.valueAt values s.1).Renderable

/-- A hole without a value has one that can be made, too. -/
theorem built_valueAt {values : List Value} (built : Value.BuiltAll values) (i : Nat) :
    (Markup.valueAt values i).Built := by
  rw [Markup.valueAt]
  cases h : values[i]? with
  | none => trivial
  | some v => exact Value.builtAll_iff.1 built v (List.mem_of_getElem? h)

end LiveTemplate
