import LiveTemplate.Binding
import LiveTemplate.Entries
import LiveTemplate.Text.Case

/-!
# Skeletons

A skeleton is the part of a template that never changes: elements, texts, and holes
in the places that values fill. A hole stands among the children of an element or is
the value of an attribute, and is known by its index.
-/
namespace LiveTemplate

inductive AttrValue where
  | literal (text : String)
  | hole (index : Nat)
deriving DecidableEq, Repr

/-- An attribute name still carries the sign that says how it binds. -/
inductive Node where
  | element (tag : String) (attrs : List (String × AttrValue)) (children : List Node)
  | text (data : String)
  | hole (index : Nat)
deriving Repr

/-- The top-level nodes, and the number of holes the template was written with. A
hole need not occur among the nodes. -/
structure Skeleton where
  nodes : List Node
  holes : Nat
deriving Repr

/-- Tags of the elements that have no content and no closing tag. -/
def voidTags : List String :=
  ["area", "base", "br", "col", "embed", "hr", "img", "input", "link", "meta", "param",
    "source", "track", "wbr"]

def isVoidTag (tag : String) : Bool := voidTags.contains (Text.lower tag)

/-- What puts markup in place of the children of an element with these attributes. -/
def markupSource? (attrs : List (String × AttrValue)) : Option AttrValue :=
  Entries.get? Binding.markupName attrs

/-- What the key of an element with these attributes is bound to. -/
def keySource? (attrs : List (String × AttrValue)) : Option AttrValue :=
  Entries.get? Binding.keyName attrs

namespace Node

mutual
def beq : Node → Node → Bool
  | .element tag attrs children, .element tag' attrs' children' =>
      tag == tag' && attrs == attrs' && beqAll children children'
  | .text data, .text data' => data == data'
  | .hole index, .hole index' => index == index'
  | _, _ => false
termination_by structural a => a

def beqAll : List Node → List Node → Bool
  | [], [] => true
  | a :: as, b :: bs => beq a b && beqAll as bs
  | _, _ => false
termination_by structural as => as
end

mutual
theorem beq_iff : (a b : Node) → (beq a b = true ↔ a = b)
  | .element tag attrs children, b => by
      cases b <;> simp [beq, beqAll_iff children, and_assoc]
  | .text data, b => by cases b <;> simp [beq]
  | .hole index, b => by cases b <;> simp [beq]
termination_by structural a => a

theorem beqAll_iff : (as bs : List Node) → (beqAll as bs = true ↔ as = bs)
  | [], bs => by cases bs <;> simp [beqAll]
  | a :: as, bs => by cases bs <;> simp [beqAll, beq_iff a, beqAll_iff as]
termination_by structural as => as
end

instance : DecidableEq Node := fun a b => decidable_of_iff _ (beq_iff a b)

end Node

deriving instance DecidableEq for Skeleton

end LiveTemplate
