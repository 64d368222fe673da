import LiveTemplate.Skeleton
import LiveTemplate.Text.Listing
import LiveTemplate.Text.Quoted

/-!
# Skeletons in detail

The listing of a skeleton shows every node with its kind, its attributes in order and
its children.
-/
namespace LiveTemplate
open Text

def indexListing (index : Nat) : Listing := .atom (toString index)

def AttrValue.listing : AttrValue → Listing
  | .literal text => .tuple "Literal" [.atom (quoted text)]
  | .hole index => .tuple "Slot" [indexListing index]

namespace Node

mutual
def listing : Node → Listing
  | .element tag attrs children =>
      .tuple "Element" [.record "Element" [("tag", .atom (quoted tag)),
        ("attrs", .map (attrs.map fun (name, value) => (quoted name, value.listing))),
        ("children", .list (listingAll children))]]
  | .text data => .tuple "Text" [.atom (quoted data)]
  | .hole index => .tuple "Slot" [indexListing index]
termination_by structural n => n

def listingAll : List Node → List Listing
  | [] => []
  | n :: rest => n.listing :: listingAll rest
termination_by structural ns => ns
end

end Node

def Skeleton.listing (s : Skeleton) : Listing :=
  .record "StaticTree" [("nodes", .list (Node.listingAll s.nodes)),
    ("slot_count", indexListing s.holes)]

end LiveTemplate
