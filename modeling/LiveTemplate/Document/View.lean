import LiveTemplate.Document
import LiveTemplate.Text.Escape

/-!
# What a document shows

The nodes below a node, taken out of the table as a tree. All that is read off a whole
part of a document is read off that tree: its markup, its text, and its elements of a
given tag.
-/
namespace LiveTemplate

inductive Subtree where
  | node (id : NodeId) (kind : NodeKind) (children : List Subtree)
deriving Repr

namespace Document

/-- The trees below the given nodes, down to a depth. -/
def subtrees (d : Document) : Nat → List NodeId → List Subtree
  | 0, _ => []
  | depth + 1, ids => ids.filterMap fun id =>
      (d.record? id).map fun r => .node id r.kind (subtrees d depth r.children)

/-- The tree of a node that exists. No branch is longer than the table. -/
def subtree? (d : Document) (id : NodeId) : Option Subtree :=
  (d.subtrees d.nodes.size [id]).head?

/-- The trees of the children of a node. -/
def below (d : Document) (id : NodeId) : List Subtree := d.subtrees d.nodes.size (d.children id)

end Document

namespace Subtree
open Text

def attributeMarkup : String × String → String
  | (name, value) => " " ++ name ++ "=\"" ++ replaceEach attributeEscapes value ++ "\""

mutual
/-- A void element shows no children, and a marker is an empty comment. -/
def markup : Subtree → String
  | .node _ (.element data) children =>
      let start := "<" ++ data.tag ++ String.join (data.attributes.map attributeMarkup) ++ ">"
      if isVoidTag data.tag then start
      else start ++ markupAll children ++ "</" ++ data.tag ++ ">"
  | .node _ (.text data) _ => replaceEach textEscapes data
  | .node _ .marker _ => "<!---->"
  | .node _ .fragment children => markupAll children
termination_by structural t => t

def markupAll : List Subtree → String
  | [] => ""
  | t :: rest => t.markup ++ markupAll rest
termination_by structural ts => ts
end

mutual
/-- The data of all texts in document order. -/
def text : Subtree → String
  | .node _ (.text data) _ => data
  | .node _ _ children => textAll children
termination_by structural t => t

def textAll : List Subtree → String
  | [] => ""
  | t :: rest => t.text ++ textAll rest
termination_by structural ts => ts
end

def hasTag (tag : String) : NodeKind → Bool
  | .element data => data.tag == tag
  | _ => false

mutual
/-- The elements of a tag in document order, the root included. -/
def tagged (tag : String) : Subtree → List NodeId
  | .node id kind children =>
      (if hasTag tag kind then [id] else []) ++ taggedAll tag children
termination_by structural t => t

def taggedAll (tag : String) : List Subtree → List NodeId
  | [] => []
  | t :: rest => t.tagged tag ++ taggedAll tag rest
termination_by structural ts => ts
end

end Subtree

namespace Document

/-- The markup of the children of a node. -/
def innerMarkup (d : Document) (id : NodeId) : String := Subtree.markupAll (d.below id)

/-- The markup of a node itself. -/
def outerMarkup (d : Document) (id : NodeId) : String :=
  ((d.subtree? id).map Subtree.markup).getD ""

def textContent (d : Document) (id : NodeId) : String :=
  ((d.subtree? id).map Subtree.text).getD ""

/-- The elements of a tag below a node, in document order. -/
def queryAll (d : Document) (root : NodeId) (tag : String) : List NodeId :=
  Subtree.taggedAll (Text.lower tag) (d.below root)

def query? (d : Document) (root : NodeId) (tag : String) : Option NodeId :=
  (d.queryAll root tag).head?

end Document

end LiveTemplate
