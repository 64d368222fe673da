import LiveTemplate.Text.Blank
import LiveTemplate.Text.Quoted
import LiveTemplate.Value

/-!
# Documents

A document is a table of nodes, each known by its place in the table. Every node knows
its parent and its children. A node that is removed stays in the table, without a
parent, so a node once known is known for good. The body is the first node.
-/
namespace LiveTemplate

abbrev NodeId := Nat

/-- Tag and attribute names are in lower case. A listener is an event and the name of
a callback; no pair occurs twice. -/
structure ElementData where
  tag : String
  attributes : List (String × String) := []
  properties : List (String × Value) := []
  listeners : List (String × String) := []
deriving DecidableEq, Repr

inductive NodeKind where
  | element (data : ElementData)
  | text (data : String)
  /-- A node that shows nothing and keeps a place. -/
  | marker
  /-- A node that hands over its children when it is inserted. -/
  | fragment
deriving DecidableEq, Repr

structure NodeRecord where
  kind : NodeKind
  parent : Option NodeId := none
  children : List NodeId := []
deriving DecidableEq, Repr

structure Document where
  nodes : Array NodeRecord
deriving DecidableEq, Repr

inductive DocumentError where
  | invalidTagName (tag : String)
  | invalidAttributeName (name : String)
  | unknownNode (node : NodeId)
  | notAnElement (node : NodeId)
  | notText (node : NodeId)
  | noParent (node : NodeId)
  | hierarchy (parent node : NodeId)
deriving DecidableEq, Repr

namespace DocumentError

def nodeName (node : NodeId) : String := "NodeId(" ++ toString node ++ ")"

def message : DocumentError → String
  | .invalidTagName tag => "invalid tag name " ++ Text.quoted tag
  | .invalidAttributeName name => "invalid attribute name " ++ Text.quoted name
  | .unknownNode node => "node " ++ nodeName node ++ " does not exist"
  | .notAnElement node => "node " ++ nodeName node ++ " is not an element"
  | .notText node => "node " ++ nodeName node ++ " is not a text node"
  | .noParent node => "node " ++ nodeName node ++ " has no parent"
  | .hierarchy parent node =>
      "node " ++ nodeName node ++ " cannot be inserted into " ++ nodeName parent

end DocumentError

/-- A tag starts with a letter and goes on with letters, digits and hyphens. -/
def isValidTag (tag : String) : Bool :=
  match tag.toList with
  | [] => false
  | c :: rest => c.isAlpha && rest.all fun c => c.isAlphanum || c == '-'

/-- Blanks, quotes, brackets, the slash and the equals sign. -/
def endsAttributeName (c : Char) : Bool :=
  Text.isBlank c || c ∈ ['"', '\x27', '>', '/', '=', '<']

/-- An attribute name is not empty and holds nothing that ends one in a start tag. -/
def isValidAttributeName (name : String) : Bool :=
  name != "" && name.toList.all fun c => !endsAttributeName c

namespace Document

def body : NodeId := 0

/-- The document that holds an empty body. -/
def empty : Document := ⟨#[{ kind := .element { tag := "body" } }]⟩

def record? (d : Document) (id : NodeId) : Option NodeRecord := d.nodes[id]?

def kind? (d : Document) (id : NodeId) : Option NodeKind := (d.record? id).map (·.kind)

def parent? (d : Document) (id : NodeId) : Option NodeId := (d.record? id).bind (·.parent)

def children (d : Document) (id : NodeId) : List NodeId :=
  ((d.record? id).map (·.children)).getD []

def element? (d : Document) (id : NodeId) : Option ElementData :=
  match d.kind? id with
  | some (.element data) => some data
  | _ => none

def tag? (d : Document) (id : NodeId) : Option String := (d.element? id).map (·.tag)

def text? (d : Document) (id : NodeId) : Option String :=
  match d.kind? id with
  | some (.text data) => some data
  | _ => none

def attribute? (d : Document) (id : NodeId) (name : String) : Option String :=
  (d.element? id).bind fun data => Entries.get? (Text.lower name) data.attributes

def attributeNames (d : Document) (id : NodeId) : List String :=
  ((d.element? id).map fun data => Entries.names data.attributes).getD []

def property? (d : Document) (id : NodeId) (name : String) : Option Value :=
  (d.element? id).bind fun data => Entries.get? name data.properties

/-- The callbacks that listen for an event, in the order in which they were added. -/
def listeners (d : Document) (id : NodeId) (event : String) : List String :=
  ((d.element? id).map fun data =>
    (data.listeners.filter fun l => l.1 == event).map Prod.snd).getD []

def firstChild? (d : Document) (id : NodeId) : Option NodeId := (d.children id).head?

/-- The siblings behind a node, in order. -/
def followingSiblings (d : Document) (id : NodeId) : List NodeId :=
  match d.parent? id with
  | none => []
  | some parent => ((d.children parent).dropWhile (· ≠ id)).drop 1

def nextSibling? (d : Document) (id : NodeId) : Option NodeId := (d.followingSiblings id).head?

/-- The elements of the list up to and including the first that equals `last`; all of
them when there is none. -/
def through (last : NodeId) : List NodeId → List NodeId
  | [] => []
  | id :: rest => if id = last then [id] else id :: through last rest

/-- A node and its siblings up to another one. -/
def range (d : Document) (first last : NodeId) : List NodeId :=
  through last (first :: d.followingSiblings first)

/-- A node and its ancestors, from the inside out, at most so many. -/
def lineage (d : Document) : Nat → NodeId → List NodeId
  | 0, _ => []
  | count + 1, id =>
      id :: match d.parent? id with
        | none => []
        | some parent => lineage d count parent

/-- Whether `ancestor` is the node itself or one of its ancestors. A node has fewer
ancestors than the document has nodes. -/
def isInclusiveAncestor (d : Document) (ancestor id : NodeId) : Bool :=
  (d.lineage (d.nodes.size + 1) id).contains ancestor

/-- Whether a node can have children. -/
def isContainer (d : Document) (id : NodeId) : Bool :=
  match d.kind? id with
  | some (.element _) => true
  | some .fragment => true
  | _ => false

end Document

end LiveTemplate
