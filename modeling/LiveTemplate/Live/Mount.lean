import LiveTemplate.Host
import LiveTemplate.Live
import LiveTemplate.Skeleton.Reading

/-!
# Mounting

Mounting makes the nodes of a skeleton once. Literal attributes are written at the same
time; every hole gets a place, which shows nothing yet. Markup given as a literal
attribute is parsed and mounted in turn. A literal in parsed markup is shorter than the
markup, so this comes to an end.
-/
namespace LiveTemplate.Live

/-- One attribute of an element changed from one value to another. Mappings and markup
are not written this way. -/
def writeDirect (node : NodeId) (binding : Binding) (prev next : Value) : HostM Unit :=
  match binding with
  | .attribute name =>
      if next.isNull then Host.edit (Document.removeAttribute node name)
      else Host.edit (Document.setAttribute node name next.toText)
  | .presence name =>
      if next.isTruthy then Host.edit (Document.setAttribute node name "")
      else Host.edit (Document.removeAttribute node name)
  | .property name => Host.edit (Document.setProperty node name next)
  | .listener event => do
      match prev with
      | .callback callback => Host.edit (Document.removeListener node event callback)
      | _ => pure ()
      match next with
      | .callback callback => Host.edit (Document.addListener node event callback)
      | _ => pure ()
  | .reference =>
      match next with
      | .callback callback => Host.call (.reference callback node)
      | .cell cell => Host.setCell cell node
      | _ => pure ()
  | .spread => pure ()
  | .markup => pure ()

/-- The attributes of a new element. Those bound to holes are recorded. -/
def mountAttributes (fill : NodeId → String → HostM Unit) (node : NodeId) :
    List (String × AttrValue) → HostM (List (Nat × Place))
  | [] => pure []
  | (name, value) :: rest =>
      match Binding.ofName? name, value with
      | none, _ => mountAttributes fill node rest
      | some .markup, .literal s => do
          fill node s
          mountAttributes fill node rest
      | some binding, .literal s => do
          writeDirect node binding .null (.text s)
          mountAttributes fill node rest
      | some binding, .hole index => do
          let bound ← mountAttributes fill node rest
          pure ((index, .attribute node binding .null) :: bound)

mutual
/-- A node made and put at the end of its parent, with the places of its holes. An
element whose children are given as markup has none of its own. -/
def mountNode (fill : NodeId → String → HostM Unit) (parent : NodeId) :
    Node → HostM (NodeId × List (Nat × Place))
  | .element tag attrs children => do
      let node ← Host.createElement tag
      Host.appendChild parent node
      let bound ← mountAttributes fill node attrs
      if (markupSource? attrs).isSome then pure (node, bound)
      else do
        let (_, inner) ← mountNodes fill node children
        pure (node, bound ++ inner)
  | .text data => do
      let node ← Host.create (.text data)
      Host.appendChild parent node
      pure (node, [])
  | .hole index => do
      let node ← Host.create .marker
      Host.appendChild parent node
      pure (node, [(index, .content node .absent)])
termination_by structural n => n

def mountNodes (fill : NodeId → String → HostM Unit) (parent : NodeId) :
    List Node → HostM (List NodeId × List (Nat × Place))
  | [] => pure ([], [])
  | n :: rest => do
      let (node, bound) ← mountNode fill parent n
      let (nodes, others) ← mountNodes fill parent rest
      pure (node :: nodes, bound ++ others)
termination_by structural ns => ns
end

/-- Markup in place of the children of a node, with markup inside it down to a depth.
What does not parse is shown as text. -/
def fillMarkup : Nat → NodeId → String → HostM Unit
  | 0, _, _ => pure ()
  | depth + 1, node, markup => do
      Host.removeChildren node
      match Skeleton.parse [markup] with
      | .ok skeleton => do
          let _ ← mountNodes (fillMarkup depth) node skeleton.nodes
      | .error _ => do
          let text ← Host.create (.text markup)
          Host.appendChild node text

/-- Markup in place of the children of a node. The depth is never used up. -/
def showMarkup (node : NodeId) (markup : String) : HostM Unit :=
  fillMarkup (markup.utf8ByteSize + 1) node markup

/-- The nodes of a skeleton at the end of a parent, and the table of its holes. -/
def mount (skeleton : Skeleton) (parent : NodeId) : HostM (List NodeId × List Place) := do
  let (nodes, bound) ← mountNodes showMarkup parent skeleton.nodes
  pure (nodes, Places.ofBound skeleton.holes bound)

end LiveTemplate.Live
