import LiveTemplate.Document

/-!
# Editing documents

The edits that a document admits. An edit that fails leaves no new document behind, so
the old one stands as it was.
-/
namespace LiveTemplate.Document

/-- A new node, without a parent. -/
def create (kind : NodeKind) (d : Document) : NodeId × Document :=
  (d.nodes.size, ⟨d.nodes.push { kind }⟩)

def createElement (tag : String) (d : Document) : Except DocumentError (NodeId × Document) :=
  if isValidTag tag then .ok (d.create (.element { tag := Text.lower tag }))
  else .error (.invalidTagName tag)

/-- The record of one node changed. -/
def update (id : NodeId) (f : NodeRecord → NodeRecord) (d : Document) : Document :=
  ⟨d.nodes.modify id f⟩

def setParent (parent : Option NodeId) (d : Document) (id : NodeId) : Document :=
  d.update id fun r => { r with parent }

def updateChildren (id : NodeId) (f : List NodeId → List NodeId) (d : Document) : Document :=
  d.update id fun r => { r with children := f r.children }

/-- A node without its parent, and the parent without it. -/
def detach (id : NodeId) (d : Document) : Document :=
  match d.parent? id with
  | none => d
  | some parent => (d.setParent none id).updateChildren parent (·.filter (· ≠ id))

def remove (id : NodeId) (d : Document) : Except DocumentError Document :=
  if (d.record? id).isSome then .ok (d.detach id) else .error (.unknownNode id)

/-- A list with more nodes in front of a reference, or at its end without one. -/
def spliceBefore (reference : Option NodeId) (moved ids : List NodeId) : List NodeId :=
  match reference with
  | none => ids ++ moved
  | some r => ids.takeWhile (· ≠ r) ++ moved ++ ids.dropWhile (· ≠ r)

/-- What an insertion of a node moves: the children of a fragment, else the node. -/
def takeOut (id : NodeId) (kind : NodeKind) (d : Document) : List NodeId × Document :=
  match kind with
  | .fragment => (d.children id, d.updateChildren id fun _ => [])
  | _ => ([id], d.detach id)

/-- A node put among the children of another. It must not be put into itself or into a
descendant. -/
def insert (parent : NodeId) (reference : Option NodeId) (id : NodeId) (d : Document) :
    Except DocumentError Document :=
  if !d.isContainer parent || d.isInclusiveAncestor id parent then .error (.hierarchy parent id)
  else
    match d.kind? id with
    | none => .error (.unknownNode id)
    | some kind =>
        let (moved, d) := d.takeOut id kind
        .ok ((moved.foldl (setParent (some parent)) d).updateChildren parent
          (spliceBefore reference moved))

def appendChild (parent id : NodeId) (d : Document) : Except DocumentError Document :=
  d.insert parent none id

/-- A node put in front of another, which must have a parent. In front of itself it
stays where it is. -/
def insertBefore (id reference : NodeId) (d : Document) : Except DocumentError Document :=
  match d.record? reference with
  | none => .error (.unknownNode reference)
  | some r =>
      match r.parent with
      | none => .error (.noParent reference)
      | some parent =>
          if id = reference then .ok d
          else if (d.record? id).isNone then .error (.unknownNode id)
          else d.insert parent (some reference) id

/-- The data of an element changed. -/
def updateElement (id : NodeId) (f : ElementData → ElementData) (d : Document) :
    Except DocumentError Document :=
  match d.kind? id with
  | none => .error (.unknownNode id)
  | some (.element data) => .ok (d.update id fun r => { r with kind := .element (f data) })
  | some _ => .error (.notAnElement id)

def setAttribute (id : NodeId) (name value : String) (d : Document) :
    Except DocumentError Document :=
  if isValidAttributeName name then
    d.updateElement id fun data =>
      { data with attributes := Entries.put (Text.lower name) value data.attributes }
  else .error (.invalidAttributeName name)

def removeAttribute (id : NodeId) (name : String) (d : Document) : Except DocumentError Document :=
  d.updateElement id fun data =>
    { data with attributes := Entries.erase (Text.lower name) data.attributes }

def setProperty (id : NodeId) (name : String) (v : Value) (d : Document) :
    Except DocumentError Document :=
  d.updateElement id fun data => { data with properties := Entries.put name v data.properties }

/-- A listener that is there already is not added again. -/
def addListener (id : NodeId) (event callback : String) (d : Document) :
    Except DocumentError Document :=
  d.updateElement id fun data =>
    if data.listeners.contains (event, callback) then data
    else { data with listeners := data.listeners ++ [(event, callback)] }

def removeListener (id : NodeId) (event callback : String) (d : Document) :
    Except DocumentError Document :=
  d.updateElement id fun data =>
    { data with listeners := data.listeners.filter (· ≠ (event, callback)) }

def setText (id : NodeId) (text : String) (d : Document) : Except DocumentError Document :=
  match d.kind? id with
  | none => .error (.unknownNode id)
  | some (.text _) => .ok (d.update id fun r => { r with kind := .text text })
  | some _ => .error (.notText id)

end LiveTemplate.Document
