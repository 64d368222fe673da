import LiveTemplate.Document.Edit

/-!
# The host

A host is a document together with what the program around it can see: the reference
cells with the node that each holds, and the calls of callbacks so far. A step on the
host that fails keeps what it did before it failed.
-/
namespace LiveTemplate

inductive Call where
  | event (callback event : String) (target : NodeId)
  | reference (callback : String) (node : NodeId)
deriving DecidableEq, Repr

structure Host where
  document : Document := .empty
  cells : List (String × NodeId) := []
  calls : List Call := []
deriving DecidableEq, Repr

abbrev HostM := EStateM DocumentError Host

namespace Host

/-- An edit of the document as a step. -/
def edit (f : Document → Except DocumentError Document) : HostM Unit := fun h =>
  match f h.document with
  | .ok document => .ok () { h with document }
  | .error e => .error e h

def create (kind : NodeKind) : HostM NodeId := fun h =>
  let (id, document) := h.document.create kind
  .ok id { h with document }

def createElement (tag : String) : HostM NodeId := fun h =>
  match h.document.createElement tag with
  | .ok (id, document) => .ok id { h with document }
  | .error e => .error e h

def appendChild (parent id : NodeId) : HostM Unit := edit (Document.appendChild parent id)

def insertBefore (id reference : NodeId) : HostM Unit := edit (Document.insertBefore id reference)

def remove (id : NodeId) : HostM Unit := edit (Document.remove id)

def removeAll (ids : List NodeId) : HostM Unit := ids.forM remove

def removeChildren (id : NodeId) : HostM Unit := do
  removeAll ((← get).document.children id)

def removeRange (first last : NodeId) : HostM Unit := do
  removeAll ((← get).document.range first last)

/-- A reference cell holds the node it was given last. -/
def setCell (cell : String) (node : NodeId) : HostM Unit :=
  modify fun h => { h with cells := Entries.put cell node h.cells }

def call (c : Call) : HostM Unit := modify fun h => { h with calls := h.calls ++ [c] }

/-- The listeners of a node for an event are called, and counted. -/
def dispatch (node : NodeId) (event : String) : HostM Nat := do
  let callbacks := (← get).document.listeners node event
  callbacks.forM fun callback => call (.event callback event node)
  pure callbacks.length

end Host

end LiveTemplate
