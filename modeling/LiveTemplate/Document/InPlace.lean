import LiveTemplate.Document.Edit

/-!
# Edits in place

The same edits as steps that change one document in place, record by record. A step that
fails keeps what the steps before it did.
-/
namespace LiveTemplate

abbrev DocumentM := EStateM DocumentError Document

/-- What a caller can ask of a document. -/
inductive Primitive where
  | createElement (tag : String)
  | createText (text : String)
  | createMarker
  | createFragment
  | appendChild (parent id : NodeId)
  | insertBefore (id reference : NodeId)
  | remove (id : NodeId)
  | setAttribute (id : NodeId) (name value : String)
  | removeAttribute (id : NodeId) (name : String)
  | setProperty (id : NodeId) (name : String) (value : Value)
  | addListener (id : NodeId) (event callback : String)
  | removeListener (id : NodeId) (event callback : String)
  | setText (id : NodeId) (text : String)

namespace Document

/-- The outcome of an edit in place: the old document stands when it fails. -/
def settle (d : Document) : Except DocumentError Document → EStateM.Result DocumentError Document Unit
  | .ok d' => .ok () d'
  | .error e => .error e d

namespace InPlace

def record (id : NodeId) : DocumentM NodeRecord := fun d =>
  match d.record? id with
  | some r => .ok r d
  | none => .error (.unknownNode id) d

def change (id : NodeId) (f : NodeRecord → NodeRecord) : DocumentM Unit := do
  let _ ← record id
  modify fun d => d.update id f

/-- The node loses its parent first, then the parent the node. -/
def detach (id : NodeId) : DocumentM Unit := do
  match (← record id).parent with
  | none => pure ()
  | some parent =>
      change id fun r => { r with parent := none }
      change parent fun r => { r with children := r.children.filter (· ≠ id) }

/-- A list with more nodes at an index, or at its end if there is none or it is too large. -/
def spliceAt (index : Option Nat) (moved ids : List NodeId) : List NodeId :=
  match index with
  | none => ids ++ moved
  | some i => ids.take i ++ moved ++ ids.drop i

/-- The children of a fragment are taken, else the node itself. -/
def takeOut (id : NodeId) (r : NodeRecord) : DocumentM (List NodeId) :=
  match r.kind with
  | .fragment => do
      change id fun r => { r with children := [] }
      pure r.children
  | _ => do
      detach id
      pure [id]

def insertAt (parent : NodeId) (index : Option Nat) (id : NodeId) : DocumentM Unit := do
  let d ← get
  if !d.isContainer parent || d.isInclusiveAncestor id parent then throw (.hierarchy parent id)
  else
    let moved ← takeOut id (← record id)
    moved.forM fun child => change child fun r => { r with parent := some parent }
    change parent fun r => { r with children := spliceAt index moved r.children }

/-- The index of the reference among the children of its parent says where to insert. -/
def insertAhead (parent reference id : NodeId) : DocumentM Unit := do
  match ((← get).children parent).findIdx? (· = reference) with
  | none => throw (.noParent reference)
  | some index => insertAt parent (some index) id

/-- A node that stands beside the reference is taken out before the index is looked up. -/
def insertBefore (id reference : NodeId) : DocumentM Unit := do
  match (← record reference).parent with
  | none => throw (.noParent reference)
  | some parent =>
      if id = reference then pure ()
      else
        if (← record id).parent = some parent then detach id
        insertAhead parent reference id

end InPlace

end Document

namespace Primitive

/-- The edit that makes a new document. -/
def edit : Primitive → Document → Except DocumentError Document
  | .createElement tag, d => (d.createElement tag).map Prod.snd
  | .createText text, d => .ok (d.create (.text text)).2
  | .createMarker, d => .ok (d.create .marker).2
  | .createFragment, d => .ok (d.create .fragment).2
  | .appendChild parent id, d => d.appendChild parent id
  | .insertBefore id reference, d => d.insertBefore id reference
  | .remove id, d => d.remove id
  | .setAttribute id name value, d => d.setAttribute id name value
  | .removeAttribute id name, d => d.removeAttribute id name
  | .setProperty id name value, d => d.setProperty id name value
  | .addListener id event callback, d => d.addListener id event callback
  | .removeListener id event callback, d => d.removeListener id event callback
  | .setText id text, d => d.setText id text

/-- The edit in place. What moves no node is one change at the end of its checks. -/
def perform : Primitive → DocumentM Unit
  | .appendChild parent id => Document.InPlace.insertAt parent none id
  | .insertBefore id reference => Document.InPlace.insertBefore id reference
  | .remove id => Document.InPlace.detach id
  | p => fun d => d.settle (p.edit d)

/-- The document that is left, whether the edit fails or not. -/
def after (d : Document) (p : Primitive) : Document :=
  match p.perform d with
  | .ok _ d' => d'
  | .error _ d' => d'

/-- The document that is left by edits one after the other. -/
def run (ps : List Primitive) (d : Document) : Document := ps.foldl after d

end Primitive

end LiveTemplate
