import LiveTemplate.Live.Patch

/-!
# Renderers

A renderer knows what it has mounted into which container. Rendering a value into a
container mounts its skeleton behind the children that are there, unless it is mounted
already, and then patches the table with the values. A skeleton other than the one
mounted takes its place.
-/
namespace LiveTemplate
open Live

/-- What a container shows: a skeleton, the places of its holes, and the nodes that
were put into the container itself. -/
structure Mounted where
  shared : SharedSkeleton
  places : List Place
  nodes : List NodeId

structure Renderer where
  mounts : List (NodeId × Mounted) := []

namespace Renderer

def mounted? (r : Renderer) (container : NodeId) : Option Mounted :=
  Entries.get? container r.mounts

def put (container : NodeId) (m : Mounted) (r : Renderer) : Renderer :=
  ⟨Entries.put container m r.mounts⟩

def forget (container : NodeId) (r : Renderer) : Renderer := ⟨Entries.erase container r.mounts⟩

/-- The contents of all places are removed, and then the nodes of the skeleton. -/
def dismount (m : Mounted) : HostM Unit := do
  clearPlaces m.places
  Host.removeAll m.nodes

/-- Everything rendered into a container is removed. The answer is whether there was
something mounted. -/
def unmount (container : NodeId) (r : Renderer) (h : Host) : Patched (Renderer × Bool) :=
  match r.mounted? container with
  | none => ⟨(r, false), h, none⟩
  | some m =>
      Patched.attempt (dismount m) (fun _ => (r.forget container, true))
        (r.forget container, true) h

/-- The mounted content is removed unless it has the given skeleton. -/
def makeRoom (shared : SharedSkeleton) (container : NodeId) (r : Renderer) (h : Host) :
    Patched Renderer :=
  match r.mounted? container with
  | none => ⟨r, h, none⟩
  | some m => if m.shared = shared then ⟨r, h, none⟩ else (r.unmount container h).map Prod.fst

/-- The skeleton is mounted unless there is one mounted. -/
def settle (shared : SharedSkeleton) (container : NodeId) (r : Renderer) (h : Host) :
    Patched Renderer :=
  match r.mounted? container with
  | some _ => ⟨r, h, none⟩
  | none =>
      Patched.attempt (mount shared.skeleton container)
        (fun (nodes, places) => r.put container ⟨shared, places, nodes⟩) r h

def patchMounted (values : List Value) (container : NodeId) (r : Renderer) (h : Host) :
    Patched Renderer :=
  match r.mounted? container with
  | none => ⟨r, h, none⟩
  | some m =>
      (patchPlaces m.places values h).map fun places => r.put container { m with places }

/-- A value rendered into a container. A value that is no template fills the one hole
of the bare skeleton. -/
def render (v : Value) (container : NodeId) (r : Renderer) (h : Host) : Patched Renderer :=
  let (shared, values) := v.parts
  (r.makeRoom shared container h).andThen
    (fun r h => (r.settle shared container h).andThen (patchMounted values container) id) id

end Renderer

end LiveTemplate
