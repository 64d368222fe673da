import LiveTemplate.Live.Apply
import LiveTemplate.Live.Keyed

/-!
# Patching

A table of places is patched with the next values, in the order of the holes. A place
that shows the same value already is left alone. Nothing is undone when a step fails:
what was done stays, and the table records what is live from then on. So a patch has
a result in any case, with the failure that ended it, if one did.
-/
namespace LiveTemplate.Live

/-- What is live after a step, and why the step ended early if it did. -/
structure Patched (α : Type) where
  state : α
  host : Host
  failure : Option DocumentError := none

namespace Patched
variable {α β : Type}

def map (f : α → β) (r : Patched α) : Patched β := ⟨f r.state, r.host, r.failure⟩

/-- The next step of a patch, or what is live when this one has failed. -/
def andThen (r : Patched α) (next : α → Host → Patched β) (kept : α → β) : Patched β :=
  match r.failure with
  | none => next r.state r.host
  | some e => ⟨kept r.state, r.host, some e⟩

/-- A step on the host, with what is live when it succeeds and when it fails. -/
def attempt (m : HostM α) (done : α → β) (kept : β) (h : Host) : Patched β :=
  match m.run h with
  | .ok a h => ⟨done a, h, none⟩
  | .error e h => ⟨kept, h, some e⟩

/-- The same patch as a step that leaves nothing when it fails. -/
def toStep (r : Patched α) : EStateM.Result DocumentError Host α :=
  match r.failure with
  | none => .ok r.state r.host
  | some e => .error e r.host

end Patched

open Patched

mutual
/-- The nodes of a content are removed from the document. -/
def clear : Content → HostM Unit
  | .empty => pure ()
  | .text node => Host.remove node
  | .nested _ start stop _ => Host.removeRange start stop
  | .list items => clearItems items
termination_by structural c => c

def clearItems : List Item → HostM Unit
  | [] => pure ()
  | .mk _ content :: rest => do
      clear content
      clearItems rest
termination_by structural items => items
end

/-- The contents of all places are removed. -/
def clearPlaces : List Place → HostM Unit
  | [] => pure ()
  | .content _ item :: rest => do
      clear item.content
      clearPlaces rest
  | _ :: rest => clearPlaces rest

/-- A place patched with an absent value. -/
def withdraw (place : Place) (h : Host) : Patched Place :=
  match place with
  | .vacant => ⟨.vacant, h, none⟩
  | .attribute node binding shown =>
      if shown.same .null then ⟨place, h, none⟩
      else attempt (retract node binding shown) (fun _ => .attribute node binding .null) place h
  | .content marker (.mk shown content) =>
      if shown.same .null then ⟨place, h, none⟩
      else
        attempt (clear content) (fun _ => .content marker .absent)
          (.content marker (.mk shown .empty)) h

def withdrawAll : List Place → Host → Patched (List Place)
  | [], h => ⟨[], h, none⟩
  | place :: rest, h =>
      (withdraw place h).andThen (fun place h => (withdrawAll rest h).map (place :: ·))
        (· :: rest)

/-- A text node takes on the new text; any other content gives way to a new node. -/
def patchText (anchor : NodeId) (content : Content) (text : String) (h : Host) :
    Patched Content :=
  match content with
  | .text node => attempt (Host.edit (Document.setText node text)) (fun _ => content) content h
  | _ =>
      let replace : HostM NodeId := do
        clear content
        let node ← Host.create (.text text)
        Host.insertBefore node anchor
        pure node
      attempt replace .text .empty h

/-- A template in nodes of its own, all put in front of the anchor at the end. Its
table is patched while it is still apart from the document. -/
def instantiate (shared : SharedSkeleton) (patch : List Place → Host → Patched (List Place))
    (anchor : NodeId) : HostM Content := do
  let start ← Host.create .marker
  let stop ← Host.create .marker
  let fragment ← Host.create .fragment
  let (_, places) ← mount shared.skeleton fragment
  let places ← fun h => (patch places h).toStep
  Host.insertBefore start anchor
  Host.insertBefore fragment anchor
  Host.insertBefore stop anchor
  pure (.nested shared start stop places)

/-- A nested template of the same skeleton is patched in place. Any other content gives
way to a new one. -/
def patchTemplate (anchor : NodeId) (shared : SharedSkeleton)
    (patch : List Place → Host → Patched (List Place)) (content : Content) (h : Host) :
    Patched Content :=
  let replace : HostM Content := do
    clear content
    instantiate shared patch anchor
  match content with
  | .nested shared' start stop places =>
      if shared' = shared then (patch places h).map (.nested shared' start stop)
      else attempt replace id .empty h
  | _ => attempt replace id .empty h

/-- The items of a list. Any other content gives way to an empty list. -/
def takeItems (content : Content) (h : Host) : Patched Content :=
  match content with
  | .list items => ⟨.list items, h, none⟩
  | _ => attempt (clear content) (fun _ => .list []) .empty h

/-- A list is taken over, and its items patched. -/
def patchList (patch : List Item → Host → Patched (List Item)) (content : Content) (h : Host) :
    Patched Content :=
  (takeItems content h).andThen
    (fun content h =>
      match content with
      | .list items => (patch items h).map .list
      | _ => ⟨content, h, none⟩)
    id

/-- An item that shows the same value is left alone. -/
def updateItem (patch : Content → Host → Patched Content) (item : Item) (next : Value)
    (h : Host) : Patched Item :=
  if item.shown.same next then ⟨item, h, none⟩
  else
    (patch item.content h).andThen (fun content h => ⟨.mk next content, h, none⟩)
      (fun content => .mk item.shown content)

/-- A place that shows the same value is left alone. -/
def updatePlace (patch : NodeId → Content → Host → Patched Content) (place : Place)
    (next : Value) (h : Host) : Patched Place :=
  match place with
  | .vacant => ⟨.vacant, h, none⟩
  | .attribute node binding shown =>
      if shown.same next then ⟨place, h, none⟩
      else
        attempt (apply node binding shown next) (fun _ => .attribute node binding next) place h
  | .content marker item => (updateItem (patch marker) item next h).map (.content marker)

mutual
/-- Brings a content in front of its anchor to the state of the next value. -/
def patchContent (anchor : NodeId) (content : Content) : Value → Host → Patched Content
  | .null, h => attempt (clear content) (fun _ => .empty) .empty h
  | .template _ shared values, h =>
      patchTemplate anchor shared (fun places h => patchPlaces places values h) content h
  | .list _ items, h =>
      if Value.allKeyed items then
        patchList (fun old h =>
          patchKeyed anchor (old.filterMap (·.shown.key?)) (items.filterMap (·.key?)) old items h)
          content h
      else patchList (fun old h => patchItems anchor old items h) content h
  | .bool b, h => patchText anchor content (Value.bool b).toText h
  | .number n, h => patchText anchor content (Value.number n).toText h
  | .text s, h => patchText anchor content s h
  | _, h => attempt (clear content) (fun _ => .empty) .empty h
termination_by structural v => v

/-- Items patched by position. New ones are added, and those left over cleared. -/
def patchItems (anchor : NodeId) (old : List Item) : List Value → Host → Patched (List Item)
  | [], h => attempt (clearItems old) (fun _ => []) [] h
  | next :: values, h =>
      match old with
      | item :: rest =>
          (updateItem (fun content h => patchContent (anchorOf rest anchor) content next h)
            item next h).andThen
            (fun item h => (patchItems anchor rest values h).map (item :: ·)) (· :: rest)
      | [] =>
          (updateItem (fun content h => patchContent anchor content next h) .absent next h).andThen
            (fun item h => (patchItems anchor [] values h).map (item :: ·)) (fun _ => [])
termination_by structural vs => vs

/-- Items taken over by key. The keys are those of the whole lists. -/
def patchKeyed (anchor : NodeId) (prevKeys nextKeys : List Value) (old : List Item) :
    List Value → Host → Patched (List Item)
  | [], h => attempt (clearItems old) (fun _ => []) [] h
  | next :: values, h =>
      let step := keyedStep (isStale nextKeys) (isFresh prevKeys next) old
      (attempt (clearItems step.removed) id () h).andThen
        (fun _ h =>
          (updateItem (fun content h => patchContent (anchorOf step.rest anchor) content next h)
            (step.reused.getD .absent) next h).andThen
            (fun item h =>
              (patchKeyed anchor prevKeys nextKeys step.rest values h).map (item :: ·))
            (fun _ => []))
        (fun _ => [])
termination_by structural vs => vs

/-- Places patched in order. Those without a value are patched with an absent one. -/
def patchPlaces (places : List Place) : List Value → Host → Patched (List Place)
  | [], h => withdrawAll places h
  | next :: values, h =>
      match places with
      | [] => ⟨[], h, none⟩
      | place :: rest =>
          (updatePlace (fun marker content h => patchContent marker content next h)
            place next h).andThen
            (fun place h => (patchPlaces rest values h).map (place :: ·)) (· :: rest)
termination_by structural vs => vs
end

end LiveTemplate.Live
