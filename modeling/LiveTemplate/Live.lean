import LiveTemplate.Document

/-!
# Live state

What is remembered of a mounted template: one place for each hole, with the value the
place shows. Content stands right in front of a marker that stays. A nested template
stands between two markers of its own and has places of its own.
-/
namespace LiveTemplate

mutual
/-- What a place of content, or an item of a list, has put into the document. -/
inductive Content where
  | empty
  | text (node : NodeId)
  | nested (shared : SharedSkeleton) (start stop : NodeId) (places : List Place)
  | list (items : List Item)

/-- A value and the content it has produced. -/
inductive Item where
  | mk (shown : Value) (content : Content)

inductive Place where
  /-- The hole does not occur among the mounted nodes. -/
  | vacant
  | attribute (node : NodeId) (binding : Binding) (shown : Value)
  | content (marker : NodeId) (item : Item)
end

namespace Item

def shown : Item → Value
  | .mk shown _ => shown

def content : Item → Content
  | .mk _ content => content

/-- An item that shows nothing yet. -/
def absent : Item := .mk .null .empty

end Item

mutual
/-- The first node of a content, if it has produced any. -/
def Content.firstNode? : Content → Option NodeId
  | .empty => none
  | .text node => some node
  | .nested _ start _ _ => some start
  | .list items => firstNodeOf? items
termination_by structural c => c

def firstNodeOf? : List Item → Option NodeId
  | [] => none
  | .mk _ content :: rest => content.firstNode? <|> firstNodeOf? rest
termination_by structural items => items
end

/-- The node in front of which something has to be put to stand before these items;
without a node of theirs it is the given one. -/
def anchorOf (items : List Item) (anchor : NodeId) : NodeId := (firstNodeOf? items).getD anchor

namespace Place

/-- The value that a place shows; a vacant one shows none. -/
def shown? : Place → Option Value
  | .vacant => none
  | .attribute _ _ shown => some shown
  | .content _ item => some item.shown

def isVacant : Place → Bool
  | .vacant => true
  | _ => false

end Place

/-! A table is a list of places in the order of the holes. -/

namespace Places

/-- A place put at the index of its hole, with vacant places up to there. -/
def put (index : Nat) (place : Place) (places : List Place) : List Place :=
  if index < places.length then places.set index place
  else places ++ List.replicate (index - places.length) .vacant ++ [place]

/-- The table of so many holes of which some have been given a place. -/
def ofBound (holes : Nat) (bound : List (Nat × Place)) : List Place :=
  bound.foldl (fun places (index, place) => put index place places) (List.replicate holes .vacant)

def populated (places : List Place) : Nat := places.countP fun place => !place.isVacant

/-- The value last shown at the hole of that index. -/
def previous? (places : List Place) (index : Nat) : Option Value :=
  (places[index]?).bind Place.shown?

end Places

end LiveTemplate
