import LiveTemplate.Binding
import LiveTemplate.Skeleton

/-!
# Drafts

A draft is a skeleton in the making: the finished nodes, the elements whose closing
tag is still awaited, and what the reader is in the middle of. The element of a start
tag that is being read is not open yet; it opens, or is finished at once, at the end
of its tag.
-/
namespace LiveTemplate

/-- An element that may still receive attributes or children. -/
structure OpenElement where
  tag : String
  attrs : List (String × AttrValue) := []
  children : List Node := []
deriving DecidableEq, Repr

def OpenElement.toNode (e : OpenElement) : Node := .element e.tag e.attrs e.children

def OpenElement.bind (name : String) (value : AttrValue) (e : OpenElement) : OpenElement :=
  { e with attrs := Entries.put name value e.attrs }

/-- How far an attribute has been read. -/
inductive Stage where
  | named
  | valueDue
  /-- A quote ended the fragment; the hole behind it is the value. -/
  | quoteOpen (quote : Char)
deriving DecidableEq, Repr

/-- An attribute that has no value yet. -/
structure Pending where
  name : String
  stage : Stage
deriving DecidableEq, Repr

inductive Mode where
  | content
  | comment
  | tag (element : OpenElement) (pending : Option Pending)
deriving DecidableEq, Repr

structure Draft where
  nodes : List Node := []
  /-- Innermost first. -/
  opened : List OpenElement := []
  mode : Mode := .content
deriving DecidableEq, Repr

namespace Draft

/-- A node goes to the innermost open element, or else to the top level. -/
def add (node : Node) (d : Draft) : Draft :=
  match d.opened with
  | [] => { d with nodes := d.nodes ++ [node] }
  | e :: outer => { d with opened := { e with children := e.children ++ [node] } :: outer }

/-- The innermost open element is finished. -/
def closeInnermost (d : Draft) : Draft :=
  match d.opened with
  | [] => d
  | e :: outer => add e.toNode { d with opened := outer }

/-- So many elements are finished, from the innermost outwards. -/
def close (d : Draft) : Nat → Draft
  | 0 => d
  | count + 1 => close d.closeInnermost count

/-- The innermost open element of that name is finished, with everything inside it.
Without one nothing happens. -/
def closeNamed (name : String) (d : Draft) : Draft :=
  match d.opened.findIdx? fun e => Text.sameIgnoringCase e.tag name with
  | none => d
  | some index => d.close (index + 1)

/-- An attribute that stayed without an equals sign has the empty text as its value;
one that got no further than that is dropped. -/
def settle (element : OpenElement) : Option Pending → OpenElement
  | some ⟨name, .named⟩ => element.bind name (.literal "")
  | _ => element

/-- The end of a start tag. A void element, or one that closes itself, is finished at
once; any other is open from here on. -/
def endTag (element : OpenElement) (selfClosing : Bool) (d : Draft) : Draft :=
  let d := { d with mode := .content }
  if selfClosing || isVoidTag element.tag then d.add element.toNode
  else { d with opened := element :: d.opened }

/-- The end of the input finishes everything. A start tag that is still being read
counts as ended. -/
def finish (d : Draft) : List Node :=
  let d :=
    match d.mode with
    | .tag element pending =>
        { d with opened := settle element pending :: d.opened, mode := .content }
    | _ => d
  (d.close d.opened.length).nodes

end Draft

end LiveTemplate
