import LiveTemplate.Text.Escape
import LiveTemplate.Value

/-!
# Markup

A value is written as markup from its skeleton and the values in it, with nothing kept
between two writings. What the template says is written as it stands; what comes from
a value is escaped. Listeners, properties, references and keys leave no trace.
-/
namespace LiveTemplate
open Text

structure MarkupOptions where
  /-- Childless void elements end in a slash. -/
  selfCloseVoid : Bool := false
  /-- Text and attributes that come from values are escaped. -/
  escapeDynamic : Bool := true
deriving DecidableEq, Repr

namespace Markup

/-- An attribute of a start tag with a space before it. An absent value leaves the
attribute out, and so does one that is not true where only presence counts. -/
def single (escaped : Bool) (binding : Binding) (v : Value) : String :=
  match binding with
  | .attribute name =>
      if v.isNull then ""
      else
        let text := if escaped then escape attributeEscapes v.toText else v.toText
        " " ++ name ++ "=\"" ++ text ++ "\""
  | .presence name => if v.isTruthy then " " ++ name else ""
  | _ => ""

mutual
/-- The attributes that a value adds to a start tag. A mapping that is spread adds
those of its entries. -/
def bound (escaped : Bool) (binding : Binding) : Value → String
  | .attributes handle entries =>
      if binding = .spread then spread escaped entries
      else single escaped binding (.attributes handle entries)
  | v => single escaped binding v
termination_by structural v => v

def spread (escaped : Bool) : List (String × Value) → String
  | [] => ""
  | (name, v) :: rest =>
      let first :=
        match Binding.ofEntryName? name with
        | some binding => bound escaped binding v
        | none => ""
      first ++ spread escaped rest
termination_by structural es => es
end

/-- The value of a hole; a hole without one is absent. -/
def valueAt (values : List Value) (index : Nat) : Value := values[index]?.getD .null

/-- The attributes of a start tag. -/
def attributes (options : MarkupOptions) (values : List Value)
    (attrs : List (String × AttrValue)) : String :=
  String.join (attrs.map fun (name, value) =>
    match Binding.ofName? name, value with
    | none, _ => ""
    | some binding, .literal s => bound false binding (.text s)
    | some binding, .hole index => bound options.escapeDynamic binding (valueAt values index))

/-- The markup that stands in place of the children, if any is given. -/
def inner? (values : List Value) (attrs : List (String × AttrValue)) : Option String :=
  match markupSource? attrs with
  | none => none
  | some (.literal s) => some s
  | some (.hole index) =>
      let v := valueAt values index
      if v.isNull then none else some v.toText

def closingTag (tag : String) : String := "</" ++ tag ++ ">"

/-- What follows the attributes of an element without content. -/
def emptyEnd (options : MarkupOptions) (tag : String) : String :=
  if isVoidTag tag then (if options.selfCloseVoid then "/>" else ">") else ">" ++ closingTag tag

mutual
/-- A node, given the content of each hole that stands among nodes. Content given as
markup stands in place of the children; so does its absence. -/
def node (options : MarkupOptions) (values : List Value) (contentAt : Nat → String) :
    Node → String
  | .text data => data
  | .hole index => contentAt index
  | .element tag attrs children =>
      let rest :=
        match inner? values attrs with
        | some markup => ">" ++ markup ++ closingTag tag
        | none =>
            if children.isEmpty || (markupSource? attrs).isSome then emptyEnd options tag
            else ">" ++ nodes options values contentAt children ++ closingTag tag
      "<" ++ tag ++ attributes options values attrs ++ rest
termination_by structural n => n

def nodes (options : MarkupOptions) (values : List Value) (contentAt : Nat → String) :
    List Node → String
  | [] => ""
  | n :: rest => node options values contentAt n ++ nodes options values contentAt rest
termination_by structural ns => ns
end

/-- A scalar as text between tags. -/
def scalar (options : MarkupOptions) (v : Value) : String :=
  if options.escapeDynamic then escape textEscapes v.toText else v.toText

mutual
/-- A value as content. Values that are neither templates, lists nor scalars are empty. -/
def content (options : MarkupOptions) : Value → String
  | .template _ shared values => nodes options values (contentAt options values) shared.nodes
  | .list _ items => contents options items
  | .bool b => scalar options (.bool b)
  | .number n => scalar options (.number n)
  | .text s => scalar options (.text s)
  | _ => ""
termination_by structural v => v

def contents (options : MarkupOptions) : List Value → String
  | [] => ""
  | v :: rest => content options v ++ contents options rest
termination_by structural vs => vs

/-- The content of the value at an index; of a value that is not there, nothing. -/
def contentAt (options : MarkupOptions) : List Value → Nat → String
  | [], _ => ""
  | v :: _, 0 => content options v
  | _ :: rest, index + 1 => contentAt options rest index
termination_by structural vs => vs
end

/-- A skeleton with its holes filled by values, any number of them. -/
def filled (options : MarkupOptions) (values : List Value) (s : Skeleton) : String :=
  nodes options values (contentAt options values) s.nodes

end Markup

end LiveTemplate
