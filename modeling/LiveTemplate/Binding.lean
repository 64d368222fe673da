/-!
# Bindings

The name of an attribute says what becomes of its value. A leading question mark,
point or at sign binds an attribute by presence, a property or a listener. Four names
are reserved: one binds a reference, one spreads a mapping over the element, one puts
markup in place of the children, and the key takes no part in the element at all.
-/
namespace LiveTemplate

inductive Binding where
  | attribute (name : String)
  | presence (name : String)
  | property (name : String)
  | listener (event : String)
  | reference
  | spread
  | markup
deriving DecidableEq, Repr

namespace Binding

def keyName : String := "key"

def spreadName : String := "..."

def referenceName : String := "ref"

def markupName : String := "unsafe-html"

/-- The binding of a name that is not reserved. -/
def ofPlainName (name : String) : Binding :=
  match name.toList with
  | '?' :: bare => .presence (String.ofList bare)
  | '.' :: bare => .property (String.ofList bare)
  | '@' :: bare => .listener (String.ofList bare)
  | _ => .attribute name

/-- The binding of an attribute name; the key has none. -/
def ofName? (name : String) : Option Binding :=
  if name = keyName then none
  else if name = spreadName then some .spread
  else if name = referenceName then some .reference
  else if name = markupName then some .markup
  else some (ofPlainName name)

/-- Markup binds as an attribute of a template only, not as an entry of a mapping. -/
def ofEntryName? (name : String) : Option Binding :=
  (ofName? name).filter (· ≠ .markup)

end Binding

end LiveTemplate
