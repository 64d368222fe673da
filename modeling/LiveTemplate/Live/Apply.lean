import LiveTemplate.Live.Mount

/-!
# Applying values to attributes

A value is applied to an element through a binding, with the value applied before at
hand. A mapping that is spread is applied entry by entry, each through the binding of
its name: first the entries that changed, then, as absent, those of the mapping before
that are gone. Retracting is applying an absent value.
-/
namespace LiveTemplate.Live

/-- Markup from a value in place of the children; an absent value leaves none. -/
def replaceMarkup (node : NodeId) (next : Value) : HostM Unit :=
  if next.isNull then Host.removeChildren node else showMarkup node next.toText

/-- A value applied through any binding but a spread. -/
def applySingle (node : NodeId) (binding : Binding) (prev next : Value) : HostM Unit :=
  match binding with
  | .markup => replaceMarkup node next
  | _ => writeDirect node binding prev next

mutual
/-- The value applied before gives way to an absent one. -/
def retract (node : NodeId) (binding : Binding) : Value → HostM Unit
  | .attributes handle entries =>
      match binding with
      | .spread => retractEntries node [] entries
      | _ => applySingle node binding (.attributes handle entries) .null
  | prev => applySingle node binding prev .null
termination_by structural v => v

/-- The entries of a mapping retracted, those with a kept name excepted. -/
def retractEntries (node : NodeId) (kept : List String) : List (String × Value) → HostM Unit
  | [] => pure ()
  | (name, old) :: rest => do
      if !kept.contains name then
        match Binding.ofEntryName? name with
        | some binding => retract node binding old
        | none => pure ()
      retractEntries node kept rest
termination_by structural es => es
end

mutual
/-- A value applied where another was before. A spread value that is not a mapping
counts as one without entries. -/
def apply (node : NodeId) (binding : Binding) (prev : Value) : Value → HostM Unit
  | .attributes handle entries =>
      match binding with
      | .spread => do
          applyEntries node prev.entries entries
          retractEntries node (Entries.names entries) prev.entries
      | _ => applySingle node binding prev (.attributes handle entries)
  | next =>
      match binding with
      | .spread => retractEntries node [] prev.entries
      | _ => applySingle node binding prev next
termination_by structural v => v

/-- The entries of a mapping applied where they differ from those before. -/
def applyEntries (node : NodeId) (prev : List (String × Value)) :
    List (String × Value) → HostM Unit
  | [] => pure ()
  | (name, next) :: rest => do
      let old := (Entries.get? name prev).getD .null
      if !old.same next then
        match Binding.ofEntryName? name with
        | some binding => apply node binding old next
        | none => pure ()
      applyEntries node prev rest
termination_by structural es => es
end

end LiveTemplate.Live
