import LiveTemplate.Text.Listing
import LiveTemplate.Text.Quoted
import LiveTemplate.Value

/-!
# Values in detail

Every value has a listing that shows its kind and its contents. Of what is known by
name only the kind is shown. A template shows how many top-level nodes it has, its
values and its key.
-/
namespace LiveTemplate.Value
open Text

mutual
def listing : Value → Listing
  | .null => .atom "Null"
  | .bool b => .tuple "Bool" [.atom (if b then "true" else "false")]
  | .number n => .tuple "Number" [.atom (n.spell Number.detailed)]
  | .text s => .tuple "Str" [.atom (quoted s)]
  | .template _ shared values =>
      let shown := listingAll values
      let key : Option Listing :=
        match keyOfFirst? shared with
        | some (.literal s) => some (.tuple "Str" [.atom (quoted s)])
        | some (.hole index) => if values[index]?.all isNull then none else shown[index]?
        | none => none
      let keyListing :=
        match key with
        | some l => .tuple "Some" [l]
        | none => .atom "None"
      .tuple "Template" [.record "Template" [("nodes", .atom (toString shared.nodes.length)),
        ("values", .list shown), ("key", keyListing)]]
  | .list _ items => .tuple "List" [.list (listingAll items)]
  | .attributes _ entries => .tuple "Attributes" [.map (listingEntries entries)]
  | .callback _ => .atom "Callback(..)"
  | .cell _ => .atom "Ref(..)"
  | .payload _ => .atom "Opaque(..)"
termination_by structural v => v

def listingAll : List Value → List Listing
  | [] => []
  | v :: rest => v.listing :: listingAll rest
termination_by structural vs => vs

def listingEntries : List (String × Value) → List (String × Listing)
  | [] => []
  | (name, v) :: rest => (quoted name, v.listing) :: listingEntries rest
termination_by structural es => es
end

end LiveTemplate.Value
