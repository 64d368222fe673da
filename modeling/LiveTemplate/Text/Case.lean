/-!
# Names without regard to case

Tag and attribute names are compared and stored without regard to case. Only the
letters A to Z have two cases here.
-/
namespace LiveTemplate.Text

/-- The letters A to Z in lower case and everything else as it is. -/
def lower (s : String) : String := String.ofList (s.toList.map Char.toLower)

def sameIgnoringCase (a b : String) : Bool := lower a == lower b

end LiveTemplate.Text
