import LiveTemplate.Skeleton.Reading
import LiveTemplate.Value

/-!
# The workshop

Values with an identity are made here, each under a number of its own. A template is
made at a call site: the fragments are parsed when the site is first used, and from
then on all templates of the site share the skeleton until the cache is cleared. A
site whose fragments do not parse is not remembered.
-/
namespace LiveTemplate

/-- Where a template is written. A site with a label differs from all others, also
where the fragments agree; sites without one are told apart by their fragments. -/
structure CallSite where
  label : Option String
  fragments : List String
deriving DecidableEq, Repr

inductive TemplateError where
  | malformed (cause : ParseError)
  | wrongArity (expected found : Nat)
deriving DecidableEq, Repr

def TemplateError.message : TemplateError → String
  | .malformed cause => "malformed template: " ++ cause.message
  | .wrongArity expected found =>
      "template has " ++ toString expected ++ " placeholders but " ++ toString found ++
        " values were supplied"

/-- Skeletons of the sites used since the last clearing. Numbers are never reused. -/
structure Cache where
  skeletons : List (CallSite × SharedSkeleton) := []
  nextNumber : Nat := 0
deriving DecidableEq, Repr

namespace Cache

def get? (site : CallSite) (c : Cache) : Option SharedSkeleton := Entries.get? site c.skeletons

def size (c : Cache) : Nat := c.skeletons.length

def clear (c : Cache) : Cache := { c with skeletons := [] }

/-- The skeleton of a site, parsed unless it is there already. -/
def obtain (site : CallSite) (c : Cache) : Except ParseError SharedSkeleton × Cache :=
  match c.get? site with
  | some shared => (.ok shared, c)
  | none =>
      match Skeleton.parse site.fragments with
      | .error e => (.error e, c)
      | .ok skeleton =>
          let shared : SharedSkeleton := ⟨.parsed c.nextNumber, skeleton⟩
          (.ok shared, ⟨(site, shared) :: c.skeletons, c.nextNumber + 1⟩)

end Cache

structure Workshop where
  cache : Cache := {}
  nextHandle : Nat := 0
deriving DecidableEq, Repr

namespace Workshop

/-- A value made under the next number. -/
def make (build : Nat → Value) (w : Workshop) : Value × Workshop :=
  (build w.nextHandle, { w with nextHandle := w.nextHandle + 1 })

def list (items : List Value) : Workshop → Value × Workshop := make (.list · items)

/-- A mapping made by writing its entries in order. -/
def attributes (pairs : List (String × Value)) : Workshop → Value × Workshop :=
  make (.attributes · (Entries.ofList pairs))

/-- A template with these values, one for each hole. -/
def template (shared : SharedSkeleton) (values : List Value) (w : Workshop) :
    Except TemplateError Value × Workshop :=
  if values.length = shared.holes then
    let (v, w) := w.make (.template · shared values)
    (.ok v, w)
  else (.error (.wrongArity shared.holes values.length), w)

/-- A template of a call site. The fragments are parsed before the values are counted. -/
def invoke (site : CallSite) (values : List Value) (w : Workshop) :
    Except TemplateError Value × Workshop :=
  match w.cache.obtain site with
  | (.error e, cache) => (.error (.malformed e), { w with cache })
  | (.ok shared, cache) => template shared values { w with cache }

/-- A value as a template. A template is so already. -/
def wrap (v : Value) (w : Workshop) : Value × Workshop :=
  match v with
  | .template .. => (v, w)
  | v => w.make (.template · .bare [v])

end Workshop

end LiveTemplate
