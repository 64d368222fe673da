/-!
# Ordered entries

Attributes, properties and mappings are lists of named entries in which the order of
first appearance is kept. Writing a name again changes its value and not its place.
-/
namespace LiveTemplate

namespace Entries
variable {κ α : Type} [DecidableEq κ]

/-- The value of the first entry of that name. -/
def get? (name : κ) : List (κ × α) → Option α
  | [] => none
  | (n, v) :: rest => if n = name then some v else get? name rest

def names (entries : List (κ × α)) : List κ := entries.map Prod.fst

def put (name : κ) (value : α) : List (κ × α) → List (κ × α)
  | [] => [(name, value)]
  | (n, v) :: rest => if n = name then (n, value) :: rest else (n, v) :: put name value rest

def erase (name : κ) (entries : List (κ × α)) : List (κ × α) :=
  entries.filter fun entry => entry.1 ≠ name

/-- Entries written one after the other into an empty list. -/
def ofList (pairs : List (κ × α)) : List (κ × α) :=
  pairs.foldl (fun entries (name, value) => put name value entries) []

theorem get?_put (a b : κ) (value : α) (entries : List (κ × α)) :
    get? a (put b value entries) = if a = b then some value else get? a entries := by
  induction entries with
  | nil => simp [put, get?, eq_comm]
  | cons entry rest ih =>
    obtain ⟨n, v⟩ := entry
    grind [put, get?]

theorem names_put (name : κ) (value : α) (entries : List (κ × α)) :
    names (put name value entries) =
      if name ∈ names entries then names entries else names entries ++ [name] := by
  induction entries with
  | nil => simp [put, names]
  | cons entry rest ih =>
    obtain ⟨n, v⟩ := entry
    simp only [names] at ih ⊢
    grind [put]

end Entries

end LiveTemplate
