import LiveTemplate.Live

/-!
# Keyed lists

The items of a keyed list are taken over from the list before in one walk along both.
Whether a key is fresh or an item stale is a question of whether the key occurs in the
other list at all, by sameness of values. An item is never moved.
-/
namespace LiveTemplate.Live

def hasKey (keys : List Value) (key : Value) : Bool := keys.any fun k => k.same key

/-- What happens to the items before the next value is placed: some are removed, then
one may be taken over for it, and the rest wait. -/
structure KeyedStep (α : Type) where
  removed : List α
  reused : Option α
  rest : List α

/-- In front of a fresh value nothing is removed, and it takes over nothing. Otherwise
the stale items in front go, and the first of the others is taken over. -/
def keyedStep {α : Type} (stale : α → Bool) (fresh : Bool) (old : List α) : KeyedStep α :=
  if fresh then ⟨[], none, old⟩
  else
    match old.dropWhile stale with
    | [] => ⟨old.takeWhile stale, none, []⟩
    | item :: rest => ⟨old.takeWhile stale, some item, rest⟩

/-- An item whose key does not occur among the next keys. One without a key is not. -/
def isStale (nextKeys : List Value) (item : Item) : Bool :=
  match item.shown.key? with
  | some key => !hasKey nextKeys key
  | none => false

/-- A value whose key does not occur among the previous keys. -/
def isFresh (prevKeys : List Value) (next : Value) : Bool :=
  match next.key? with
  | some key => !hasKey prevKeys key
  | none => false

end LiveTemplate.Live
