import LiveTemplate.Proofs.Records
import LiveTemplate.Proofs.Tracing

/-!
# Reference cells

A value binds cells at elements: through an attribute for references, or through an entry of
that name in a mapping that is spread. A table has each of them on record with the node of
its place. Nothing but the application of such a value gives a cell a node, and no cell is
ever emptied.
-/
namespace LiveTemplate
open Live

/-- A cell and the node that it is to hold. -/
abbrev Pin := String × NodeId

/-! ### The cells that a value binds -/

namespace Value

mutual
/-- The cells that are given the node when the value is applied to it. -/
def cellsVia (b : Binding) : Value → List String
  | .cell name => if b = .reference then [name] else []
  | .attributes _ entries => if b = .spread then entryCells entries else []
  | _ => []
termination_by structural v => v

def entryCells : List (String × Value) → List String
  | [] => []
  | (name, v) :: rest =>
      (match Binding.ofEntryName? name with
        | some b => v.cellsVia b
        | none => []) ++ entryCells rest
termination_by structural es => es
end

mutual
/-- The cells that a value binds at the elements that are mounted for it. -/
def refs : Value → List String
  | .template _ shared values => refsFrom (Node.seatsAll shared.nodes) 0 values
  | .list _ items => refsAll items
  | _ => []
termination_by structural v => v

def refsAll : List Value → List String
  | [] => []
  | v :: rest => v.refs ++ refsAll rest
termination_by structural vs => vs

/-- The cells of the values from an index on, each by the seat of its hole. -/
def refsFrom (seats : List (Nat × Seat)) (index : Nat) : List Value → List String
  | [] => []
  | v :: rest =>
      (match Entries.get? index seats with
        | some (.attribute b _) => v.cellsVia b
        | some .content => v.refs
        | none => []) ++ refsFrom seats (index + 1) rest
termination_by structural vs => vs
end

theorem cellsVia_spread (v : Value) : v.cellsVia .spread = entryCells v.entries := by
  cases v <;> simp [cellsVia, entries, entryCells]

theorem cellsVia_of_same {a b : Value} (h : a.same b = true) (c : Binding) :
    a.cellsVia c = b.cellsVia c := by
  rcases same_cases h with rfl | ⟨m, n, rfl, rfl, -, -⟩
  · rfl
  · rfl

theorem Alike.cellsVia {a b : Value} (h : a.Alike b) (c : Binding) :
    a.cellsVia c = b.cellsVia c := by
  rcases h with rfl | h
  · rfl
  · exact cellsVia_of_same h c

/-- The cells of an entry are among those of the mapping. -/
theorem cellsVia_subset_entryCells {name : String} {b : Binding} {v : Value}
    {entries : List (String × Value)} (hb : Binding.ofEntryName? name = some b)
    (h : Entries.get? name entries = some v) : v.cellsVia b ⊆ entryCells entries := by
  induction entries with
  | nil => simp [Entries.get?] at h
  | cons e rest ih =>
    obtain ⟨name', w⟩ := e
    rw [Entries.get?] at h
    rw [entryCells]
    split at h
    next hname =>
      obtain rfl := Option.some.inj h
      rw [hname, hb]
      exact List.subset_append_left ..
    · exact List.Subset.trans (ih h) (List.subset_append_right ..)

end Value

/-! ### The bindings on record -/

mutual
/-- The cells that a content binds, each with the node of its place. -/
def Content.pins : Content → List Pin
  | .empty => []
  | .text _ => []
  | .nested _ _ _ places => pinsAt places
  | .list items => pinsOf items
termination_by structural c => c

def Place.pins : Place → List Pin
  | .vacant => []
  | .attribute n b v => (v.cellsVia b).map (·, n)
  | .content _ item => item.pins
termination_by structural p => p

def Item.pins : Item → List Pin
  | .mk _ content => content.pins
termination_by structural item => item

def pinsAt : List Place → List Pin
  | [] => []
  | p :: rest => p.pins ++ pinsAt rest
termination_by structural places => places

def pinsOf : List Item → List Pin
  | [] => []
  | item :: rest => item.pins ++ pinsOf rest
termination_by structural items => items
end

theorem Item.pins_eq (item : Item) : item.pins = item.content.pins := by
  cases item
  rfl

theorem pinsAt_eq (places : List Place) : pinsAt places = places.flatMap Place.pins := by
  induction places with
  | nil => rfl
  | cons p rest ih => rw [pinsAt, ih, List.flatMap_cons]

theorem pinsOf_eq (items : List Item) : pinsOf items = items.flatMap Item.pins := by
  induction items with
  | nil => rfl
  | cons item rest ih => rw [pinsOf, ih, List.flatMap_cons]

/-- A place that shows nothing yet binds no cell. -/
theorem Place.pins_of_bare {p : Place} (h : p.bare = p) : p.pins = [] := by
  rcases p with _ | ⟨n, b, v⟩ | ⟨marker, item⟩
  · rfl
  · simp only [bare, Place.attribute.injEq, true_and] at h
    rw [← h]
    rfl
  · simp only [bare, Place.content.injEq, true_and] at h
    rw [← h]
    rfl

/-- A table that shows nothing yet binds no cell. -/
theorem pinsAt_eq_nil {places : List Place}
    (bare : ∀ (i : Nat) (p : Place), places[i]? = some p → p.bare = p) : pinsAt places = [] := by
  rw [pinsAt_eq, List.flatMap_eq_nil_iff]
  intro p hp
  obtain ⟨i, hi, rfl⟩ := List.getElem_of_mem hp
  exact Place.pins_of_bare (bare i _ (List.getElem?_eq_getElem hi))

/-- All the bindings hold. -/
def Held (pins cells : List Pin) : Prop := ∀ p ∈ pins, Entries.get? p.1 cells = some p.2

/-- Every cell stays as it was or is given a node that is to be bound to it, and every
binding was there before or its cell has been given such a node. -/
structure Pinned (old new cells cells' : List Pin) : Prop where
  only : ∀ c, Entries.get? c cells' = Entries.get? c cells ∨
    ∃ n, (c, n) ∈ new ∧ Entries.get? c cells' = some n
  all : ∀ p ∈ new, p ∈ old ∨ ∃ n, (p.1, n) ∈ new ∧ Entries.get? p.1 cells' = some n

namespace Pinned
variable {old old' new new' cells cells' cells'' : List Pin}

theorem kept (sub : new ⊆ old) : Pinned old new cells cells where
  only _ := .inl rfl
  all _ hp := .inl (sub hp)

/-- Two steps bind the cells of both. -/
theorem append (h : Pinned old new cells cells') (h' : Pinned old new' cells' cells'') :
    Pinned old (new ++ new') cells cells'' where
  only c := by
    rcases h'.only c with same | ⟨n, hn, holds⟩
    · rw [same]
      exact (h.only c).imp_right fun ⟨n, hn, holds⟩ => ⟨n, List.mem_append_left _ hn, holds⟩
    · exact .inr ⟨n, List.mem_append_right _ hn, holds⟩
  all p hp := by
    cases List.mem_append.1 hp with
    | inl hp =>
      cases h.all p hp with
      | inl hold => exact .inl hold
      | inr written =>
        obtain ⟨n, hn, holds⟩ := written
        right
        rcases h'.only p.1 with same | ⟨n', hn', holds'⟩
        · exact ⟨n, List.mem_append_left _ hn, same.trans holds⟩
        · exact ⟨n', List.mem_append_right _ hn', holds'⟩
    | inr hp =>
      exact (h'.all p hp).imp_right fun ⟨n, hn, holds⟩ => ⟨n, List.mem_append_right _ hn, holds⟩

/-- A cell is given a node. -/
theorem put (c : String) (n : NodeId) : Pinned old [(c, n)] cells (Entries.put c n cells) where
  only c' := by
    rw [Entries.get?_put]
    split
    next hc => exact .inr ⟨n, by simp [hc], rfl⟩
    · exact .inl rfl
  all p hp := by
    obtain rfl := List.mem_singleton.1 hp
    exact .inr ⟨n, List.mem_singleton_self _, by rw [Entries.get?_put, if_pos rfl]⟩

/-- Where no cell is bound twice, the bindings hold if those before did. -/
theorem held (h : Pinned old new cells cells') (once : (new.map Prod.fst).Nodup)
    (before : Held old cells) : Held new cells' := by
  have unique : ∀ c n n', (c, n) ∈ new → (c, n') ∈ new → n = n' := by
    intro c n n' hn hn'
    exact (Prod.mk.inj (List.inj_on_of_nodup_map once hn hn' rfl)).2
  intro p hp
  have written : ∀ n, (p.1, n) ∈ new → Entries.get? p.1 cells' = some n →
      Entries.get? p.1 cells' = some p.2 := by
    intro n hn holds
    rw [holds, unique p.1 n p.2 hn hp]
  cases h.all p hp with
  | inl hold =>
    rcases h.only p.1 with same | ⟨n, hn, holds⟩
    · exact same.trans (before p hold)
    · exact written n hn holds
  | inr h =>
    obtain ⟨n, hn, holds⟩ := h
    exact written n hn holds

end Pinned

/-! ### Steps that give no cell a node -/

namespace Live
variable {α β : Type}

def KeepsCells (m : HostM α) : Prop := ∀ h : Host, (left m h).cells = h.cells

namespace KeepsCells
variable {m : HostM α} {f : α → HostM β}

theorem pure {a : α} : KeepsCells (Pure.pure a : HostM α) := fun _ => rfl

theorem get : KeepsCells (get : HostM Host) := fun _ => rfl

theorem bind (hm : KeepsCells m) (hf : ∀ a, KeepsCells (f a)) : KeepsCells (m >>= f) := by
  intro h
  have first := hm h
  cases hr : m h with
  | ok a h₁ =>
    rw [left, hr] at first
    rw [left, bind_ok hr]
    exact (hf a h₁).trans first
  | error e h₁ =>
    rw [left, hr] at first
    rw [left, bind_error hr]
    exact first

theorem edit (f : Document → Except DocumentError Document) : KeepsCells (Host.edit f) := by
  intro h
  rw [left, Host.edit]
  cases f h.document <;> rfl

theorem call (c : Call) : KeepsCells (Host.call c) := fun _ => rfl

theorem create (kind : NodeKind) : KeepsCells (Host.create kind) := fun _ => rfl

theorem createElement (tag : String) : KeepsCells (Host.createElement tag) := by
  intro h
  rw [left, Host.createElement]
  cases h.document.createElement tag <;> rfl

theorem removeAll (ids : List NodeId) : KeepsCells (Host.removeAll ids) := by
  unfold Host.removeAll
  rw [List.forM_eq_forM]
  induction ids with
  | nil => exact .pure
  | cons n rest ih =>
    rw [List.forM_cons]
    exact (edit (Document.remove n)).bind fun _ => ih

theorem removeChildren (n : NodeId) : KeepsCells (Host.removeChildren n) :=
  get.bind fun _ => removeAll _

theorem removeRange (first last : NodeId) : KeepsCells (Host.removeRange first last) :=
  get.bind fun _ => removeAll _

theorem of_ok {h h' : Host} {a : α} (hm : KeepsCells m) (run : m h = .ok a h') :
    h'.cells = h.cells := by
  have same := hm h
  rw [left, run] at same
  exact same

end KeepsCells

/-- A value that binds no cell is written without giving one a node. -/
theorem writeDirect_keepsCells (node : NodeId) {binding : Binding} (prev : Value) {next : Value}
    (h : next.cellsVia binding = []) : KeepsCells (writeDirect node binding prev next) := by
  unfold writeDirect
  split
  · split
    · exact .edit _
    · exact .edit _
  · split
    · exact .edit _
    · exact .edit _
  · exact .edit _
  · dsimp only
    split
    · refine (KeepsCells.edit _).bind fun _ => ?_
      split
      · exact .edit _
      · exact .pure
    · split
      · exact .edit _
      · exact .pure
  · split
    · exact .call _
    · simp [Value.cellsVia] at h
    · exact .pure
  · exact .pure
  · exact .pure

section
variable {fill : NodeId → String → HostM Unit}

theorem mountAttributes_keepsCells (hfill : ∀ n s, KeepsCells (fill n s)) (node : NodeId)
    (attrs : Attributes) : KeepsCells (mountAttributes fill node attrs) := by
  induction attrs with
  | nil => exact .pure
  | cons a rest ih =>
    unfold mountAttributes
    split
    · exact ih
    · exact (hfill _ _).bind fun _ => ih
    · exact (writeDirect_keepsCells node _ (by simp [Value.cellsVia])).bind fun _ => ih
    · exact ih.bind fun _ => .pure

mutual
theorem mountNode_keepsCells (hfill : ∀ n s, KeepsCells (fill n s)) (parent : NodeId) :
    (n : Node) → KeepsCells (mountNode fill parent n)
  | .element tag attrs children => by
      unfold mountNode
      refine (KeepsCells.createElement tag).bind fun node => ?_
      refine (KeepsCells.edit _).bind fun _ => ?_
      refine (mountAttributes_keepsCells hfill node attrs).bind fun bound => ?_
      split
      · exact .pure
      · exact (mountNodes_keepsCells hfill node children).bind fun _ => .pure
  | .text data => by
      unfold mountNode
      exact (KeepsCells.create _).bind fun _ => (KeepsCells.edit _).bind fun _ => .pure
  | .hole index => by
      unfold mountNode
      exact (KeepsCells.create _).bind fun _ => (KeepsCells.edit _).bind fun _ => .pure
termination_by structural n => n

theorem mountNodes_keepsCells (hfill : ∀ n s, KeepsCells (fill n s)) (parent : NodeId) :
    (ns : List Node) → KeepsCells (mountNodes fill parent ns)
  | [] => .pure
  | n :: rest => by
      unfold mountNodes
      refine (mountNode_keepsCells hfill parent n).bind fun _ => ?_
      exact (mountNodes_keepsCells hfill parent rest).bind fun _ => .pure
termination_by structural ns => ns
end

end

theorem fillMarkup_keepsCells (depth : Nat) (node : NodeId) (markup : String) :
    KeepsCells (fillMarkup depth node markup) := by
  induction depth generalizing node markup with
  | zero => exact .pure
  | succ depth ih =>
    unfold fillMarkup
    refine (KeepsCells.removeChildren node).bind fun _ => ?_
    split
    · exact (mountNodes_keepsCells ih node _).bind fun _ => .pure
    · exact (KeepsCells.create _).bind fun _ => .edit _

theorem mount_keepsCells (skeleton : Skeleton) (parent : NodeId) :
    KeepsCells (mount skeleton parent) := by
  unfold mount
  exact (mountNodes_keepsCells (fun n s => fillMarkup_keepsCells _ n s) parent
    skeleton.nodes).bind fun _ => .pure

/-- A value that binds no cell is applied without giving one a node. -/
theorem applySingle_keepsCells (node : NodeId) {binding : Binding} (prev : Value) {next : Value}
    (h : next.cellsVia binding = []) : KeepsCells (applySingle node binding prev next) := by
  unfold applySingle
  split
  · unfold replaceMarkup
    split
    · exact .removeChildren node
    · exact fillMarkup_keepsCells _ node _
  · exact writeDirect_keepsCells node prev h

mutual
/-- An absent value gives no cell a node. -/
theorem retract_keepsCells (node : NodeId) (binding : Binding) :
    (prev : Value) → KeepsCells (retract node binding prev)
  | .attributes handle entries => by
      unfold retract
      split
      · exact retractEntries_keepsCells node [] entries
      · exact applySingle_keepsCells node _ rfl
  | .null | .bool _ | .number _ | .text _ | .template .. | .list .. | .callback _ | .cell _
  | .payload _ => applySingle_keepsCells node _ rfl
termination_by structural v => v

theorem retractEntries_keepsCells (node : NodeId) (kept : List String) :
    (entries : List (String × Value)) → KeepsCells (retractEntries node kept entries)
  | [] => .pure
  | (name, old) :: rest => by
      have others := retractEntries_keepsCells node kept rest
      rw [retractEntries]
      split
      · split
        · exact (retract_keepsCells node _ old).bind fun _ => others
        · exact others
      · exact others
termination_by structural es => es
end

mutual
theorem clear_keepsCells : (c : Content) → KeepsCells (clear c)
  | .empty => .pure
  | .text _ => .edit _
  | .nested _ start stop _ => .removeRange start stop
  | .list items => clearItems_keepsCells items
termination_by structural c => c

theorem clearItems_keepsCells : (items : List Item) → KeepsCells (clearItems items)
  | [] => .pure
  | .mk _ content :: rest => (clear_keepsCells content).bind fun _ => clearItems_keepsCells rest
termination_by structural items => items
end

theorem clearPlaces_keepsCells (places : List Place) : KeepsCells (clearPlaces places) := by
  induction places with
  | nil => exact .pure
  | cons p rest ih =>
    rcases p with _ | ⟨n, b, v⟩ | ⟨marker, item⟩
    · exact ih
    · exact ih
    · exact (clear_keepsCells item.content).bind fun _ => ih

end Live

end LiveTemplate
