import LiveTemplate.Live.Keyed
import LiveTemplate.Proofs.Holding

/-!
# What a patch carries on

A content that is patched in place keeps its own nodes: a text its node, a template its two
markers and the nodes of its skeleton, a list those of the items that are taken over. Any
other content is made of new nodes. An item is removed only if it is stale or no value is
left, and a value is inserted only if it is fresh or no item is left.
-/
namespace LiveTemplate
open Document Subtree Live

/-- Whether a content may become another one in place. -/
def Content.Resumes : Content → Content → Prop
  | .text _, .text _ => True
  | .nested shared .., .nested shared' .. => shared = shared'
  | .list _, .list _ => True
  | _, _ => False

/-- Whatever is in the forest was there before, or is none of the first nodes. -/
def Grown (count : Nat) (f f' : List Subtree) : Prop :=
  ∀ n : Nat, n ∈ idsAll f' → n ∈ idsAll f ∨ count ≤ n

/-- An item of a list and the forest that it has put into the document. -/
structure Row where
  item : Item
  forest : List Subtree

namespace Row

def items (rows : List Row) : List Item := rows.map Row.item

def forests (rows : List Row) : List Subtree := rows.flatMap Row.forest

/-- The keys of the items that have one. -/
def keys (rows : List Row) : List Value := rows.filterMap fun row => row.item.shown.key?

/-- The item fits its forest, which holds nothing else. -/
def Fits (ω : Watch) (row : Row) : Prop :=
  LiveTemplate.Fits ω True row.item.shown row.item.content row.forest

variable {row : Row} {rows left right : List Row}

@[simp] theorem items_append : items (left ++ right) = items left ++ items right :=
  List.map_append

@[simp] theorem forests_cons : forests (row :: rows) = row.forest ++ forests rows := rfl

@[simp] theorem forests_append : forests (left ++ right) = forests left ++ forests right :=
  List.flatMap_append

end Row

/-- The walk along two lists of keyed templates goes by whether their keys occur in the
other list. -/
def Keyed (stale : Item → Bool) (fresh : Value → Bool) (rows rows' : List Row) : Prop :=
  Value.allKeyed (rows'.map fun row => row.item.shown) = true →
    stale = isStale (Row.keys rows') ∧ fresh = isFresh (Row.keys rows)

/-- The walk takes over one item for each value, as long as there are both. -/
def ByPosition (stale : Item → Bool) (fresh : Value → Bool) : Prop :=
  (∀ item, stale item = false) ∧ ∀ v, fresh v = false

mutual
/-- What becomes of a content and its forest, where the document had that many nodes. -/
inductive Carries (ω : Watch) (count : Nat) :
    Content → List Subtree → Content → List Subtree → Prop
  | fresh {c c' : Content} {f f' : List Subtree} (apart : ¬c.Resumes c')
      (new : ∀ n : Nat, n ∈ idsAll f' → count ≤ n) : Carries ω count c f c' f'
  | text (n : NodeId) (s s' : String) :
      Carries ω count (.text n) [.node n (.text s) []] (.text n) [.node n (.text s') []]
  | nested {shared : SharedSkeleton} {start stop : NodeId} {places places' : List Place}
      {ss : List Stem} {data data' : NodeId → ElementData} {fill fill' : NodeId → List Subtree}
      (seated : Seated shared ss places) (seated' : Seated shared ss places')
      (fits : PlacesFit ω (fun _ => True) fill places)
      (fits' : PlacesFit ω (fun _ => True) fill' places')
      (grown : ∀ spot, Grown count (fill spot) (fill' spot))
      (contents : ∀ (i : Nat) (marker : NodeId) (item item' : Item),
        places[i]? = some (.content marker item) → places'[i]? = some (.content marker item') →
        Carries ω count item.content (fill marker) item'.content (fill' marker)) :
      Carries ω count
        (.nested shared start stop places)
        (.node start .marker [] :: Stem.assembleAll data fill ss ++ [.node stop .marker []])
        (.nested shared start stop places')
        (.node start .marker [] :: Stem.assembleAll data' fill' ss ++ [.node stop .marker []])
  | list {stale : Item → Bool} {fresh : Value → Bool} {rows rows' : List Row}
      (items : CarriesItems ω count stale fresh rows rows')
      (keyed : rows' = rows ∨ Keyed stale fresh rows rows')
      (placed : Value.allKeyed (rows'.map fun row => row.item.shown) = false → ByPosition stale fresh) :
      Carries ω count (.list (Row.items rows)) (Row.forests rows) (.list (Row.items rows'))
        (Row.forests rows')

inductive CarriesItems (ω : Watch) (count : Nat) :
    (Item → Bool) → (Value → Bool) → List Row → List Row → Prop
  | nil {stale : Item → Bool} {fresh : Value → Bool} : CarriesItems ω count stale fresh [] []
  | remove {stale : Item → Bool} {fresh : Value → Bool} {row : Row} {rows rows' : List Row}
      (gone : stale row.item = true ∨ rows' = []) (fits : row.Fits ω)
      (rest : CarriesItems ω count stale fresh rows rows') :
      CarriesItems ω count stale fresh (row :: rows) rows'
  | insert {stale : Item → Bool} {fresh : Value → Bool} {row' : Row} {rows rows' : List Row}
      (come : fresh row'.item.shown = true ∨ rows = []) (fits' : row'.Fits ω)
      (new : ∀ n : Nat, n ∈ idsAll row'.forest → count ≤ n)
      (rest : CarriesItems ω count stale fresh rows rows') :
      CarriesItems ω count stale fresh rows (row' :: rows')
  | reuse {stale : Item → Bool} {fresh : Value → Bool} {row row' : Row} {rows rows' : List Row}
      (kept : stale row.item = false) (known : fresh row'.item.shown = false)
      (fits : row.Fits ω) (fits' : row'.Fits ω) (grown : Grown count row.forest row'.forest)
      (carries : Carries ω count row.item.content row.forest row'.item.content row'.forest)
      (rest : CarriesItems ω count stale fresh rows rows') :
      CarriesItems ω count stale fresh (row :: rows) (row' :: rows')
end

variable {ω : Watch} {count count' : Nat} {v : Value} {c c' : Content} {f f' : List Subtree}
  {stale : Item → Bool} {fresh : Value → Bool} {rows rows' : List Row}

theorem Grown.refl : Grown count f f := fun _ hn => .inl hn

theorem Grown.trans {f₁ : List Subtree} (h : Grown count f f₁) (h' : Grown count f₁ f') :
    Grown count f f' := fun n hn => (h' n hn).elim (h n) .inr

theorem Grown.mono (h : Grown count' f f') (le : count ≤ count') : Grown count f f' :=
  fun n hn => (h n hn).imp_right (Nat.le_trans le)

mutual
/-- If nodes are new, those that have come later are. -/
theorem Carries.mono (le : count ≤ count') : {c c' : Content} → {f f' : List Subtree} →
    Carries ω count' c f c' f' → Carries ω count c f c' f'
  | _, _, _, _, .fresh apart new => .fresh apart fun n hn => Nat.le_trans le (new n hn)
  | _, _, _, _, .text n s s' => .text n s s'
  | _, _, _, _, .nested seated seated' fits fits' grown contents =>
      .nested seated seated' fits fits' (fun spot => (grown spot).mono le)
        fun i marker item item' hi hi' => (contents i marker item item' hi hi').mono le
  | _, _, _, _, .list items keyed placed => .list (items.mono le) keyed placed

theorem CarriesItems.mono (le : count ≤ count') : {stale : Item → Bool} → {fresh : Value → Bool} →
    {rows rows' : List Row} → CarriesItems ω count' stale fresh rows rows' →
    CarriesItems ω count stale fresh rows rows'
  | _, _, _, _, .nil => .nil
  | _, _, _, _, .remove gone fits rest => .remove gone fits (rest.mono le)
  | _, _, _, _, .insert come fits' new rest =>
      .insert come fits' (fun n hn => Nat.le_trans le (new n hn)) (rest.mono le)
  | _, _, _, _, .reuse kept known fits fits' grown carries rest =>
      .reuse kept known fits fits' (grown.mono le) (carries.mono le) (rest.mono le)
end

mutual
/-- What is left alone carries itself on. -/
theorem Fits.carries (count : Nat) : {v : Value} → {c : Content} → {f : List Subtree} →
    Fits ω True v c f → Carries ω count c f c f
  | _, _, _, .empty shows => by
      obtain ⟨rfl, -⟩ := shows trivial
      exact .fresh id (by simp)
  | _, _, _, .text left right shows => by
      obtain ⟨rfl, rfl, -⟩ := shows trivial
      exact .text _ _ _
  | _, _, _, .nested left right table contents shows => by
      obtain ⟨rfl, rfl, -⟩ := shows trivial
      rw [List.nil_append, List.append_nil]
      apply Carries.nested table.seated table.seated contents contents
      · intro spot
        exact .refl
      · intro i marker item item' hi hi'
        obtain rfl : item = item' := by simpa [hi] using hi'
        exact (contents i marker item hi).carries count
  | _, .list _, _, .list fits _ => by
      obtain ⟨rows, rfl, rfl, items⟩ := fits.carries count
      exact .list items (.inl rfl) fun _ => ⟨fun _ => rfl, fun _ => rfl⟩

theorem FitsItems.carries (count : Nat) : {items : List Item} → {f : List Subtree} →
    FitsItems ω True items f → ∃ rows, items = Row.items rows ∧ f = Row.forests rows ∧
      CarriesItems ω count (fun _ => false) (fun _ => false) rows rows
  | _, _, .nil shows => by
      obtain rfl := shows trivial
      exact ⟨[], rfl, rfl, .nil⟩
  | _, _, @FitsItems.cons _ _ item _ f _ _ _ head tail => by
      obtain ⟨rows, rfl, rfl, items⟩ := tail.carries count
      refine ⟨⟨item, f⟩ :: rows, rfl, rfl, ?_⟩
      exact .reuse rfl rfl head head .refl (head.carries count) items
end

/-- The rows of what has been put into the document for the items of a list. -/
theorem FitsItems.exists_rows {items : List Item} (h : FitsItems ω True items f) :
    ∃ rows, items = Row.items rows ∧ f = Row.forests rows ∧ ∀ row ∈ rows, row.Fits ω := by
  induction items generalizing f with
  | nil =>
    cases h with
    | nil shows =>
      obtain rfl := shows trivial
      exact ⟨[], rfl, rfl, by simp⟩
  | cons item items ih =>
    cases h with
    | @cons _ _ f₁ _ _ _ head tail =>
      obtain ⟨rows, rfl, rfl, fits⟩ := ih tail
      exact ⟨⟨item, f₁⟩ :: rows, rfl, rfl, List.forall_mem_cons.2 ⟨head, fits⟩⟩

theorem CarriesItems.fits : {stale : Item → Bool} → {fresh : Value → Bool} →
    {rows rows' : List Row} → CarriesItems ω count stale fresh rows rows' →
    (∀ row ∈ rows, row.Fits ω) ∧ ∀ row' ∈ rows', row'.Fits ω
  | _, _, _, _, .nil => ⟨by simp, by simp⟩
  | _, _, _, _, .remove _ fits rest => ⟨List.forall_mem_cons.2 ⟨fits, rest.fits.1⟩, rest.fits.2⟩
  | _, _, _, _, .insert _ fits' _ rest => ⟨rest.fits.1, List.forall_mem_cons.2 ⟨fits', rest.fits.2⟩⟩
  | _, _, _, _, .reuse _ _ fits fits' _ _ rest =>
      ⟨List.forall_mem_cons.2 ⟨fits, rest.fits.1⟩, List.forall_mem_cons.2 ⟨fits', rest.fits.2⟩⟩

/-- What is put into the document for a list is new, or was there for it. -/
theorem CarriesItems.grown : {stale : Item → Bool} → {fresh : Value → Bool} →
    {rows rows' : List Row} → CarriesItems ω count stale fresh rows rows' →
    Grown count (Row.forests rows) (Row.forests rows')
  | _, _, _, _, .nil, _, hn => .inl hn
  | _, _, _, _, .remove _ _ rest, n, hn => by
      rw [Row.forests_cons, idsAll_append, List.mem_append]
      exact (rest.grown n hn).imp_left .inr
  | _, _, _, _, .insert _ _ new rest, n, hn => by
      rw [Row.forests_cons, idsAll_append, List.mem_append] at hn
      rcases hn with hn | hn
      · exact .inr (new n hn)
      · exact rest.grown n hn
  | _, _, _, _, .reuse _ _ _ _ grown _ rest, n, hn => by
      rw [Row.forests_cons, idsAll_append, List.mem_append] at hn ⊢
      rcases hn with hn | hn
      · exact (grown n hn).imp_left .inl
      · exact (rest.grown n hn).imp_left .inr

/-- Several items are removed. -/
theorem CarriesItems.skip {skipped : List Row}
    (gone : ∀ row ∈ skipped, stale row.item = true ∨ rows' = [])
    (fits : ∀ row ∈ skipped, row.Fits ω) (rest : CarriesItems ω count stale fresh rows rows') :
    CarriesItems ω count stale fresh (skipped ++ rows) rows' := by
  induction skipped with
  | nil => exact rest
  | cons row skipped ih =>
    rw [List.forall_mem_cons] at gone fits
    exact .remove gone.1 fits.1 (ih gone.2 fits.2)

end LiveTemplate
