import LiveTemplate.Proofs.Patching
import LiveTemplate.Proofs.Records
import LiveTemplate.Proofs.Resuming
import Mathlib.Data.List.Pairwise

/-!
# What keys keep

In a list of templates whose keys are different from one another a key belongs to one item.
As long as the keys that two such lists have in common are in the same order in both, the
first item that is not stale and the first value that is not fresh have the same key, at
every step of the walk along the lists. So an item is kept for its key, all other items are
removed, and all other values are put into new nodes.
-/
namespace LiveTemplate
open Document Subtree Live

/-! ### Keys of two lists -/

namespace Value
variable {a b c u v : Value} {old new vs : List Value}

/-- Both have a key, and the two are the same. -/
def SameKey (a b : Value) : Prop :=
  ∃ k l, a.key? = some k ∧ b.key? = some l ∧ k.same l = true

instance : DecidableRel SameKey := fun a b =>
  decidable_of_iff (∃ k ∈ a.key?, ∃ l ∈ b.key?, k.same l = true) ⟨
    fun ⟨k, hk, l, hl, same⟩ => ⟨k, l, hk, hl, same⟩,
    fun ⟨k, l, hk, hl, same⟩ => ⟨k, hk, l, hl, same⟩⟩

theorem SameKey.symm (h : SameKey a b) : SameKey b a := by
  obtain ⟨k, l, hk, hl, same⟩ := h
  rw [same_comm] at same
  exact ⟨l, k, hl, hk, same⟩

theorem SameKey.trans (h : SameKey a b) (h' : SameKey b c) : SameKey a c := by
  obtain ⟨k, l, hk, hl, same⟩ := h
  obtain ⟨l', m, hl', hm, same'⟩ := h'
  obtain rfl : l = l' := Option.some.inj (hl.symm.trans hl')
  exact ⟨k, m, hk, hm, Alike.same_trans (.inr same) same'⟩

/-- Everything in the list has a key that is the same as itself, and as no other one. -/
structure KeyedApart (vs : List Value) : Prop where
  own : ∀ v ∈ vs, SameKey v v
  apart : vs.Pairwise fun u v => ¬SameKey u v

instance (vs : List Value) : Decidable (KeyedApart vs) :=
  decidable_of_iff ((∀ v ∈ vs, SameKey v v) ∧ vs.Pairwise fun u v => ¬SameKey u v)
    ⟨fun h => ⟨h.1, h.2⟩, fun h => ⟨h.own, h.apart⟩⟩

theorem KeyedApart.tail (h : KeyedApart (v :: vs)) : KeyedApart vs where
  own u hu := h.own u (List.mem_cons_of_mem _ hu)
  apart := h.apart.of_cons

theorem KeyedApart.head_ne {vs : List Value} {u v : Value} (own : KeyedApart (u :: vs))
    (same : SameKey u v) : ∀ w ∈ vs, ¬SameKey w v := by
  intro w hw same'
  exact (List.pairwise_cons.1 own.apart).1 w hw (same.trans same'.symm)

/-- The keys that the lists have in common stand in the same order in both. -/
def InOrder (old new : List Value) : Prop :=
  ∀ (i i' j j' : Nat) (u u' v v' : Value), old[i]? = some u → old[i']? = some u' →
    new[j]? = some v → new[j']? = some v' → SameKey u v → SameKey u' v' → i < i' → j < j'

theorem inOrder_iff : InOrder old new ↔ ∀ (i i' : Fin old.length) (j j' : Fin new.length),
    SameKey old[i] new[j] → SameKey old[i'] new[j'] → i < i' → j < j' := by
  constructor
  · intro h i i' j j' same same' lt
    exact h i i' j j' _ _ _ _ (by simp) (by simp) (by simp) (by simp) same same' lt
  · intro h i i' j j' u u' v v' hi hi' hj hj' same same' lt
    obtain ⟨hlt, rfl⟩ := List.getElem?_eq_some_iff.1 hi
    obtain ⟨hlt', rfl⟩ := List.getElem?_eq_some_iff.1 hi'
    obtain ⟨hltj, rfl⟩ := List.getElem?_eq_some_iff.1 hj
    obtain ⟨hltj', rfl⟩ := List.getElem?_eq_some_iff.1 hj'
    exact h ⟨i, hlt⟩ ⟨i', hlt'⟩ ⟨j, hltj⟩ ⟨j', hltj'⟩ same same' lt

instance (old new : List Value) : Decidable (InOrder old new) := decidable_of_iff' _ inOrder_iff

theorem InOrder.tail_left (h : InOrder (u :: old) new) : InOrder old new := by
  intro i i' j j' w w' v v' hi hi' hj hj' same same' lt
  exact h (i + 1) (i' + 1) j j' w w' v v' hi hi' hj hj' same same' (by omega)

theorem InOrder.tail_right (h : InOrder old (v :: new)) : InOrder old new := by
  intro i i' j j' u u' w w' hi hi' hj hj' same same' lt
  have := h i i' (j + 1) (j' + 1) u u' w w' hi hi' hj hj' same same' lt
  omega

/-- Two keys do not cross. -/
theorem InOrder.not_cross (h : InOrder (u :: old) (v :: new)) {u' v' : Value} (hu : u' ∈ old)
    (hv : v' ∈ new) (same : SameKey u v') : ¬SameKey u' v := by
  intro same'
  obtain ⟨i, hi⟩ := List.getElem?_of_mem hu
  obtain ⟨j, hj⟩ := List.getElem?_of_mem hv
  have := h 0 (i + 1) (j + 1) 0 u u' v' v rfl hi hj rfl same same' (by omega)
  omega

/-- Two lists of templates, each with different keys. Those that they have in common stand in
the same order in both, and each for the same skeleton. -/
structure Relists (old new : List Value) : Prop where
  own : KeyedApart old
  own' : KeyedApart new
  order : InOrder old new
  shared : ∀ u ∈ old, ∀ v ∈ new, SameKey u v → u.parts.1 = v.parts.1

instance (old new : List Value) : Decidable (Relists old new) :=
  decidable_of_iff (KeyedApart old ∧ KeyedApart new ∧ InOrder old new ∧
      ∀ u ∈ old, ∀ v ∈ new, SameKey u v → u.parts.1 = v.parts.1)
    ⟨fun h => ⟨h.1, h.2.1, h.2.2.1, h.2.2.2⟩, fun h => ⟨h.own, h.own', h.order, h.shared⟩⟩

theorem Relists.tail_left (h : Relists (u :: old) new) : Relists old new where
  own := h.own.tail
  own' := h.own'
  order := h.order.tail_left
  shared w hw := h.shared w (List.mem_cons_of_mem _ hw)

theorem Relists.tail_right (h : Relists old (v :: new)) : Relists old new where
  own := h.own
  own' := h.own'.tail
  order := h.order.tail_right
  shared u hu w hw := h.shared u hu w (List.mem_cons_of_mem _ hw)

end Value
open Value

/-! ### The walk along two lists of different keys -/

section
variable {ω : Watch} {count : Nat} {stale : Item → Bool} {fresh : Value → Bool}
  {row row' : Row} {rows rows' : List Row}

/-- The values that the rows of a list show. -/
def Row.shown (rows : List Row) : List Value := rows.map fun row => row.item.shown

theorem Row.map_shown_items (rows : List Row) : (Row.items rows).map Item.shown = Row.shown rows := by
  rw [Row.items, List.map_map]
  rfl

/-- An item is stale if no row of the other list has its key, and a value fresh likewise. -/
structure Tells (stale : Item → Bool) (fresh : Value → Bool) (rows rows' : List Row) : Prop where
  stale_iff : ∀ row ∈ rows, stale row.item = true ↔
    ∀ row' ∈ rows', ¬SameKey row.item.shown row'.item.shown
  fresh_iff : ∀ row' ∈ rows', fresh row'.item.shown = true ↔
    ∀ row ∈ rows, ¬SameKey row.item.shown row'.item.shown

theorem hasKey_keys {k : Value} :
    hasKey (Row.keys rows) k = true ↔
      ∃ row ∈ rows, ∃ l, row.item.shown.key? = some l ∧ l.same k = true := by
  simp only [hasKey, Row.keys, List.any_eq_true, List.mem_filterMap]
  constructor
  · rintro ⟨l, ⟨row, hrow, hl⟩, same⟩
    exact ⟨row, hrow, l, hl, same⟩
  · rintro ⟨row, hrow, l, hl, same⟩
    exact ⟨l, ⟨row, hrow, hl⟩, same⟩

theorem isStale_iff (own : SameKey row.item.shown row.item.shown) :
    isStale (Row.keys rows') row.item = true ↔
      ∀ row' ∈ rows', ¬SameKey row.item.shown row'.item.shown := by
  obtain ⟨k, -, hk, -, -⟩ := own
  rw [isStale, hk, Bool.not_eq_true', ← Bool.not_eq_true, hasKey_keys]
  constructor
  · rintro no row' hrow' ⟨k', l, hk', hl, same⟩
    obtain rfl : k = k' := Option.some.inj (hk.symm.trans hk')
    exact no ⟨row', hrow', l, hl, by rwa [same_comm]⟩
  · rintro no ⟨row', hrow', l, hl, same⟩
    exact no row' hrow' ⟨k, l, hk, hl, by rwa [same_comm]⟩

theorem isFresh_iff (own : SameKey row'.item.shown row'.item.shown) :
    isFresh (Row.keys rows) row'.item.shown = true ↔
      ∀ row ∈ rows, ¬SameKey row.item.shown row'.item.shown := by
  obtain ⟨k, -, hk, -, -⟩ := own
  rw [isFresh, hk, Bool.not_eq_true', ← Bool.not_eq_true, hasKey_keys]
  constructor
  · rintro no row hrow ⟨l, k', hl, hk', same⟩
    obtain rfl : k = k' := Option.some.inj (hk.symm.trans hk')
    exact no ⟨row, hrow, l, hl, same⟩
  · rintro no ⟨row, hrow, l, hl, same⟩
    exact no row hrow ⟨l, k, hl, hk, same⟩

/-- The keys of the whole lists tell. -/
theorem Keyed.tells (keyed : Keyed stale fresh rows rows') (ne : rows' ≠ [])
    (lists : Relists (Row.shown rows) (Row.shown rows')) : Tells stale fresh rows rows' := by
  have hkeyed : Value.allKeyed (rows'.map fun row => row.item.shown) = true := by
    rw [allKeyed, Bool.and_eq_true, List.all_eq_true]
    refine ⟨by simpa using ne, fun v hv => ?_⟩
    obtain ⟨k, -, hk, -, -⟩ := lists.own'.own v hv
    rw [hk]
    rfl
  obtain ⟨rfl, rfl⟩ := keyed hkeyed
  constructor
  · exact fun row hrow => isStale_iff (lists.own.own _ (List.mem_map_of_mem hrow))
  · exact fun row' hrow' => isFresh_iff (lists.own'.own _ (List.mem_map_of_mem hrow'))

/-- A row that no other one matches tells nothing about the others. -/
theorem Tells.remove (tells : Tells stale fresh (row :: rows) rows')
    (lone : ∀ row' ∈ rows', ¬SameKey row.item.shown row'.item.shown) :
    Tells stale fresh rows rows' where
  stale_iff r hr := tells.stale_iff r (List.mem_cons_of_mem _ hr)
  fresh_iff row' hrow' := by
    rw [tells.fresh_iff row' hrow', List.forall_mem_cons]
    exact and_iff_right (lone row' hrow')

theorem Tells.insert (tells : Tells stale fresh rows (row' :: rows'))
    (lone : ∀ row ∈ rows, ¬SameKey row.item.shown row'.item.shown) :
    Tells stale fresh rows rows' where
  stale_iff row hrow := by
    rw [tells.stale_iff row hrow, List.forall_mem_cons]
    exact and_iff_right (lone row hrow)
  fresh_iff r hr := tells.fresh_iff r (List.mem_cons_of_mem _ hr)

/-- What is left of two lists after the first rows have been taken for each other. -/
theorem Tells.reuse (tells : Tells stale fresh (row :: rows) (row' :: rows'))
    (lists : Relists (Row.shown (row :: rows)) (Row.shown (row' :: rows')))
    (same : SameKey row.item.shown row'.item.shown) : Tells stale fresh rows rows' := by
  have lone : ∀ r ∈ rows, ¬SameKey r.item.shown row'.item.shown := fun r hr =>
    lists.own.head_ne same _ (List.mem_map_of_mem hr)
  have lone' : ∀ r' ∈ rows', ¬SameKey row.item.shown r'.item.shown := fun r' hr' h =>
    lists.own'.head_ne same.symm _ (List.mem_map_of_mem hr') h.symm
  constructor
  · intro r hr
    rw [tells.stale_iff r (List.mem_cons_of_mem _ hr), List.forall_mem_cons]
    exact and_iff_right (lone r hr)
  · intro r' hr'
    rw [tells.fresh_iff r' (List.mem_cons_of_mem _ hr'), List.forall_mem_cons]
    exact and_iff_right (lone' r' hr')

/-- The first row that is not stale and the first one that is not fresh have the same key. -/
theorem Tells.same (tells : Tells stale fresh (row :: rows) (row' :: rows'))
    (lists : Relists (Row.shown (row :: rows)) (Row.shown (row' :: rows')))
    (kept : stale row.item = false) (known : fresh row'.item.shown = false) :
    SameKey row.item.shown row'.item.shown := by
  have met : ∃ r' ∈ row' :: rows', SameKey row.item.shown r'.item.shown := by
    by_contra no
    push Not at no
    rw [(tells.stale_iff row (List.mem_cons_self ..)).2 no] at kept
    contradiction
  have met' : ∃ r ∈ row :: rows, SameKey r.item.shown row'.item.shown := by
    by_contra no
    push Not at no
    rw [(tells.fresh_iff row' (List.mem_cons_self ..)).2 no] at known
    contradiction
  obtain ⟨r', hr', h'⟩ := met
  obtain ⟨r, hr, h⟩ := met'
  rw [List.mem_cons] at hr hr'
  rcases hr' with rfl | hr'
  · exact h'
  · rcases hr with rfl | hr
    · exact h
    · exact absurd h (lists.order.not_cross (List.mem_map_of_mem hr) (List.mem_map_of_mem hr') h')

/-! ### What becomes of the rows -/

/-- A row that has the key of an old one carries it on. Any other one is new. -/
structure KeepsRows (ω : Watch) (count : Nat) (rows rows' : List Row) : Prop where
  carries : ∀ row ∈ rows, ∀ row' ∈ rows', SameKey row.item.shown row'.item.shown →
    Grown count row.forest row'.forest ∧
      Carries ω count row.item.content row.forest row'.item.content row'.forest
  new : ∀ row' ∈ rows', (∀ row ∈ rows, ¬SameKey row.item.shown row'.item.shown) →
    ∀ n : Nat, n ∈ idsAll row'.forest → count ≤ n

theorem KeepsRows.remove (kept : KeepsRows ω count rows rows')
    (lone : ∀ row' ∈ rows', ¬SameKey row.item.shown row'.item.shown) :
    KeepsRows ω count (row :: rows) rows' where
  carries r hr row' hrow' same := by
    rcases List.mem_cons.1 hr with rfl | hr
    · exact absurd same (lone row' hrow')
    · exact kept.carries r hr row' hrow' same
  new row' hrow' none := kept.new row' hrow' fun r hr => none r (List.mem_cons_of_mem _ hr)

theorem KeepsRows.insert (kept : KeepsRows ω count rows rows')
    (lone : ∀ row ∈ rows, ¬SameKey row.item.shown row'.item.shown)
    (new : ∀ n : Nat, n ∈ idsAll row'.forest → count ≤ n) :
    KeepsRows ω count rows (row' :: rows') where
  carries row hrow r' hr' same := by
    rcases List.mem_cons.1 hr' with rfl | hr'
    · exact absurd same (lone row hrow)
    · exact kept.carries row hrow r' hr' same
  new r' hr' none := by
    rcases List.mem_cons.1 hr' with rfl | hr'
    · exact new
    · exact kept.new r' hr' none

theorem KeepsRows.reuse (kept : KeepsRows ω count rows rows')
    (lists : Relists (Row.shown (row :: rows)) (Row.shown (row' :: rows')))
    (same : SameKey row.item.shown row'.item.shown) (grown : Grown count row.forest row'.forest)
    (carries : Carries ω count row.item.content row.forest row'.item.content row'.forest) :
    KeepsRows ω count (row :: rows) (row' :: rows') where
  carries r hr r' hr' h := by
    rcases List.mem_cons.1 hr with rfl | hr <;> rcases List.mem_cons.1 hr' with rfl | hr'
    · exact ⟨grown, carries⟩
    · exact absurd h.symm (lists.own'.head_ne same.symm _ (List.mem_map_of_mem hr'))
    · exact absurd h (lists.own.head_ne same _ (List.mem_map_of_mem hr))
    · exact kept.carries r hr r' hr' h
  new r' hr' none := by
    rcases List.mem_cons.1 hr' with rfl | hr'
    · exact absurd same (none row (List.mem_cons_self ..))
    · exact kept.new r' hr' fun r hr => none r (List.mem_cons_of_mem _ hr)

/-- Along the walk each key finds its item. -/
theorem CarriesItems.keeps : {stale : Item → Bool} → {fresh : Value → Bool} →
    {rows rows' : List Row} → CarriesItems ω count stale fresh rows rows' →
    Tells stale fresh rows rows' → Relists (Row.shown rows) (Row.shown rows') →
    KeepsRows ω count rows rows'
  | _, _, _, _, .nil, _, _ => ⟨by simp, by simp⟩
  | _, _, row :: _, _, .remove gone _ rest, tells, lists => by
      have lone := gone.elim (tells.stale_iff row (List.mem_cons_self ..)).1 fun h => by simp [h]
      exact (rest.keeps (tells.remove lone) lists.tail_left).remove lone
  | _, _, _, row' :: _, .insert come _ new rest, tells, lists => by
      have lone := come.elim (tells.fresh_iff row' (List.mem_cons_self ..)).1 fun h => by simp [h]
      exact (rest.keeps (tells.insert lone) lists.tail_right).insert lone new
  | _, _, _, _, .reuse kept known _ _ grown carries rest, tells, lists => by
      have same := tells.same lists kept known
      have keeps := rest.keeps (tells.reuse lists same) lists.tail_left.tail_right
      exact keeps.reuse lists same grown carries

/-- A list that is left alone keeps all of its rows. -/
theorem KeepsRows.refl (fits : ∀ row ∈ rows, row.Fits ω) (own : KeyedApart (Row.shown rows)) :
    KeepsRows ω count rows rows where
  carries row hrow row' hrow' same := by
    have : Std.Symm fun r r' : Row => ¬SameKey r.item.shown r'.item.shown :=
      ⟨fun _ _ no h => no h.symm⟩
    by_cases heq : row = row'
    · subst heq
      exact ⟨.refl, (fits row hrow).carries count⟩
    · exact absurd same ((List.pairwise_map.1 own.apart).forall hrow hrow' heq)
  new row' hrow' none :=
    absurd (own.own _ (List.mem_map_of_mem hrow')) (none row' hrow')

/-- What becomes of the rows of a list that is carried on. -/
theorem Carries.keeps {items items' : List Item} {f f' : List Subtree}
    (h : Carries ω count (.list items) f (.list items') f')
    (lists : Relists (items.map Item.shown) (items'.map Item.shown)) :
    ∃ rows rows', items = Row.items rows ∧ f = Row.forests rows ∧ items' = Row.items rows' ∧
      f' = Row.forests rows' ∧ (∀ row ∈ rows, row.Fits ω) ∧ (∀ row' ∈ rows', row'.Fits ω) ∧
      KeepsRows ω count rows rows' := by
  cases h with
  | fresh apart _ => exact absurd trivial apart
  | @list stale fresh rows rows' carried keyed _ =>
    rw [Row.map_shown_items, Row.map_shown_items] at lists
    obtain ⟨fits, fits'⟩ := carried.fits
    refine ⟨rows, rows', rfl, rfl, rfl, rfl, fits, fits', ?_⟩
    by_cases hnil : rows' = []
    · subst hnil
      exact ⟨by simp, by simp⟩
    · rcases keyed with rfl | keyed
      · exact .refl fits lists.own
      · exact carried.keeps (keyed.tells hnil lists) lists

end

/-! ### The nodes of a row -/

/-- Two rows show templates of one skeleton on the same nodes: those of its markers and
those that it has been mounted as. -/
def Row.Share (row row' : Row) (nodes : List NodeId) : Prop :=
  ∃ shared start stop places places' ss data data' fill fill',
    row.item.content = .nested shared start stop places ∧
    row'.item.content = .nested shared start stop places' ∧
    Seated shared ss places ∧ Seated shared ss places' ∧
    row.forest = .node start .marker [] :: Stem.assembleAll data fill ss ++
      [.node stop .marker []] ∧
    row'.forest = .node start .marker [] :: Stem.assembleAll data' fill' ss ++
      [.node stop .marker []] ∧
    nodes = start :: Stem.ownAll ss ++ [stop]

section
variable {ω : Watch} {count : Nat} {row row' : Row}

theorem Row.Share.mem {nodes : List NodeId} (share : row.Share row' nodes) {n : NodeId}
    (hn : n ∈ nodes) : n ∈ idsAll row.forest ∧ n ∈ idsAll row'.forest := by
  obtain ⟨shared, start, stop, places, places', ss, data, data', fill, fill', -, -, -, -, hf, hf',
    rfl⟩ := share
  rw [hf, hf']
  simp only [List.cons_append, List.mem_cons, List.mem_append, List.not_mem_nil, or_false] at hn
  rcases hn with rfl | hn | rfl
  · simp
  · have := Stem.ownAll_subset data fill hn
    have := Stem.ownAll_subset data' fill' hn
    simp [*]
  · simp

/-- A row that has a key shows a template. -/
theorem Row.Fits.nested (fits : row.Fits ω) {k : Value} (hk : row.item.shown.key? = some k) :
    ∃ start stop places, row.item.content = .nested row.item.shown.parts.1 start stop places := by
  obtain ⟨⟨shown, content⟩, forest⟩ := row
  cases shown with
  | template handle shared values => exact fits_template fits trivial
  | _ => simp [key?, Item.shown] at hk

/-- A row that carries on another one of the same skeleton keeps its nodes. -/
theorem Carries.share
    (h : Carries ω count row.item.content row.forest row'.item.content row'.forest)
    (fits : row.Fits ω) (fits' : row'.Fits ω) (same : SameKey row.item.shown row'.item.shown)
    (shared : row.item.shown.parts.1 = row'.item.shown.parts.1) :
    ∃ nodes, row.Share row' nodes := by
  obtain ⟨k, l, hk, hl, -⟩ := same
  obtain ⟨start, stop, places, hc⟩ := fits.nested hk
  obtain ⟨start', stop', places', hc'⟩ := fits'.nested hl
  rw [shared] at hc
  obtain ⟨item, forest⟩ := row
  obtain ⟨item', forest'⟩ := row'
  dsimp only at h hc hc'
  rw [hc, hc'] at h
  generalize item'.shown.parts.1 = skeleton at *
  cases h with
  | fresh apart _ => exact absurd rfl apart
  | nested seated seated' _ _ _ _ =>
    exact ⟨_, _, _, _, _, _, _, _, _, _, _, hc, hc', seated, seated', rfl, rfl, rfl⟩

end

end LiveTemplate
