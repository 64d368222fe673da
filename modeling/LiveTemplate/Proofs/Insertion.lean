import LiveTemplate.Proofs.Counterparts

/-!
# Where an insertion puts its nodes

A node is put in front of a reference, or the children of a fragment are. Behind the edit
they stand in a row right before the reference, no longer stand where they were, and
nothing else in the document has moved. The edit is refused only if the reference stands
nowhere, the node does not exist, or it would come to stand below itself.
-/
namespace LiveTemplate
open Document

namespace Document
variable {d d' : Document} {id p reference : NodeId}

/-- The nodes that are put down when a node is inserted: a fragment hands over its children. -/
def handedOver (d : Document) (id : NodeId) : List NodeId :=
  match d.kind? id with
  | some .fragment => d.children id
  | _ => [id]

/-- What has become of a document by putting a node in front of a child of `p`. -/
structure Inserted (d d' : Document) (id p reference : NodeId) : Prop where
  /-- The nodes stand right before the reference, among the other children in their order. -/
  row : ∃ left right, (d.children p).filter (· ∉ d.handedOver id) = left ++ reference :: right ∧
    d'.children p = left ++ d.handedOver id ++ reference :: right
  /-- From another parent they are gone, and its other children keep their order. -/
  gone : ∀ q, q ≠ p → d'.children q = (d.children q).filter (· ∉ d.handedOver id)
  /-- Only the new and the former parent, and a fragment, have other children than before. -/
  untouched : ∀ q, q ≠ p → q ≠ id → d.parent? id ≠ some q → d'.children q = d.children q
  emptied : d.kind? id = some .fragment → d'.children id = []
  /-- What stands below the nodes goes with them. -/
  subtree : ∀ m ∈ d.handedOver id, ∀ n, Relation.ReflTransGen d.Under n m →
    d'.children n = d.children n
  parent : ∀ n, d'.parent? n = if n ∈ d.handedOver id then some p else d.parent? n
  kind : ∀ n, d'.kind? n = d.kind? n

theorem handedOver_fragment (h : d.kind? id = some .fragment) :
    d.handedOver id = d.children id := by
  rw [handedOver, h]

theorem handedOver_single (h : d.kind? id ≠ some .fragment) : d.handedOver id = [id] := by
  unfold handedOver
  split
  next hk => exact absurd hk h
  next => rfl

theorem takeOut_fst {kind : NodeKind} (hk : d.kind? id = some kind) :
    (d.takeOut id kind).1 = d.handedOver id := by
  unfold takeOut handedOver
  rw [hk]
  cases kind <;> rfl

/-- In front of a reference that is there, a splice tears the list right before it. -/
theorem spliceBefore_of_mem {ids : List NodeId} (h : reference ∈ ids) (moved : List NodeId) :
    ∃ left right, ids = left ++ reference :: right ∧
      spliceBefore (some reference) moved ids = left ++ moved ++ reference :: right := by
  induction ids with
  | nil => simp at h
  | cons n rest ih =>
    by_cases hn : n = reference
    · subst hn
      exact ⟨[], rest, rfl, by simp [spliceBefore]⟩
    · obtain ⟨left, right, hrest, hs⟩ := ih ((List.mem_cons.1 h).resolve_left (Ne.symm hn))
      refine ⟨n :: left, right, by rw [hrest]; rfl, ?_⟩
      rw [spliceBefore] at hs ⊢
      simpa [hn] using hs

namespace Consistent

/-- Whoever is handed over by a node stands at it or right below it. -/
theorem of_mem_handedOver (c : d.Consistent) {m : NodeId} (hm : m ∈ d.handedOver id) :
    Relation.ReflTransGen d.Under m id := by
  by_cases hk : d.kind? id = some .fragment
  · rw [handedOver_fragment hk, c.mem_children] at hm
    exact .single hm
  · rw [handedOver_single hk, List.mem_singleton] at hm
    rw [hm]

/-- Nodes that are moved away from above or beside a child of `p` do not include it. -/
theorem notMem_handedOver (c : d.Consistent) (hp : d.parent? reference = some p)
    (hne : id ≠ reference) (above : ¬ Relation.ReflTransGen d.Under p id) :
    reference ∉ d.handedOver id := by
  intro hm
  rcases (c.of_mem_handedOver hm).cases_head with h | ⟨q, hq, path⟩
  · exact hne h.symm
  · obtain rfl : p = q := Option.some.inj (hp.symm.trans hq)
    exact above path

/-- The insertion goes through unless it is refused for one of three reasons. -/
theorem insertBefore_eq_ok (c : d.Consistent) (hp : d.parent? reference = some p)
    (hne : id ≠ reference) {kind : NodeKind} (hk : d.kind? id = some kind)
    (above : ¬ Relation.ReflTransGen d.Under p id) :
    ∃ d', d.insertBefore id reference = .ok d' ∧
      Moves d d' (d.handedOver id) (some p) (some reference) := by
  have container := c.isContainer_parent hp
  have guard : ¬(!d.isContainer p || d.isInclusiveAncestor id p) = true := by
    rw [← c.isInclusiveAncestor_iff] at above
    simp [container, above]
  obtain ⟨d', h, w⟩ := c.exists_insert (some reference) guard hk
  refine ⟨d', ?_, takeOut_fst hk ▸ w⟩
  obtain ⟨r, hr, hrp⟩ : ∃ r, d.record? reference = some r ∧ r.parent = some p := by
    simpa [parent?, Option.bind_eq_some_iff] using hp
  have known : (d.record? id).isNone = false := by
    rw [← Option.not_isSome, ← isSome_kind?, hk]
    rfl
  rw [insertBefore, hr]
  simp [hrp, hne, known, h]

theorem of_insertBefore_eq_ok (hne : id ≠ reference) (h : d.insertBefore id reference = .ok d')
    (c : d.Consistent) : ∃ p kind, d.parent? reference = some p ∧ d.kind? id = some kind ∧
      ¬ Relation.ReflTransGen d.Under p id := by
  unfold insertBefore at h
  split at h
  · contradiction
  next r hr =>
    split at h
    · contradiction
    next p hp =>
      rw [if_neg hne] at h
      split at h
      · contradiction
      next known =>
        have hs : (d.kind? id).isSome = true := by
          rw [isSome_kind?, Option.isSome_iff_ne_none]
          simpa using known
        obtain ⟨kind, hk⟩ := Option.isSome_iff_exists.1 hs
        refine ⟨p, kind, by simp [parent?, hr, hp], hk, ?_⟩
        rw [← c.isInclusiveAncestor_iff]
        unfold Document.insert at h
        split at h
        · contradiction
        next guard =>
          rw [Bool.or_eq_true, not_or] at guard
          exact guard.2

/-- All that has changed is the place of the nodes that are handed over. -/
theorem inserted (c : d.Consistent) (hp : d.parent? reference = some p) (hne : id ≠ reference)
    (above : ¬ Relation.ReflTransGen d.Under p id)
    (w : Moves d d' (d.handedOver id) (some p) (some reference)) :
    Inserted d d' id p reference := by
  -- only the former parent, or the fragment itself, lists a node that is handed over
  have kept : ∀ q, q ≠ id ∨ d.kind? id ≠ some .fragment → d.parent? id ≠ some q →
      (d.children q).filter (· ∉ d.handedOver id) = d.children q := by
    intro q hq hparent
    rw [List.filter_eq_self]
    intro n hn
    rw [c.mem_children] at hn
    rw [decide_eq_true_iff]
    intro hm
    by_cases hk : d.kind? id = some .fragment
    · rw [handedOver_fragment hk, c.mem_children, hn] at hm
      exact hq.elim (fun h => h (Option.some.inj hm)) (fun h => h hk)
    · rw [handedOver_single hk, List.mem_singleton] at hm
      exact hparent (hm ▸ hn)
  refine ⟨?_, ?_, ?_, ?_, ?_, w.parent, w.kind⟩
  · rw [w.children, if_pos rfl]
    have hmem : reference ∈ (d.children p).filter (· ∉ d.handedOver id) := by
      simpa [c.mem_children, hp] using c.notMem_handedOver hp hne above
    obtain ⟨left, right, hleft, hs⟩ := spliceBefore_of_mem hmem (d.handedOver id)
    exact ⟨left, right, hleft, hs⟩
  · intro q hq
    rw [w.children, if_neg (by simpa using Ne.symm hq)]
  · intro q hq hid hparent
    rw [w.children, if_neg (by simpa using Ne.symm hq), kept q (.inl hid) hparent]
  · intro hk
    have hpid : p ≠ id := fun h => above (h ▸ .refl)
    rw [w.children, if_neg (by simpa using hpid), handedOver_fragment hk, List.filter_eq_nil_iff]
    simp
  · intro m hm n path
    have below : Relation.ReflTransGen d.Under n id := path.trans (c.of_mem_handedOver hm)
    have hpn : p ≠ n := by
      rintro rfl
      exact above below
    rw [w.children, if_neg (by simpa using hpn)]
    refine kept n ?_ ?_
    · by_cases hk : d.kind? id = some .fragment
      · -- a node below a child of the fragment is not the fragment
        left
        rintro rfl
        rw [handedOver_fragment hk, c.mem_children] at hm
        exact c.acyclic m (.head' hm path)
      · exact .inr hk
    · intro hparent
      exact c.acyclic id (.head' hparent below)

end Consistent
end Document

/-- In a consistent document a node can be put in front of another one exactly when that one
stands somewhere, the node exists, and it is neither the parent of the other nor above it.
In front of itself it stays; else it, or what a fragment hands over, stands right before
the reference, and nothing besides has changed. -/
theorem Primitive.insertBefore_places {d : Document} (c : d.Consistent) (id reference : NodeId) :
    (id ≠ reference → ((∃ d', (Primitive.insertBefore id reference).perform d = .ok () d') ↔
      ∃ p, d.parent? reference = some p ∧ (d.record? id).isSome = true ∧
        ¬ Relation.ReflTransGen d.Under p id)) ∧
    ∀ p d', d.parent? reference = some p →
      (Primitive.insertBefore id reference).perform d = .ok () d' →
      (id = reference → d' = d) ∧ (id ≠ reference → Inserted d d' id p reference) := by
  have performs : ∀ d', (Primitive.insertBefore id reference).perform d = .ok () d' ↔
      d.insertBefore id reference = .ok d' := by
    intro d'
    rw [Primitive.perform_eq c]
    change d.settle (d.insertBefore id reference) = .ok () d' ↔ _
    cases d.insertBefore id reference <;> simp [settle]
  simp only [performs]
  refine ⟨fun hne => ⟨?_, ?_⟩, ?_⟩
  · rintro ⟨d', h⟩
    obtain ⟨p, kind, hp, hk, above⟩ := Consistent.of_insertBefore_eq_ok hne h c
    exact ⟨p, hp, by rw [← isSome_kind?, hk]; rfl, above⟩
  · rintro ⟨p, hp, known, above⟩
    rw [← isSome_kind?] at known
    obtain ⟨kind, hk⟩ := Option.isSome_iff_exists.1 known
    obtain ⟨d', h, -⟩ := c.insertBefore_eq_ok hp hne hk above
    exact ⟨d', h⟩
  · intro p d' hp h
    constructor
    · rintro rfl
      obtain ⟨r, hr, hrp⟩ : ∃ r, d.record? id = some r ∧ r.parent = some p := by
        simpa [parent?, Option.bind_eq_some_iff] using hp
      simpa [Document.insertBefore, hr, hrp, eq_comm] using h
    · intro hne
      obtain ⟨p', kind, hp', hk, above⟩ := Consistent.of_insertBefore_eq_ok hne h c
      obtain rfl : p = p' := Option.some.inj (hp.symm.trans hp')
      obtain ⟨d₁, h₁, w⟩ := c.insertBefore_eq_ok hp hne hk above
      obtain rfl : d₁ = d' := Except.ok.inj (h₁.symm.trans h)
      exact c.inserted hp hne above w

/-- The first of three texts is put in front of the third. -/
theorem Primitive.insertBefore_places_text :
    let d := run [.createElement "p", .appendChild 0 1, .createText "a", .appendChild 1 2,
      .createText "b", .appendChild 1 3, .createText "c", .appendChild 1 4] .empty
    d.Consistent ∧ d.children 1 = [2, 3, 4] ∧
      ∃ d', (Primitive.insertBefore 2 4).perform d = .ok () d' ∧ d'.children 1 = [3, 2, 4] ∧
        Inserted d d' 2 1 4 := by
  intro d
  have c : d.Consistent := (run_consistent _).1
  have hp : d.parent? 4 = some 1 := by decide +kernel
  have above : ¬ Relation.ReflTransGen d.Under 1 2 := by
    rw [← c.isInclusiveAncestor_iff]
    decide +kernel
  obtain ⟨d', h⟩ := ((insertBefore_places c 2 4).1 (by decide)).2
    ⟨1, hp, by decide +kernel, above⟩
  have after_eq : after d (.insertBefore 2 4) = d' := by
    rw [after, h]
  refine ⟨c, by decide +kernel, d', h, ?_, ((insertBefore_places c 2 4).2 1 d' hp h).2 (by decide)⟩
  rw [← after_eq]
  decide +kernel

end LiveTemplate
