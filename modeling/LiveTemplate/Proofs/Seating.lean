import LiveTemplate.Proofs.Mounting

/-!
# Where holes stand

Every hole that has been mounted stands in one place: at an attribute of one element or
at one marker. The table that mounting returns has that place at the index of the hole,
and a vacant one for every hole that does not occur among the mounted nodes.
-/
namespace LiveTemplate
open Document Subtree Live

namespace Stem
variable {data : NodeId → ElementData} {fill : NodeId → List Subtree}

/-! ### Elements and markers are different nodes -/

mutual
theorem fill_subset (data : NodeId → ElementData) (fill : NodeId → List Subtree) : (s : Stem) →
    ∀ m ∈ s.markers, idsAll (fill m.1) ⊆ idsAll (s.assemble data fill)
  | .element id tag attrs children, m, hm, n, hn => by
      simp [assemble, fillAll_subset data fill children m hm hn]
  | .host .., m, hm, _, _ => by simp [markers] at hm
  | .text .., m, hm, _, _ => by simp [markers] at hm
  | .hole marker index, m, hm, n, hn => by
      obtain rfl := List.mem_singleton.1 hm
      simp [assemble, show n ∈ idsAll (fill marker) from hn]
termination_by structural s => s

theorem fillAll_subset (data : NodeId → ElementData) (fill : NodeId → List Subtree) :
    (ss : List Stem) →
    ∀ m ∈ markersAll ss, idsAll (fill m.1) ⊆ idsAll (assembleAll data fill ss)
  | [], m, hm, _, _ => by simp [markersAll] at hm
  | s :: rest, m, hm, n, hn => by
      rw [assembleAll, idsAll_append, List.mem_append]
      rcases List.mem_append.1 hm with hm | hm
      · exact .inl (fill_subset data fill s m hm hn)
      · exact .inr (fillAll_subset data fill rest m hm hn)
termination_by structural ss => ss
end

/-- A node of the document is one element or one marker at most, or stands in front of
one marker. -/
structure Distinct (fill : NodeId → List Subtree) (elements : List (NodeId × String × Attributes))
    (markers : List (NodeId × Nat)) : Prop where
  element_eq : ∀ e ∈ elements, ∀ e' ∈ elements, e.1 = e'.1 → e = e'
  marker_eq : ∀ m ∈ markers, ∀ m' ∈ markers, m.1 = m'.1 → m = m'
  apart : ∀ e ∈ elements, ∀ m ∈ markers, e.1 ≠ m.1
  fill_nodup : ∀ m ∈ markers, (idsAll (fill m.1)).Nodup
  fill_apart : ∀ e ∈ elements, ∀ m ∈ markers, e.1 ∉ idsAll (fill m.1)
  fill_eq : ∀ m ∈ markers, ∀ m' ∈ markers, ∀ n ∈ idsAll (fill m.1), n ∈ idsAll (fill m'.1) → m = m'

theorem Distinct.append {es es' : List (NodeId × String × Attributes)}
    {ms ms' : List (NodeId × Nat)} {f g : List NodeId} (h : Distinct fill es ms)
    (h' : Distinct fill es' ms') (hes : ∀ e ∈ es, e.1 ∈ f)
    (hms : ∀ m ∈ ms, m.1 ∈ f ∧ idsAll (fill m.1) ⊆ f) (hes' : ∀ e ∈ es', e.1 ∈ g)
    (hms' : ∀ m ∈ ms', m.1 ∈ g ∧ idsAll (fill m.1) ⊆ g)
    (disjoint : ∀ n ∈ f, ∀ k ∈ g, n ≠ k) : Distinct fill (es ++ es') (ms ++ ms') where
  element_eq e he e' he' heq := by
    rcases List.mem_append.1 he with he | he <;> rcases List.mem_append.1 he' with he' | he'
    · exact h.element_eq e he e' he' heq
    · exact absurd heq (disjoint _ (hes e he) _ (hes' e' he'))
    · exact absurd heq.symm (disjoint _ (hes e' he') _ (hes' e he))
    · exact h'.element_eq e he e' he' heq
  marker_eq m hm m' hm' heq := by
    rcases List.mem_append.1 hm with hm | hm <;> rcases List.mem_append.1 hm' with hm' | hm'
    · exact h.marker_eq m hm m' hm' heq
    · exact absurd heq (disjoint _ (hms m hm).1 _ (hms' m' hm').1)
    · exact absurd heq.symm (disjoint _ (hms m' hm').1 _ (hms' m hm).1)
    · exact h'.marker_eq m hm m' hm' heq
  apart e he m hm heq := by
    rcases List.mem_append.1 he with he | he <;> rcases List.mem_append.1 hm with hm | hm
    · exact h.apart e he m hm heq
    · exact disjoint _ (hes e he) _ (hms' m hm).1 heq
    · exact disjoint _ (hms m hm).1 _ (hes' e he) heq.symm
    · exact h'.apart e he m hm heq
  fill_nodup m hm := (List.mem_append.1 hm).elim (h.fill_nodup m) (h'.fill_nodup m)
  fill_apart e he m hm hmem := by
    rcases List.mem_append.1 he with he | he <;> rcases List.mem_append.1 hm with hm | hm
    · exact h.fill_apart e he m hm hmem
    · exact disjoint _ (hes e he) _ ((hms' m hm).2 hmem) rfl
    · exact disjoint _ ((hms m hm).2 hmem) _ (hes' e he) rfl
    · exact h'.fill_apart e he m hm hmem
  fill_eq m hm m' hm' n hn hn' := by
    rcases List.mem_append.1 hm with hm | hm <;> rcases List.mem_append.1 hm' with hm' | hm'
    · exact h.fill_eq m hm m' hm' n hn hn'
    · exact absurd rfl (disjoint n ((hms m hm).2 hn) n ((hms' m' hm').2 hn'))
    · exact absurd rfl (disjoint n ((hms m' hm').2 hn') n ((hms' m hm).2 hn))
    · exact h'.fill_eq m hm m' hm' n hn hn'

mutual
theorem distinct : (s : Stem) → (idsAll (s.assemble data fill)).Nodup →
    Distinct fill s.elements s.markers
  | .element id tag attrs children, nodup => by
      simp only [assemble, idsAll_cons, ids_node, idsAll_nil, List.append_nil,
        List.nodup_cons] at nodup
      obtain ⟨h1, -, h3⟩ := mem_idsAll data fill children
      have single : Distinct fill [(id, tag, attrs)] [] :=
        ⟨by simp, by simp, by simp, by simp, by simp, by simp⟩
      refine single.append (f := [id]) (distinctAll children nodup.2) (by simp) (by simp) h1
        (fun m hm => ⟨h3 m hm, fillAll_subset data fill children m hm⟩) ?_
      rintro n hn k hk rfl
      exact nodup.1 (List.mem_singleton.1 hn ▸ hk)
  | .host .., _ => by
      constructor <;> simp [elements, markers]
  | .text .., _ => by
      constructor <;> simp [elements, markers]
  | .hole marker index, nodup => by
      rw [assemble, idsAll_append, List.nodup_append] at nodup
      constructor <;> simp [elements, markers, nodup.1]
termination_by structural s => s

theorem distinctAll : (ss : List Stem) → (idsAll (assembleAll data fill ss)).Nodup →
    Distinct fill (elementsAll ss) (markersAll ss)
  | [], _ => by
      constructor <;> simp [elementsAll, markersAll]
  | s :: rest, nodup => by
      rw [assembleAll, idsAll_append, List.nodup_append] at nodup
      obtain ⟨h1, -, h3⟩ := mem_ids data fill s
      obtain ⟨k1, -, k3⟩ := mem_idsAll data fill rest
      exact (distinct s nodup.1).append (distinctAll rest nodup.2.1) h1
        (fun m hm => ⟨h3 m hm, fill_subset data fill s m hm⟩) k1
        (fun m hm => ⟨k3 m hm, fillAll_subset data fill rest m hm⟩) nodup.2.2
termination_by structural ss => ss
end

/-! ### Hosts are elements -/

mutual
theorem element_of_host : (s : Stem) → ∀ e ∈ s.hosts, ∃ tag, (e.1, tag, e.2) ∈ s.elements
  | .element id tag attrs children, e, he => by
      obtain ⟨t, ht⟩ := elementAll_of_host children e he
      exact ⟨t, List.mem_cons_of_mem _ ht⟩
  | .host id tag attrs hidden, e, he => by
      obtain rfl := List.mem_singleton.1 he
      exact ⟨tag, List.mem_singleton_self _⟩
  | .text .., e, he => by simp [hosts] at he
  | .hole .., e, he => by simp [hosts] at he
termination_by structural s => s

theorem elementAll_of_host : (ss : List Stem) → ∀ e ∈ hostsAll ss,
    ∃ tag, (e.1, tag, e.2) ∈ elementsAll ss
  | [], e, he => by simp [hostsAll] at he
  | s :: rest, e, he => by
      rcases List.mem_append.1 he with he | he
      · obtain ⟨t, ht⟩ := element_of_host s e he
        exact ⟨t, List.mem_append_left _ ht⟩
      · obtain ⟨t, ht⟩ := elementAll_of_host rest e he
        exact ⟨t, List.mem_append_right _ ht⟩
termination_by structural ss => ss
end

mutual
theorem host_of_element : (s : Stem) → s.Proper → ∀ e ∈ s.elements,
    (markupSource? e.2.2).isSome = true → (e.1, e.2.2) ∈ s.hosts
  | .element id tag attrs children, proper, e, he, hs => by
      rcases List.mem_cons.1 he with rfl | he
      · simp [proper.1] at hs
      · exact hostAll_of_element children proper.2 e he hs
  | .host id tag attrs hidden, _, e, he, _ => by
      obtain rfl := List.mem_singleton.1 he
      exact List.mem_singleton_self _
  | .text .., _, e, he, _ => by simp [elements] at he
  | .hole .., _, e, he, _ => by simp [elements] at he
termination_by structural s => s

/-- An element whose children are given as markup is a host. -/
theorem hostAll_of_element : (ss : List Stem) → ProperAll ss → ∀ e ∈ elementsAll ss,
    (markupSource? e.2.2).isSome = true → (e.1, e.2.2) ∈ hostsAll ss
  | [], _, e, he, _ => by simp [elementsAll] at he
  | s :: rest, proper, e, he, hs => by
      rcases List.mem_append.1 he with he | he
      · exact List.mem_append_left _ (host_of_element s proper.1 e he hs)
      · exact List.mem_append_right _ (hostAll_of_element rest proper.2 e he hs)
termination_by structural ss => ss
end

/-! ### Places and seats -/

variable {i : Nat}

theorem mem_attrPlaces {n : NodeId} {attrs : Attributes} {p : Place} :
    (i, p) ∈ attrPlaces n attrs ↔ ∃ b, BoundTo attrs i b ∧ p = .attribute n b .null := by
  simp only [attrPlaces, List.mem_filterMap, BoundTo]
  constructor
  · rintro ⟨⟨name, value⟩, hmem, ha⟩
    cases value with
    | literal text => simp at ha
    | hole j =>
      obtain ⟨b, hb, heq⟩ := Option.map_eq_some_iff.1 ha
      obtain ⟨rfl, rfl⟩ := Prod.mk.inj heq
      exact ⟨b, ⟨name, hmem, hb⟩, rfl⟩
  · rintro ⟨b, ⟨name, hmem, hb⟩, rfl⟩
    exact ⟨_, hmem, by simp [hb]⟩

theorem mem_attrSeats {attrs : Attributes} {s : Seat} :
    (i, s) ∈ attrSeats attrs ↔ ∃ b, BoundTo attrs i b ∧ s = .attribute b attrs := by
  simp only [attrSeats, List.mem_filterMap, BoundTo]
  constructor
  · rintro ⟨⟨name, value⟩, hmem, ha⟩
    cases value with
    | literal text => simp at ha
    | hole j =>
      obtain ⟨b, hb, heq⟩ := Option.map_eq_some_iff.1 ha
      obtain ⟨rfl, rfl⟩ := Prod.mk.inj heq
      exact ⟨b, ⟨name, hmem, hb⟩, rfl⟩
  · rintro ⟨b, ⟨name, hmem, hb⟩, rfl⟩
    exact ⟨_, hmem, by simp [hb]⟩

mutual
theorem mem_bound : (s : Stem) → {p : Place} → ((i, p) ∈ s.bound ↔
    (∃ e ∈ s.elements, ∃ b, BoundTo e.2.2 i b ∧ p = .attribute e.1 b .null) ∨
      ∃ m ∈ s.markers, m.2 = i ∧ p = .content m.1 .absent)
  | .element id tag attrs children, p => by
      simp only [bound, elements, markers, List.mem_append, mem_attrPlaces, mem_boundAll children,
        List.mem_cons, exists_eq_or_imp, or_assoc]
  | .host id tag attrs hidden, p => by
      simp [bound, elements, markers, mem_attrPlaces]
  | .text .., p => by simp [bound, elements, markers]
  | .hole marker index, p => by simp [bound, elements, markers, eq_comm]
termination_by structural s => s

/-- The places of a mounted skeleton, at its elements and at its markers. -/
theorem mem_boundAll : (ss : List Stem) → {p : Place} → ((i, p) ∈ boundAll ss ↔
    (∃ e ∈ elementsAll ss, ∃ b, BoundTo e.2.2 i b ∧ p = .attribute e.1 b .null) ∨
      ∃ m ∈ markersAll ss, m.2 = i ∧ p = .content m.1 .absent)
  | [], p => by simp [boundAll, elementsAll, markersAll]
  | s :: rest, p => by
      simp only [boundAll, elementsAll, markersAll, List.mem_append, mem_bound s, mem_boundAll rest,
        or_and_right, exists_or]
      exact or_or_or_comm
termination_by structural ss => ss
end

mutual
theorem mem_seats : (s : Stem) → s.Proper → {t : Seat} → ((i, t) ∈ s.node.seats ↔
    (∃ e ∈ s.elements, ∃ b, BoundTo e.2.2 i b ∧ t = .attribute b e.2.2) ∨
      ∃ m ∈ s.markers, m.2 = i ∧ t = .content)
  | .element id tag attrs children, proper, t => by
      simp only [node, Node.seats, proper.1, elements, markers, List.mem_append, mem_attrSeats,
        Option.isSome_none, Bool.false_eq_true, if_false, mem_seatsAll children proper.2,
        List.mem_cons, exists_eq_or_imp, or_assoc]
  | .host id tag attrs hidden, proper, t => by
      have hs : (markupSource? attrs).isSome = true := proper
      simp [node, Node.seats, hs, elements, markers, mem_attrSeats]
  | .text .., _, t => by simp [node, Node.seats, elements, markers]
  | .hole marker index, _, t => by simp [node, Node.seats, elements, markers, eq_comm]
termination_by structural s => s

/-- The seats of a skeleton that has been mounted, at its elements and at its markers. -/
theorem mem_seatsAll : (ss : List Stem) → ProperAll ss → {t : Seat} →
    ((i, t) ∈ Node.seatsAll (nodes ss) ↔
      (∃ e ∈ elementsAll ss, ∃ b, BoundTo e.2.2 i b ∧ t = .attribute b e.2.2) ∨
        ∃ m ∈ markersAll ss, m.2 = i ∧ t = .content)
  | [], _, t => by simp [nodes, Node.seatsAll, elementsAll, markersAll]
  | s :: rest, proper, t => by
      simp only [nodes, Node.seatsAll, elementsAll, markersAll, List.mem_append,
        mem_seats s proper.1, mem_seatsAll rest proper.2, or_and_right, exists_or]
      exact or_or_or_comm
termination_by structural ss => ss
end

/-! ### Holes of a mounted skeleton -/

theorem attrPlaces_sublist (n : NodeId) (attrs : Attributes) :
    ((attrPlaces n attrs).map Prod.fst).Sublist (attrHoles attrs) := by
  induction attrs with
  | nil => simp [attrPlaces, attrHoles]
  | cons a rest ih =>
    obtain ⟨name, value⟩ := a
    simp only [attrPlaces, attrHoles] at ih ⊢
    cases value with
    | literal text => simpa using ih
    | hole j =>
      cases hb : Binding.ofName? name with
      | none => simpa [hb] using ih.cons _
      | some b => simpa [hb] using ih

mutual
theorem bound_sublist : (s : Stem) → (s.bound.map Prod.fst).Sublist s.node.holes
  | .element id tag attrs children => by
      rw [bound, node, Node.holes, List.map_append]
      exact (attrPlaces_sublist id attrs).append (boundAll_sublist children)
  | .host id tag attrs hidden => by
      rw [bound, node, Node.holes]
      exact (attrPlaces_sublist id attrs).trans (List.sublist_append_left ..)
  | .text .. => .slnil
  | .hole .. => .refl _
termination_by structural s => s

theorem boundAll_sublist : (ss : List Stem) →
    ((boundAll ss).map Prod.fst).Sublist (Node.holesAll (nodes ss))
  | [] => .slnil
  | s :: rest => by
      rw [boundAll, nodes, Node.holesAll_cons, List.map_append]
      exact (bound_sublist s).append (boundAll_sublist rest)
termination_by structural ss => ss
end

mutual
theorem element_proper : (s : Stem) → s.node.Proper → ∀ e ∈ s.elements,
    IsTagName e.2.1.toList ∧ (Entries.names e.2.2).Nodup ∧
      (attrHoles e.2.2).Sublist s.node.holes
  | .element id tag attrs children, proper, e, he => by
      rcases List.mem_cons.1 he with rfl | he
      · exact ⟨proper.1, proper.2.1, List.sublist_append_left ..⟩
      · obtain ⟨named, h1, h2⟩ := elementAll_proper children proper.2.2.2.2 e he
        exact ⟨named, h1, h2.trans (List.sublist_append_right ..)⟩
  | .host id tag attrs hidden, proper, e, he => by
      obtain rfl := List.mem_singleton.1 he
      exact ⟨proper.1, proper.2.1, List.sublist_append_left ..⟩
  | .text .., _, e, he => by simp [elements] at he
  | .hole .., _, e, he => by simp [elements] at he
termination_by structural s => s

/-- An element has a name of the grammar, its attributes have no name twice, and their holes are
among those of the skeleton. -/
theorem elementAll_proper : (ss : List Stem) → Node.ProperAll (nodes ss) → ∀ e ∈ elementsAll ss,
    IsTagName e.2.1.toList ∧ (Entries.names e.2.2).Nodup ∧
      (attrHoles e.2.2).Sublist (Node.holesAll (nodes ss))
  | [], _, e, he => by simp [elementsAll] at he
  | s :: rest, proper, e, he => by
      rw [nodes, Node.holesAll_cons]
      rcases List.mem_append.1 he with he | he
      · obtain ⟨named, h1, h2⟩ := element_proper s proper.1 e he
        exact ⟨named, h1, h2.trans (List.sublist_append_left ..)⟩
      · obtain ⟨named, h1, h2⟩ := elementAll_proper rest proper.2 e he
        exact ⟨named, h1, h2.trans (List.sublist_append_right ..)⟩
termination_by structural ss => ss
end

end Stem

/-! ### The table that mounting returns -/

namespace Places

theorem put_eq {i : Nat} {p : Place} {places : List Place} (h : i < places.length) :
    put i p places = places.set i p := if_pos h

/-- The table has each place at the index of its hole, and vacant ones elsewhere. -/
theorem ofBound_getElem? {holes : Nat} {bound : List (Nat × Place)}
    (nodup : (bound.map Prod.fst).Nodup) (lt : ∀ b ∈ bound, b.1 < holes) :
    (ofBound holes bound).length = holes ∧ ∀ i < holes, ∀ p,
      (ofBound holes bound)[i]? = some p ↔
        (i, p) ∈ bound ∨ p = .vacant ∧ i ∉ bound.map Prod.fst := by
  have key : ∀ places : List Place, places.length = holes →
      (bound.foldl (fun places b => put b.1 b.2 places) places).length = holes ∧
      ∀ i < holes, ∀ p, (bound.foldl (fun places b => put b.1 b.2 places) places)[i]? = some p ↔
        (i, p) ∈ bound ∨ places[i]? = some p ∧ i ∉ bound.map Prod.fst := by
    induction bound with
    | nil => exact fun places hlen => ⟨hlen, fun i _ p => by simp⟩
    | cons b rest ih =>
      obtain ⟨j, q⟩ := b
      rw [List.map_cons, List.nodup_cons] at nodup
      intro places hlen
      have hj : j < places.length := hlen ▸ lt _ (List.mem_cons_self ..)
      obtain ⟨hlen', h⟩ := ih nodup.2 (fun b hb => lt b (List.mem_cons_of_mem _ hb))
        (places.set j q) (by simpa using hlen)
      simp only [List.foldl_cons, put_eq hj]
      refine ⟨hlen', fun i hi p => ?_⟩
      rw [h i hi, List.mem_cons, List.map_cons, List.mem_cons, not_or, List.getElem?_set]
      have notMem : ∀ {p}, (j, p) ∉ rest := fun hp => nodup.1 (List.mem_map.2 ⟨_, hp, rfl⟩)
      by_cases hij : j = i
      · subst hij
        simp only [if_pos, hj, Option.some.injEq, Prod.mk.injEq, true_and, not_true_eq_false,
          and_false, or_false, notMem, false_or, nodup.1, not_false_eq_true, and_true]
        exact eq_comm
      · simp [hij, Ne.symm hij]
  obtain ⟨hlen, h⟩ := key (List.replicate holes .vacant) (by simp)
  refine ⟨hlen, fun i hi p => (h i hi p).trans ?_⟩
  simp [hi, eq_comm]

end Places

end LiveTemplate
