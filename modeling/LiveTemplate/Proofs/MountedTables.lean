import LiveTemplate.Proofs.InPlace
import LiveTemplate.Proofs.Instantiating

/-!
# The table of a mounted skeleton

Mounting a skeleton at the end of an element appends a forest that mirrors the nodes of the
skeleton: an element for an element, a text for a text, a marker for a hole, in the same order. What
is given as markup is left open, since such an element has no children of its template. The table
goes with it: a hole has a place in the table if it stands in the mirrored part, and then the place
has the very marker, or the very element with the binding of its attribute, and shows nothing yet.
-/
namespace LiveTemplate
open Document Subtree Live

namespace Node

mutual
/-- The hole of that index stands among content or in an attribute that binds something, and not
among the children of an element that is given markup in their place. -/
def Exposes (index : Nat) : Node → Prop
  | .element _ attrs children =>
      (∃ name, name ≠ Binding.keyName ∧ (name, .hole index) ∈ attrs) ∨
        Binding.markupName ∉ Entries.names attrs ∧ ExposesAny index children
  | .text _ => False
  | .hole i => i = index
termination_by structural n => n

def ExposesAny (index : Nat) : List Node → Prop
  | [] => False
  | n :: rest => n.Exposes index ∨ ExposesAny index rest
termination_by structural ns => ns
end

mutual
/-- A tree in the document is like the node, and its nodes are those that the table has in the places
of the holes. -/
def Mirrors (places : List Place) : Node → Subtree → Prop
  | .element tag attrs children, .node id kind below =>
      (∃ data, kind = .element data ∧ data.tag = Text.lower tag) ∧
        (∀ i b, BoundTo attrs i b → places[i]? = some (.attribute id b .null)) ∧
        (Binding.markupName ∉ Entries.names attrs → MirrorsAll places children below)
  | .text data, .node _ kind below => kind = .text data ∧ below = []
  | .hole i, .node id kind below =>
      kind = .marker ∧ below = [] ∧ places[i]? = some (.content id .absent)
termination_by structural n => n

def MirrorsAll (places : List Place) : List Node → List Subtree → Prop
  | [], forest => forest = []
  | _ :: _, [] => False
  | n :: rest, t :: forest => n.Mirrors places t ∧ MirrorsAll places rest forest
termination_by structural ns => ns
end

end Node

theorem markupSource?_eq_none {attrs : Attributes} :
    markupSource? attrs = none ↔ Binding.markupName ∉ Entries.names attrs :=
  Entries.get?_eq_none_iff

theorem Binding.ofName?_eq_none {name : String} : ofName? name = none ↔ name = keyName := by
  unfold ofName?
  repeat' split
  all_goals simp_all

/-- A hole is bound to something wherever it is not the key. -/
theorem exists_boundTo {attrs : Attributes} {i : Nat} :
    (∃ b, BoundTo attrs i b) ↔ ∃ name, name ≠ Binding.keyName ∧ (name, .hole i) ∈ attrs := by
  constructor
  · rintro ⟨b, name, hmem, hb⟩
    refine ⟨name, fun hkey => ?_, hmem⟩
    rw [Binding.ofName?_eq_none.2 hkey] at hb
    contradiction
  · rintro ⟨name, hkey, hmem⟩
    obtain ⟨b, hb⟩ := Option.ne_none_iff_exists'.1 fun h => hkey (Binding.ofName?_eq_none.1 h)
    exact ⟨b, name, hmem, hb⟩

namespace Stem
variable {i : Nat} {data : NodeId → ElementData} {fill : NodeId → List Subtree}
  {places : List Place}

mutual
theorem exposes_iff : (s : Stem) → s.Proper → (s.node.Exposes i ↔ ∃ p, (i, p) ∈ s.bound)
  | .element id tag attrs children, proper => by
      have open_ : Binding.markupName ∉ Entries.names attrs := markupSource?_eq_none.1 proper.1
      simp only [node, Node.Exposes, bound, List.mem_append, exists_or, mem_attrPlaces,
        exposesAny_iff children proper.2, open_, not_false_eq_true, true_and, ← exists_boundTo]
      refine or_congr_left ⟨?_, ?_⟩
      · rintro ⟨b, hb⟩
        exact ⟨_, b, hb, rfl⟩
      · rintro ⟨p, b, hb, -⟩
        exact ⟨b, hb⟩
  | .host id tag attrs hidden, proper => by
      have given : ¬Binding.markupName ∉ Entries.names attrs := fun h => by
        have hs : (markupSource? attrs).isSome = true := proper
        simp [markupSource?_eq_none.2 h] at hs
      simp only [node, Node.Exposes, bound, mem_attrPlaces, given, false_and, or_false,
        ← exists_boundTo]
      constructor
      · rintro ⟨b, hb⟩
        exact ⟨_, b, hb, rfl⟩
      · rintro ⟨p, b, hb, -⟩
        exact ⟨b, hb⟩
  | .text .., _ => by simp [node, Node.Exposes, bound]
  | .hole marker index, _ => by simp [node, Node.Exposes, bound, eq_comm]
termination_by structural s => s

/-- The holes that are exposed are those that mounting gives a place. -/
theorem exposesAny_iff : (ss : List Stem) → ProperAll ss →
    (Node.ExposesAny i (nodes ss) ↔ ∃ p, (i, p) ∈ boundAll ss)
  | [], _ => by simp [nodes, Node.ExposesAny, boundAll]
  | s :: rest, proper => by
      simp only [nodes, Node.ExposesAny, boundAll, List.mem_append, exists_or,
        exposes_iff s proper.1, exposesAny_iff rest proper.2]
termination_by structural ss => ss
end

mutual
theorem mirrors_assemble : (s : Stem) → s.Proper → (∀ b ∈ s.bound, places[b.1]? = some b.2) →
    (∀ e ∈ s.elements, (data e.1).tag = Text.lower e.2.1) → (∀ m ∈ s.markers, fill m.1 = []) →
    ∃ t, s.assemble data fill = [t] ∧ t.root = s.top ∧ s.node.Mirrors places t
  | .element id tag attrs children, proper, seated, tags, empty => by
      refine ⟨_, rfl, rfl, ⟨_, rfl, tags _ (List.mem_cons_self ..)⟩, fun i b hb => ?_, fun _ => ?_⟩
      · exact seated _ (List.mem_append_left _ (mem_attrPlaces.2 ⟨b, hb, rfl⟩))
      · exact (mirrors_assembleAll children proper.2
          (fun b hb => seated b (List.mem_append_right _ hb))
          (fun e he => tags e (List.mem_cons_of_mem _ he)) empty).2
  | .host id tag attrs hidden, proper, seated, tags, _ => by
      refine ⟨_, rfl, rfl, ⟨_, rfl, tags _ (List.mem_singleton_self _)⟩, fun i b hb => ?_, fun h => ?_⟩
      · exact seated _ (mem_attrPlaces.2 ⟨b, hb, rfl⟩)
      · have hs : (markupSource? attrs).isSome = true := proper
        simp [markupSource?_eq_none.2 h] at hs
  | .text .., _, _, _, _ => ⟨_, rfl, rfl, rfl, rfl⟩
  | .hole marker index, _, seated, _, empty => by
      refine ⟨.node marker .marker [], ?_, rfl, rfl, rfl, seated _ (List.mem_singleton_self _)⟩
      rw [assemble, empty _ (List.mem_singleton_self _), List.nil_append]
termination_by structural s => s

/-- What is mounted mirrors the skeleton, as long as nothing is shown in front of a marker. -/
theorem mirrors_assembleAll : (ss : List Stem) → ProperAll ss →
    (∀ b ∈ boundAll ss, places[b.1]? = some b.2) →
    (∀ e ∈ elementsAll ss, (data e.1).tag = Text.lower e.2.1) → (∀ m ∈ markersAll ss, fill m.1 = []) →
    roots (assembleAll data fill ss) = ss.map top ∧
      Node.MirrorsAll places (nodes ss) (assembleAll data fill ss)
  | [], _, _, _, _ => ⟨rfl, rfl⟩
  | s :: rest, proper, seated, tags, empty => by
      obtain ⟨t, ht, hroot, hmirrors⟩ := mirrors_assemble s proper.1
        (fun b hb => seated b (List.mem_append_left _ hb))
        (fun e he => tags e (List.mem_append_left _ he))
        fun m hm => empty m (List.mem_append_left _ hm)
      obtain ⟨hroots, hall⟩ := mirrors_assembleAll rest proper.2
        (fun b hb => seated b (List.mem_append_right _ hb))
        (fun e he => tags e (List.mem_append_right _ he))
        fun m hm => empty m (List.mem_append_right _ hm)
      rw [assembleAll, ht]
      exact ⟨by simp [hroot, hroots], hmirrors, hall⟩
termination_by structural ss => ss
end

mutual
theorem bare_of_bound : (s : Stem) → ∀ b ∈ s.bound, b.2.shown? = some .null
  | .element id tag attrs children, b, hb => by
      rcases List.mem_append.1 hb with hb | hb
      · obtain ⟨_, -, heq⟩ := mem_attrPlaces.1 hb
        rw [heq, Place.shown?]
      · exact bare_of_boundAll children b hb
  | .host id tag attrs hidden, b, hb => by
      obtain ⟨_, -, heq⟩ := mem_attrPlaces.1 hb
      rw [heq, Place.shown?]
  | .text .., b, hb => by simp [bound] at hb
  | .hole marker index, b, hb => by
      obtain rfl := List.mem_singleton.1 hb
      rfl
termination_by structural s => s

/-- A place that mounting gives shows nothing. -/
theorem bare_of_boundAll : (ss : List Stem) → ∀ b ∈ boundAll ss, b.2.shown? = some .null
  | [], b, hb => by simp [boundAll] at hb
  | s :: rest, b, hb => by
      rcases List.mem_append.1 hb with hb | hb
      · exact bare_of_bound s b hb
      · exact bare_of_boundAll rest b hb
termination_by structural ss => ss
end

end Stem

/-- The table has the place of every exposed hole at its index, and vacant ones elsewhere. -/
theorem Stem.ofBound_boundAll {s : Skeleton} (wf : s.WellFormed) {ss : List Stem}
    (nodes : Stem.nodes ss = s.nodes) :
    (Places.ofBound s.holes (boundAll ss)).length = s.holes ∧
      (∀ b ∈ boundAll ss, (Places.ofBound s.holes (boundAll ss))[b.1]? = some b.2) ∧
      ∀ i p, (Places.ofBound s.holes (boundAll ss))[i]? = some p →
        (i, p) ∈ boundAll ss ∨ p = .vacant := by
  have hsub : ((boundAll ss).map Prod.fst).Sublist (Node.holesAll s.nodes) :=
    nodes ▸ boundAll_sublist ss
  have lt : ∀ b ∈ boundAll ss, b.1 < s.holes := fun b hb =>
    wf.lt_holes _ (hsub.subset (List.mem_map_of_mem hb))
  obtain ⟨hlength, hplaces⟩ := Places.ofBound_getElem? (wf.nodup.sublist hsub) lt
  refine ⟨hlength, fun b hb => (hplaces b.1 (lt b hb) b.2).2 (.inl hb), fun i p hp => ?_⟩
  have hi : i < s.holes := hlength ▸ (List.getElem?_eq_some_iff.1 hp).1
  exact ((hplaces i hi p).1 hp).imp id And.left

/-- In a consistent document there is room behind the last child of every container. -/
theorem Document.Consistent.block {d : Document} (c : d.Consistent) {parent : NodeId}
    (container : d.isContainer parent = true) : Block d parent (d.children parent) [] [] := by
  have ordered : Ordered d.nodes.size d := by
    refine ⟨Nat.le_refl _, fun n q h => .inl ?_⟩
    have hmem : n ∈ d.children q := (c.mem_children q n).2 h
    cases hr : d.record? q with
    | none => simp [children, hr] at hmem
    | some r => exact lt_size_of_record? hr
  obtain ⟨r, hr⟩ := exists_record_of_isContainer container
  refine ⟨ordered, ⟨r, hr, ?_⟩, container, trivial, List.nodup_nil, by simp, by simp, by simp,
    fun n hn => lt_size_of_parent? ((c.mem_children parent n).1 hn), by simp, by simp, by simp,
    by simp⟩
  simp [children, hr]

namespace Skeleton

/-- What mounting a skeleton at the end of a parent comes to, in the document before and after. The
table has a position for every hole; those of the exposed holes, and no others, have a place, and
none of these shows anything. -/
structure Mirrored (s : Skeleton) (d d' : Document) (parent : NodeId) (nodes : List NodeId)
    (places : List Place) : Prop where
  children : d'.children parent = d.children parent ++ nodes
  forest : ∃ forest, nodes = roots forest ∧ HoldsAll d' parent forest ∧ (idsAll forest).Nodup ∧
    (∀ n ∈ idsAll forest, d.record? n = none) ∧ Node.MirrorsAll places s.nodes forest
  length : places.length = s.holes
  populated : ∀ i, (∃ p, places[i]? = some p ∧ p.isVacant = false) ↔ Node.ExposesAny i s.nodes
  unshown : ∀ i v, Places.previous? places i = some v → v = .null

/-- Whatever is read and then mounted is mirrored by fresh nodes and by the table. -/
theorem mount_mirrored {fragments : List String} {s : Skeleton} (read : parse fragments = .ok s)
    {h h' : Host} (consistent : h.document.Consistent) {parent : NodeId}
    (element : (h.document.element? parent).isSome = true) {nodes : List NodeId}
    {places : List Place} (ran : mount s parent h = .ok (nodes, places) h') :
    s.Mirrored h.document h'.document parent nodes places := by
  have wf := parse_wellFormed read
  have b := consistent.block (isContainer_of_element? element)
  have grown := mountNodes_runs (showMarkup_fills (fun _ => false) []) s.nodes wf.proper b
  rw [Runs] at grown
  rw [mount] at ran
  cases hnodes : mountNodes showMarkup parent s.nodes h with
  | error e h₁ => simp [bind_error hnodes] at ran
  | ok r h₁ =>
    obtain ⟨tops, bound⟩ := r
    rw [bind_ok hnodes] at ran
    obtain ⟨hr, rfl⟩ := EStateM.Result.ok.inj ran
    obtain ⟨rfl, rfl⟩ := Prod.mk.inj hr
    rw [hnodes] at grown
    obtain ⟨ss, data, inner, w, m, -⟩ := grown
    obtain rfl : bound = Stem.boundAll ss := m.places
    obtain ⟨hlength, seated, place_cases⟩ := Stem.ofBound_boundAll wf m.nodes
    obtain ⟨hroots, mirrors⟩ := Stem.mirrors_assembleAll ss m.proper seated
      (fun e he => (m.elements e he).1) m.markers
    have tops_eq : tops = roots (Stem.assembleAll data inner ss) := m.tops.trans hroots.symm
    refine ⟨?_, ⟨_, tops_eq, w.holds, w.nodup, ?_, m.nodes ▸ mirrors⟩, hlength, fun i => ?_,
      fun i v hv => ?_⟩
    · rw [(w.block b).children_eq, List.append_nil, List.nil_append, ← tops_eq]
    · intro n hn
      rcases w.fresh n hn with hn | hn
      · simp at hn
      · exact Array.getElem?_eq_none hn
    · rw [← m.nodes, Stem.exposesAny_iff ss m.proper]
      constructor
      · rintro ⟨p, hp, hvacant⟩
        rcases place_cases i p hp with hp | rfl
        · exact ⟨p, hp⟩
        · simp [Place.isVacant] at hvacant
      · rintro ⟨p, hp⟩
        refine ⟨p, seated _ hp, ?_⟩
        have hshown := Stem.bare_of_boundAll ss _ hp
        cases p <;> simp_all [Place.isVacant, Place.shown?]
    · obtain ⟨p, hp, hshown⟩ := Option.bind_eq_some_iff.1 hv
      rcases place_cases i p hp with hp | rfl
      · exact (Option.some.inj ((Stem.bare_of_boundAll ss _ hp).symm.trans hshown)).symm
      · simp [Place.shown?] at hshown

/-- A key, a hole in an attribute, one among content, one behind an element, and one where markup
stands instead. -/
theorem mount_mirrored_item :
    let fragments := ["a<li key=", " class=", ">", "<b unsafe-html='<i>c</i>'>", "</b></li>", ""]
    ∃ s nodes places h', parse fragments = .ok s ∧
      mount s Document.body {} = .ok (nodes, places) h' ∧ nodes = [1, 2, 7] ∧
      places.map Place.isVacant = [true, false, false, true, false] ∧
      s.Mirrored .empty h'.document Document.body nodes places := by
  intro fragments
  let s : Skeleton := ⟨[.text "a", .element "li" [("key", .hole 0), ("class", .hole 1)]
    [.hole 2, .element "b" [("unsafe-html", .literal "<i>c</i>")] [.hole 3]], .hole 4], 5⟩
  have read : parse fragments = .ok s := by decide +kernel
  have mounted : (match mount s Document.body {} with
      | .ok (nodes, places) _ => decide (nodes = [1, 2, 7] ∧
          places.map Place.isVacant = [true, false, false, true, false])
      | .error _ _ => false) = true := by
    decide +kernel
  cases ran : mount s Document.body {} with
  | error e h' => simp [ran] at mounted
  | ok r h' =>
    obtain ⟨nodes, places⟩ := r
    rw [ran, decide_eq_true_eq] at mounted
    exact ⟨s, nodes, places, h', read, ran, mounted.1, mounted.2,
      mount_mirrored read consistent_empty rfl ran⟩

end Skeleton

end LiveTemplate
