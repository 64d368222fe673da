import LiveTemplate.Proofs.Depictions
import LiveTemplate.Proofs.Overwriting

/-!
# Showing values for the first time

A table that has just been mounted is filled hole by hole. After each of them the elements have what
the literals and the values so far have written to them, and what stands at the holes depicts these
values. Nothing is said of what is left when a value cannot be shown.
-/
namespace LiveTemplate
open Document Subtree Live

/-! ### Mounted skeletons with some of the values -/

/-- What stands in the document is a mounted skeleton in which these values are shown. -/
structure Filled (P : Sighting) (ss : List Stem) (shown : Nat → Value)
    (data : NodeId → ElementData) (fill : NodeId → List Subtree) : Prop where
  tag : ∀ e ∈ Stem.elementsAll ss, (data e.1).tag = Text.lower e.2.1
  reading : ∀ e ∈ Stem.elementsAll ss, ∀ n, (data e.1).reading (.attribute n) =
    look (.attribute n) shown (applied e.2.2)
  host : ∀ e ∈ Stem.hostsAll ss, shapes Target.isAttribute (fill e.1) =
    markupShapes (shownMarkup Target.isAttribute) shown e.2
  content : ∀ m ∈ Stem.markersAll ss, (shown m.2).Depicted P (shapes Target.isAttribute (fill m.1))

namespace Filled
variable {P : Sighting} {shared : SharedSkeleton} {ss : List Stem} {values : List Value}
  {shown : Nat → Value} {data data' : NodeId → ElementData} {fill fill' : NodeId → List Subtree}
  {places : List Place} {k : Nat} {n : NodeId} {b : Binding}

/-- A skeleton that has just been mounted shows only its literals. -/
theorem ofShows (s : Shows Target.isAttribute (shownMarkup Target.isAttribute) (fun _ => .null)
    (fun _ => []) data fill (Stem.elementsAll ss) (Stem.hostsAll ss) (Stem.markersAll ss)) :
    Filled P ss (fun _ => .null) data fill where
  tag := s.tag
  reading e he n := by
    have absent : ∀ attrs : Attributes, look (.attribute n) (fun _ => .null) attrs =
        lookLiteral (.attribute n) attrs := fun attrs => look_eq_literal fun _ _ _ => written_null
    rw [s.reading e he _ rfl, absent, absent, lookLiteral_applied]
  host := s.host
  content m hm := s.content m hm

/-- When all values are shown, what stands in the document depicts them. -/
theorem depictedAll (filled : Filled P ss (Markup.valueAt values) data fill)
    (seated : Seated shared ss places)
    (holds : ∀ tag attrs reading, IsTagName tag.toList →
      (∀ n, reading (.attribute n) = look (.attribute n) (Markup.valueAt values) (applied attrs)) →
      P tag attrs values reading) :
    Node.DepictedAll (fun tag attrs => P tag attrs values) (shownMarkup Target.isAttribute)
      (Markup.valueAt values) (Value.DepictedAt P values) shared.nodes
      (shapes Target.isAttribute (Stem.assembleAll data fill ss)) := by
  rw [← seated.nodes]
  refine Stem.depictedAll_assembleAll ss seated.proper ⟨filled.tag, fun e he => ?_, filled.host,
    fun m hm => ?_⟩
  · exact holds _ _ _ (seated.element_proper he).1 fun n => filled.reading e he n
  · exact (Value.depictedAt_iff P values m.2 _).2 (filled.content m hm)

/-- What the value of the next hole changes, and that it changes nothing else. -/
structure Changes (P : Sighting) (ss : List Stem) (k : Nat) (v : Value)
    (data : NodeId → ElementData) (fill : NodeId → List Subtree)
    (data' : NodeId → ElementData) (fill' : NodeId → List Subtree) : Prop where
  tag : ∀ e ∈ Stem.elementsAll ss, (data' e.1).tag = (data e.1).tag
  bound : ∀ e ∈ Stem.elementsAll ss, ∀ b, BoundTo e.2.2 k b → ∀ n,
    (data' e.1).reading (.attribute n) =
      (written (.attribute n) b v).getD ((data e.1).reading (.attribute n))
  unbound : ∀ e ∈ Stem.elementsAll ss, (∀ b, ¬BoundTo e.2.2 k b) → ∀ n,
    (data' e.1).reading (.attribute n) = (data e.1).reading (.attribute n)
  host : ∀ e ∈ Stem.hostsAll ss, markupSource? e.2 = some (.hole k) →
    shapes Target.isAttribute (fill' e.1) =
      if v = .null then [] else shownMarkup Target.isAttribute v.toText
  otherHost : ∀ e ∈ Stem.hostsAll ss, markupSource? e.2 ≠ some (.hole k) → fill' e.1 = fill e.1
  content : ∀ m ∈ Stem.markersAll ss, m.2 = k →
    v.Depicted P (shapes Target.isAttribute (fill' m.1))
  otherContent : ∀ m ∈ Stem.markersAll ss, m.2 ≠ k → fill' m.1 = fill m.1

/-- The value of the next hole is shown as well. -/
theorem next (filled : Filled P ss (upTo k shown) data fill) (seated : Seated shared ss places)
    (c : Changes P ss k (shown k) data fill data' fill') :
    Filled P ss (upTo (k + 1) shown) data' fill' where
  tag e he := (c.tag e he).trans (filled.tag e he)
  reading e he n := by
    by_cases hb : ∃ b, BoundTo e.2.2 k b
    · obtain ⟨b, hb⟩ := hb
      rw [c.bound e he b hb, filled.reading e he,
        look_applied_succ (seated.attrs_proper he).2 hb]
    · have unbound : ∀ b, ¬BoundTo e.2.2 k b := fun b h => hb ⟨b, h⟩
      rw [c.unbound e he unbound, filled.reading e he, look_applied_still unbound]
  host e he := by
    by_cases hs : markupSource? e.2 = some (.hole k)
    · rw [c.host e he hs, markupShapes, hs]
      simp only [upTo_succ_self]
    · rw [c.otherHost e he hs, filled.host e he]
      refine markupShapes_congr fun i hi => .inl ?_
      have hne : i ≠ k := by
        rintro rfl
        exact hs hi
      rw [upTo_succ_of_ne hne]
  content m hm := by
    by_cases hk : m.2 = k
    · rw [hk, upTo_succ_self]
      exact c.content m hm hk
    · rw [c.otherContent m hm hk, upTo_succ_of_ne hk]
      exact filled.content m hm

/-! ### One hole after the other -/

variable {item : Item} {p : Place} {e : NodeId × String × Attributes}

/-- A hole that no attribute binds to. -/
theorem unbound_of_place (seated : Seated shared ss places) (hk : places[k]? = some p)
    (hp : ∀ n b v, p ≠ .attribute n b v) (he : e ∈ Stem.elementsAll ss) (b : Binding) :
    ¬BoundTo e.2.2 k b := by
  intro hb
  obtain ⟨w, hw⟩ := seated.place_of_element he hb
  exact hp _ _ _ (Option.some.inj (hk.symm.trans hw))

/-- A host is an element that binds the markup that it is given through a hole. -/
theorem bound_of_host (seated : Seated shared ss places) {e : NodeId × Attributes}
    (he : e ∈ Stem.hostsAll ss) (hs : markupSource? e.2 = some (.hole k)) :
    ∃ tag, (e.1, tag, e.2) ∈ Stem.elementsAll ss ∧ BoundTo e.2 k .markup := by
  obtain ⟨tag, ht⟩ := Stem.elementAll_of_host ss e he
  exact ⟨tag, ht, (boundTo_markup (seated.attrs_proper ht).1).2 hs⟩

/-- A hole that stands nowhere. -/
theorem changes_vacant (seated : Seated shared ss places) (hk : places[k]? = some .vacant)
    (v : Value) : Changes P ss k v data fill data fill := by
  have unbound {e : NodeId × String × Attributes} (he : e ∈ Stem.elementsAll ss) :=
    unbound_of_place seated hk (by simp) he
  refine ⟨fun _ _ => rfl, fun e he b hb => absurd hb (unbound he b), fun _ _ _ _ => rfl,
    fun e he hs => ?_, fun _ _ _ => rfl, fun m hm hmk => ?_, fun _ _ _ => rfl⟩
  · obtain ⟨tag, ht, hb⟩ := bound_of_host seated he hs
    exact absurd hb (unbound ht _)
  · obtain ⟨item, hi⟩ := seated.place_of_marker hm
    simp [hmk, hk] at hi

/-- A hole among the attributes of an element stands nowhere else. -/
theorem eq_of_bound (seated : Seated shared ss places)
    (hk : places[k]? = some (.attribute n b .null)) (he : e ∈ Stem.elementsAll ss) {c : Binding} (hc : BoundTo e.2.2 k c) : e.1 = n ∧ c = b := by
  obtain ⟨w, hw⟩ := seated.place_of_element he hc
  obtain ⟨rfl, rfl, -⟩ : n = e.1 ∧ b = c ∧ Value.null = w := by simpa [hk] using hw
  exact ⟨rfl, rfl⟩

theorem no_marker (seated : Seated shared ss places)
    (hk : places[k]? = some (.attribute n b .null)) {m : NodeId × Nat}
    (hm : m ∈ Stem.markersAll ss) : m.2 ≠ k := by
  rintro rfl
  obtain ⟨item, hi⟩ := seated.place_of_marker hm
  simp [hk] at hi

/-- A value that is written over what an element has. -/
theorem changes_attribute (seated : Seated shared ss places)
    (distinct : Stem.Distinct fill (Stem.elementsAll ss) (Stem.markersAll ss))
    (hk : places[k]? = some (.attribute n b .null)) (hb : b ≠ .markup) {v : Value}
    {new : ElementData} (writes : Overwrites (fun n => written (.attribute n) b v) (data n) new) :
    Changes P ss k v data fill (Function.update data n new) fill := by
  obtain ⟨tag, attrs, he, hbound⟩ := seated.element_of hk
  refine ⟨fun e _ => ?_, fun e he' c hc x => ?_, fun e he' unbound x => ?_, fun e he' hs => ?_,
    fun _ _ _ => rfl, fun m hm hmk => absurd hmk (no_marker seated hk hm), fun _ _ _ => rfl⟩
  · by_cases hn : e.1 = n
    · rw [hn, Function.update_self, writes.tag]
    · rw [Function.update_of_ne hn]
  · obtain ⟨rfl, rfl⟩ := eq_of_bound seated hk he' hc
    rw [Function.update_self, writes.reading]
  · have hn : e.1 ≠ n := fun hn =>
      unbound b (distinct.element_eq _ he _ he' hn.symm ▸ hbound)
    rw [Function.update_of_ne hn]
  · obtain ⟨tag', ht, hc⟩ := bound_of_host seated he' hs
    exact absurd (eq_of_bound seated hk ht hc).2.symm hb

/-- Markup that is shown in a host. -/
theorem changes_markup (seated : Seated shared ss places)
    (distinct : Stem.Distinct fill (Stem.elementsAll ss) (Stem.markersAll ss))
    (hk : places[k]? = some (.attribute n .markup .null)) {v : Value} {kids : List Subtree}
    (hkids : shapes Target.isAttribute kids =
      if v = .null then [] else shownMarkup Target.isAttribute v.toText) :
    Changes P ss k v data fill data (Function.update fill n kids) := by
  obtain ⟨tag, attrs, he, hbound⟩ := seated.element_of hk
  refine ⟨fun _ _ => rfl, fun e he' c hc x => ?_, fun _ _ _ _ => rfl, fun e he' hs => ?_,
    fun e he' hs => ?_, fun m hm hmk => absurd hmk (no_marker seated hk hm), fun m hm _ => ?_⟩
  · obtain ⟨-, rfl⟩ := eq_of_bound seated hk he' hc
    rw [written_direct (by simp), wrote_markup, Option.getD_none]
  · obtain ⟨tag', ht, hc⟩ := bound_of_host seated he' hs
    have hn : e.1 = n := (eq_of_bound seated hk ht hc).1
    rw [hn, Function.update_self, hkids]
  · obtain ⟨tag', ht⟩ := Stem.elementAll_of_host ss e he'
    have hn : e.1 ≠ n := fun hn => hs <| (boundTo_markup (seated.attrs_proper ht).1).1 <|
      distinct.element_eq _ he _ ht hn.symm ▸ hbound
    rw [Function.update_of_ne hn]
  · exact Function.update_of_ne (distinct.apart _ he _ hm).symm _ _

/-- A value that stands in front of a marker. -/
theorem changes_content (seated : Seated shared ss places)
    (distinct : Stem.Distinct fill (Stem.elementsAll ss) (Stem.markersAll ss))
    (hk : places[k]? = some (.content n item)) {v : Value} {f : List Subtree}
    (depicted : v.Depicted P (shapes Target.isAttribute f)) :
    Changes P ss k v data fill data (Function.update fill n f) := by
  have hn := seated.marker_of hk
  have unbound {e : NodeId × String × Attributes} (he : e ∈ Stem.elementsAll ss) :=
    unbound_of_place seated hk (by simp) he
  have other : ∀ e ∈ Stem.hostsAll ss, Function.update fill n f e.1 = fill e.1 := by
    intro e he
    obtain ⟨tag, ht⟩ := Stem.elementAll_of_host ss e he
    exact Function.update_of_ne (distinct.apart _ ht _ hn) _ _
  refine ⟨fun _ _ => rfl, fun e he b hb => absurd hb (unbound he b), fun _ _ _ _ => rfl,
    fun e he hs => ?_, fun e he _ => other e he, fun m hm hmk => ?_, fun m hm hmk => ?_⟩
  · obtain ⟨tag, ht, hb⟩ := bound_of_host seated he hs
    exact absurd hb (unbound ht _)
  · obtain ⟨item', hi⟩ := seated.place_of_marker hm
    obtain ⟨rfl, -⟩ : n = m.1 ∧ item = item' := by simpa [hmk, hk] using hi
    rwa [Function.update_self]
  · have hne : m.1 ≠ n := fun heq => hmk (congrArg Prod.snd (distinct.marker_eq _ hm _ hn heq))
    rw [Function.update_of_ne hne]

end Filled

/-! ### Places -/

section
variable (P : Sighting) {shared : SharedSkeleton} {ss : List Stem} {values : List Value}
  {shown : Nat → Value} {data : NodeId → ElementData} {fill : NodeId → List Subtree}
  {places : List Place} {k : Nat} {h : Host} {parent anchor : NodeId} {before behind : List NodeId}
  {next : Value}

/-- A value can be put in front of an anchor, where nothing of it stands yet. -/
def Puts (v : Value) (patch : NodeId → Content → Host → Patched Content) : Prop :=
  ∀ ⦃h : Host⦄ ⦃parent anchor : NodeId⦄ ⦃before behind : List NodeId⦄,
    Block h.document parent before [] behind → behind.head? = some anchor →
    (patch anchor .empty h).Ends
      (fun _ h' => Becomes h parent before [] behind
        (fun f => v.Depicted P (shapes Target.isAttribute f)) h')
      (fun _ _ => True)

/-- A block of a mounted skeleton becomes one in which these values are shown. -/
def Fills (ss : List Stem) (shown : Nat → Value) (h : Host) (parent : NodeId)
    (before : List NodeId) (f : List Subtree) (behind : List NodeId) (h' : Host) : Prop :=
  ∃ data fill, Rewrites h.document h'.document parent before f (Stem.assembleAll data fill ss) behind ∧
    Filled P ss shown data fill

variable {P} {patch : NodeId → Content → Host → Patched Content}

/-- The first value of an item. -/
theorem updateItem_puts (hp : Puts P next patch) (b : Block h.document parent before [] behind)
    (head : behind.head? = some anchor) :
    (updateItem (patch anchor) .absent next h).Ends
      (fun _ h' => Becomes h parent before [] behind
        (fun f => next.Depicted P (shapes Target.isAttribute f)) h')
      (fun _ _ => True) := by
  unfold updateItem
  split
  next hs =>
    obtain rfl : next = .null := (Value.Alike.null_iff (.inr hs)).1 rfl
    exact ⟨[], .refl b, rfl⟩
  next =>
    rw [Patched.ends_andThen]
    exact (hp b head).mono (fun _ _ w => w) fun _ _ _ => trivial

/-- The place of markup takes on its first value: the markup fills its element, which is empty. -/
theorem replaceMarkup_fills {n : NodeId} (seated : Seated shared ss places)
    (hk : places[k]? = some (.attribute n .markup .null))
    (b : Block h.document parent before (Stem.assembleAll data fill ss) behind)
    (filled : Filled P ss (upTo k shown) data fill) :
    Runs (replaceMarkup n (shown k)) h
      (fun _ h' => Fills P ss (upTo (k + 1) shown) h parent before (Stem.assembleAll data fill ss)
        behind h')
      (fun _ => True) := by
  obtain ⟨tag, attrs, he, hb⟩ := seated.element_of hk
  obtain ⟨q, before', kids, behind', plug, f⟩ := Stem.focusAll_element ss b _ he
  have hs := (boundTo_markup (seated.attrs_proper he).1).1 hb
  have hhost := Stem.hostAll_of_element ss seated.proper _ he (by simp [hs])
  refine (replaceMarkup_runs Target.isAttribute
    (f.focus.block.inside (Stem.container_of_element f.focus.block))).mono ?_ fun _ _ => trivial
  rintro _ h' ⟨kids', w, hshape, -⟩
  have w' := f.focus.lift _ _ (w.inside f.focus.block)
  rw [f.plug_fill _ hhost rfl] at w'
  exact ⟨data, _, w', filled.next seated
    (Filled.changes_markup seated (Stem.distinctAll ss b.nodup) hk hshape)⟩

/-- The place of an attribute, a listener or a set of them takes on its first value: only the data of
its element changes. -/
theorem apply_fills {n : NodeId} {c : Binding} (hc : c ≠ .markup)
    (present : shown k ≠ .null) (seated : Seated shared ss places)
    (hk : places[k]? = some (.attribute n c .null))
    (b : Block h.document parent before (Stem.assembleAll data fill ss) behind)
    (filled : Filled P ss (upTo k shown) data fill) :
    Runs (apply n c .null (shown k)) h
      (fun _ h' => Fills P ss (upTo (k + 1) shown) h parent before (Stem.assembleAll data fill ss)
        behind h')
      (fun _ => True) := by
  obtain ⟨tag, attrs, he, -⟩ := seated.element_of hk
  obtain ⟨q, before', kids, behind', plug, f⟩ := Stem.focusAll_element ss b _ he
  refine ((apply_overwrites n (shown k) present c hc).rewrites f.focus.block).mono ?_
    fun _ _ => trivial
  rintro _ h' ⟨new, w, writes⟩
  have w' := f.focus.lift _ _ w
  rw [f.plug_data] at w'
  exact ⟨_, fill, w', filled.next seated
    (Filled.changes_attribute seated (Stem.distinctAll ss b.nodup) hk hc writes)⟩

/-- The place of content takes on its first value, in front of its marker. -/
theorem updateItem_fills {marker : NodeId} (hp : Puts P (shown k) patch)
    (seated : Seated shared ss places) (hk : places[k]? = some (.content marker .absent))
    (b : Block h.document parent before (Stem.assembleAll data fill ss) behind)
    (filled : Filled P ss (upTo k shown) data fill) :
    (updateItem (patch marker) .absent (shown k) h).Ends
      (fun _ h' => Fills P ss (upTo (k + 1) shown) h parent before (Stem.assembleAll data fill ss)
        behind h')
      (fun _ _ => True) := by
  have hm := seated.marker_of hk
  obtain ⟨q, before', rest, f⟩ := Stem.focusAll_marker ss b _ hm
  -- nothing stands in front of the marker as long as its value is absent
  have hempty : fill marker = [] := by
    have hdep := filled.content _ hm
    rw [upTo_of_le (Nat.le_refl k)] at hdep
    exact shapes_eq_nil hdep
  have block := f.block
  rw [hempty] at block
  refine (updateItem_puts hp block rfl).mono ?_ fun _ _ _ => trivial
  rintro item' h' ⟨g, w, depicted⟩
  exact ⟨data, _, f.lift _ _ (hempty.symm ▸ w), filled.next seated
    (Filled.changes_content seated (Stem.distinctAll ss b.nodup) hk depicted)⟩

/-- The place of the next hole takes on its first value. -/
theorem updatePlace_fills {p : Place} (hp : Puts P (shown k) patch)
    (seated : Seated shared ss places) (hk : places[k]? = some p) (bare : p.bare = p)
    (b : Block h.document parent before (Stem.assembleAll data fill ss) behind)
    (filled : Filled P ss (upTo k shown) data fill) :
    (updatePlace patch p (shown k) h).Ends
      (fun _ h' => Fills P ss (upTo (k + 1) shown) h parent before (Stem.assembleAll data fill ss)
        behind h')
      (fun _ _ => True) := by
  rcases p with _ | ⟨n, c, prev⟩ | ⟨marker, item⟩
  · exact ⟨data, fill, .refl b, filled.next seated (Filled.changes_vacant seated hk _)⟩
  · obtain rfl : Value.null = prev := by simpa [Place.bare] using bare
    rw [updatePlace]
    split
    next hs =>
      have hnull : shown k = .null := (Value.Alike.null_iff (.inr hs)).1 rfl
      exact ⟨data, fill, .refl b, (upTo_succ_of_null hnull).symm ▸ filled⟩
    next hs =>
      have hv : shown k ≠ .null := fun hnull => hs (by rw [hnull]; rfl)
      rw [Patched.ends_attempt]
      by_cases hc : c = .markup
      · subst hc
        have happly : apply n .markup .null (shown k) = replaceMarkup n (shown k) := by
          cases shown k <;> rfl
        rw [happly]
        exact replaceMarkup_fills seated hk b filled
      · exact apply_fills hc hv seated hk b filled
  · obtain rfl : Item.absent = item := by simpa [Place.bare] using bare
    rw [updatePlace, Patched.ends_map]
    exact updateItem_fills hp seated hk b filled

/-- A value for which nothing is put anywhere. -/
theorem puts_nothing {v : Value} (hv : v.Depicted P [])
    (hp : ∀ anchor h, patch anchor .empty h = ⟨.empty, h, none⟩) : Puts P v patch := by
  intro h parent anchor before behind b _
  rw [hp]
  exact ⟨[], .refl b, hv⟩

/-- A scalar is put in front of an anchor as text. -/
theorem patchText_puts {v : Value} (hv : v.shapes Target.isAttribute = [.text v.toText])
    (hd : ∀ f, v.Depicted P f ↔ f = v.shapes Target.isAttribute) :
    Puts P v fun anchor c h => patchText anchor c v.toText h := by
  intro h parent anchor before behind b head
  show (Patched.attempt (do
    clear .empty
    let node ← Host.create (.text v.toText)
    Host.insertBefore node anchor
    pure node) Content.text .empty h).Ends _ _
  rw [Patched.ends_attempt]
  refine createText_runs b head fun n h' w => ⟨_, w, (hd _).2 ?_⟩
  rw [hv]
  rfl

/-! ### Lists -/

variable {vs : List Value} {patchRest : NodeId → Host → Patched (List Item)}

variable (P) in
/-- The values of a list can be put in front of an anchor, where nothing of them stands yet. -/
def PutsItems (vs : List Value) (patch : NodeId → Host → Patched (List Item)) : Prop :=
  ∀ ⦃h : Host⦄ ⦃parent anchor : NodeId⦄ ⦃before behind : List NodeId⦄,
    Block h.document parent before [] behind → behind.head? = some anchor →
    (patch anchor h).Ends
      (fun _ h' => Becomes h parent before [] behind
        (fun f => Value.DepictedItems P vs (shapes Target.isAttribute f)) h')
      (fun _ _ => True)

/-- One value after the other is put in front of the anchor. -/
theorem putsItems_cons (hp : Puts P next patch) (hps : PutsItems P vs patchRest) :
    PutsItems P (next :: vs) fun anchor h =>
      (updateItem (fun c h => patch anchor c h) .absent next h).andThen
        (fun item h => (patchRest anchor h).map (item :: ·)) fun _ => [] := by
  intro h parent anchor before behind b head
  rw [Patched.ends_andThen]
  refine (updateItem_puts hp b head).mono ?_ fun _ _ _ => trivial
  rintro item h₁ ⟨f, w, first⟩
  have b₁ : Block h₁.document parent before (f ++ [] ++ []) behind := by simpa using w.block b
  rw [Patched.ends_map]
  refine (hps b₁.part head).mono ?_ fun _ _ _ => trivial
  rintro items h₂ ⟨g, v, rest⟩
  have v := v.part b₁
  rw [List.append_nil, List.append_nil, List.append_nil] at v
  exact ⟨f ++ g, w.trans v, _, _, first, rest, shapes_append ..⟩

/-- Where there are no items yet, none is taken over by its key. -/
theorem patchKeyed_of_empty (anchor : NodeId) (prevKeys nextKeys : List Value) (vs : List Value) :
    ∀ h, patchKeyed anchor prevKeys nextKeys [] vs h = patchItems anchor [] vs h := by
  induction vs with
  | nil => exact fun h => rfl
  | cons next vs ih =>
    intro h
    have step : keyedStep (isStale nextKeys) (isFresh prevKeys next) [] = ⟨[], none, []⟩ := by
      cases hf : isFresh prevKeys next <;> rfl
    rw [patchKeyed, patchItems, step]
    simp only [ih]
    rfl

/-- A list is put where nothing stands. -/
theorem patchList_puts (handle : Nat) {patch : List Item → Host → Patched (List Item)}
    (hp : (patch [] h).Ends
      (fun _ h' => Becomes h parent before [] behind
        (fun f => Value.DepictedItems P vs (shapes Target.isAttribute f)) h')
      (fun _ _ => True)) :
    (patchList patch .empty h).Ends
      (fun _ h' => Becomes h parent before [] behind
        (fun f => (Value.list handle vs).Depicted P (shapes Target.isAttribute f)) h')
      (fun _ _ => True) := by
  show ((patch [] h).map Content.list).Ends _ _
  rw [Patched.ends_map]
  exact hp.mono (fun _ _ w => w) fun _ _ _ => trivial

/-! ### Templates -/

variable {patchTable : List Place → Host → Patched (List Place)} {mid : List Subtree}

/-- It may be said of an element that has of each attribute what is applied last. -/
def Sighting.Sound (P : Sighting) : Prop :=
  ∀ tag attrs values reading, IsTagName tag.toList →
    (∀ n, reading (.attribute n) = look (.attribute n) (Markup.valueAt values) (applied attrs)) →
    P tag attrs values reading

variable (P) in
/-- A bare table can be filled with these values from one of its holes on, if those in front of it
show theirs. -/
def FillsFrom (shared : SharedSkeleton) (values : List Value) (k : Nat)
    (patch : List Place → Host → Patched (List Place)) : Prop :=
  ∀ ⦃ss : List Stem⦄ ⦃data : NodeId → ElementData⦄ ⦃fill : NodeId → List Subtree⦄
    ⦃places : List Place⦄ ⦃h : Host⦄ ⦃parent : NodeId⦄ ⦃before behind : List NodeId⦄,
    Seated shared ss places → (∀ (i : Nat) (p : Place), places[i]? = some p → p.bare = p) →
    Block h.document parent before (Stem.assembleAll data fill ss) behind →
    Filled P ss (upTo k (Markup.valueAt values)) data fill →
    (patch (places.drop k) h).Ends
      (fun _ h' => Fills P ss (Markup.valueAt values) h parent before (Stem.assembleAll data fill ss)
        behind h')
      (fun _ _ => True)

theorem fillsFrom_nil {patch : List Place → Host → Patched (List Place)}
    (length : values.length = shared.holes) (hk : values.drop k = [])
    (hp : ∀ h, patch [] h = ⟨[], h, none⟩) : FillsFrom P shared values k patch := by
  intro ss data fill places h parent before behind seated _ b filled
  have hle : values.length ≤ k := List.drop_eq_nil_iff.1 hk
  have all : upTo k (Markup.valueAt values) = Markup.valueAt values := by
    funext i
    by_cases hi : i < k
    · exact if_pos hi
    · have hnone : values[i]? = none := List.getElem?_eq_none (by omega)
      rw [upTo_of_le (Nat.le_of_not_lt hi), Markup.valueAt, hnone]
      rfl
  rw [List.drop_eq_nil_of_le (by rw [seated.length]; omega), hp]
  exact ⟨data, fill, .refl b, all ▸ filled⟩

/-- One place after the other takes on its first value. -/
theorem fillsFrom_cons (length : values.length = shared.holes) (hk : values.drop k = next :: vs)
    (hp : Puts P next patch) (hps : FillsFrom P shared values (k + 1) patchTable) :
    FillsFrom P shared values k fun places h =>
      match places with
      | [] => ⟨[], h, none⟩
      | place :: rest =>
          (updatePlace (fun marker c h => patch marker c h) place next h).andThen
            (fun place h => (patchTable rest h).map (place :: ·)) (· :: rest) := by
  intro ss data fill places h parent before behind seated bare b filled
  have hlt : k < values.length := by
    by_contra hge
    rw [List.drop_eq_nil_of_le (Nat.le_of_not_lt hge)] at hk
    cases hk
  have hlt' : k < places.length := by rw [seated.length, ← length]; exact hlt
  have hnext : Markup.valueAt values k = next := by
    rw [Markup.valueAt, ← List.head?_drop, hk]
    rfl
  subst hnext
  have hplace : places[k]? = some places[k] := List.getElem?_eq_getElem hlt'
  rw [List.drop_eq_getElem_cons hlt']
  dsimp only
  rw [Patched.ends_andThen]
  refine (updatePlace_fills hp seated hplace (bare k _ hplace) b filled).mono ?_ fun _ _ _ => trivial
  rintro p' h₁ ⟨data₁, fill₁, w, filled₁⟩
  rw [Patched.ends_map]
  refine (hps seated bare (w.block b) filled₁).mono ?_ fun _ _ _ => trivial
  rintro rest h₂ ⟨data₂, fill₂, v, filled₂⟩
  exact ⟨data₂, fill₂, w.trans v, filled₂⟩

/-- What is mounted and then filled depicts the skeleton with the values. -/
theorem mount_fills (sound : P.Sound) (made : shared.Made) (hp : FillsFrom P shared values 0 patchTable)
    (b : Block h.document parent before mid []) :
    Runs (mount shared.skeleton parent) h
      (fun r h₁ => (patchTable r.2 h₁).Ends
        (fun _ h' => ∃ forest,
          Rewrites h.document h'.document parent before mid (mid ++ forest) [] ∧
          Node.DepictedAll (fun tag attrs => P tag attrs values) (shownMarkup Target.isAttribute)
            (Markup.valueAt values) (Value.DepictedAt P values) shared.nodes
            (shapes Target.isAttribute forest))
        (fun _ _ => True))
      (fun _ => True) := by
  refine (mount_seats Target.isAttribute made b).mono ?_ fun _ _ => trivial
  rintro ⟨tops, places⟩ h₁ ⟨ss, data, fill, w, -, seated, bare, shows⟩
  have b₁ : Block h₁.document parent before (mid ++ Stem.assembleAll data fill ss ++ []) [] := by
    simpa using w.block b
  refine (hp seated bare b₁.part (.ofShows shows)).mono ?_ fun _ _ _ => trivial
  rintro places' h' ⟨data', fill', v, filled⟩
  have v := v.part b₁
  rw [List.append_nil, List.append_nil] at v
  exact ⟨_, w.trans v, filled.depictedAll seated fun tag attrs => sound tag attrs values⟩

/-- A template is put where nothing stands. -/
theorem patchTemplate_puts (sound : P.Sound) (made : shared.Made)
    (hp : FillsFrom P shared values 0 patchTable) (handle : Nat) :
    Puts P (.template handle shared values) fun anchor c h =>
      patchTemplate anchor shared patchTable c h := by
  intro h parent anchor before behind b head
  show (Patched.attempt (do clear .empty; instantiate shared patchTable anchor) id Content.empty h).Ends
    _ _
  rw [Patched.ends_attempt]
  show Runs (instantiate shared patchTable anchor) h _ _
  refine (instantiate_inserts
    (fun _ kids => Node.DepictedAll (fun tag attrs => P tag attrs values)
      (shownMarkup Target.isAttribute) (Markup.valueAt values) (Value.DepictedAt P values)
      shared.nodes (shapes Target.isAttribute kids))
    (fun _ => True) b head fun alone _ => ?_).mono ?_ fun _ _ => trivial
  · exact mount_fills sound made hp alone
  · rintro c h' ⟨start, stop, places, kids, rfl, w, depicted⟩
    refine ⟨_, w, _, depicted, ?_⟩
    rw [List.nil_append, List.cons_append, shapes_cons, shapes_append]
    rfl

end

/-! ### All values -/

section
variable {P : Sighting}

mutual
theorem patchContent_puts (sound : P.Sound) : (v : Value) → v.Built →
    Puts P v fun anchor c h => patchContent anchor c v h
  | .null, _ => puts_nothing rfl fun _ _ => rfl
  | .attributes .., _ => puts_nothing rfl fun _ _ => rfl
  | .callback _, _ => puts_nothing rfl fun _ _ => rfl
  | .cell _, _ => puts_nothing rfl fun _ _ => rfl
  | .payload _, _ => puts_nothing rfl fun _ _ => rfl
  | .bool v, _ => patchText_puts (v := .bool v) rfl fun _ => Iff.rfl
  | .number n, _ => patchText_puts (v := .number n) rfl fun _ => Iff.rfl
  | .text s, _ => patchText_puts (v := .text s) rfl fun _ => Iff.rfl
  | .template handle shared values, ⟨made, length, built⟩ =>
      patchTemplate_puts sound made (patchPlaces_fills sound values built length rfl) handle
  | .list handle items, built => by
      have all := patchItems_puts sound items built
      intro h parent anchor before behind b head
      show (patchContent anchor .empty (.list handle items) h).Ends _ _
      rw [patchContent]
      split
      next =>
        refine patchList_puts handle ?_
        show (patchKeyed ..).Ends _ _
        rw [patchKeyed_of_empty]
        exact all b head
      next => exact patchList_puts handle (all b head)
termination_by structural v => v

theorem patchItems_puts (sound : P.Sound) : (vs : List Value) → Value.BuiltAll vs →
    PutsItems P vs fun anchor h => patchItems anchor [] vs h
  | [], _ => fun _ _ _ _ _ b _ => ⟨[], .refl b, rfl⟩
  | next :: vs, built =>
      putsItems_cons (patchContent_puts sound next built.1) (patchItems_puts sound vs built.2)
termination_by structural vs => vs

/-- The values of a table are shown one after the other, by the numbers of their holes. -/
theorem patchPlaces_fills (sound : P.Sound) : (vs : List Value) → Value.BuiltAll vs →
    ∀ {shared : SharedSkeleton} {values : List Value} {k : Nat}, values.length = shared.holes →
      values.drop k = vs → FillsFrom P shared values k fun places h => patchPlaces places vs h
  | [], _, _, _, _, length, hk => fillsFrom_nil length hk fun _ => rfl
  | next :: vs, built, _, values, k, length, hk => by
      have first := patchContent_puts sound next built.1
      have hrest : values.drop (k + 1) = vs := by rw [← List.drop_drop, hk]; rfl
      have rest := patchPlaces_fills sound vs built.2 length hrest
      exact fillsFrom_cons length hk first rest
termination_by structural vs => vs
end

/-- A value that is rendered on its own is depicted, with the attribute that is applied last taking
precedence. -/
theorem Value.renderAlone_depicted (sound : P.Sound) {v : Value} (built : v.Built)
    (succeeds : v.renderAlone.failure = none) :
    let d := v.renderAlone.host.document
    v.DepictedAlone P (d.appearance Target.isAttribute (d.children body)) := by
  obtain ⟨made, length, builtAll⟩ := Renderer.parts_built built
  have empty : Block ({} : Host).document body [] [] [] := Edited.empty.closed.block rfl
  have room : Renderer.makeRoom v.parts.1 body {} {} = ⟨{}, {}, none⟩ := rfl
  have ends : v.renderAlone.Ends
      (fun _ h' => ∃ forest, Rewrites ({} : Host).document h'.document body [] [] forest [] ∧
        v.DepictedAlone P (Subtree.shapes Target.isAttribute forest))
      (fun _ _ => True) := by
    rw [renderAlone, Renderer.render_eq, room]
    show ((Renderer.settle v.parts.1 body {} {}).andThen (Renderer.patchMounted v.parts.2 body) id).Ends
      _ _
    have settle : Renderer.settle v.parts.1 body {} {} = Patched.attempt (mount v.parts.1.skeleton body)
        (fun r => Renderer.put body ⟨v.parts.1, r.2, r.1⟩ {}) {} {} := rfl
    rw [Patched.ends_andThen, settle, Patched.ends_attempt]
    have table := patchPlaces_fills sound v.parts.2 builtAll length (k := 0) rfl
    refine (mount_fills sound made table empty).mono ?_ fun _ _ => trivial
    rintro ⟨tops, places⟩ h₁ filled
    rw [Renderer.patchMounted, Renderer.mounted?_put]
    dsimp only
    rw [Patched.ends_map]
    exact filled
  obtain ⟨forest, w, depicted⟩ := ends.of_none succeeds
  have block := w.block empty
  have hchildren : v.renderAlone.host.document.children body = roots forest := by
    simpa using block.children_eq
  dsimp only
  rw [hchildren, block.appearance]
  exact depicted

end

end LiveTemplate
