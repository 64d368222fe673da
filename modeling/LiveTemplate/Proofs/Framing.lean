import LiveTemplate.Proofs.Ownership
import LiveTemplate.Proofs.Repeating
import LiveTemplate.Proofs.Tracing

/-!
# What a place may change

A table is patched with values of which all but one are shown already. Then only the place of
that one takes a step. A place at an attribute changes the data of its element, or, for
markup, takes out the children of the element and puts new ones in. A place of content
changes what stands in front of its marker. All other nodes that are there stay as they are,
whether the patch comes to its end or not.
-/
namespace LiveTemplate
open Document Subtree Live Patched

/-! ### Frames -/

section
variable {d d' : Document} {n : NodeId}

/-- The attributes, properties and listeners of an element may have changed, and nothing
else. -/
structure Document.Dressed (n : NodeId) (d d' : Document) : Prop where
  element : ∃ data data' parent children, d.record? n = some ⟨.element data, parent, children⟩ ∧
    d'.record? n = some ⟨.element data', parent, children⟩ ∧ data'.tag = data.tag
  others : ∀ m, m ≠ n → d'.record? m = d.record? m

/-- The children of an element may be others. Those that are not among them any more have no
parent, and all else is as it was. -/
structure Document.Refilled (n : NodeId) (d d' : Document) : Prop where
  element : ∃ data parent children children', d.record? n = some ⟨.element data, parent, children⟩ ∧
    d'.record? n = some ⟨.element data, parent, children'⟩
  child : ∀ m ∈ d.children n, m ∈ d'.children n ∧ d'.record? m = d.record? m ∨
    m ∉ d'.children n ∧ d'.record? m = (d.record? m).map fun r => { r with parent := none }
  others : ∀ m : Nat, m < d.nodes.size → m ≠ n → m ∉ d.children n → d'.record? m = d.record? m

/-- In front of a marker stands the forest of an item. It may have become another one, and no
node has changed but those of the forest, and in its children the parent of the marker. -/
def Document.Respaced (marker : NodeId) (item : Item) (d d' : Document) : Prop :=
  ∃ parent kind above before f f' behind,
    d.record? parent = some ⟨kind, above, before ++ roots f ++ marker :: behind⟩ ∧
    d'.record? parent = some ⟨kind, above, before ++ roots f' ++ marker :: behind⟩ ∧
    HoldsAll d parent f ∧ Fits .blind True item.shown item.content f ∧
    ∀ m : Nat, m < d.nodes.size → m ≠ parent → m ∉ idsAll f → d'.record? m = d.record? m

/-- What patching a place may change of the nodes that are there. -/
def Place.Frames (d d' : Document) : Place → Prop
  | .vacant => ∀ m : Nat, m < d.nodes.size → d'.record? m = d.record? m
  | .attribute n b _ => if b = .markup then Refilled n d d' else Dressed n d d'
  | .content marker item => Respaced marker item d d'

theorem Document.Dressed.refl {data : ElementData} (h : d.element? n = some data) :
    Dressed n d d := by
  obtain ⟨⟨kind, parent, children⟩, hr, rfl⟩ := element?_eq_some.1 h
  exact ⟨⟨_, _, _, _, hr, hr, rfl⟩, fun _ _ => rfl⟩

theorem Document.Dressed.withElement {data data' : ElementData} (h : d.element? n = some data)
    (tag : data'.tag = data.tag) : Dressed n d (d.withElement n data') := by
  obtain ⟨⟨kind, parent, children⟩, hr, rfl⟩ := element?_eq_some.1 h
  refine ⟨⟨data, data', parent, children, hr, ?_, tag⟩, fun m hm => ?_⟩
  · simp [Document.withElement, record?_update, hr]
  · simp [Document.withElement, record?_update, hm]

theorem Document.Refilled.refl {data : ElementData} (h : d.element? n = some data) :
    Refilled n d d := by
  obtain ⟨⟨kind, parent, children⟩, hr, rfl⟩ := element?_eq_some.1 h
  exact ⟨⟨_, _, _, _, hr, hr⟩, fun m hm => .inl ⟨hm, rfl⟩, fun _ _ _ _ => rfl⟩

end

namespace Live
variable {α : Type} {m : HostM α} {h h₁ h' : Host} {n : NodeId} {kids kids' : List Subtree}
  {next prev : Value} {b : Binding}

/-! ### Markup -/

theorem Runs.left {P : Host → Prop} (r : Runs m h (fun _ => P) P) : P (left m h) := by
  unfold Runs at r
  unfold Live.left
  cases hr : m h with
  | ok a h' => simpa only [hr] using r
  | error e h' =>
    rw [hr] at r
    exact r.2

/-- The children of a node lose it as their parent, one after the other. -/
theorem removeAll_detaches (b : Block h.document n [] kids []) :
    ∃ h₁, Host.removeAll (roots kids) h = .ok () h₁ ∧
      Rewrites h.document h₁.document n [] kids [] [] ∧
      ∀ m, m ≠ n → h₁.document.record? m =
        if m ∈ roots kids then (h.document.record? m).map fun r => { r with parent := none }
        else h.document.record? m := by
  induction kids generalizing h with
  | nil => exact ⟨h, rfl, .refl b, fun m _ => by simp⟩
  | cons t rest ih =>
    have hp : h.document.parent? t.root = some n := b.holds.parent_eq (by simp)
    have hne : t.root ≠ n := fun heq =>
      b.parent_notMem (heq ▸ roots_subset _ (by simp : t.root ∈ roots (t :: rest)))
    have fresh : t.root ∉ roots rest := fun hm => by
      have nodup := b.nodup
      rw [idsAll_cons, List.nodup_append] at nodup
      exact nodup.2.2 _ (root_mem_ids t) _ (roots_subset _ hm) rfl
    have whole : Rewrites h.document h.document n [] (t :: rest) ([] ++ t :: rest) [] := .refl b
    obtain ⟨hok, w⟩ := Rewrites.remove b whole
    obtain ⟨h₁, run, w₁, records⟩ := @ih { h with document := h.document.detach t.root } (w.block b)
    have first : Host.remove t.root h = .ok () { h with document := h.document.detach t.root } := by
      rw [Host.remove, Host.edit, hok]
    refine ⟨h₁, (bind_ok first).trans run, w.trans w₁, fun m hm => ?_⟩
    rw [records m hm, record?_detach hp hne, if_neg hm]
    by_cases heq : m = t.root
    · subst heq
      simp [fresh]
    · simp [heq]

/-- Markup is put into an element after all of its children have been taken out. -/
theorem showMarkup_eq {text : String} (removed : Host.removeChildren n h = .ok () h₁)
    (none : h₁.document.children n = []) : showMarkup n text h = showMarkup n text h₁ := by
  have again : Host.removeChildren n h₁ = .ok () h₁ := by
    show (Host.removeAll (h₁.document.children n)) h₁ = _
    rw [none]
    rfl
  rw [showMarkup, fillMarkup, bind_ok removed, bind_ok again]

/-- What has been taken out of an element stays as it is while new nodes are put in. -/
theorem refilled_of_rewrites {d d₁ d' : Document} (b : Block d n [] kids [])
    (w : Rewrites d d₁ n [] kids [] [])
    (detached : ∀ m, m ≠ n → d₁.record? m =
      if m ∈ roots kids then (d.record? m).map fun r => { r with parent := none }
      else d.record? m)
    (w' : Rewrites d₁ d' n [] [] kids' []) {data : ElementData} (he : d.element? n = some data) :
    Refilled n d d' := by
  obtain ⟨⟨kind, parent, children⟩, hr, rfl⟩ := element?_eq_some.1 he
  have hc : d.children n = roots kids := by simpa using b.children_eq
  have hr' := w'.record _ (w.record _ hr)
  have hc' : d'.children n = roots kids' := by simpa using children_of_record hr'
  have same : ∀ m : Nat, m < d.nodes.size → m ≠ n → d'.record? m = d₁.record? m := fun m hm hne =>
    w'.others m (Nat.lt_of_lt_of_le hm w.size_le) hne (by simp)
  refine ⟨⟨data, parent, children, _, hr, hr'⟩, fun m hm => .inr ?_, fun m hm hne hnot => ?_⟩
  · rw [hc] at hm
    have hlt := b.holds.lt_size m (roots_subset _ hm)
    have hne : m ≠ n := fun heq => b.parent_notMem (heq ▸ roots_subset _ hm)
    refine ⟨fun h => ?_, by rw [same m hlt hne, detached m hne, if_pos hm]⟩
    rw [hc'] at h
    rcases w'.fresh m (roots_subset _ h) with h | h
    · simp at h
    · have := w.size_le
      omega
  · rw [hc] at hnot
    rw [same m hm hne, detached m hne, if_neg hnot]

theorem replaceMarkup_refills (b : Block h.document n [] kids []) {data : ElementData}
    (he : h.document.element? n = some data) :
    Refilled n h.document (left (replaceMarkup n next) h).document := by
  obtain ⟨h₁, run, w, detached⟩ := removeAll_detaches b
  have hc : h.document.children n = roots kids := by simpa using b.children_eq
  have removed : Host.removeChildren n h = .ok () h₁ := by
    show (Host.removeAll (h.document.children n)) h = _
    rw [hc, run]
  unfold replaceMarkup
  split
  · rw [left, removed]
    exact refilled_of_rewrites b w detached (.refl (w.block b)) he
  · have none : h₁.document.children n = [] := by simpa using (w.block b).children_eq
    have shown : Runs (showMarkup n next.toText) h₁
        (fun _ h' => ∃ kids', Rewrites h₁.document h'.document n [] [] kids' [])
        (fun h' => ∃ kids', Rewrites h₁.document h'.document n [] [] kids' []) :=
      (showMarkup_fills (fun _ => false) [] h₁ n next.toText (w.block b)).mono
        (fun _ _ filled => filled.imp fun _ w => w.1) fun _ filled => filled.imp fun _ w => w.1
    obtain ⟨kids', w'⟩ := shown.left
    rw [left, showMarkup_eq removed none, ← left]
    exact refilled_of_rewrites b w detached w' he

/-! ### One place -/

theorem Patched.Ends.host {β : Type} {r : Patched β} {P : Host → Prop}
    (e : r.Ends (fun _ => P) fun _ => P) : P r.host := by
  unfold Patched.Ends at e
  split at e
  · exact e
  · exact e.2

theorem attempt_host {β : Type} {done : α → β} {kept : β} :
    (attempt m done kept h).host = left m h := by
  simp only [attempt, left, EStateM.run]
  cases m h <;> rfl

theorem updateItem_host {patch : Content → Host → Patched Content} {item : Item} :
    (updateItem patch item next h).host =
      if item.shown.same next then h else (patch item.content h).host := by
  unfold updateItem
  split
  · rfl
  · unfold Patched.andThen
    split <;> rfl

theorem apply_dresses (hb : b ≠ .markup) (built : next.Built) (builtPrev : prev.Built)
    (writable : Writable b prev) {data : ElementData} (he : h.document.element? n = some data) :
    Dressed n h.document (left (apply n b prev next) h).document := by
  have run : Runs (apply n b prev next) h
      (fun _ h' => Dressed n h.document h'.document)
      (fun h' => Dressed n h.document h'.document) := by
    refine (apply_turns n next built b hb prev builtPrev writable h data he).mono ?_ ?_
    · rintro _ h' ⟨data', heq, turns, -⟩
      exact heq ▸ .withElement he turns.tag
    · rintro h' ⟨data', heq, spoils, -⟩
      exact heq ▸ .withElement he spoils.tag
  exact run.left

theorem respaced_of_rewrites {d d' : Document} {parent marker : NodeId}
    {before behind : List NodeId} {f f' : List Subtree} {item : Item}
    (b : Block d parent before f (marker :: behind))
    (w : Rewrites d d' parent before f f' (marker :: behind))
    (fits : Fits .blind True item.shown item.content f) : Respaced marker item d d' := by
  obtain ⟨⟨kind, above, children⟩, hr, rfl⟩ := b.record
  exact ⟨parent, kind, above, before, f, f', behind, hr, w.record _ hr, b.holds, fits, w.others⟩

section
variable {shared : SharedSkeleton} {ss : List Stem} {data : NodeId → ElementData}
  {fill : NodeId → List Subtree} {places : List Place} {k : Nat} {p : Place} {parent : NodeId}
  {before behind : List NodeId} {values : List Value}

/-- A value is shown at the place of an attribute, or fails to be. -/
theorem attribute_frames (blk : Block h.document parent before (Stem.assembleAll data fill ss) behind)
    (t : TableFits .blind (fun _ => True) (fun _ _ => True) shared ss data fill places)
    (hk : places[k]? = some (.attribute n b prev)) (built : next.Built) :
    (Place.attribute n b prev).Frames h.document
      (updatePlace (fun marker c h => patchContent marker c next h) (.attribute n b prev) next
        h).host.document := by
  obtain ⟨tag, attrs, he, -⟩ := t.seated.element_of hk
  obtain ⟨q, before', kids, behind', plug, f⟩ := Stem.focusAll_element ss blk _ he
  have hdata : h.document.element? n = some (data n) :=
    element?_eq_some.2 ⟨_, f.focus.block.holds.1.1, rfl⟩
  obtain ⟨builtPrev, applicable⟩ := t.sound k _ hk prev rfl
  have applicable : Applicable b prev := applicable
  simp only [Place.Frames, updatePlace]
  by_cases hb : b = .markup
  · subst hb
    rw [if_pos rfl]
    split
    · exact .refl hdata
    · have happly : apply n .markup prev next = replaceMarkup n next := by cases next <;> rfl
      rw [attempt_host, happly]
      exact replaceMarkup_refills
        (f.focus.block.inside (Stem.container_of_element f.focus.block)) hdata
  · rw [if_neg hb]
    rw [Applicable, if_neg hb] at applicable
    split
    · exact .refl hdata
    · rw [attempt_host]
      exact apply_dresses hb built builtPrev applicable hdata

/-- A value is shown in front of a marker, or fails to be. -/
theorem content_frames {marker : NodeId} {item : Item}
    (blk : Block h.document parent before (Stem.assembleAll data fill ss) behind)
    (t : TableFits .blind (fun _ => True) (fun _ _ => True) shared ss data fill places)
    (contents : PlacesFit .blind (fun _ => True) fill places)
    (hk : places[k]? = some (.content marker item)) (built : next.Built) :
    (Place.content marker item).Frames h.document
      (updatePlace (fun marker c h => patchContent marker c next h) (.content marker item) next
        h).host.document := by
  obtain ⟨q, before', rest, f⟩ := Stem.focusAll_marker ss blk _ (t.seated.marker_of hk)
  have fits := contents k marker item hk
  have ends : (patchContent marker item.content next h).Ends
      (fun _ h' => ∃ g, Rewrites h.document h'.document q before' (fill marker) g (marker :: rest))
      (fun _ h' => ∃ g, Rewrites h.document h'.document q before' (fill marker) g (marker :: rest)) :=
    (patchContent_ends .blind next built f.block rfl fits (placeWithin_blind k (.content marker item))).mono
      (fun _ _ turned => turned.1.imp fun _ w => w.1) fun _ _ turned => turned.1.imp fun _ w => w.1
  simp only [Place.Frames, updatePlace, Patched.map, updateItem_host]
  split
  · exact respaced_of_rewrites f.block (.refl f.block) fits
  · obtain ⟨g, w⟩ := ends.host
    exact respaced_of_rewrites f.block w fits

/-! ### A table of which one place changes -/

/-- Where all other values are shown already, only one place takes a step. -/
theorem patchPlaces_alone (length : values.length = places.length)
    (rests : ∀ (i : Nat) (p : Place), i ≠ k → places[i]? = some p →
      PlaceRests p (Markup.valueAt values i)) :
    (patchPlaces places values h).host =
      match places[k]? with
      | none => h
      | some p => (updatePlace (fun marker c h => patchContent marker c (Markup.valueAt values k) h) p
          (Markup.valueAt values k) h).host := by
  induction places generalizing values k h with
  | nil =>
    obtain rfl := List.length_eq_zero_iff.1 length
    rfl
  | cons p rest ih =>
    obtain ⟨next, values, rfl⟩ := List.exists_cons_of_length_eq_add_one length
    have length : values.length = rest.length := by simpa using length
    show (Patched.andThen _ _ _).host = _
    unfold Patched.andThen
    cases k with
    | zero =>
      split
      · exact (patchPlaces_leaves fun i p hp => rests (i + 1) p (by simp) hp).2
      · rfl
    | succ k =>
      obtain ⟨fine, same⟩ := (rests 0 p (by simp) rfl h).1
      have fine : (updatePlace (fun marker c h => patchContent marker c next h) p next h).failure =
        none := fine
      have same : (updatePlace (fun marker c h => patchContent marker c next h) p next h).host = h :=
        same
      simp only [fine, same]
      exact ih length fun i p hi hp => rests (i + 1) p (by omega) hp

/-- What a patch changes is what the place of the one value may change, if there is one. -/
theorem patchPlaces_frames
    (blk : Block h.document parent before (Stem.assembleAll data fill ss) behind)
    (t : TableFits .blind (fun _ => True) (fun _ _ => True) shared ss data fill places)
    (contents : PlacesFit .blind (fun _ => True) fill places)
    (length : values.length = places.length) (built : (Markup.valueAt values k).Built)
    (rests : ∀ (i : Nat) (p : Place), i ≠ k → places[i]? = some p →
      PlaceRests p (Markup.valueAt values i)) :
    (∀ p, places[k]? = some p →
      p.Frames h.document (patchPlaces places values h).host.document) ∧
    (places[k]? = none → (patchPlaces places values h).host = h) := by
  rw [patchPlaces_alone length rests]
  constructor
  · intro p hk
    rw [hk]
    rcases p with _ | ⟨n, b, v⟩ | ⟨marker, item⟩
    · exact fun _ _ => rfl
    · exact attribute_frames blk t hk built
    · exact content_frames blk t contents hk built
  · intro hk
    rw [hk]

end

/-! ### Values that are missing -/

/-- So many values: those behind the given ones are absent. -/
def fitted : Nat → List Value → List Value
  | 0, _ => []
  | count + 1, [] => .null :: fitted count []
  | count + 1, v :: values => v :: fitted count values

section
variable {count : Nat} {values : List Value}

@[simp] theorem length_fitted : (fitted count values).length = count := by
  induction count generalizing values with
  | zero => rfl
  | succ count ih => cases values <;> simp [fitted, ih]

theorem valueAt_fitted {i : Nat} (hi : i < count) :
    Markup.valueAt (fitted count values) i = Markup.valueAt values i := by
  induction count generalizing values i with
  | zero => omega
  | succ count ih =>
    cases values <;> cases i <;> simp_all [fitted, Markup.valueAt]

theorem builtAll_fitted (built : Value.BuiltAll values) : Value.BuiltAll (fitted count values) := by
  induction count generalizing values with
  | zero => trivial
  | succ count ih =>
    cases values with
    | nil => exact ⟨trivial, ih built⟩
    | cons v values => exact ⟨built.1, ih built.2⟩

theorem retract_eq (n : NodeId) (b : Binding) (v : Value) : retract n b v = apply n b v .null := by
  cases v <;> cases b <;> rfl

/-- To withdraw a place is to show an absent value there. -/
theorem withdraw_eq (p : Place) (h : Host) :
    withdraw p h = updatePlace (fun marker c h => patchContent marker c .null h) p .null h := by
  rcases p with _ | ⟨n, b, v⟩ | ⟨marker, ⟨v, c⟩⟩
  · rfl
  · simp only [withdraw, updatePlace, retract_eq]
  · simp only [withdraw, updatePlace, updateItem]
    by_cases same : v.same .null = true
    · have shown : (Item.mk v c).shown.same .null = true := same
      simp only [if_pos same, if_pos shown]
      rfl
    · have shown : ¬(Item.mk v c).shown.same .null = true := same
      simp only [if_neg same, if_neg shown, patchContent, attempt, EStateM.run, Item.content]
      cases clear c h <;> rfl

/-- Places without a value are patched with an absent one. -/
theorem patchPlaces_fitted (places : List Place) (values : List Value) (h : Host) :
    patchPlaces places values h = patchPlaces places (fitted places.length values) h := by
  induction places generalizing values h with
  | nil => cases values <;> rfl
  | cons p rest ih =>
    cases values with
    | nil =>
      have tail : ∀ h, withdrawAll rest h = patchPlaces rest (fitted rest.length []) h := ih []
      show withdrawAll (p :: rest) h = patchPlaces (p :: rest) (.null :: fitted rest.length []) h
      simp only [withdrawAll, patchPlaces, withdraw_eq, tail]
    | cons v values =>
      show _ = patchPlaces (p :: rest) (v :: fitted rest.length values) h
      simp only [patchPlaces, ← ih]

end

end Live

end LiveTemplate
