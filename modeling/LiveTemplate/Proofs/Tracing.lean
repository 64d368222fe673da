import LiveTemplate.Live.Renderer
import LiveTemplate.Proofs.InPlace
import LiveTemplate.Proofs.Viewing

/-!
# The edits of a render

Whatever a renderer does to a document comes down to edits, one after the other. Only nodes
that it has made itself are ever put anywhere; a node that was there before stays where it
is, or is taken out for good. So a node that is found in its place at the end has been there
all the time.
-/
namespace LiveTemplate
open Document Live

/-! ### Edits that put new nodes only -/

/-- No node of the first ones is put anywhere. -/
def Primitive.PutsNew (count : Nat) : Primitive → Prop
  | .appendChild _ (id : Nat) => count ≤ id
  | .insertBefore (id : Nat) _ => count ≤ id
  | _ => True

/-- An edit that succeeds and puts new nodes only. -/
def Document.EditsOnce (count : Nat) (d d' : Document) : Prop :=
  ∃ p : Primitive, p.PutsNew count ∧ p.edit d = .ok d'

def Document.Edits (count : Nat) : Document → Document → Prop :=
  Relation.ReflTransGen (EditsOnce count)

section
variable {d d' d'' : Document} {count : Nat} {p : Primitive}

namespace Document

/-- Nodes of the same number, each with the same parent and the same children. -/
def Shaped (d d' : Document) : Prop :=
  d'.nodes.size = d.nodes.size ∧ (∀ n, d'.parent? n = d.parent? n) ∧
    ∀ n, d'.children n = d.children n

theorem shaped_update {id : NodeId} {f : NodeRecord → NodeRecord}
    (hp : ∀ r, (f r).parent = r.parent) (hc : ∀ r, (f r).children = r.children) :
    Shaped d (d.update id f) :=
  ⟨size_update .., parent?_update hp, children_update hc⟩

theorem shaped_updateElement {id : NodeId} {f : ElementData → ElementData}
    (h : d.updateElement id f = .ok d') : Shaped d d' := by
  unfold updateElement at h
  split at h
  · contradiction
  · rw [← Except.ok.inj h]
    exact shaped_update (fun _ => rfl) fun _ => rfl
  · contradiction

theorem shaped_setText {id : NodeId} {text : String} (h : d.setText id text = .ok d') :
    Shaped d d' := by
  unfold setText at h
  split at h
  · contradiction
  · rw [← Except.ok.inj h]
    exact shaped_update (fun _ => rfl) fun _ => rfl
  · contradiction

theorem parent?_create (kind : NodeKind) (n : NodeId) :
    (d.create kind).2.parent? n = d.parent? n := by
  rw [parent?, record?_create, parent?]
  split
  next hn => simp [hn, record?]
  · rfl

theorem children_create (kind : NodeKind) (n : NodeId) :
    (d.create kind).2.children n = d.children n := by
  rw [children, record?_create, children]
  split
  next hn => simp [hn, record?]
  · rfl

theorem size_takeOut (id : NodeId) (kind : NodeKind) :
    (d.takeOut id kind).2.nodes.size = d.nodes.size := by
  cases kind with
  | fragment => exact size_update ..
  | element data => exact size_detach ..
  | text data => exact size_detach ..
  | marker => exact size_detach ..

theorem size_insert {parent id : NodeId} {reference : Option NodeId}
    (h : d.insert parent reference id = .ok d') : d'.nodes.size = d.nodes.size := by
  unfold insert at h
  split at h
  · contradiction
  · split at h
    · contradiction
    · rw [← Except.ok.inj h, updateChildren, size_update, size_foldl_setParent]
      exact size_takeOut ..

/-- What an insertion moves is the node or was below it. -/
theorem Consistent.parent?_insert (c : Consistent d) {parent id : NodeId}
    {reference : Option NodeId} (h : d.insert parent reference id = .ok d') (n : NodeId)
    (hn : n ≠ id) (below : d.parent? n ≠ some id) : d'.parent? n = d.parent? n := by
  obtain ⟨moved, w, -, -, can⟩ := c.insert_moves h
  rw [w.parent, if_neg]
  intro hm
  rcases (can n hm).1 with rfl | hc
  · exact hn rfl
  · exact below ((c.mem_children id n).1 hc)

/-- An insertion in front of a node is one into its parent, or none at all. -/
theorem insertBefore_cases {id reference : NodeId} (h : d.insertBefore id reference = .ok d') :
    d' = d ∨ ∃ parent, d.insert parent (some reference) id = .ok d' := by
  unfold insertBefore at h
  split at h
  · contradiction
  · split at h
    · contradiction
    · split at h
      · exact .inl (Except.ok.inj h).symm
      · split at h
        · contradiction
        · exact .inr ⟨_, h⟩

end Document

namespace Primitive

/-- An edit makes a node, puts one somewhere, takes one out, or leaves all of them where
they are. -/
theorem edit_cases (h : p.edit d = .ok d') :
    (∃ kind, d' = (d.create kind).2) ∨
      (∃ parent reference id, (∀ count : Nat, p.PutsNew count → count ≤ id) ∧
        d.insert parent reference id = .ok d') ∨
      (∃ id, d' = d.detach id) ∨ Shaped d d' := by
  cases p with
  | createElement tag =>
      simp only [edit, Document.createElement] at h
      split at h
      · exact .inl ⟨_, (Except.ok.inj h).symm⟩
      · contradiction
  | createText text => exact .inl ⟨_, (Except.ok.inj h).symm⟩
  | createMarker => exact .inl ⟨_, (Except.ok.inj h).symm⟩
  | createFragment => exact .inl ⟨_, (Except.ok.inj h).symm⟩
  | appendChild parent id => exact .inr (.inl ⟨parent, none, id, fun _ new => new, h⟩)
  | insertBefore id reference =>
      rcases insertBefore_cases h with rfl | ⟨parent, h⟩
      · exact .inr (.inr (.inr ⟨rfl, fun _ => rfl, fun _ => rfl⟩))
      · exact .inr (.inl ⟨parent, some reference, id, fun _ new => new, h⟩)
  | remove id =>
      simp only [edit, Document.remove] at h
      split at h
      · exact .inr (.inr (.inl ⟨id, (Except.ok.inj h).symm⟩))
      · contradiction
  | setAttribute id name value =>
      simp only [edit, Document.setAttribute] at h
      split at h
      · exact .inr (.inr (.inr (shaped_updateElement h)))
      · contradiction
  | removeAttribute id name => exact .inr (.inr (.inr (shaped_updateElement h)))
  | setProperty id name v => exact .inr (.inr (.inr (shaped_updateElement h)))
  | addListener id event callback => exact .inr (.inr (.inr (shaped_updateElement h)))
  | removeListener id event callback => exact .inr (.inr (.inr (shaped_updateElement h)))
  | setText id text => exact .inr (.inr (.inr (shaped_setText h)))

theorem size_le (h : p.edit d = .ok d') : d.nodes.size ≤ d'.nodes.size := by
  rcases edit_cases h with ⟨kind, rfl⟩ | ⟨parent, reference, id, -, h⟩ | ⟨id, rfl⟩ | shaped
  · rw [size_create]
    omega
  · exact (size_insert h).ge
  · exact (size_detach id d).ge
  · exact shaped.1.ge

/-- The parents of the first nodes are among these. -/
def Low (count : Nat) (d : Document) : Prop :=
  ∀ n q : Nat, n < count → d.parent? n = some q → q < count

theorem Low.of_parent (low : Low count d)
    (same : ∀ n : Nat, n < count → d'.parent? n = d.parent? n ∨ d'.parent? n = none) :
    Low count d' := by
  intro n q hn hq
  rcases same n hn with same | none
  · exact low n q hn (same ▸ hq)
  · rw [none] at hq
    contradiction

/-- One of the first nodes keeps its parent or is taken out. -/
theorem edit_parent (c : d.Consistent) (low : Low count d) (new : p.PutsNew count)
    (h : p.edit d = .ok d') (n : Nat) (hn : n < count) :
    d'.parent? n = d.parent? n ∨ d'.parent? n = none := by
  rcases edit_cases h with ⟨kind, rfl⟩ | ⟨parent, reference, id, young, h⟩ | ⟨id, rfl⟩ | shaped
  · exact .inl (parent?_create kind n)
  · have hid := young count new
    left
    apply c.parent?_insert h
    · rintro rfl
      omega
    · intro hp
      have := low n id hn hp
      omega
  · rw [(c.detach_moves id).parent]
    split
    · exact .inr rfl
    · exact .inl rfl
  · exact .inl (shaped.2.1 n)

end Primitive

/-! ### What stays along the edits -/

namespace Document.Edits

theorem trans (e : d.Edits count d') (e' : d'.Edits count d'') : d.Edits count d'' :=
  Relation.ReflTransGen.trans e e'

theorem consistent (c : d.Consistent) (e : d.Edits count d') : d'.Consistent := by
  induction e with
  | refl => exact c
  | tail _ once ih =>
      obtain ⟨p, -, h⟩ := once
      exact Primitive.edit_consistent ih h

theorem size_le (e : d.Edits count d') : d.nodes.size ≤ d'.nodes.size := by
  induction e with
  | refl => exact le_rfl
  | tail _ once ih =>
      obtain ⟨p, -, h⟩ := once
      exact Nat.le_trans ih (Primitive.size_le h)

/-- Of the first nodes each keeps its parent, or is taken out for good. -/
theorem parent (c : d.Consistent) (low : Primitive.Low count d) (e : d.Edits count d') :
    ∀ n : Nat, n < count → d'.parent? n = d.parent? n ∨ d'.parent? n = none := by
  induction e with
  | refl => exact fun n _ => .inl rfl
  | @tail d₁ d₂ e once ih =>
      obtain ⟨p, new, h⟩ := once
      intro n hn
      rcases Primitive.edit_parent (consistent c e) (low.of_parent ih) new h n hn with same | none
      · rw [same]
        exact ih n hn
      · exact .inr none

end Document.Edits

end

/-! ### Steps -/

namespace Live
variable {α β : Type} {count : Nat}

/-- The host that is left by a step, whether it fails or not. -/
def left (m : HostM α) (h : Host) : Host :=
  match m h with
  | .ok _ h' => h'
  | .error _ h' => h'

/-- A step comes down to edits that put new nodes only, if the first ones are there. -/
def Traces (count : Nat) (m : HostM α) : Prop :=
  ∀ h : Host, count ≤ h.document.nodes.size → h.document.Edits count (left m h).document

namespace Traces
variable {m : HostM α} {f : α → HostM β}

theorem pure {a : α} : Traces count (Pure.pure a : HostM α) := fun _ _ => .refl

theorem get : Traces count (get : HostM Host) := fun _ _ => .refl

theorem bind (hm : Traces count m) (hf : ∀ a, Traces count (f a)) : Traces count (m >>= f) := by
  intro h le
  have first := hm h le
  cases hr : m h with
  | ok a h₁ =>
      simp only [left, hr] at first
      have := hf a h₁ (Nat.le_trans le first.size_le)
      rw [left, bind_ok hr]
      exact first.trans this
  | error e h₁ =>
      simp only [left, hr] at first
      rw [left, bind_error hr]
      exact first

/-- A step that does nothing to the document. -/
theorem modify {g : Host → Host} (same : ∀ h, (g h).document = h.document) :
    Traces count (modify g : HostM Unit) := by
  intro h _
  show h.document.Edits count (g h).document
  rw [same]
  exact .refl

/-- An edit that puts no old node anywhere. -/
theorem edit (p : Primitive) (new : p.PutsNew count) : Traces count (Host.edit p.edit) := by
  intro h _
  rw [left, Host.edit]
  cases hp : p.edit h.document with
  | ok d => exact .single ⟨p, new, hp⟩
  | error e => exact .refl

/-- A new node may be put anywhere. -/
theorem create {kind : NodeKind} {f : NodeId → HostM β} (p : Primitive)
    (new : p.PutsNew count) (hp : ∀ d, p.edit d = .ok (d.create kind).2)
    (hf : ∀ n : Nat, count ≤ n → Traces count (f n)) : Traces count (Host.create kind >>= f) := by
  intro h le
  have first : h.document.Edits count (h.document.create kind).2 := .single ⟨p, new, hp _⟩
  have rest := hf h.document.nodes.size le ⟨(h.document.create kind).2, h.cells, h.calls⟩
    (Nat.le_trans le first.size_le)
  exact first.trans rest

theorem createElement {tag : String} {f : NodeId → HostM β}
    (hf : ∀ n : Nat, count ≤ n → Traces count (f n)) :
    Traces count (Host.createElement tag >>= f) := by
  intro h le
  cases hd : h.document.createElement tag with
  | error e =>
      have run : Host.createElement tag h = .error e h := by rw [Host.createElement, hd]
      rw [left, bind_error run]
      exact .refl
  | ok r =>
      obtain ⟨n, d⟩ := r
      have run : Host.createElement tag h = .ok n { h with document := d } := by
        rw [Host.createElement, hd]
      have first : h.document.Edits count d :=
        .single ⟨.createElement tag, trivial, by simp [Primitive.edit, hd, Except.map]⟩
      have young : count ≤ (n : Nat) := by
        unfold Document.createElement at hd
        split at hd
        · obtain ⟨rfl, -⟩ := Prod.mk.inj (Except.ok.inj hd)
          exact le
        · contradiction
      rw [left, bind_ok run]
      exact first.trans (hf n young { h with document := d } (Nat.le_trans le first.size_le))

theorem appendChild {parent : NodeId} {n : Nat} (young : count ≤ n) :
    Traces count (Host.appendChild parent n) := edit (.appendChild parent n) young

theorem insertBefore {reference : NodeId} {n : Nat} (young : count ≤ n) :
    Traces count (Host.insertBefore n reference) := edit (.insertBefore n reference) young

theorem remove (n : NodeId) : Traces count (Host.remove n) := edit (.remove n) trivial

theorem removeAll (ids : List NodeId) : Traces count (Host.removeAll ids) := by
  unfold Host.removeAll
  rw [List.forM_eq_forM]
  induction ids with
  | nil => exact .pure
  | cons n rest ih =>
      rw [List.forM_cons]
      exact (remove n).bind fun _ => ih

theorem removeChildren (n : NodeId) : Traces count (Host.removeChildren n) :=
  get.bind fun _ => removeAll _

theorem removeRange (first last : NodeId) : Traces count (Host.removeRange first last) :=
  get.bind fun _ => removeAll _

end Traces

/-! ### Mounting -/

theorem writeDirect_traces (node : NodeId) (binding : Binding) (prev next : Value) :
    Traces count (writeDirect node binding prev next) := by
  unfold writeDirect
  split
  · split
    · exact .edit (.removeAttribute ..) trivial
    · exact .edit (.setAttribute ..) trivial
  · split
    · exact .edit (.setAttribute ..) trivial
    · exact .edit (.removeAttribute ..) trivial
  · exact .edit (.setProperty ..) trivial
  · dsimp only
    split
    · refine (Traces.edit (.removeListener ..) trivial).bind fun _ => ?_
      split
      · exact .edit (.addListener ..) trivial
      · exact .pure
    · split
      · exact .edit (.addListener ..) trivial
      · exact .pure
  · split
    · exact .modify fun _ => rfl
    · exact .modify fun _ => rfl
    · exact .pure
  · exact .pure
  · exact .pure

section
variable {fill : NodeId → String → HostM Unit}

theorem mountAttributes_traces (hfill : ∀ n s, Traces count (fill n s)) (node : NodeId)
    (attrs : Attributes) : Traces count (mountAttributes fill node attrs) := by
  induction attrs with
  | nil => exact .pure
  | cons a rest ih =>
      unfold mountAttributes
      split
      · exact ih
      · exact (hfill _ _).bind fun _ => ih
      · exact (writeDirect_traces _ _ _ _).bind fun _ => ih
      · exact ih.bind fun _ => .pure

mutual
theorem mountNode_traces (hfill : ∀ n s, Traces count (fill n s)) (parent : NodeId) :
    (n : Node) → Traces count (mountNode fill parent n)
  | .element tag attrs children => by
      unfold mountNode
      refine .createElement fun node young => ?_
      refine (Traces.appendChild young).bind fun _ => ?_
      refine (mountAttributes_traces hfill node attrs).bind fun bound => ?_
      split
      · exact .pure
      · exact (mountNodes_traces hfill node children).bind fun _ => .pure
  | .text data => by
      unfold mountNode
      refine .create (.createText data) trivial (fun _ => rfl) fun node young => ?_
      exact (Traces.appendChild young).bind fun _ => .pure
  | .hole index => by
      unfold mountNode
      refine .create .createMarker trivial (fun _ => rfl) fun node young => ?_
      exact (Traces.appendChild young).bind fun _ => .pure
termination_by structural n => n

theorem mountNodes_traces (hfill : ∀ n s, Traces count (fill n s)) (parent : NodeId) :
    (ns : List Node) → Traces count (mountNodes fill parent ns)
  | [] => .pure
  | n :: rest => by
      unfold mountNodes
      refine (mountNode_traces hfill parent n).bind fun _ => ?_
      exact (mountNodes_traces hfill parent rest).bind fun _ => .pure
termination_by structural ns => ns
end

end

theorem fillMarkup_traces (depth : Nat) (node : NodeId) (markup : String) :
    Traces count (fillMarkup depth node markup) := by
  induction depth generalizing node markup with
  | zero => exact .pure
  | succ depth ih =>
      unfold fillMarkup
      refine (Traces.removeChildren node).bind fun _ => ?_
      split
      · exact (mountNodes_traces ih node _).bind fun _ => .pure
      · exact .create (.createText markup) trivial (fun _ => rfl) fun text young =>
          .appendChild young

theorem showMarkup_traces (node : NodeId) (markup : String) :
    Traces count (showMarkup node markup) := fillMarkup_traces _ node markup

theorem mount_traces (skeleton : Skeleton) (parent : NodeId) :
    Traces count (mount skeleton parent) := by
  unfold mount
  exact (mountNodes_traces showMarkup_traces parent skeleton.nodes).bind fun _ => .pure

/-! ### Applying -/

theorem applySingle_traces (node : NodeId) (binding : Binding) (prev next : Value) :
    Traces count (applySingle node binding prev next) := by
  unfold applySingle
  split
  · unfold replaceMarkup
    split
    · exact .removeChildren node
    · exact showMarkup_traces node _
  · exact writeDirect_traces _ _ _ _

mutual
theorem retract_traces (node : NodeId) (binding : Binding) :
    (prev : Value) → Traces count (retract node binding prev)
  | .attributes handle entries => by
      unfold retract
      split
      · exact retractEntries_traces node [] entries
      · exact applySingle_traces _ _ _ _
  | .null | .bool _ | .number _ | .text _ | .template .. | .list .. | .callback _ | .cell _
  | .payload _ => applySingle_traces _ _ _ _
termination_by structural v => v

theorem retractEntries_traces (node : NodeId) (kept : List String) :
    (entries : List (String × Value)) → Traces count (retractEntries node kept entries)
  | [] => .pure
  | (name, old) :: rest => by
      have others := retractEntries_traces node kept rest
      rw [retractEntries]
      split
      · split
        · exact (retract_traces node _ old).bind fun _ => others
        · exact others
      · exact others
termination_by structural es => es
end

mutual
theorem apply_traces (node : NodeId) (binding : Binding) (prev : Value) :
    (next : Value) → Traces count (apply node binding prev next)
  | .attributes handle entries => by
      unfold apply
      split
      · exact (applyEntries_traces node prev.entries entries).bind fun _ =>
          retractEntries_traces _ _ _
      · exact applySingle_traces _ _ _ _
  | .null | .bool _ | .number _ | .text _ | .template .. | .list .. | .callback _ | .cell _
  | .payload _ => by
      unfold apply
      split
      · exact retractEntries_traces _ _ _
      · exact applySingle_traces _ _ _ _
termination_by structural v => v

theorem applyEntries_traces (node : NodeId) (prev : List (String × Value)) :
    (entries : List (String × Value)) → Traces count (applyEntries node prev entries)
  | [] => .pure
  | (name, next) :: rest => by
      have others := applyEntries_traces node prev rest
      rw [applyEntries]
      dsimp only
      split
      · split
        · exact (apply_traces node _ _ next).bind fun _ => others
        · exact others
      · exact others
termination_by structural es => es
end

/-! ### Clearing -/

mutual
theorem clear_traces : (c : Content) → Traces count (clear c)
  | .empty => .pure
  | .text n => .remove n
  | .nested _ start stop _ => .removeRange start stop
  | .list items => clearItems_traces items
termination_by structural c => c

theorem clearItems_traces : (items : List Item) → Traces count (clearItems items)
  | [] => .pure
  | .mk _ content :: rest => (clear_traces content).bind fun _ => clearItems_traces rest
termination_by structural items => items
end

theorem clearPlaces_traces (places : List Place) : Traces count (clearPlaces places) := by
  induction places with
  | nil => exact .pure
  | cons p rest ih =>
      rcases p with _ | ⟨n, b, v⟩ | ⟨marker, item⟩
      · exact ih
      · exact ih
      · exact (clear_traces item.content).bind fun _ => ih

/-! ### Patches -/

/-- A patch comes down to edits that put new nodes only, if the first ones are there. -/
def Patched.Traces (count : Nat) (r : Host → Patched α) : Prop :=
  ∀ h : Host, count ≤ h.document.nodes.size → h.document.Edits count (r h).host.document

namespace Patched.Traces
variable {r : Host → Patched α}

theorem done {a : α} : Patched.Traces count fun h => ⟨a, h, none⟩ := fun _ _ => .refl

theorem map {f : α → β} (hr : Patched.Traces count r) :
    Patched.Traces count fun h => (r h).map f := hr

theorem andThen {next : α → Host → Patched β} {kept : α → β} (hr : Patched.Traces count r)
    (hnext : ∀ a, Patched.Traces count (next a)) :
    Patched.Traces count fun h => (r h).andThen next kept := by
  intro h le
  have first := hr h le
  dsimp only [Patched.andThen]
  split
  · exact first.trans (hnext _ _ (Nat.le_trans le first.size_le))
  · exact first

theorem attempt {m : HostM α} {done : α → β} {kept : β} (hm : Live.Traces count m) :
    Patched.Traces count fun h => Patched.attempt m done kept h := by
  intro h le
  have step := hm h le
  unfold left at step
  dsimp only [Patched.attempt, EStateM.run]
  cases hr : m h with
  | ok a h' =>
      rw [hr] at step
      exact step
  | error e h' =>
      rw [hr] at step
      exact step

theorem toStep (hr : Patched.Traces count r) : Live.Traces count fun h => (r h).toStep := by
  intro h le
  have step := hr h le
  dsimp only [left, Patched.toStep]
  cases hf : (r h).failure with
  | none => exact step
  | some e => exact step

end Patched.Traces

theorem withdraw_traces (p : Place) : Patched.Traces count (withdraw p) := by
  intro h le
  rcases p with _ | ⟨n, b, v⟩ | ⟨marker, item⟩
  · exact .refl
  · dsimp only [withdraw]
    split
    · exact .refl
    · exact Patched.Traces.attempt (retract_traces n b v) h le
  · obtain ⟨shown, content⟩ := item
    dsimp only [withdraw]
    split
    · exact .refl
    · exact Patched.Traces.attempt (clear_traces content) h le

theorem withdrawAll_traces (places : List Place) : Patched.Traces count (withdrawAll places) := by
  induction places with
  | nil => exact .done
  | cons p rest ih => exact (withdraw_traces p).andThen fun _ => ih.map

theorem patchText_traces (anchor : NodeId) (c : Content) (text : String) :
    Patched.Traces count (patchText anchor c text) := by
  have replaced : Traces count (do
      clear c
      let node ← Host.create (.text text)
      Host.insertBefore node anchor
      pure node) := by
    refine (clear_traces c).bind fun _ => ?_
    refine .create (.createText text) trivial (fun _ => rfl) fun node young => ?_
    exact (Traces.insertBefore young).bind fun _ => .pure
  cases c with
  | text n => exact .attempt (.edit (.setText n text) trivial)
  | empty => exact .attempt replaced
  | nested shared start stop places => exact .attempt replaced
  | list items => exact .attempt replaced

theorem instantiate_traces (shared : SharedSkeleton) {anchor : NodeId}
    {patch : List Place → Host → Patched (List Place)}
    (hp : ∀ places, Patched.Traces count (patch places)) :
    Traces count (instantiate shared patch anchor) := by
  unfold instantiate
  refine .create .createMarker trivial (fun _ => rfl) fun start hstart => ?_
  refine .create .createMarker trivial (fun _ => rfl) fun stop hstop => ?_
  refine .create .createFragment trivial (fun _ => rfl) fun fragment hfragment => ?_
  refine (mount_traces shared.skeleton fragment).bind fun r => ?_
  refine (hp r.2).toStep.bind fun places => ?_
  refine (Traces.insertBefore hstart).bind fun _ => ?_
  refine (Traces.insertBefore hfragment).bind fun _ => ?_
  exact (Traces.insertBefore hstop).bind fun _ => .pure

theorem patchTemplate_traces (anchor : NodeId) (shared : SharedSkeleton)
    {patch : List Place → Host → Patched (List Place)}
    (hp : ∀ places, Patched.Traces count (patch places)) (c : Content) :
    Patched.Traces count (patchTemplate anchor shared patch c) := by
  have replaced : Traces count (do
      clear c
      instantiate shared patch anchor) :=
    (clear_traces c).bind fun _ => instantiate_traces shared hp
  cases c with
  | nested shared' start stop places =>
      intro h le
      dsimp only [patchTemplate]
      split
      · exact (hp places).map h le
      · exact Patched.Traces.attempt replaced h le
  | empty => exact .attempt replaced
  | text n => exact .attempt replaced
  | list items => exact .attempt replaced

theorem patchList_traces {patch : List Item → Host → Patched (List Item)}
    (hp : ∀ items, Patched.Traces count (patch items)) (c : Content) :
    Patched.Traces count (patchList patch c) := by
  have taken : Patched.Traces count (takeItems c) := by
    cases c with
    | list items => exact .done
    | empty => exact .attempt (clear_traces _)
    | text n => exact .attempt (clear_traces _)
    | nested shared start stop places => exact .attempt (clear_traces _)
  refine taken.andThen fun c => ?_
  cases c with
  | list items => exact (hp items).map
  | empty => exact .done
  | text n => exact .done
  | nested shared start stop places => exact .done

theorem updateItem_traces {patch : Content → Host → Patched Content}
    (hp : ∀ c, Patched.Traces count (patch c)) (item : Item) (next : Value) :
    Patched.Traces count (updateItem patch item next) := by
  intro h le
  unfold updateItem
  split
  · exact .refl
  · exact (hp item.content).andThen (fun _ => .done) h le

theorem updatePlace_traces {patch : NodeId → Content → Host → Patched Content}
    (hp : ∀ marker c, Patched.Traces count (patch marker c)) (p : Place) (next : Value) :
    Patched.Traces count (updatePlace patch p next) := by
  intro h le
  rcases p with _ | ⟨n, b, v⟩ | ⟨marker, item⟩
  · exact .refl
  · dsimp only [updatePlace]
    split
    · exact .refl
    · exact Patched.Traces.attempt (apply_traces n b v next) h le
  · exact (updateItem_traces (hp marker) item next).map h le

mutual
theorem patchContent_traces (anchor : NodeId) (c : Content) :
    (v : Value) → Patched.Traces count (patchContent anchor c v)
  | .null => .attempt (clear_traces c)
  | .template _ shared values =>
      patchTemplate_traces anchor shared (fun places => patchPlaces_traces places values) c
  | .list _ items => by
      intro h le
      rw [patchContent]
      split
      · exact patchList_traces (fun old => patchKeyed_traces anchor _ _ old items) c h le
      · exact patchList_traces (fun old => patchItems_traces anchor old items) c h le
  | .bool b => patchText_traces anchor c _
  | .number n => patchText_traces anchor c _
  | .text s => patchText_traces anchor c s
  | .attributes _ _ | .callback _ | .cell _ | .payload _ => .attempt (clear_traces c)
termination_by structural v => v

theorem patchItems_traces (anchor : NodeId) (old : List Item) :
    (values : List Value) → Patched.Traces count (patchItems anchor old values)
  | [] => .attempt (clearItems_traces old)
  | next :: values => by
      cases old with
      | nil =>
          refine (updateItem_traces (fun c => patchContent_traces _ c next) _ next).andThen ?_
          exact fun _ => (patchItems_traces anchor [] values).map
      | cons item rest =>
          refine (updateItem_traces (fun c => patchContent_traces _ c next) _ next).andThen ?_
          exact fun _ => (patchItems_traces anchor rest values).map
termination_by structural vs => vs

theorem patchKeyed_traces (anchor : NodeId) (prevKeys nextKeys : List Value) (old : List Item) :
    (values : List Value) → Patched.Traces count (patchKeyed anchor prevKeys nextKeys old values)
  | [] => .attempt (clearItems_traces old)
  | next :: values => by
      refine (Patched.Traces.attempt (clearItems_traces _)).andThen fun _ => ?_
      refine (updateItem_traces (fun c => patchContent_traces _ c next) _ next).andThen ?_
      exact fun _ => (patchKeyed_traces anchor prevKeys nextKeys _ values).map
termination_by structural vs => vs

theorem patchPlaces_traces (places : List Place) :
    (values : List Value) → Patched.Traces count (patchPlaces places values)
  | [] => withdrawAll_traces places
  | next :: values => by
      cases places with
      | nil => exact .done
      | cons p rest =>
          refine (updatePlace_traces (fun _ c => patchContent_traces _ c next) p next).andThen ?_
          exact fun _ => (patchPlaces_traces rest values).map
termination_by structural vs => vs
end

end Live

/-! ### Renderers -/

namespace Renderer
variable {count : Nat}

theorem unmount_traces (container : NodeId) (r : Renderer) :
    Patched.Traces count (r.unmount container) := by
  intro h le
  rw [unmount]
  split
  · exact .refl
  next m _ =>
    have dismounted : Traces count (dismount m) :=
      (clearPlaces_traces m.places).bind fun _ => .removeAll m.nodes
    exact Patched.Traces.attempt dismounted h le

theorem makeRoom_traces (shared : SharedSkeleton) (container : NodeId) (r : Renderer) :
    Patched.Traces count (r.makeRoom shared container) := by
  intro h le
  rw [makeRoom]
  split
  · exact .refl
  · split
    · exact .refl
    · exact (unmount_traces container r).map h le

theorem settle_traces (shared : SharedSkeleton) (container : NodeId) (r : Renderer) :
    Patched.Traces count (r.settle shared container) := by
  intro h le
  rw [settle]
  split
  · exact .refl
  · exact Patched.Traces.attempt (mount_traces shared.skeleton container) h le

theorem patchMounted_traces (values : List Value) (container : NodeId) (r : Renderer) :
    Patched.Traces count (r.patchMounted values container) := by
  intro h le
  rw [patchMounted]
  split
  · exact .refl
  · exact (patchPlaces_traces _ values).map h le

/-- A render comes down to edits that put new nodes only. -/
theorem render_traces (v : Value) (container : NodeId) (r : Renderer) :
    Patched.Traces count (r.render v container) := by
  unfold render
  refine (makeRoom_traces _ container r).andThen fun r => ?_
  exact (settle_traces _ container r).andThen fun r => patchMounted_traces _ container r

end Renderer

end LiveTemplate
