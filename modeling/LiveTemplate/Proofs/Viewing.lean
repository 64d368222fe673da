import LiveTemplate.Proofs.Editing
import LiveTemplate.Proofs.Picture

/-!
# Documents as they are seen

What is read off a document is read off the trees that are taken out of its table. Where
a document holds a forest, these are the trees of the forest. In every document that was
made by edits all parents and children are nodes of it, so the children of a container
stand there as siblings of what will be put behind them.
-/
namespace LiveTemplate

/-- The parent and the children of a node are among so many nodes. -/
structure NodeRecord.Within (count : Nat) (r : NodeRecord) : Prop where
  parent_lt : ∀ q : Nat, r.parent = some q → q < count
  child_lt : ∀ n : Nat, n ∈ r.children → n < count

namespace Document
open Subtree

variable {d d' : Document}

/-! ### Trees out of the table -/

mutual
theorem Holds.subtrees : {parent : NodeId} → {t : Subtree} → Holds d parent t →
    ∀ depth, t.ids.length ≤ depth + 1 →
    (d.record? t.root).map (fun r => Subtree.node t.root r.kind (d.subtrees depth r.children)) =
      some t
  | _, .node id kind children, ⟨record, below⟩, depth, hdepth => by
      rw [ids_node, List.length_cons] at hdepth
      rw [root, record, Option.map_some, below.subtrees depth (by omega)]

/-- A depth as large as the number of nodes is enough. -/
theorem HoldsAll.subtrees : {parent : NodeId} → {f : List Subtree} → HoldsAll d parent f →
    ∀ depth, (idsAll f).length ≤ depth → d.subtrees depth (roots f) = f
  | _, [], _, depth, _ => by cases depth <;> rfl
  | _, t :: rest, ⟨first, others⟩, depth, hdepth => by
      have hpos : 0 < t.ids.length := List.length_pos_of_mem t.root_mem_ids
      rw [idsAll_cons, List.length_append] at hdepth
      obtain ⟨depth, rfl⟩ := Nat.exists_eq_succ_of_ne_zero (n := depth) (by omega)
      have h1 := first.subtrees depth (by omega)
      have h2 := others.subtrees (depth + 1) (by omega)
      rw [Document.subtrees] at h2 ⊢
      rw [roots_cons, List.filterMap_cons, h1, h2]
end

/-- No branch of a forest without repetitions is longer than the table. -/
theorem HoldsAll.seen {parent : NodeId} {f : List Subtree} (h : HoldsAll d parent f)
    (nodup : (idsAll f).Nodup) : d.subtrees d.nodes.size (roots f) = f := by
  refine h.subtrees _ ?_
  have sub : idsAll f ⊆ List.range d.nodes.size := fun n hn => List.mem_range.2 (h.lt_size n hn)
  simpa using List.Nodup.length_le_of_subset nodup sub

/-- What some nodes show, without their numbers. -/
def appearance (looked : Target → Bool) (d : Document) (ids : List NodeId) : List Shape :=
  shapes looked (d.subtrees d.nodes.size ids)

/-- What some nodes show, without what can be read off elements but their tags. -/
def outline (d : Document) (ids : List NodeId) : List Shape := d.appearance (fun _ => false) ids

theorem Block.appearance {parent : NodeId} {before behind : List NodeId} {f : List Subtree}
    (b : Block d parent before f behind) (looked : Target → Bool) :
    d.appearance looked (roots f) = shapes looked f := by
  rw [Document.appearance, b.holds.seen b.nodup]

/-- The text of a container is that of its children. -/
theorem Block.textContent {container : NodeId} {f : List Subtree}
    (b : Block d container [] f []) : d.textContent container = textAll f := by
  obtain ⟨r, hr, hchildren⟩ := b.record
  have hsize : 0 < d.nodes.size := Nat.zero_lt_of_lt (lt_size_of_record? hr)
  have hlength : (idsAll f).length + 1 ≤ d.nodes.size := by
    have sub : container :: idsAll f ⊆ List.range d.nodes.size := by
      rintro n (_ | ⟨_, hn⟩)
      · exact List.mem_range.2 (lt_size_of_record? hr)
      · exact List.mem_range.2 (b.holds.lt_size n hn)
    simpa using List.Nodup.length_le_of_subset (List.nodup_cons.2 ⟨b.parent_notMem, b.nodup⟩) sub
  obtain ⟨depth, hdepth⟩ := Nat.exists_eq_succ_of_ne_zero (Nat.ne_of_gt hsize)
  have hbelow : d.subtrees depth r.children = f := by
    simpa [hchildren] using b.holds.subtrees depth (by omega)
  have hcontainer := b.container
  rw [Document.textContent, subtree?, hdepth, Document.subtrees]
  simp only [List.filterMap_cons, hr, Option.map_some, List.filterMap_nil, List.head?_cons,
    Option.getD_some, hbelow]
  cases hk : r.kind with
  | text data => simp [isContainer, kind?, hr, hk] at hcontainer
  | element data => rfl
  | marker => rfl
  | fragment => rfl

/-- What stands at the end of a block. -/
theorem Block.appearance_right {parent : NodeId} {before behind : List NodeId}
    {f g : List Subtree} (b : Block d parent before (f ++ g) behind) (looked : Target → Bool) :
    d.appearance looked (roots g) = shapes looked g := by
  have b : Block d parent before (f ++ g ++ []) behind := by simpa using b
  exact b.part.appearance looked

/-! ### Documents made by edits -/

/-- The documents that edits make of the empty one. An edit that fails makes none. -/
inductive Edited : Document → Prop
  | empty : Edited .empty
  | create {d : Document} (kind : NodeKind) : Edited d → Edited (d.create kind).2
  | insert {d d' : Document} {parent id : NodeId} {reference : Option NodeId} :
      Edited d → d.insert parent reference id = .ok d' → Edited d'
  | remove {d d' : Document} {id : NodeId} : Edited d → d.remove id = .ok d' → Edited d'
  | updateElement {d d' : Document} {id : NodeId} {f : ElementData → ElementData} :
      Edited d → d.updateElement id f = .ok d' → Edited d'
  | setText {d d' : Document} {id : NodeId} {text : String} :
      Edited d → d.setText id text = .ok d' → Edited d'

/-- All parents and children are nodes of the document. -/
def Closed (d : Document) : Prop := ∀ n r, d.record? n = some r → r.Within d.nodes.size

theorem Closed.update (c : Closed d) (id : NodeId) (f : NodeRecord → NodeRecord)
    (hf : ∀ r, r.Within d.nodes.size → (f r).Within d.nodes.size) : Closed (d.update id f) := by
  intro n r hr
  rw [size_update]
  rw [record?_update] at hr
  split at hr
  · obtain ⟨s, hs, rfl⟩ := Option.map_eq_some_iff.1 hr
    exact hf s (c n s hs)
  · exact c n r hr

theorem Closed.create (c : Closed d) (kind : NodeKind) : Closed (d.create kind).2 := by
  intro n r hr
  rw [size_create]
  rw [record?_create] at hr
  split at hr
  · obtain rfl := Option.some.inj hr
    exact ⟨by simp, by simp⟩
  · exact ⟨fun q hq => Nat.lt_succ_of_lt ((c n r hr).parent_lt q hq),
      fun m hm => Nat.lt_succ_of_lt ((c n r hr).child_lt m hm)⟩

theorem Closed.setParent (c : Closed d) {parent : Option NodeId}
    (h : ∀ q : Nat, parent = some q → q < d.nodes.size) (id : NodeId) :
    Closed (d.setParent parent id) :=
  c.update id _ fun _ hr => ⟨h, hr.child_lt⟩

theorem Closed.updateChildren (c : Closed d) (id : NodeId) {f : List NodeId → List NodeId}
    (h : ∀ l, (∀ n : Nat, n ∈ l → n < d.nodes.size) → ∀ n : Nat, n ∈ f l → n < d.nodes.size) :
    Closed (d.updateChildren id f) :=
  c.update id _ fun _ hr => ⟨hr.parent_lt, h _ hr.child_lt⟩

theorem Closed.detach (c : Closed d) (id : NodeId) : Closed (d.detach id) := by
  unfold Document.detach
  split
  · exact c
  · refine (c.setParent (by simp) id).updateChildren _ fun l hl n hn => ?_
    exact hl n (List.mem_of_mem_filter hn)

theorem Closed.foldl_setParent {parent : Nat} (h : parent < d.nodes.size) (moved : List NodeId)
    (c : Closed d) : Closed (moved.foldl (Document.setParent (some parent)) d) := by
  induction moved generalizing d with
  | nil => exact c
  | cons id rest ih =>
    refine ih (by rwa [size_setParent]) (c.setParent ?_ id)
    rintro q ⟨⟩
    exact h

theorem spliceBefore_subset {reference : Option NodeId} {moved ids : List NodeId} {n : NodeId}
    (h : n ∈ spliceBefore reference moved ids) : n ∈ moved ∨ n ∈ ids := by
  cases reference with
  | none => exact (List.mem_append.1 h).symm
  | some r =>
    simp only [spliceBefore, List.mem_append] at h
    rcases h with (h | h) | h
    · exact .inr ((List.takeWhile_prefix _).subset h)
    · exact .inl h
    · exact .inr ((List.dropWhile_suffix _).subset h)

theorem Closed.takeOut (c : Closed d) {id : Nat} (hid : id < d.nodes.size) (kind : NodeKind) :
    Closed (d.takeOut id kind).2 ∧ (d.takeOut id kind).2.nodes.size = d.nodes.size ∧
      ∀ n : Nat, n ∈ (d.takeOut id kind).1 → n < d.nodes.size := by
  have single : Closed (d.detach id) ∧ (d.detach id).nodes.size = d.nodes.size ∧
      ∀ n : Nat, n ∈ [id] → n < d.nodes.size :=
    ⟨c.detach id, size_detach id d, fun n hn => List.mem_singleton.1 hn ▸ hid⟩
  cases kind with
  | fragment =>
    refine ⟨c.updateChildren id (by simp), size_update .., fun n hn => ?_⟩
    cases hr : d.record? id with
    | none => simp [Document.takeOut, children, hr] at hn
    | some r =>
      refine (c id r hr).child_lt n ?_
      simpa [Document.takeOut, children, hr] using hn
  | element data => exact single
  | text data => exact single
  | marker => exact single

theorem Closed.insert (c : Closed d) {parent id : NodeId} {reference : Option NodeId}
    (h : d.insert parent reference id = .ok d') : Closed d' := by
  unfold Document.insert at h
  split at h
  · simp at h
  next hc =>
    cases hk : d.kind? id with
    | none => simp [hk] at h
    | some kind =>
      have hid : (id : Nat) < d.nodes.size := by
        obtain ⟨r, hr, -⟩ := Option.map_eq_some_iff.1 hk
        exact lt_size_of_record? hr
      have guard : d.isContainer parent = true ∧ d.isInclusiveAncestor id parent = false := by
        simpa using hc
      have hparent : (parent : Nat) < d.nodes.size := lt_size_of_isContainer guard.1
      obtain ⟨c₁, hsize, hmoved⟩ := c.takeOut hid kind
      simp only [hk, Except.ok.injEq] at h
      subst h
      refine (c₁.foldl_setParent (hsize ▸ hparent) _).updateChildren _ fun l hl n hn => ?_
      rw [size_foldl_setParent, hsize] at *
      rcases spliceBefore_subset hn with hn | hn
      · exact hmoved n hn
      · exact hl n hn

theorem Edited.closed (e : Edited d) : Closed d := by
  induction e with
  | empty =>
    intro n r hr
    have hlt : (n : Nat) < 1 := lt_size_of_record? hr
    obtain rfl := Nat.lt_one_iff.1 hlt
    obtain rfl : { kind := .element { tag := "body" } } = r := Option.some.inj hr
    exact ⟨by simp, by simp⟩
  | create kind _ c => exact c.create kind
  | insert _ h c => exact c.insert h
  | remove _ h c =>
    unfold Document.remove at h
    split at h
    · obtain rfl := Except.ok.inj h
      exact c.detach _
    · simp at h
  | updateElement _ h c =>
    unfold Document.updateElement at h
    split at h
    · simp at h
    · obtain rfl := Except.ok.inj h
      exact c.update _ _ fun _ hr => ⟨hr.parent_lt, hr.child_lt⟩
    · simp at h
  | setText _ h c =>
    unfold Document.setText at h
    split at h
    · simp at h
    · obtain rfl := Except.ok.inj h
      exact c.update _ _ fun _ hr => ⟨hr.parent_lt, hr.child_lt⟩
    · simp at h

/-- Behind the children of a container there is room for a block. -/
theorem Closed.block (c : Closed d) {container : NodeId} (h : d.isContainer container = true) :
    Block d container (d.children container) [] [] := by
  obtain ⟨r, hr⟩ := exists_record_of_isContainer h
  refine ⟨⟨Nat.le_refl _, fun n q hq => .inl ?_⟩, ⟨r, hr, by simp [children, hr]⟩, h, trivial,
    by simp, by simp, by simp, by simp, fun n hn => ?_, by simp, by simp, by simp, by simp⟩
  · cases hn : d.record? n with
    | none => simp [parent?, hn] at hq
    | some s => exact (c n s hn).parent_lt q (by simpa [parent?, hn] using hq)
  · exact (c _ r hr).child_lt n (by simpa [children, hr] using hn)

end Document

end LiveTemplate
