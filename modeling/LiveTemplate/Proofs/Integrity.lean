import LiveTemplate.Proofs.Editing
import Mathlib.Logic.Relation

/-!
# Consistent documents

Parents and children are kept twice: a node knows its parent, and the parent lists it
among its children. In a consistent document the two agree, no node is listed twice and
no node stands below itself. Taking nodes out of their places and putting them under
another one is a single change of both views, of which no more has to be known than that
none of the nodes stands above the new place. A walk from a node to its ancestors comes
to an end in a consistent document, so the bounded one that guards an insertion misses
none of them.
-/
namespace LiveTemplate

/-! ### Consistency -/

/-- What holds of the data of every element. -/
structure ElementData.WellFormed (data : ElementData) : Prop where
  tag : isValidTag data.tag = true
  tag_lower : Text.lower data.tag = data.tag
  names : ∀ name ∈ Entries.names data.attributes,
    isValidAttributeName name = true ∧ Text.lower name = name
  listeners : data.listeners.Nodup

namespace Document

variable {d d' : Document}

/-- One node is the parent of the other. -/
def Under (d : Document) (n parent : NodeId) : Prop := d.parent? n = some parent

/-- A document in which parents and children agree, with no node below itself and every
node of a kind that can stand where it does. -/
structure Consistent (d : Document) : Prop where
  mem_children : ∀ p n, n ∈ d.children p ↔ d.parent? n = some p
  nodup : ∀ p, (d.children p).Nodup
  acyclic : ∀ n, ¬ Relation.TransGen d.Under n n
  leaf : ∀ n, d.isContainer n = false → d.children n = []
  fragment : ∀ n, d.kind? n = some .fragment → d.parent? n = none
  element : ∀ n data, d.kind? n = some (.element data) → data.WellFormed

/-! ### The walk to the ancestors -/

theorem mem_lineage {steps : Nat} {n a : NodeId} (h : a ∈ d.lineage steps n) :
    Relation.ReflTransGen d.Under n a := by
  induction steps generalizing n with
  | zero => simp [lineage] at h
  | succ steps ih =>
      rw [lineage, List.mem_cons] at h
      cases h with
      | inl h =>
          rw [h]
      | inr h =>
          cases hp : d.parent? n with
          | none => simp [hp] at h
          | some p =>
              rw [hp] at h
              exact .head hp (ih h)

/-- A walk has met all ancestors, or it has taken all its steps. -/
theorem lineage_complete (steps : Nat) (n : NodeId) :
    (∀ a, Relation.ReflTransGen d.Under n a → a ∈ d.lineage steps n) ∨
      (d.lineage steps n).length = steps ∧
        ∀ m : Nat, m ∈ d.lineage steps n → m < d.nodes.size := by
  induction steps generalizing n with
  | zero =>
      right
      simp [lineage]
  | succ steps ih =>
      rw [lineage]
      cases hp : d.parent? n with
      | none =>
          left
          intro a h
          cases h.cases_head with
          | inl h => simp [h]
          | inr h =>
              obtain ⟨p, hnp, -⟩ := h
              rw [Under, hp] at hnp
              contradiction
      | some p =>
          have hn : (n : Nat) < d.nodes.size := by
            cases hr : d.record? n with
            | none => simp [parent?, hr] at hp
            | some r => exact lt_size_of_record? hr
          cases ih p with
          | inl ih =>
              left
              intro a h
              cases h.cases_head with
              | inl h => simp [h]
              | inr h =>
                  obtain ⟨q, hnq, hqa⟩ := h
                  obtain rfl : p = q := Option.some.inj (hp.symm.trans hnq)
                  exact List.mem_cons_of_mem _ (ih a hqa)
          | inr ih =>
              right
              constructor
              · simp [ih.1]
              · intro m hm
                cases List.mem_cons.1 hm with
                | inl h => rwa [h]
                | inr h => exact ih.2 m h

namespace Consistent

theorem nodup_lineage (c : Consistent d) (steps : Nat) (n : NodeId) :
    (d.lineage steps n).Nodup := by
  induction steps generalizing n with
  | zero => exact .nil
  | succ steps ih =>
      rw [lineage]
      cases hp : d.parent? n with
      | none => simp
      | some p =>
          apply List.nodup_cons.2
          constructor
          · intro h
            exact c.acyclic n (.head' hp (mem_lineage h))
          · exact ih p

/-- The bounded walk is long enough. -/
theorem isInclusiveAncestor_iff (c : Consistent d) (a n : NodeId) :
    d.isInclusiveAncestor a n = true ↔ Relation.ReflTransGen d.Under n a := by
  rw [isInclusiveAncestor, List.contains_iff_mem]
  constructor
  · exact mem_lineage
  · intro h
    cases lineage_complete (d := d) (d.nodes.size + 1) n with
    | inl complete => exact complete a h
    | inr short =>
        have sub : d.lineage (d.nodes.size + 1) n ⊆ List.range d.nodes.size :=
          fun m hm => List.mem_range.2 (short.2 m hm)
        have := (c.nodup_lineage _ n).length_le_of_subset sub
        rw [short.1, List.length_range] at this
        omega

end Consistent

/-! ### What an edit changes -/

theorem kind?_update {id : NodeId} {f : NodeRecord → NodeRecord} (hf : ∀ r, (f r).kind = r.kind)
    (n : NodeId) : (d.update id f).kind? n = d.kind? n := by
  rw [kind?, record?_update, kind?]
  split
  · rw [Option.map_map]
    congr 1
    exact funext hf
  · rfl

theorem parent?_update {id : NodeId} {f : NodeRecord → NodeRecord}
    (hf : ∀ r, (f r).parent = r.parent) (n : NodeId) :
    (d.update id f).parent? n = d.parent? n := by
  rw [parent?, record?_update, parent?]
  split
  · cases d.record? n with
    | none => rfl
    | some r => exact hf r
  · rfl

theorem children_update {id : NodeId} {f : NodeRecord → NodeRecord}
    (hf : ∀ r, (f r).children = r.children) (n : NodeId) :
    (d.update id f).children n = d.children n := by
  rw [children, record?_update, children]
  split
  · rw [Option.map_map]
    congr 2
    exact funext hf
  · rfl

theorem isSome_kind? {n : NodeId} : (d.kind? n).isSome = (d.record? n).isSome := by
  simp [kind?]

theorem isContainer_congr {n : NodeId} (h : d'.kind? n = d.kind? n) :
    d'.isContainer n = d.isContainer n := by
  rw [isContainer, isContainer, h]

@[simp] theorem kind?_updateChildren (id : NodeId) (f : List NodeId → List NodeId) (n : NodeId) :
    (d.updateChildren id f).kind? n = d.kind? n := by
  apply kind?_update
  intro r
  rfl

@[simp] theorem parent?_updateChildren (id : NodeId) (f : List NodeId → List NodeId)
    (n : NodeId) : (d.updateChildren id f).parent? n = d.parent? n := by
  apply parent?_update
  intro r
  rfl

theorem children_updateChildren {id : NodeId} (known : (d.kind? id).isSome = true)
    (f : List NodeId → List NodeId) (n : NodeId) :
    (d.updateChildren id f).children n = if n = id then f (d.children n) else d.children n := by
  rw [isSome_kind?] at known
  obtain ⟨r, hr⟩ := Option.isSome_iff_exists.1 known
  rw [children, updateChildren, record?_update, children]
  split
  next h => simp [h, hr]
  · rfl

section
variable (parent : Option NodeId) (moved : List NodeId)

@[simp] theorem kind?_foldl_setParent (n : NodeId) :
    (moved.foldl (setParent parent) d).kind? n = d.kind? n := by
  rw [kind?, record?_foldl_setParent, kind?]
  split
  · cases d.record? n <;> rfl
  · rfl

@[simp] theorem children_foldl_setParent (n : NodeId) :
    (moved.foldl (setParent parent) d).children n = d.children n := by
  rw [children, record?_foldl_setParent, children]
  split
  · cases d.record? n <;> rfl
  · rfl

theorem parent?_foldl_setParent {parent : Option NodeId} {moved : List NodeId} {n : NodeId}
    (known : n ∈ moved → (d.kind? n).isSome = true) :
    (moved.foldl (setParent parent) d).parent? n = if n ∈ moved then parent else d.parent? n := by
  rw [parent?, record?_foldl_setParent]
  split
  next hn =>
    have := known hn
    rw [isSome_kind?] at this
    obtain ⟨r, hr⟩ := Option.isSome_iff_exists.1 this
    rw [hr]
    rfl
  · rfl

end

/-- Some nodes have been taken out of their places and put under another node, in front
of a reference or at its end, or under none. -/
structure Moves (d d' : Document) (moved : List NodeId) (target reference : Option NodeId) :
    Prop where
  kind : ∀ n, d'.kind? n = d.kind? n
  parent : ∀ n, d'.parent? n = if n ∈ moved then target else d.parent? n
  children : ∀ n, d'.children n =
    if target = some n then spliceBefore reference moved ((d.children n).filter (· ∉ moved))
    else (d.children n).filter (· ∉ moved)

theorem mem_spliceBefore {reference : Option NodeId} {moved ids : List NodeId} {n : NodeId} :
    n ∈ spliceBefore reference moved ids ↔ n ∈ moved ∨ n ∈ ids := by
  cases reference with
  | none => simp [spliceBefore, or_comm]
  | some r =>
      have split := List.takeWhile_append_dropWhile (p := (· ≠ r)) (l := ids)
      rw [spliceBefore, List.mem_append, List.mem_append]
      conv_rhs => rw [← split, List.mem_append]
      tauto

theorem nodup_spliceBefore {reference : Option NodeId} {moved ids : List NodeId}
    (hm : moved.Nodup) (hi : ids.Nodup) (apart : ∀ n ∈ moved, n ∉ ids) :
    (spliceBefore reference moved ids).Nodup := by
  have perm : (spliceBefore reference moved ids).Perm (moved ++ ids) := by
    cases reference with
    | none => exact List.perm_append_comm
    | some r =>
        have split := List.takeWhile_append_dropWhile (p := (· ≠ r)) (l := ids)
        rw [spliceBefore]
        conv_rhs => rw [← split, ← List.append_assoc]
        exact List.perm_append_comm.append_right _
  rw [perm.nodup_iff, List.nodup_append]
  exact ⟨hm, hi, fun a ha b hb hab => apart a ha (hab ▸ hb)⟩

section
variable {moved : List NodeId} {target reference : Option NodeId}

namespace Moves

/-- From the new place upwards nothing has changed, as no moved node stands there. -/
theorem above (w : Moves d d' moved target reference) {p a : NodeId}
    (apart : ∀ m ∈ moved, ¬ Relation.ReflTransGen d.Under p m)
    (h : Relation.ReflTransGen d'.Under p a) : Relation.ReflTransGen d.Under p a := by
  induction h with
  | refl => exact .refl
  | tail _ hab ih =>
      rename_i a b _
      rw [Under, w.parent, if_neg fun hm => apart a hm ih] at hab
      exact ih.tail hab

/-- A way upwards is an old one, or it goes through a node that has been moved. -/
theorem path (w : Moves d d' moved target reference) {a b : NodeId}
    (h : Relation.TransGen d'.Under a b) :
    Relation.TransGen d.Under a b ∨ ∃ m ∈ moved, ∃ p, target = some p ∧
      Relation.ReflTransGen d'.Under a m ∧ Relation.ReflTransGen d'.Under p b := by
  induction h with
  | single hab =>
      rename_i b
      by_cases hm : a ∈ moved
      · rw [Under, w.parent, if_pos hm] at hab
        exact .inr ⟨a, hm, b, hab, .refl, .refl⟩
      · rw [Under, w.parent, if_neg hm] at hab
        exact .inl (.single hab)
  | tail hab hbc ih =>
      rename_i b c
      cases ih with
      | inr ih =>
          obtain ⟨m, hm, p, hp, ham, hpb⟩ := ih
          exact .inr ⟨m, hm, p, hp, ham, hpb.tail hbc⟩
      | inl ih =>
          by_cases hm : b ∈ moved
          · rw [Under, w.parent, if_pos hm] at hbc
            exact .inr ⟨b, hm, c, hbc, hab.to_reflTransGen, .refl⟩
          · rw [Under, w.parent, if_neg hm] at hbc
            exact .inl (ih.tail hbc)

/-- Moving nodes keeps a document consistent if they can stand under their new parent
and do not stand above it. -/
theorem consistent (w : Moves d d' moved target reference) (c : Consistent d)
    (nodup : moved.Nodup) (container : ∀ p, target = some p → d.isContainer p = true)
    (solid : ∀ m ∈ moved, d.kind? m ≠ some .fragment)
    (apart : ∀ p, target = some p → ∀ m ∈ moved, ¬ Relation.ReflTransGen d.Under p m) :
    Consistent d' where
  mem_children p n := by
    rw [w.children, w.parent]
    by_cases hm : n ∈ moved <;> by_cases hp : target = some p <;>
      simp [hm, hp, mem_spliceBefore, c.mem_children]
  nodup p := by
    have kept : ((d.children p).filter (· ∉ moved)).Nodup := (c.nodup p).filter _
    rw [w.children]
    split
    · apply nodup_spliceBefore nodup kept
      intro n hn h
      simp [hn] at h
    · exact kept
  acyclic n h := by
    cases w.path h with
    | inl h => exact c.acyclic n h
    | inr h =>
        obtain ⟨m, hm, p, hp, hnm, hpn⟩ := h
        exact apart p hp m hm (w.above (apart p hp) (hpn.trans hnm))
  leaf n hn := by
    rw [isContainer_congr (w.kind n)] at hn
    have hne : target ≠ some n := by
      intro h
      rw [container n h] at hn
      contradiction
    rw [w.children, if_neg hne, c.leaf n hn, List.filter_nil]
  fragment n hn := by
    rw [w.kind] at hn
    rw [w.parent, if_neg fun hm => solid n hm hn]
    exact c.fragment n hn
  element n data hn := c.element n data (w.kind n ▸ hn)

end Moves

/-- A document in which no node has another place is as consistent as the old one if the
data of its elements are. -/
theorem Consistent.recast (c : Consistent d) (parent : ∀ n, d'.parent? n = d.parent? n)
    (children : ∀ n, d'.children n = d.children n)
    (container : ∀ n, d.isContainer n = true → d'.isContainer n = true)
    (fragment : ∀ n, d'.kind? n = some .fragment → d.parent? n = none)
    (element : ∀ n data, d'.kind? n = some (.element data) → data.WellFormed) :
    Consistent d' where
  mem_children p n := by rw [children, parent, c.mem_children]
  nodup p := by rw [children]; exact c.nodup p
  acyclic n h := by
    have same : d'.Under = d.Under := by
      funext a b
      rw [Under, Under, parent]
    rw [same] at h
    exact c.acyclic n h
  leaf n hn := by
    rw [children]
    apply c.leaf
    by_contra h
    rw [container n (by simpa using h)] at hn
    contradiction
  fragment n hn := by rw [parent]; exact fragment n hn
  element := element

end

/-! ### Edits that move no node -/

theorem Consistent.create (c : Consistent d) (kind : NodeKind)
    (h : ∀ data, kind = .element data → data.WellFormed) : Consistent (d.create kind).2 := by
  have unknown : d.record? d.nodes.size = none := by simp [record?]
  apply c.recast
  · intro n
    rw [parent?, record?_create, parent?]
    split
    next hn => simp [hn, unknown]
    · rfl
  · intro n
    rw [children, record?_create, children]
    split
    next hn => simp [hn, unknown]
    · rfl
  · intro n hn
    rw [isContainer, kind?, record?_create, if_neg]
    · exact hn
    · rintro rfl
      simp [isContainer, kind?, unknown] at hn
  · intro n hn
    rw [kind?, record?_create] at hn
    split at hn
    next h => simp [parent?, h, unknown]
    · exact c.fragment n hn
  · intro n data hn
    rw [kind?, record?_create] at hn
    split at hn
    · exact h data (Option.some.inj hn)
    · exact c.element n data hn

theorem kind?_recast {id : NodeId} {kind kind' : NodeKind} (h : d.kind? id = some kind)
    (n : NodeId) : (d.update id fun r => { r with kind := kind' }).kind? n =
      if n = id then some kind' else d.kind? n := by
  rw [kind?, record?_update, kind?]
  split
  next hn =>
    obtain ⟨r, hr, -⟩ := Option.map_eq_some_iff.1 h
    simp [hn, hr]
  · rfl

/-- A node whose kind changes to another that can hold as much keeps its place. -/
theorem Consistent.changeKind (c : Consistent d) {id : NodeId} {kind kind' : NodeKind}
    (h : d.kind? id = some kind) (solid : kind' ≠ .fragment)
    (container : d.isContainer id = true → ∃ data, kind' = .element data)
    (wellFormed : ∀ data, kind' = .element data → data.WellFormed) :
    Consistent (d.update id fun r => { r with kind := kind' }) := by
  apply c.recast
  · exact parent?_update fun _ => rfl
  · exact children_update fun _ => rfl
  · intro n hn
    by_cases hid : n = id
    · obtain ⟨data, hdata⟩ := container (hid ▸ hn)
      rw [isContainer, kind?_recast h, if_pos hid, hdata]
    · rw [isContainer, kind?_recast h, if_neg hid]
      exact hn
  · intro n hn
    rw [kind?_recast h] at hn
    split at hn
    · exact absurd (Option.some.inj hn) solid
    · exact c.fragment n hn
  · intro n data hn
    rw [kind?_recast h] at hn
    split at hn
    · exact wellFormed data (Option.some.inj hn)
    · exact c.element n data hn

theorem Consistent.updateElement (c : Consistent d) {id : NodeId}
    {f : ElementData → ElementData} (hf : ∀ data, data.WellFormed → (f data).WellFormed)
    (h : d.updateElement id f = .ok d') : Consistent d' := by
  unfold Document.updateElement at h
  split at h
  · contradiction
  next data hk =>
    obtain rfl := Except.ok.inj h
    refine c.changeKind hk (by simp) (fun _ => ⟨_, rfl⟩) ?_
    rintro _ ⟨⟩
    exact hf data (c.element id data hk)
  · contradiction

theorem Consistent.setText (c : Consistent d) {id : NodeId} {text : String}
    (h : d.setText id text = .ok d') : Consistent d' := by
  unfold Document.setText at h
  split at h
  · contradiction
  next old hk =>
    obtain rfl := Except.ok.inj h
    refine c.changeKind hk (by simp) ?_ (by simp)
    intro hn
    simp [isContainer, hk] at hn
  · contradiction

/-! ### Edits that move nodes -/

theorem Consistent.isContainer_parent (c : Consistent d) {id parent : NodeId}
    (h : d.parent? id = some parent) : d.isContainer parent = true := by
  by_contra leaf
  have mem := (c.mem_children parent id).2 h
  rw [c.leaf parent (by simpa using leaf)] at mem
  contradiction

theorem Consistent.ne_parent (c : Consistent d) {id parent : NodeId}
    (hp : d.parent? id = some parent) : id ≠ parent := by
  rintro rfl
  exact c.acyclic id (.single hp)

/-- A node that is not a child of another is no child to be left out. -/
theorem Consistent.filter_children (c : Consistent d) {id n : NodeId}
    (h : d.parent? id ≠ some n) : (d.children n).filter (· ≠ id) = d.children n :=
  filter_ne_of_notMem fun hm => h ((c.mem_children n id).1 hm)

theorem Consistent.detach_moves (c : Consistent d) (id : NodeId) :
    Moves d (d.detach id) [id] none none := by
  cases hp : d.parent? id with
  | none =>
      have same : d.detach id = d := by simp [Document.detach, hp]
      rw [same]
      constructor
      · intro n
        rfl
      · intro n
        split
        next hn => rw [List.mem_singleton.1 hn, hp]
        · rfl
      · intro n
        have h := c.filter_children (show d.parent? id ≠ some n by simp [hp])
        simpa using h.symm
  | some parent =>
      have hne := c.ne_parent hp
      constructor
      · intro n
        rw [kind?, record?_detach hp hne, kind?]
        split
        · cases d.record? n <;> rfl
        · split
          · cases d.record? n <;> rfl
          · rfl
      · intro n
        rw [parent?, record?_detach hp hne, parent?]
        by_cases h1 : n = parent
        · subst h1
          simp only [if_pos, List.mem_singleton, if_neg hne.symm]
          cases d.record? n <;> rfl
        · by_cases h2 : n = id
          · simp only [if_neg h1, if_pos h2, List.mem_singleton]
            cases d.record? n <;> rfl
          · simp [h1, h2]
      · intro n
        have kept : n ≠ parent → (d.children n).filter (· ∉ [id]) = d.children n := by
          intro h
          have hid : d.parent? id ≠ some n := by simpa [hp] using Ne.symm h
          simpa using c.filter_children hid
        rw [if_neg (by simp), children, record?_detach hp hne]
        by_cases h1 : n = parent
        · rw [if_pos h1, children]
          cases d.record? n <;> simp
        · rw [if_neg h1, kept h1, children]
          split
          · cases d.record? n <;> rfl
          · rfl

/-- Some nodes have been taken from their parents, which is all that their parents know. -/
structure TakesOut (d d' : Document) (moved : List NodeId) : Prop where
  kind : ∀ n, d'.kind? n = d.kind? n
  parent : ∀ n, n ∉ moved → d'.parent? n = d.parent? n
  children : ∀ n, d'.children n = (d.children n).filter (· ∉ moved)

/-- What an insertion moves can stand anywhere but above its new place. -/
theorem Consistent.takeOut (c : Consistent d) {id parent : NodeId} {kind : NodeKind}
    (hk : d.kind? id = some kind) (guard : d.isInclusiveAncestor id parent = false) :
    TakesOut d (d.takeOut id kind).2 (d.takeOut id kind).1 ∧ (d.takeOut id kind).1.Nodup ∧
      ∀ m ∈ (d.takeOut id kind).1, (d.kind? m).isSome = true ∧ d.kind? m ≠ some .fragment ∧
        ¬ Relation.ReflTransGen d.Under parent m := by
  have above : ¬ Relation.ReflTransGen d.Under parent id := by
    rw [← c.isInclusiveAncestor_iff, guard]
    simp
  have single : kind ≠ .fragment → TakesOut d (d.detach id) [id] ∧ [id].Nodup ∧
      ∀ m ∈ [id], (d.kind? m).isSome = true ∧ d.kind? m ≠ some .fragment ∧
        ¬ Relation.ReflTransGen d.Under parent m := by
    intro solid
    have w := c.detach_moves id
    refine ⟨⟨w.kind, fun n hn => ?_, fun n => ?_⟩, List.nodup_singleton id, ?_⟩
    · rw [w.parent, if_neg hn]
    · rw [w.children, if_neg (by simp)]
    · intro m hm
      rw [List.mem_singleton.1 hm, hk]
      exact ⟨rfl, by simpa using solid, above⟩
  cases kind with
  | element data => exact single (by simp)
  | text data => exact single (by simp)
  | marker => exact single (by simp)
  | fragment =>
      refine ⟨⟨kind?_updateChildren id _, fun n _ => parent?_updateChildren id _ n, ?_⟩,
        c.nodup id, ?_⟩
      · intro n
        rw [Document.takeOut, children_updateChildren (by simp [hk])]
        by_cases hn : n = id
        · simp [hn]
        · rw [if_neg hn, eq_comm, List.filter_eq_self]
          intro m hm
          have hmid : m ∉ d.children id := by
            rw [c.mem_children, (c.mem_children n m).1 hm]
            simpa using hn
          simpa using hmid
      · intro m hm
        have hp := (c.mem_children id m).1 hm
        refine ⟨?_, ?_, fun h => above (h.tail hp)⟩
        · rw [isSome_kind?]
          cases hm : d.record? m with
          | none => simp [parent?, hm] at hp
          | some s => rfl
        · intro hf
          rw [c.fragment m hf] at hp
          contradiction

/-- Nodes that have been taken out are put under their new parent. -/
theorem TakesOut.moves {d₁ : Document} {moved : List NodeId} {parent : NodeId}
    (t : TakesOut d d₁ moved) (reference : Option NodeId)
    (known : ∀ m ∈ moved, (d.kind? m).isSome = true) (hp : (d.kind? parent).isSome = true) :
    Moves d ((moved.foldl (setParent (some parent)) d₁).updateChildren parent
      (spliceBefore reference moved)) moved (some parent) reference where
  kind n := by rw [kind?_updateChildren, kind?_foldl_setParent, t.kind]
  parent n := by
    rw [parent?_updateChildren, parent?_foldl_setParent fun hn => t.kind n ▸ known n hn]
    split
    · rfl
    next hn => exact t.parent n hn
  children n := by
    have hp₁ : ((moved.foldl (setParent (some parent)) d₁).kind? parent).isSome = true := by
      rw [kind?_foldl_setParent, t.kind]
      exact hp
    rw [children_updateChildren hp₁, children_foldl_setParent, t.children]
    simp only [Option.some.injEq, eq_comm]

/-- An insertion moves the node, or what stands below a fragment. -/
theorem Consistent.insert_moves (c : Consistent d) {parent id : NodeId}
    {reference : Option NodeId} (h : d.insert parent reference id = .ok d') :
    ∃ moved, Moves d d' moved (some parent) reference ∧ moved.Nodup ∧
      d.isContainer parent = true ∧ ∀ m ∈ moved, (m = id ∨ m ∈ d.children id) ∧
        d.kind? m ≠ some .fragment ∧ ¬ Relation.ReflTransGen d.Under parent m := by
  unfold Document.insert at h
  split at h
  · contradiction
  next guard =>
    simp only [Bool.or_eq_true, Bool.not_eq_true', not_or, Bool.not_eq_false,
      Bool.not_eq_true] at guard
    cases hk : d.kind? id with
    | none => simp [hk] at h
    | some kind =>
        simp only [hk, Except.ok.injEq] at h
        have out := c.takeOut hk guard.2
        have known : (d.kind? parent).isSome = true := by
          have := guard.1
          cases hp : d.kind? parent with
          | none => simp [isContainer, hp] at this
          | some k => rfl
        have w := out.1.moves reference (fun m hm => (out.2.2 m hm).1) known
        rw [h] at w
        refine ⟨_, w, out.2.1, guard.1, fun m hm => ⟨?_, (out.2.2 m hm).2⟩⟩
        cases kind with
        | fragment => exact .inr hm
        | element data => exact .inl (List.mem_singleton.1 hm)
        | text data => exact .inl (List.mem_singleton.1 hm)
        | marker => exact .inl (List.mem_singleton.1 hm)

theorem Consistent.insert (c : Consistent d) {parent id : NodeId} {reference : Option NodeId}
    (h : d.insert parent reference id = .ok d') : Consistent d' := by
  obtain ⟨moved, w, nodup, container, can⟩ := c.insert_moves h
  apply w.consistent c nodup
  · rintro _ ⟨⟩
    exact container
  · exact fun m hm => (can m hm).2.1
  · rintro _ ⟨⟩ m hm
    exact (can m hm).2.2

theorem Consistent.detach (c : Consistent d) (id : NodeId) : Consistent (d.detach id) := by
  have w := c.detach_moves id
  have same : d.kind? id = some .fragment → d.detach id = d := by
    intro hf
    simp [Document.detach, c.fragment id hf]
  by_cases hf : d.kind? id = some .fragment
  · rw [same hf]
    exact c
  · apply w.consistent c (List.nodup_singleton id) (by simp)
    · intro m hm
      rwa [List.mem_singleton.1 hm]
    · simp

end Document

end LiveTemplate
