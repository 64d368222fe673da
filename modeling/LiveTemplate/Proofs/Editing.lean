import LiveTemplate.Proofs.Forest

/-!
# Edits of blocks

What the edits of a document do to a block. A node that has no parent yet can always be
put in front of a node behind the block, or at the end of the children, and then stands
at the end of the block; a fragment leaves its forest there. A root of the block can
always be taken out. The one condition on the document is that a parent is older than
its children, the nodes that were there at first excepted: then no new node is an
ancestor of an older one.
-/
namespace LiveTemplate.Document
open Subtree

variable {d d' : Document}

/-! ### Records behind an edit -/

@[simp] theorem size_update (id : NodeId) (f : NodeRecord → NodeRecord) (d : Document) :
    (d.update id f).nodes.size = d.nodes.size := by simp [update]

theorem record?_update (id n : NodeId) (f : NodeRecord → NodeRecord) (d : Document) :
    (d.update id f).record? n = if n = id then (d.record? n).map f else d.record? n := by
  simp only [update, record?, Array.getElem?_modify, eq_comm]

@[simp] theorem size_create (kind : NodeKind) (d : Document) :
    (d.create kind).2.nodes.size = d.nodes.size + 1 := by simp [create]

theorem record?_create (kind : NodeKind) (d : Document) (n : Nat) :
    (d.create kind).2.record? n = if n = d.nodes.size then some { kind } else d.record? n := by
  simp only [create, record?, Array.getElem?_push]

theorem record?_create_self (kind : NodeKind) (d : Document) :
    (d.create kind).2.record? d.nodes.size = some { kind } := by
  rw [record?_create, if_pos rfl]

theorem record?_create_of_lt {kind : NodeKind} {n : Nat} (hn : n < d.nodes.size) :
    (d.create kind).2.record? n = d.record? n := by
  rw [record?_create, if_neg (Nat.ne_of_lt hn)]

@[simp] theorem size_setParent (parent : Option NodeId) (id : NodeId) (d : Document) :
    (d.setParent parent id).nodes.size = d.nodes.size := size_update ..

theorem size_foldl_setParent (parent : Option NodeId) (moved : List NodeId) (d : Document) :
    (moved.foldl (setParent parent) d).nodes.size = d.nodes.size := by
  induction moved generalizing d with
  | nil => rfl
  | cons id rest ih => rw [List.foldl_cons, ih, size_setParent]

theorem record?_foldl_setParent (parent : Option NodeId) (moved : List NodeId) (d : Document)
    (n : NodeId) :
    (moved.foldl (setParent parent) d).record? n =
      if n ∈ moved then (d.record? n).map fun r => { r with parent } else d.record? n := by
  induction moved generalizing d with
  | nil => simp
  | cons id rest ih =>
    rw [List.foldl_cons, ih, setParent, record?_update]
    by_cases hid : n = id
    · by_cases hrest : n ∈ rest <;> simp [hid, Function.comp_def]
    · simp [hid]

/-! ### Parents are older than their children -/

variable {count : Nat}

theorem parent?_of_record? {n : NodeId} {r : NodeRecord} (h : d.record? n = some r) :
    d.parent? n = r.parent := by
  simp [parent?, h]

/-- A new node is no ancestor of an older one. -/
theorem Ordered.notMem_lineage (o : Ordered count d) {id : Nat} (hid : count ≤ id) (steps : Nat)
    {n : Nat} (hn : n < id) : id ∉ d.lineage steps n := by
  induction steps generalizing n with
  | zero => simp [lineage]
  | succ steps ih =>
    rw [lineage, List.mem_cons, not_or]
    refine ⟨fun h => by omega, ?_⟩
    cases hp : d.parent? n with
    | none => simp
    | some q =>
      refine ih (n := q) ?_
      rcases o.parent_lt n q hp with h | h
      · exact Nat.lt_of_lt_of_le h hid
      · exact Nat.lt_trans h hn

theorem Ordered.not_ancestor (o : Ordered count d) {id n : Nat} (hid : count ≤ id) (hn : n < id) :
    d.isInclusiveAncestor id n = false := by
  simp only [isInclusiveAncestor, List.contains_eq_mem, decide_eq_false_iff_not]
  exact o.notMem_lineage hid _ hn

theorem Ordered.create (o : Ordered count d) (kind : NodeKind) :
    Ordered count (d.create kind).2 where
  count_le := by rw [size_create]; exact Nat.le_succ_of_le o.count_le
  parent_lt n q h := by
    rw [parent?, record?_create] at h
    split at h
    · simp at h
    · exact o.parent_lt n q h

theorem Ordered.update (o : Ordered count d) (id : NodeId) (f : NodeRecord → NodeRecord)
    (hf : ∀ r, (f r).parent = r.parent) : Ordered count (d.update id f) where
  count_le := by rw [size_update]; exact o.count_le
  parent_lt n q h := by
    refine o.parent_lt n q ?_
    rw [parent?, record?_update] at h
    rw [parent?]
    split at h
    · cases hr : d.record? n with
      | none => simp [hr] at h
      | some r => simpa [hr, hf] using h
    · exact h

/-! ### Taking out a root -/

theorem record?_detach {id parent : NodeId} (hp : d.parent? id = some parent)
    (hne : id ≠ parent) (n : NodeId) :
    (d.detach id).record? n =
      if n = parent then (d.record? n).map fun r => { r with children := r.children.filter (· ≠ id) }
      else if n = id then (d.record? n).map fun r => { r with parent := none }
      else d.record? n := by
  simp only [detach, hp, updateChildren, setParent, record?_update]
  by_cases h1 : n = parent
  · simp [h1, hne.symm]
  · by_cases h2 : n = id <;> simp [h1, h2, hne]

theorem size_detach (id : NodeId) (d : Document) :
    (d.detach id).nodes.size = d.nodes.size := by
  unfold detach
  split <;> simp [updateChildren]

theorem parent?_detach {id n q : NodeId} (h : (d.detach id).parent? n = some q) :
    d.parent? n = some q := by
  unfold detach at h
  split at h
  next => exact h
  next parent _ =>
    simp only [updateChildren, setParent, parent?, record?_update] at h ⊢
    cases hr : d.record? n with
    | none => simp [hr] at h
    | some r =>
      rw [hr] at h
      by_cases hp : n = parent <;> by_cases hn : n = id <;> simp_all

theorem Ordered.detach (o : Ordered count d) (id : NodeId) : Ordered count (d.detach id) where
  count_le := by rw [size_detach]; exact o.count_le
  parent_lt n q h := o.parent_lt n q (parent?_detach h)

variable {d₁ : Document} {parent : NodeId} {before behind : List NodeId}
  {old left right mid : List Subtree}

theorem filter_ne_of_notMem {n : NodeId} {l : List NodeId} (h : n ∉ l) :
    l.filter (· ≠ n) = l := by
  rw [List.filter_eq_self]
  intro m hm
  have : m ≠ n := fun he => h (he ▸ hm)
  simpa using this

/-- Among the children of its parent a root of a block stands only once. -/
theorem Block.filter_root {t : Subtree} (b : Block d parent before (left ++ t :: right) behind) :
    (before ++ roots (left ++ t :: right) ++ behind).filter (· ≠ t.root) =
      before ++ roots (left ++ right) ++ behind := by
  have inside : t.root ∈ idsAll (left ++ t :: right) := by simp [t.root_mem_ids]
  have nodup := b.nodup
  simp only [idsAll_append, idsAll_cons, List.nodup_append, List.mem_append] at nodup
  obtain ⟨-, ⟨-, -, hright⟩, hleft⟩ := nodup
  have h1 : t.root ∉ before := fun h => b.before_notMem _ h inside
  have h2 : t.root ∉ behind := fun h => b.behind_notMem _ h inside
  have h3 : t.root ∉ roots left := fun h => hleft _ (roots_subset _ h) _ (.inl t.root_mem_ids) rfl
  have h4 : t.root ∉ roots right := fun h => hright _ t.root_mem_ids _ (roots_subset _ h) rfl
  simp only [roots_append, roots_cons, List.filter_append, List.filter_cons, filter_ne_of_notMem h1,
    filter_ne_of_notMem h2, filter_ne_of_notMem h3, filter_ne_of_notMem h4]
  simp

/-- Removing a root of a block takes its tree out of the block. -/
theorem Rewrites.remove {t : Subtree} (b : Block d parent before old behind)
    (w : Rewrites d d₁ parent before old (left ++ t :: right) behind) :
    Document.remove t.root d₁ = .ok (d₁.detach t.root) ∧
      Rewrites d (d₁.detach t.root) parent before old (left ++ right) behind := by
  have b₁ := w.block b
  have filtered := b₁.filter_root
  obtain ⟨id, kind, kids⟩ := t
  have holds := b₁.holds
  have nodup := b₁.nodup
  have hparent := b₁.parent_notMem
  simp only [holdsAll_append, holdsAll_cons, holds_node] at holds
  simp only [idsAll_append, idsAll_cons, ids_node, List.cons_append, List.nodup_append,
    List.nodup_cons, List.mem_append, List.mem_cons, not_or] at nodup hparent
  obtain ⟨holdsLeft, ⟨hrec, -⟩, holdsRight⟩ := holds
  obtain ⟨nodupLeft, ⟨⟨-, hidRight⟩, -, nodupRight, -⟩, hleft⟩ := nodup
  have hidLeft : id ∉ idsAll left := fun h => hleft id h id (.inl rfl) rfl
  have hp : d₁.parent? id = some parent := parent?_of_record? hrec
  have hne : id ≠ parent := Ne.symm hparent.2.1
  have same : ∀ n, n ≠ parent → n ≠ id → (d₁.detach id).record? n = d₁.record? n := by
    intro n h1 h2
    rw [record?_detach hp hne, if_neg h1, if_neg h2]
  have removed : Document.remove id d₁ = .ok (d₁.detach id) := by
    simp [Document.remove, hrec]
  have rewrites : Rewrites d (d₁.detach id) parent before old (left ++ right) behind :=
  { size_le := by
      rw [size_detach]
      exact w.size_le
    others := fun n hn hnp hno => by
      have hni : n ≠ id := by
        rintro rfl
        rcases w.fresh n (by simp) with h | h
        · exact hno h
        · omega
      rw [same n hnp hni, w.others n hn hnp hno]
    record := fun r hr => by
      rw [record?_detach hp hne, if_pos rfl, w.record r hr, Option.map_some]
      exact congrArg (fun ids => some { r with children := ids }) filtered
    holds := by
      simp only [holdsAll_append]
      refine ⟨holdsLeft.congr fun n hn => same n ?_ ?_, holdsRight.congr fun n hn => same n ?_ ?_⟩
      · exact fun h => hparent.1 (h ▸ hn)
      · exact fun h => hidLeft (h ▸ hn)
      · exact fun h => hparent.2.2.2 (h ▸ hn)
      · exact fun h => hidRight (h ▸ hn)
    nodup := by
      simp only [idsAll_append, List.nodup_append]
      exact ⟨nodupLeft, nodupRight, fun a ha c hc => hleft a ha c (.inr (.inr hc))⟩
    fresh := fun n hn => by
      refine w.fresh n ?_
      simp only [idsAll_append, idsAll_cons, ids_node, List.mem_append, List.mem_cons] at hn ⊢
      tauto
    ordered := fun count o => (w.ordered count o).detach id }
  exact ⟨removed, rewrites⟩

/-! ### Putting in a node that has no parent -/

/-- A node that has no parent, with the forest that its insertion moves: its own tree,
or what a fragment holds. -/
inductive Loose (d : Document) (id : NodeId) : List Subtree → Prop where
  | single {kind : NodeKind} {kids : List Subtree} (record : d.record? id = some ⟨kind, none, roots kids⟩)
      (kind_ne : kind ≠ .fragment) (holds : HoldsAll d id kids) : Loose d id [.node id kind kids]
  | batch {forest : List Subtree} (record : d.record? id = some ⟨.fragment, none, roots forest⟩)
      (holds : HoldsAll d id forest) (notMem : id ∉ idsAll forest) : Loose d id forest

theorem Loose.record? {id : NodeId} {forest : List Subtree} (l : Loose d id forest) :
    ∃ kind children, d.record? id = some ⟨kind, none, children⟩ := by
  cases l with
  | single record => exact ⟨_, _, record⟩
  | batch record => exact ⟨_, _, record⟩

theorem takeWhile_ne_append {a : NodeId} {l : List NodeId} (h : a ∉ l) (rest : List NodeId) :
    (l ++ a :: rest).takeWhile (· ≠ a) = l ∧ (l ++ a :: rest).dropWhile (· ≠ a) = a :: rest := by
  induction l with
  | nil => simp
  | cons b l ih =>
    rw [List.mem_cons, not_or] at h
    obtain ⟨ih1, ih2⟩ := ih h.2
    have hb : b ≠ a := Ne.symm h.1
    constructor
    · rw [List.cons_append, List.takeWhile_cons_of_pos (by simpa using hb), ih1]
    · rw [List.cons_append, List.dropWhile_cons_of_pos (by simpa using hb), ih2]

/-- Roots that have moved to another parent, with everything below them as it was, are
held below that parent. -/
theorem HoldsAll.adopt {d₂ : Document} {q : NodeId} {forest : List Subtree}
    (h : HoldsAll d q forest) (nodup : (idsAll forest).Nodup)
    (moved : ∀ n ∈ roots forest,
      d₂.record? n = (d.record? n).map fun r => { r with parent := some parent })
    (kept : ∀ n ∈ idsAll forest, n ∉ roots forest → d₂.record? n = d.record? n) :
    HoldsAll d₂ parent forest := by
  induction forest with
  | nil => trivial
  | cons t rest ih =>
    obtain ⟨id, kind, kids⟩ := t
    obtain ⟨⟨record, below⟩, others⟩ := h
    simp only [idsAll_cons, ids_node, List.cons_append, List.nodup_cons, List.mem_append,
      List.nodup_append, not_or] at nodup
    obtain ⟨⟨hkids, hrest⟩, -, nodupRest, apart⟩ := nodup
    refine ⟨⟨?_, below.congr fun n hn => kept n (by simp [hn]) ?_⟩, ih others nodupRest ?_ ?_⟩
    · rw [moved id (by simp [root]), record]
      rfl
    · rw [roots_cons, List.mem_cons, not_or]
      exact ⟨fun he => hkids (by rw [← show n = id from he]; exact hn),
        fun hr => apart n hn n (roots_subset _ hr) rfl⟩
    · exact fun n hn => moved n (by simp [hn])
    · intro n hn hr
      refine kept n (by simp [hn]) ?_
      rw [roots_cons, List.mem_cons, not_or]
      exact ⟨fun he => hrest (by rw [← show n = id from he]; exact hn), hr⟩

theorem Loose.adopt {d₂ : Document} {id : NodeId} {forest : List Subtree}
    (l : Loose d id forest) (nodup : (idsAll forest).Nodup)
    (moved : ∀ n ∈ roots forest,
      d₂.record? n = (d.record? n).map fun r => { r with parent := some parent })
    (kept : ∀ n ∈ idsAll forest, n ∉ roots forest → d₂.record? n = d.record? n) :
    HoldsAll d₂ parent forest := by
  cases l with
  | batch record holds => exact holds.adopt nodup moved kept
  | single record kind_ne holds =>
    simp only [idsAll_cons, idsAll_nil, ids_node, List.append_nil, List.nodup_cons] at nodup
    refine ⟨⟨?_, holds.congr fun n hn => kept n (by simp [hn]) ?_⟩, trivial⟩
    · rw [moved id (by simp [root]), record]
      rfl
    · rw [roots_cons, roots_nil, List.mem_singleton]
      exact fun he => nodup.1 (by rw [← show n = id from he]; exact hn)

/-- What is taken out is the forest. Only the node itself is changed by that, and it
keeps its parent. -/
theorem Loose.takeOut {id : NodeId} {forest : List Subtree} {kind : NodeKind}
    (l : Loose d id forest) (hk : d.kind? id = some kind) :
    ∃ d₀, d.takeOut id kind = (roots forest, d₀) ∧ d₀.nodes.size = d.nodes.size ∧
      (∀ n, n ≠ id ∨ n ∈ roots forest → d₀.record? n = d.record? n) ∧
      ∀ n, d₀.parent? n = d.parent? n := by
  cases l with
  | @single kind' _ record kind_ne holds =>
    have hkind : kind' = kind := by simpa [kind?, record] using hk
    have hp : d.parent? id = none := parent?_of_record? record
    refine ⟨d, ?_, rfl, fun _ _ => rfl, fun _ => rfl⟩
    rw [← hkind]
    unfold Document.takeOut
    split
    · contradiction
    · simp [detach, hp, roots, root]
  | batch record holds notMem =>
    have hkind : NodeKind.fragment = kind := by simpa [kind?, record] using hk
    refine ⟨d.updateChildren id fun _ => [], ?_, by simp [updateChildren], ?_, ?_⟩
    · rw [← hkind]
      simp [Document.takeOut, children, record]
    · intro n hn
      have hne : n ≠ id := by
        rcases hn with h | h
        · exact h
        · exact fun he => notMem (roots_subset _ (he ▸ h))
      rw [updateChildren, record?_update, if_neg hne]
    · intro n
      rw [parent?, updateChildren, record?_update, parent?]
      by_cases hn : n = id
      · simp [hn, record]
      · simp [hn]

/-- Without a reference an insertion ends at the end of the children, else in front of
the reference, which is the first node behind. -/
theorem spliceBefore_head? {moved ids behind : List NodeId} (apart : ∀ n ∈ behind, n ∉ ids) :
    spliceBefore behind.head? moved (ids ++ behind) = ids ++ moved ++ behind := by
  cases behind with
  | nil => simp [spliceBefore]
  | cons a rest =>
    obtain ⟨h1, h2⟩ := takeWhile_ne_append (apart a (by simp)) rest
    simp only [List.head?_cons, spliceBefore, h1, h2, List.append_assoc]

/-- What an insertion has done: the moved nodes are children of the parent, and nothing else
has changed but the node that held them. -/
structure Adopted (d d' : Document) (parent : NodeId) (reference : Option NodeId) (id : NodeId)
    (moved : List NodeId) : Prop where
  size : d'.nodes.size = d.nodes.size
  others : ∀ n, n ≠ parent → n ≠ id → n ∉ moved → d'.record? n = d.record? n
  given : ∀ n ∈ moved, d'.record? n = (d.record? n).map fun r => { r with parent := some parent }
  record : d'.record? parent = (d.record? parent).map fun r =>
    { r with children := spliceBefore reference moved r.children }
  kept : ∀ n, n ∉ moved → d'.parent? n = d.parent? n

/-- The insertion of a loose node below a parent that it is not above. -/
theorem Loose.insert {id : NodeId} {forest : List Subtree} (l : Loose d id forest)
    (reference : Option NodeId) (container : d.isContainer parent = true)
    (above : d.isInclusiveAncestor id parent = false) (hne : parent ≠ id)
    (notMem : parent ∉ roots forest) :
    ∃ d', Document.insert parent reference id d = .ok d' ∧
      Adopted d d' parent reference id (roots forest) := by
  obtain ⟨kind, children, hrec⟩ := l.record?
  have hkind : d.kind? id = some kind := by simp [kind?, hrec]
  obtain ⟨d₀, htake, hsize, h₀, hp₀⟩ := l.takeOut hkind
  refine ⟨((roots forest).foldl (setParent (some parent)) d₀).updateChildren parent
    (spliceBefore reference (roots forest)), ?_, ?_, ?_, ?_, ?_, ?_⟩
  · simp only [Document.insert, container, above, hkind, htake]
    rfl
  · simp only [updateChildren, size_update, size_foldl_setParent, hsize]
  · intro n hp hid hn
    simp only [updateChildren, record?_update, if_neg hp, record?_foldl_setParent, if_neg hn]
    exact h₀ n (.inl hid)
  · intro n hn
    have hp : n ≠ parent := fun h => notMem (h ▸ hn)
    simp only [updateChildren, record?_update, if_neg hp, record?_foldl_setParent, if_pos hn]
    rw [h₀ n (.inr hn)]
  · simp only [updateChildren, record?_update, if_pos, record?_foldl_setParent, if_neg notMem]
    rw [h₀ parent (.inl hne)]
  · intro n hn
    rw [← hp₀]
    simp only [parent?, updateChildren, record?_update, record?_foldl_setParent, if_neg hn]
    by_cases h : n = parent
    · subst h
      cases d₀.record? n <;> simp
    · simp [h]

/-- Nodes that are younger than their new parent may be given to it. -/
theorem Adopted.ordered {d' : Document} {reference : Option NodeId} {id : NodeId}
    {moved : List NodeId} {count : Nat} (a : Adopted d d' parent reference id moved)
    (o : Ordered count d) (younger : ∀ n ∈ moved, parent < n) : Ordered count d' where
  count_le := by
    rw [a.size]
    exact o.count_le
  parent_lt n q hq := by
    by_cases hn : n ∈ moved
    · rw [parent?, a.given n hn] at hq
      cases hr : d.record? n with
      | none => simp [hr] at hq
      | some r =>
        obtain rfl : parent = q := by simpa [hr] using hq
        exact .inr (younger n hn)
    · exact o.parent_lt n q (a.kept n hn ▸ hq)

/-- A loose node whose forest is new can be put at the end of a block, and nothing but
the parent, the node and the roots of its forest is touched. -/
theorem Rewrites.insert {id : Nat} {forest : List Subtree}
    (b : Block d parent before old behind) (w : Rewrites d d₁ parent before old mid behind)
    (l : Loose d₁ id forest)
    (hid : d.nodes.size ≤ id) (nodup : (idsAll forest).Nodup)
    (new : ∀ n : Nat, n ∈ idsAll forest → d.nodes.size ≤ n ∧ n ∉ idsAll mid)
    (idNotMem : id ∉ idsAll mid) :
    ∃ d₂, Document.insert parent behind.head? id d₁ = .ok d₂ ∧
      Rewrites d d₂ parent before old (mid ++ forest) behind ∧
      d₂.nodes.size = d₁.nodes.size ∧
      ∀ n, n ≠ parent → n ≠ id → n ∉ roots forest → d₂.record? n = d₁.record? n := by
  have b₁ := w.block b
  have hlt : (parent : Nat) < d.nodes.size := b.parent_lt
  have younger : ∀ n ∈ idsAll forest, parent < n := fun n hn => Nat.lt_of_lt_of_le hlt (new n hn).1
  have hparent : parent ∉ idsAll forest := fun h => absurd (younger parent h) (Nat.lt_irrefl _)
  have hne : parent ≠ id := fun h => absurd hlt (Nat.not_lt.2 (Nat.le_trans hid (Nat.le_of_eq h.symm)))
  have above : d₁.isInclusiveAncestor id parent = false :=
    (w.ordered _ b.ordered).not_ancestor hid (Nat.lt_of_lt_of_le hlt hid)
  obtain ⟨d₂, inserted, a⟩ := l.insert behind.head? b₁.container above hne
    fun h => hparent (roots_subset _ h)
  have apart : ∀ n ∈ behind, n ∉ before ++ roots mid := by
    intro n hn hm
    rcases List.mem_append.1 hm with h | h
    · exact b.apart n hn h
    · exact b₁.behind_notMem n hn (roots_subset _ h)
  have rewrites : Rewrites d d₂ parent before old (mid ++ forest) behind :=
  { size_le := a.size ▸ w.size_le
    others := fun n hn hnp hno => by
      have hnid : n ≠ id := fun h => absurd hn (Nat.not_lt.2 (h ▸ hid))
      have hnew : n ∉ roots forest := fun h =>
        absurd hn (Nat.not_lt.2 (new n (roots_subset _ h)).1)
      rw [a.others n hnp hnid hnew, w.others n hn hnp hno]
    record := fun r hr => by
      rw [a.record, w.record r hr]
      simp only [Option.map_some, spliceBefore_head? apart]
      simp
    holds := by
      rw [holdsAll_append]
      refine ⟨w.holds.congr fun n hn => a.others n ?_ ?_ ?_, l.adopt nodup a.given ?_⟩
      · exact fun h => b₁.parent_notMem (h ▸ hn)
      · exact fun h => idNotMem (h ▸ hn)
      · exact fun h => (new n (roots_subset _ h)).2 hn
      · intro n hn hroot
        refine a.others n (fun h => hparent (h ▸ hn)) ?_ hroot
        cases l with
        | single => simpa [root] using hroot
        | batch _ _ notMem => exact fun h => notMem (h ▸ hn)
    nodup := by
      rw [idsAll_append, List.nodup_append]
      exact ⟨w.nodup, nodup, fun n hn m hm h => (new m hm).2 (h ▸ hn)⟩
    fresh := fun n hn => by
      rw [idsAll_append, List.mem_append] at hn
      exact hn.elim (w.fresh n) fun h => .inr (new n h).1
    ordered := fun count o =>
      a.ordered (w.ordered count o) fun n hn => younger n (roots_subset _ hn) }
  exact ⟨d₂, inserted, rewrites, a.size, a.others⟩

/-! ### Nodes that stand elsewhere -/

/-- A document in which nothing of a block has changed, and nothing else that was there. -/
theorem Rewrites.keep {d₂ : Document} (b : Block d parent before old behind)
    (w : Rewrites d d₁ parent before old mid behind) (size : d₁.nodes.size ≤ d₂.nodes.size)
    (same : ∀ n : Nat, n < d.nodes.size ∨ n ∈ idsAll mid → d₂.record? n = d₁.record? n)
    (ordered : ∀ count, count ≤ d.nodes.size → Ordered count d₁ → Ordered count d₂) :
    Rewrites d d₂ parent before old mid behind where
  size_le := Nat.le_trans w.size_le size
  others n hn hp ho := by rw [same n (.inl hn), w.others n hn hp ho]
  record r hr := by rw [same _ (.inl b.parent_lt), w.record r hr]
  holds := w.holds.congr fun n hn => same n (.inr hn)
  nodup := w.nodup
  fresh := w.fresh
  ordered count o := ordered count o.count_le (w.ordered count o)

theorem Rewrites.create (b : Block d parent before old behind)
    (w : Rewrites d d₁ parent before old mid behind) (kind : NodeKind) :
    Rewrites d (d₁.create kind).2 parent before old mid behind := by
  refine w.keep b (by simp) (fun n hn => ?_) fun count _ o => o.create kind
  have hlt : n < d₁.nodes.size := by
    rcases hn with h | h
    · exact Nat.lt_of_lt_of_le h w.size_le
    · exact w.holds.lt_size n h
  rw [record?_create, if_neg (Nat.ne_of_lt hlt)]

/-- What happens below a new node that has no part in the block. -/
theorem Rewrites.elsewhere {d₂ : Document} {q : Nat} {f g : List Subtree}
    (b : Block d parent before old behind) (w : Rewrites d d₁ parent before old mid behind)
    (v : Rewrites d₁ d₂ q [] f g []) (hq : d.nodes.size ≤ q) (hqm : q ∉ idsAll mid)
    (hf : ∀ n : Nat, n ∈ idsAll f → d.nodes.size ≤ n ∧ n ∉ idsAll mid) :
    Rewrites d d₂ parent before old mid behind := by
  refine w.keep b v.size_le (fun n hn => ?_) fun count _ o => v.ordered count o
  rcases hn with h | h
  · refine v.others n (Nat.lt_of_lt_of_le h w.size_le) (fun he => by omega) fun hm => ?_
    have := (hf n hm).1
    omega
  · exact v.others n (w.holds.lt_size n h) (fun he => hqm (he ▸ h)) fun hm => (hf n hm).2 h

/-- A new kind for the root of a block. -/
theorem Rewrites.recast {id : Nat} {kind kind' : NodeKind} {kids : List Subtree}
    (b : Block d parent before [.node id kind kids] behind) :
    Rewrites d (d.update id fun r => { r with kind := kind' }) parent before
      [.node id kind kids] [.node id kind' kids] behind := by
  have nodup := b.nodup
  have holds := b.holds
  have hparent := b.parent_notMem
  simp only [idsAll_cons, idsAll_nil, ids_node, List.append_nil, List.nodup_cons, holdsAll_cons,
    holds_node, List.mem_cons, not_or, holdsAll_nil, and_true] at nodup holds hparent
  have same : ∀ n, n ≠ id →
      (d.update id fun r => { r with kind := kind' }).record? n = d.record? n := by
    intro n hn
    rw [record?_update, if_neg hn]
  refine ⟨by simp, ?_, ?_, ⟨⟨?_, holds.2.congr fun n hn => same n ?_⟩, trivial⟩, ?_, ?_,
    fun count o => o.update id _ fun _ => rfl⟩
  · intro n _ _ hm
    exact same n fun h => hm (by simp [h])
  · intro r hr
    obtain ⟨r', hr', hc⟩ := b.record
    obtain rfl : r' = r := Option.some.inj (hr'.symm.trans hr)
    rw [same _ hparent.1, hr, show before ++ roots [.node id kind' kids] ++ behind = _ from hc.symm]
  · rw [record?_update, if_pos rfl, holds.1]
    rfl
  · exact fun h => nodup.1 (h ▸ hn)
  · simp [nodup]
  · exact fun n hn => .inl (by simpa using hn)

/-- In front of the first node behind a block, an insertion is one in front of a node. -/
theorem Block.insertBefore_eq {id anchor : Nat} {r : NodeRecord}
    (b : Block d parent before old behind) (head : behind.head? = some anchor)
    (hr : d.record? id = some r) (hid : id ≠ anchor) :
    Document.insertBefore id anchor d = Document.insert parent behind.head? id d := by
  have hm : anchor ∈ behind := List.mem_of_mem_head? head
  have hp := b.behind_parent anchor hm
  cases ha : d.record? anchor with
  | none => simp [parent?, ha] at hp
  | some s =>
    have hs : s.parent = some parent := by simpa [parent?, ha] using hp
    simp [Document.insertBefore, ha, hs, hid, hr, head]

/-! ### Runs of roots -/

theorem through_eq {last : NodeId} {l rest : List NodeId} (h : last ∉ l) :
    through last (l ++ last :: rest) = l ++ [last] := by
  induction l with
  | nil => simp [through]
  | cons a l ih =>
    rw [List.mem_cons, not_or] at h
    rw [List.cons_append, through, if_neg (Ne.symm h.1), ih h.2, List.cons_append]

/-- From the first to the last root of a run stand the roots of the run. -/
theorem Block.range_eq {first last : Subtree} {inner : List Subtree}
    (b : Block d parent before (left ++ (first :: inner ++ [last]) ++ right) behind) :
    d.range first.root last.root = roots (first :: inner ++ [last]) := by
  have nodup := b.nodup
  have holds := b.holds
  simp only [List.cons_append, idsAll_append, idsAll_cons, idsAll_nil, List.append_nil,
    List.nodup_append, List.mem_append] at nodup
  obtain ⟨⟨-, ⟨-, ⟨-, -, hlast⟩, hfirst⟩, hleft⟩, -⟩ := nodup
  have hp : d.parent? first.root = some parent := holds.parent_eq (by simp)
  have hsplit : d.children parent =
      (before ++ roots left) ++ first.root :: (roots inner ++ last.root :: (roots right ++ behind)) := by
    rw [b.children_eq]
    simp
  have hnot : first.root ∉ before ++ roots left := by
    rw [List.mem_append, not_or]
    refine ⟨fun h => b.before_notMem _ h ?_, fun h => ?_⟩
    · simp [first.root_mem_ids]
    · exact hleft _ (roots_subset _ h) _ (.inl first.root_mem_ids) rfl
  have hlastNot : last.root ∉ first.root :: roots inner := by
    rw [List.mem_cons, not_or]
    refine ⟨fun h => ?_, fun h => ?_⟩
    · exact hfirst _ first.root_mem_ids _ (.inr last.root_mem_ids) h.symm
    · exact hlast _ (roots_subset _ h) _ last.root_mem_ids rfl
  have hsiblings : d.followingSiblings first.root =
      roots inner ++ last.root :: (roots right ++ behind) := by
    simp only [followingSiblings, hp, hsplit, (takeWhile_ne_append hnot _).2, List.drop_one,
      List.tail_cons]
  rw [range, hsiblings, ← List.cons_append, through_eq hlastNot]
  simp

end LiveTemplate.Document
