import LiveTemplate.Document.Edit
import LiveTemplate.Document.View
import Mathlib.Data.List.Nodup
import Mathlib.Data.Nat.Basic
import Mathlib.Tactic.Common

/-!
# Forests in a document

A document holds a forest below a parent when the record of every node of the forest
says so: its kind, its parent and its children in order. A block is a forest that
stands among the children of a node, with siblings before and behind it. An edit
rewrites a block when it changes nothing else that was there: the parent keeps all but
the block, no older node is touched, and whatever is new in the block is a new node.
Rewritings compose, and one in a part of a block is one of the whole.
-/
namespace LiveTemplate

namespace Subtree

def root : Subtree → NodeId
  | .node id _ _ => id

mutual
/-- The node itself and everything below it. -/
def ids : Subtree → List NodeId
  | .node id _ children => id :: idsAll children
termination_by structural t => t

def idsAll : List Subtree → List NodeId
  | [] => []
  | t :: rest => t.ids ++ idsAll rest
termination_by structural ts => ts
end

def roots (forest : List Subtree) : List NodeId := forest.map root

@[simp] theorem roots_nil : roots [] = [] := rfl

@[simp] theorem roots_cons (t : Subtree) (rest : List Subtree) :
    roots (t :: rest) = t.root :: roots rest := rfl

@[simp] theorem roots_append (f g : List Subtree) : roots (f ++ g) = roots f ++ roots g :=
  List.map_append

@[simp] theorem idsAll_nil : idsAll [] = [] := rfl

@[simp] theorem idsAll_cons (t : Subtree) (rest : List Subtree) :
    idsAll (t :: rest) = t.ids ++ idsAll rest := rfl

@[simp] theorem ids_node (n : NodeId) (kind : NodeKind) (children : List Subtree) :
    (node n kind children).ids = n :: idsAll children := rfl

@[simp] theorem idsAll_append (f g : List Subtree) : idsAll (f ++ g) = idsAll f ++ idsAll g := by
  induction f with
  | nil => rfl
  | cons t rest ih => simp [ih]

theorem root_mem_ids (t : Subtree) : t.root ∈ t.ids := by
  cases t
  simp [root]

theorem roots_subset (forest : List Subtree) : roots forest ⊆ idsAll forest := by
  induction forest with
  | nil => simp
  | cons t rest ih =>
    intro n hn
    rw [roots_cons, List.mem_cons] at hn
    rw [idsAll_cons, List.mem_append]
    rcases hn with rfl | hn
    · exact .inl t.root_mem_ids
    · exact .inr (ih hn)

end Subtree

namespace Document
open Subtree

mutual
def Holds (d : Document) (parent : NodeId) : Subtree → Prop
  | .node id kind children =>
      d.record? id = some ⟨kind, some parent, roots children⟩ ∧ HoldsAll d id children
termination_by structural t => t

/-- The document holds the trees below the parent. That they are its children, and
which of them, is not said. -/
def HoldsAll (d : Document) (parent : NodeId) : List Subtree → Prop
  | [] => True
  | t :: rest => Holds d parent t ∧ HoldsAll d parent rest
termination_by structural ts => ts
end

variable {d d' : Document} {parent : NodeId}

@[simp] theorem holdsAll_nil : HoldsAll d parent [] := trivial

@[simp] theorem holdsAll_cons {t : Subtree} {rest : List Subtree} :
    HoldsAll d parent (t :: rest) ↔ Holds d parent t ∧ HoldsAll d parent rest := Iff.rfl

@[simp] theorem holds_node {id : NodeId} {kind : NodeKind} {children : List Subtree} :
    Holds d parent (.node id kind children) ↔
      d.record? id = some ⟨kind, some parent, roots children⟩ ∧ HoldsAll d id children := Iff.rfl

@[simp] theorem holdsAll_append {f g : List Subtree} :
    HoldsAll d parent (f ++ g) ↔ HoldsAll d parent f ∧ HoldsAll d parent g := by
  induction f with
  | nil => simp
  | cons t rest ih => simp [ih, and_assoc]

mutual
theorem Holds.congr : {parent : NodeId} → {t : Subtree} →
    (∀ n ∈ t.ids, d'.record? n = d.record? n) → Holds d parent t → Holds d' parent t
  | _, .node id _ children, same, ⟨record, below⟩ =>
      ⟨(same id (by simp)).trans record,
        HoldsAll.congr (fun n hn => same n (by simp [hn])) below⟩

/-- A document holds what another one holds if the records of these nodes agree. -/
theorem HoldsAll.congr : {parent : NodeId} → {f : List Subtree} →
    (∀ n ∈ idsAll f, d'.record? n = d.record? n) → HoldsAll d parent f → HoldsAll d' parent f
  | _, [], _, _ => trivial
  | _, _ :: _, same, ⟨first, others⟩ =>
      ⟨first.congr fun n hn => same n (by simp [hn]),
        others.congr fun n hn => same n (by simp [hn])⟩
end

theorem lt_size_of_record? {n : Nat} {r : NodeRecord} (h : d.record? n = some r) :
    n < d.nodes.size := by
  by_contra hn
  rw [record?, Array.getElem?_eq_none (by omega)] at h
  contradiction

theorem exists_record_of_isContainer {n : NodeId} (h : d.isContainer n = true) :
    ∃ r, d.record? n = some r := by
  cases hr : d.record? n with
  | none => simp [isContainer, kind?, hr] at h
  | some r => exact ⟨r, rfl⟩

theorem lt_size_of_isContainer {n : Nat} (h : d.isContainer n = true) : n < d.nodes.size := by
  obtain ⟨r, hr⟩ := exists_record_of_isContainer h
  exact lt_size_of_record? hr

mutual
theorem Holds.lt_size : {parent : NodeId} → {t : Subtree} → Holds d parent t →
    ∀ n : Nat, n ∈ t.ids → n < d.nodes.size
  | _, .node id _ children, ⟨record, below⟩, n, hn => by
      rw [ids_node, List.mem_cons] at hn
      rcases hn with rfl | hn
      · exact lt_size_of_record? record
      · exact below.lt_size n hn

theorem HoldsAll.lt_size : {parent : NodeId} → {f : List Subtree} → HoldsAll d parent f →
    ∀ n : Nat, n ∈ idsAll f → n < d.nodes.size
  | _, [], _, n, hn => by simp at hn
  | _, _ :: _, ⟨first, others⟩, n, hn => by
      rw [idsAll_cons, List.mem_append] at hn
      rcases hn with hn | hn
      · exact first.lt_size n hn
      · exact others.lt_size n hn
end

/-- The root of a held tree has the parent that it is held below. -/
theorem HoldsAll.parent_eq {f : List Subtree} (h : HoldsAll d parent f) {n : NodeId}
    (hn : n ∈ roots f) : d.parent? n = some parent := by
  induction f with
  | nil => simp at hn
  | cons t rest ih =>
    obtain ⟨first, others⟩ := h
    rw [roots_cons, List.mem_cons] at hn
    rcases hn with rfl | hn
    · obtain ⟨id, kind, children⟩ := t
      have record : d.record? id = some ⟨kind, some parent, roots children⟩ := first.1
      show ((d.record? id).bind (·.parent)) = some parent
      rw [record]
      rfl
    · exact ih others hn

/-- Only among the first `count` nodes may a parent be younger than its child. -/
structure Ordered (count : Nat) (d : Document) : Prop where
  count_le : count ≤ d.nodes.size
  parent_lt : ∀ n q : Nat, d.parent? n = some q → q < count ∨ q < n

theorem lt_size_of_parent? {n q : Nat} (h : d.parent? n = some q) : n < d.nodes.size := by
  cases hr : d.record? n with
  | none => simp [parent?, hr] at h
  | some r => exact lt_size_of_record? hr

/-- As long as the first nodes are known, all parents of later documents are. -/
theorem Ordered.grow {count : Nat} (o : Ordered count d) : Ordered d.nodes.size d where
  count_le := le_rfl
  parent_lt n q h := by
    have hn := lt_size_of_parent? h
    have hc := o.count_le
    rcases o.parent_lt n q h with hq | hq <;> omega

/-- The forest stands among the children of the parent, between the given siblings, in a
document in which all parents are known. -/
structure Block (d : Document) (parent : NodeId) (before : List NodeId)
    (forest : List Subtree) (behind : List NodeId) : Prop where
  ordered : Ordered d.nodes.size d
  record : ∃ r, d.record? parent = some r ∧ r.children = before ++ roots forest ++ behind
  container : d.isContainer parent = true
  holds : HoldsAll d parent forest
  nodup : (idsAll forest).Nodup
  parent_notMem : parent ∉ idsAll forest
  before_notMem : ∀ n ∈ before, n ∉ idsAll forest
  behind_notMem : ∀ n ∈ behind, n ∉ idsAll forest
  before_lt : ∀ n : Nat, n ∈ before → n < d.nodes.size
  behind_lt : ∀ n : Nat, n ∈ behind → n < d.nodes.size
  behind_parent : ∀ n ∈ behind, d.parent? n = some parent
  behind_ne : ∀ n ∈ behind, n ≠ parent
  apart : ∀ n ∈ behind, n ∉ before

/-- A document and the one after an edit that exchanges one block for another. -/
structure Rewrites (d d' : Document) (parent : NodeId) (before : List NodeId)
    (old new : List Subtree) (behind : List NodeId) : Prop where
  size_le : d.nodes.size ≤ d'.nodes.size
  others : ∀ n : Nat, n < d.nodes.size → n ≠ parent → n ∉ idsAll old → d'.record? n = d.record? n
  record : ∀ r, d.record? parent = some r →
    d'.record? parent = some { r with children := before ++ roots new ++ behind }
  holds : HoldsAll d' parent new
  nodup : (idsAll new).Nodup
  fresh : ∀ n : Nat, n ∈ idsAll new → n ∈ idsAll old ∨ d.nodes.size ≤ n
  ordered : ∀ count, Ordered count d → Ordered count d'

variable {before behind : List NodeId} {forest old mid new : List Subtree}

theorem Block.parent_lt (b : Block d parent before forest behind) :
    parent < d.nodes.size := by
  obtain ⟨r, hr, -⟩ := b.record
  exact lt_size_of_record? hr

theorem Block.children_eq (b : Block d parent before forest behind) :
    d.children parent = before ++ roots forest ++ behind := by
  obtain ⟨r, hr, hc⟩ := b.record
  simp [children, hr, hc]

namespace Rewrites

theorem refl (b : Block d parent before forest behind) :
    Rewrites d d parent before forest forest behind where
  size_le := le_rfl
  others _ _ _ _ := rfl
  record r hr := by
    obtain ⟨r', hr', hc⟩ := b.record
    obtain rfl : r' = r := Option.some.inj (hr'.symm.trans hr)
    rw [hr, ← hc]
  holds := b.holds
  nodup := b.nodup
  fresh _ hn := .inl hn
  ordered _ o := o

/-- The new block stands where the old one stood. -/
theorem block (b : Block d parent before old behind)
    (w : Rewrites d d' parent before old new behind) :
    Block d' parent before new behind := by
  obtain ⟨r, hr, hc⟩ := b.record
  have outside : ∀ n : Nat, n < d.nodes.size → n ∉ idsAll old → n ∉ idsAll new := by
    intro n hn ho hm
    rcases w.fresh n hm with h | h
    · exact ho h
    · omega
  refine ⟨(w.ordered _ b.ordered).grow, ⟨_, w.record r hr, rfl⟩, ?_, w.holds, w.nodup,
    outside _ b.parent_lt b.parent_notMem,
    fun n hn => outside n (b.before_lt n hn) (b.before_notMem n hn),
    fun n hn => outside n (b.behind_lt n hn) (b.behind_notMem n hn),
    fun n hn => Nat.lt_of_lt_of_le (b.before_lt n hn) w.size_le,
    fun n hn => Nat.lt_of_lt_of_le (b.behind_lt n hn) w.size_le, fun n hn => ?_, b.behind_ne,
    b.apart⟩
  · have h := b.container
    simp only [isContainer, kind?, hr, w.record r hr, Option.map_some] at h ⊢
    exact h
  · rw [← b.behind_parent n hn, parent?, parent?,
      w.others n (b.behind_lt n hn) (b.behind_ne n hn) (b.behind_notMem n hn)]

theorem trans {d₁ d₂ : Document} (v : Rewrites d d₁ parent before old mid behind)
    (w : Rewrites d₁ d₂ parent before mid new behind) :
    Rewrites d d₂ parent before old new behind where
  size_le := Nat.le_trans v.size_le w.size_le
  others n hn hp ho := by
    have hm : n ∉ idsAll mid := fun hm => by
      rcases v.fresh n hm with h | h
      · exact ho h
      · omega
    rw [w.others n (Nat.lt_of_lt_of_le hn v.size_le) hp hm, v.others n hn hp ho]
  record r hr := by rw [w.record _ (v.record r hr)]
  holds := w.holds
  nodup := w.nodup
  fresh n hn := by
    rcases w.fresh n hn with h | h
    · exact v.fresh n h
    · exact .inr (Nat.le_trans v.size_le h)
  ordered count o := w.ordered count (v.ordered count o)

end Rewrites

/-- A part of a block is a block between more siblings. -/
theorem Block.part {left right : List Subtree}
    (b : Block d parent before (left ++ forest ++ right) behind) :
    Block d parent (before ++ roots left) forest (roots right ++ behind) := by
  have nodup := b.nodup
  have holds := b.holds
  simp only [idsAll_append, holdsAll_append, List.nodup_append] at nodup holds
  obtain ⟨⟨-, hf, hlf⟩, -, hr⟩ := nodup
  have hparent := b.parent_notMem
  simp only [idsAll_append, List.mem_append, not_or] at hparent
  obtain ⟨r, hrec, hc⟩ := b.record
  refine ⟨b.ordered, ⟨r, hrec, by simp [hc]⟩, b.container, holds.1.2, hf, hparent.1.2, ?_, ?_,
    ?_, ?_, ?_, ?_, ?_⟩
  · intro n hn hm
    rcases List.mem_append.1 hn with h | h
    · exact b.before_notMem n h (by simp [hm])
    · exact hlf n (roots_subset _ h) n hm rfl
  · intro n hn hm
    rcases List.mem_append.1 hn with h | h
    · exact hr n (List.mem_append_right _ hm) n (roots_subset _ h) rfl
    · exact b.behind_notMem n h (by simp [hm])
  · intro n hn
    rcases List.mem_append.1 hn with h | h
    · exact b.before_lt n h
    · exact holds.1.1.lt_size n (roots_subset _ h)
  · intro n hn
    rcases List.mem_append.1 hn with h | h
    · exact holds.2.lt_size n (roots_subset _ h)
    · exact b.behind_lt n h
  · intro n hn
    rcases List.mem_append.1 hn with h | h
    · exact holds.2.parent_eq h
    · exact b.behind_parent n h
  · rintro n hn rfl
    rcases List.mem_append.1 hn with h | h
    · exact hparent.2 (roots_subset _ h)
    · exact b.behind_ne n h rfl
  · intro n hn hm
    rcases List.mem_append.1 hn with h | h <;> rcases List.mem_append.1 hm with h' | h'
    · exact b.before_notMem n h' (by simp [roots_subset _ h])
    · exact hr n (List.mem_append_left _ (roots_subset _ h')) n (roots_subset _ h) rfl
    · exact b.apart n h h'
    · exact b.behind_notMem n h (by simp [roots_subset _ h'])

/-- Rewriting a part of a block rewrites the block. -/
theorem Rewrites.part {left right : List Subtree}
    (b : Block d parent before (left ++ old ++ right) behind)
    (w : Rewrites d d' parent (before ++ roots left) old new (roots right ++ behind)) :
    Rewrites d d' parent before (left ++ old ++ right) (left ++ new ++ right) behind := by
  have nodup := b.nodup
  have holds := b.holds
  simp only [idsAll_append, holdsAll_append, List.nodup_append] at nodup holds
  obtain ⟨⟨hl, hf, hlf⟩, hr, hlr⟩ := nodup
  have hparent := b.parent_notMem
  simp only [idsAll_append, List.mem_append, not_or] at hparent
  have keepLeft : ∀ n ∈ idsAll left, d'.record? n = d.record? n := fun n hn =>
    w.others n (holds.1.1.lt_size n hn) (fun h => hparent.1.1 (h ▸ hn))
      (fun hm => hlf n hn n hm rfl)
  have keepRight : ∀ n ∈ idsAll right, d'.record? n = d.record? n := fun n hn =>
    w.others n (holds.2.lt_size n hn) (fun h => hparent.2 (h ▸ hn))
      (fun hm => hlr n (List.mem_append_right _ hm) n hn rfl)
  refine ⟨w.size_le, ?_, ?_, ?_, ?_, ?_, w.ordered⟩
  · intro n hn hp hm
    simp only [idsAll_append, List.mem_append, not_or] at hm
    exact w.others n hn hp hm.1.2
  · intro r hrec
    rw [w.record r hrec]
    simp
  · simp only [holdsAll_append]
    exact ⟨⟨holds.1.1.congr keepLeft, w.holds⟩, holds.2.congr keepRight⟩
  · simp only [idsAll_append, List.nodup_append]
    refine ⟨⟨hl, w.nodup, ?_⟩, hr, ?_⟩
    · rintro n hn m hm rfl
      rcases w.fresh n hm with h | h
      · exact hlf n hn n h rfl
      · exact absurd (holds.1.1.lt_size n hn) (by omega)
    · rintro n hn m hm rfl
      rcases List.mem_append.1 hn with h | h
      · exact hlr n (List.mem_append_left _ h) n hm rfl
      · rcases w.fresh n h with h | h
        · exact hlr n (List.mem_append_right _ h) n hm rfl
        · exact absurd (holds.2.lt_size n hm) (by omega)
  · intro n hn
    simp only [idsAll_append, List.mem_append] at hn ⊢
    rcases hn with (hn | hn) | hn
    · exact .inl (.inl (.inl hn))
    · exact (w.fresh n hn).imp (fun h => .inl (.inr h)) id
    · exact .inl (.inr hn)

/-- What stands below a root of a block is a block of its own. -/
theorem Block.inside {id : Nat} {kind : NodeKind} {children : List Subtree}
    (b : Block d parent before [.node id kind children] behind)
    (container : d.isContainer id = true) : Block d id [] children [] := by
  have nodup := b.nodup
  have holds := b.holds
  simp only [idsAll_cons, idsAll_nil, ids_node, List.append_nil, List.nodup_cons, holdsAll_cons,
    holds_node] at nodup holds
  exact ⟨b.ordered, ⟨_, holds.1.1, by simp⟩, container, holds.1.2, nodup.2, nodup.1, by simp,
    by simp, by simp, by simp, by simp, by simp, by simp⟩

/-- Rewriting what stands below a root rewrites the tree of the root. -/
theorem Rewrites.inside {id : Nat} {kind : NodeKind} {old new : List Subtree}
    (b : Block d parent before [.node id kind old] behind)
    (w : Rewrites d d' id [] old new []) :
    Rewrites d d' parent before [.node id kind old] [.node id kind new] behind := by
  have nodup := b.nodup
  have holds := b.holds
  have hparent := b.parent_notMem
  simp only [idsAll_cons, idsAll_nil, ids_node, List.append_nil, List.nodup_cons, holdsAll_cons,
    holds_node, List.mem_cons, not_or] at nodup holds hparent
  obtain ⟨r, hrec, hc⟩ := b.record
  refine ⟨w.size_le, ?_, ?_, ?_, ?_, ?_, w.ordered⟩
  · intro n hn hp hm
    simp only [idsAll_cons, idsAll_nil, ids_node, List.append_nil, List.mem_cons, not_or] at hm
    exact w.others n hn hm.1 hm.2
  · intro s hs
    obtain rfl : r = s := Option.some.inj (hrec.symm.trans hs)
    rw [w.others _ b.parent_lt hparent.1 hparent.2, hs]
    simp only [roots_cons, roots_nil, root] at hc ⊢
    rw [← hc]
  · simp only [holdsAll_cons, holds_node, holdsAll_nil, and_true]
    refine ⟨?_, w.holds⟩
    rw [w.record _ holds.1.1]
    simp
  · simp only [idsAll_cons, idsAll_nil, ids_node, List.append_nil, List.nodup_cons]
    refine ⟨fun hm => ?_, w.nodup⟩
    rcases w.fresh id hm with h | h
    · exact nodup.1 h
    · exact absurd (lt_size_of_record? holds.1.1) (by omega)
  · intro n hn
    simp only [idsAll_cons, idsAll_nil, ids_node, List.append_nil, List.mem_cons] at hn ⊢
    rcases hn with rfl | hn
    · exact .inl (.inl rfl)
    · exact (w.fresh n hn).imp .inr (·)

/-- A block at the end of another node stays when the two have nothing in common. -/
theorem Block.elsewhere {q : NodeId} {before' : List NodeId} {f : List Subtree}
    (b : Block d parent before old behind) (w : Rewrites d d' parent before old new behind)
    (b' : Block d q before' f []) (hne : q ≠ parent) (hq : q ∉ idsAll old)
    (hparent : parent ∉ idsAll f) (apart : ∀ n ∈ idsAll f, n ∉ idsAll old) :
    Block d' q before' f [] := by
  have same : d'.record? q = d.record? q := w.others q b'.parent_lt hne hq
  obtain ⟨r, hr, hc⟩ := b'.record
  refine ⟨(w.ordered _ b.ordered).grow, ⟨r, same.trans hr, hc⟩, ?_, ?_, b'.nodup,
    b'.parent_notMem, b'.before_notMem, by simp,
    fun n hn => Nat.lt_of_lt_of_le (b'.before_lt n hn) w.size_le, by simp, by simp, by simp, by simp⟩
  · have h := b'.container
    rwa [isContainer, kind?, same]
  · refine b'.holds.congr fun n hn => w.others n (b'.holds.lt_size n hn) ?_ (apart n hn)
    rintro rfl
    exact hparent hn

end Document

end LiveTemplate
