import LiveTemplate.Live.Renderer
import LiveTemplate.Proofs.Tracing
import Mathlib.Data.List.Forall2

/-!
# Counterparts

What stands below one node may be the same in two documents although the nodes have other
numbers. A pairing tells which node of the one is which node of the other. Paired nodes have
the same data, and their parents and children are paired again. An edit of some nodes in the one
document and the same edit of their counterparts in the other both fail, or keep all
that is paired. What stands elsewhere in the documents does not matter. Records are paired if they
are the same but for the nodes.
-/
namespace LiveTemplate
open Document Live

/-! ### Pairings -/

/-- Which node of one document stands for which node of another. -/
abbrev Pairing := NodeId → NodeId → Prop

/-- One more pair. -/
def Pairing.add (R : Pairing) (n n' : NodeId) : Pairing := fun a b => R a b ∨ a = n ∧ b = n'

section
variable {R : Pairing} {n n' : NodeId}

theorem Pairing.le_add : R ≤ R.add n n' := fun _ _ => .inl

theorem Pairing.add_self : R.add n n' n n' := .inr ⟨rfl, rfl⟩

theorem Pairing.biUnique_add (unique : Relator.BiUnique R) (left : ∀ m, ¬R n m)
    (right : ∀ m, ¬R m n') : Relator.BiUnique (R.add n n') := by
  constructor
  · rintro a b a' (h | ⟨rfl, rfl⟩) (h' | ⟨rfl, h'⟩)
    · exact unique.1 h h'
    · exact absurd (h' ▸ h) (right _)
    · exact absurd h' (right _)
    · rfl
  · rintro a b b' (h | ⟨rfl, rfl⟩) (h' | ⟨h', rfl⟩)
    · exact unique.2 h h'
    · exact absurd (h' ▸ h) (left _)
    · exact absurd h' (left _)
    · rfl

end

namespace Document

/-- The nodes below `c` in the two documents, and others that are paired, are the same but for
their numbers. No outer node is paired, and those above `c` are outer ones. -/
structure Matches (outer : NodeId → Prop) (c : NodeId) (R : Pairing) (d d' : Document) : Prop where
  consistent : d.Consistent
  consistent' : d'.Consistent
  unique : Relator.BiUnique R
  known : ∀ a b, R.add c c a b → d.kind? a = d'.kind? b ∧ (d.kind? a).isSome = true
  children : ∀ a b, R.add c c a b → List.Forall₂ R (d.children a) (d'.children b)
  parent : ∀ a b, R a b → Option.Rel (R.add c c) (d.parent? a) (d'.parent? b)
  above : ∀ n, Relation.ReflTransGen d.Under c n → outer n
  above' : ∀ n, Relation.ReflTransGen d'.Under c n → outer n
  outer_lt : ∀ n : Nat, outer n → n < d.nodes.size ∧ n < d'.nodes.size
  outer_not : ∀ n, outer n → (∀ m, ¬R n m) ∧ ∀ m, ¬R m n

/-! ### Lists of counterparts -/

section
variable {α β : Type} {R : α → β → Prop} {l : List α} {l' : List β} {p : α → Bool} {q : β → Bool}
  {x : Option α} {y : Option β}

theorem forall₂_set (h : List.Forall₂ R l l') {a : α} {b : β} (hab : R a b) (i : Nat) :
    List.Forall₂ R (l.set i a) (l'.set i b) := by
  induction h generalizing i with
  | nil => exact .nil
  | cons hxy rest ih =>
    cases i with
    | zero => exact .cons hab rest
    | succ i => exact .cons hxy (ih i)

theorem rel_some_left {a : α} (h : Option.Rel R (some a) y) : ∃ b, y = some b ∧ R a b := by
  cases h with
  | some h => exact ⟨_, rfl, h⟩

theorem rel_mono {S : α → β → Prop} (le : ∀ a b, R a b → S a b) (h : Option.Rel R x y) :
    Option.Rel S x y := by
  cases h with
  | some h => exact .some (le _ _ h)
  | none => exact .none

theorem rel_orElse {x₂ : Option α} {y₂ : Option β} (h : Option.Rel R x y)
    (h₂ : Option.Rel R x₂ y₂) : Option.Rel R (x <|> x₂) (y <|> y₂) := by
  cases h with
  | some h => exact .some h
  | none => exact h₂

theorem rel_getD {a : α} {b : β} (h : Option.Rel R x y) (hab : R a b) :
    R (x.getD a) (y.getD b) := by
  cases h with
  | some h => exact h
  | none => exact hab

theorem rel_flip (h : Option.Rel R x y) : Option.Rel (flip R) y x := by
  cases h with
  | some h => exact .some h
  | none => exact .none

theorem forall₂_takeWhile (h : List.Forall₂ R l l') (same : ∀ a b, R a b → p a = q b) :
    List.Forall₂ R (l.takeWhile p) (l'.takeWhile q) := by
  induction h with
  | nil => exact .nil
  | @cons a b l l' hab _ ih =>
    rw [List.takeWhile_cons, List.takeWhile_cons, same a b hab]
    split
    · exact .cons hab ih
    · exact .nil

theorem forall₂_dropWhile (h : List.Forall₂ R l l') (same : ∀ a b, R a b → p a = q b) :
    List.Forall₂ R (l.dropWhile p) (l'.dropWhile q) := by
  induction h with
  | nil => exact .nil
  | @cons a b l l' hab rest ih =>
    rw [List.dropWhile_cons, List.dropWhile_cons, same a b hab]
    split
    · exact ih
    · exact .cons hab rest

end

section
variable {R : Pairing} {l l' moved moved' : List NodeId} {a b : NodeId}

theorem eq_iff_of_biUnique (unique : Relator.BiUnique R) {x y : NodeId} (hab : R a b)
    (hxy : R x y) : x = a ↔ y = b :=
  ⟨fun h => unique.2 hxy (h ▸ hab), fun h => unique.1 hxy (h ▸ hab)⟩

theorem decide_ne_of_biUnique (unique : Relator.BiUnique R) (hab : R a b) (x y : NodeId)
    (hxy : R x y) : decide (x ≠ a) = decide (y ≠ b) := by
  simp only [ne_eq, eq_iff_of_biUnique unique hab hxy]

theorem forall₂_through (unique : Relator.BiUnique R) (hab : R a b) (h : List.Forall₂ R l l') :
    List.Forall₂ R (through a l) (through b l') := by
  induction h with
  | nil => exact .nil
  | @cons x y l l' hxy _ ih =>
    simp only [through, eq_iff_of_biUnique unique hab hxy]
    split
    · exact .cons hxy .nil
    · exact .cons hxy ih

theorem forall₂_filter_notMem (unique : Relator.BiUnique R) (hmoved : List.Forall₂ R moved moved')
    (h : List.Forall₂ R l l') :
    List.Forall₂ R (l.filter (· ∉ moved)) (l'.filter (· ∉ moved')) := by
  apply List.rel_filter _ h
  intro x y hxy
  simpa using (List.rel_mem unique hxy hmoved).not

theorem forall₂_spliceBefore (unique : Relator.BiUnique R) {reference reference' : Option NodeId}
    (href : Option.Rel R reference reference') (hmoved : List.Forall₂ R moved moved')
    (h : List.Forall₂ R l l') :
    List.Forall₂ R (spliceBefore reference moved l) (spliceBefore reference' moved' l') := by
  cases href with
  | none => exact List.rel_append h hmoved
  | some hab =>
    have same := decide_ne_of_biUnique unique hab
    exact List.rel_append (List.rel_append (forall₂_takeWhile h same) hmoved)
      (forall₂_dropWhile h same)

end

/-! ### Edits of counterparts -/

section
variable {d : Document} {n : Nat}

theorem lt_size_of_kind? (h : (d.kind? n).isSome = true) : n < d.nodes.size := by
  rw [isSome_kind?] at h
  obtain ⟨r, hr⟩ := Option.isSome_iff_exists.1 h
  exact lt_size_of_record? hr

theorem kind?_create (kind : NodeKind) (n : Nat) :
    (d.create kind).2.kind? n = if n = d.nodes.size then some kind else d.kind? n := by
  rw [kind?, record?_create, kind?]
  split <;> rfl

/-- An insertion that is allowed moves the node, or what it hands over. -/
theorem Consistent.exists_insert (c : Consistent d) {p a : NodeId} {kind : NodeKind}
    (reference : Option NodeId) (guard : ¬(!d.isContainer p || d.isInclusiveAncestor a p) = true)
    (hk : d.kind? a = some kind) : ∃ d₁, d.insert p reference a = .ok d₁ ∧
      Moves d d₁ (d.takeOut a kind).1 (some p) reference := by
  have allowed := guard
  simp only [Bool.or_eq_true, Bool.not_eq_true', not_or, Bool.not_eq_false,
    Bool.not_eq_true] at allowed
  have known : (d.kind? p).isSome = true := by
    have container := allowed.1
    cases hp : d.kind? p with
    | none => simp [isContainer, hp] at container
    | some k => rfl
  have out := c.takeOut hk allowed.2
  refine ⟨_, ?_, out.1.moves reference (fun n hn => (out.2.2 n hn).1) known⟩
  rw [Document.insert, if_neg guard]
  simp only [hk]

end

/-- Both fail, or both succeed with results that belong together. -/
inductive Agree {α β : Type} (P : α → β → Prop) :
    Except DocumentError α → Except DocumentError β → Prop
  | ok {x : α} {y : β} (h : P x y) : Agree P (.ok x) (.ok y)
  | error (e e' : DocumentError) : Agree P (.error e) (.error e')

namespace Matches
variable {outer : NodeId → Prop} {c : NodeId} {R : Pairing} {d d' d₁ d₁' : Document}
  {a b p q : NodeId}

theorem root_not (m : Matches outer c R d d') : (∀ n, ¬R c n) ∧ ∀ n, ¬R n c :=
  m.outer_not c (m.above c .refl)

/-- The node itself is paired with nothing else. -/
theorem rooted_unique (m : Matches outer c R d d') : Relator.BiUnique (R.add c c) :=
  Pairing.biUnique_add m.unique m.root_not.1 m.root_not.2

theorem symm (m : Matches outer c R d d') : Matches outer c (flip R) d' d := by
  have back : ∀ {a b}, Pairing.add (flip R) c c a b → R.add c c b a := fun h => h.imp id And.symm
  refine ⟨m.consistent', m.consistent, ⟨fun _ _ _ h h' => m.unique.2 h h', fun _ _ _ h h' =>
    m.unique.1 h h'⟩, fun a b h => ?_, fun a b h => ?_, fun a b h => ?_, m.above', m.above,
    fun n hn => (m.outer_lt n hn).symm, fun n hn => (m.outer_not n hn).symm⟩
  · obtain ⟨same, isSome⟩ := m.known b a (back h)
    exact ⟨same.symm, same ▸ isSome⟩
  · exact List.Forall₂.flip (m.children b a (back h))
  · have same : flip (R.add c c) = Pairing.add (flip R) c c := by
      funext a b
      simp only [flip, Pairing.add, and_comm]
    exact same ▸ rel_flip (m.parent b a h)

/-- What is above a node is above its counterpart. -/
theorem under (m : Matches outer c R d d') (hab : R a b) (hpq : R.add c c p q)
    (h : Relation.ReflTransGen d.Under p a) : Relation.ReflTransGen d'.Under q b := by
  induction h using Relation.ReflTransGen.head_induction_on generalizing q with
  | refl =>
    obtain rfl := m.rooted_unique.2 hpq (.inl hab)
    exact .refl
  | @head p p₁ hp path ih =>
    rcases hpq with hpq | ⟨rfl, -⟩
    · have hparent := m.parent p q hpq
      rw [show d.parent? p = some p₁ from hp] at hparent
      obtain ⟨q₁, hq, hpq₁⟩ := rel_some_left hparent
      exact .head hq (ih hpq₁)
    -- a node above `c` is not paired
    · exact absurd hab ((m.outer_not a (m.above a (.head hp path))).1 b)

theorem isInclusiveAncestor_eq (m : Matches outer c R d d') (hab : R a b) (hpq : R.add c c p q) :
    d.isInclusiveAncestor a p = d'.isInclusiveAncestor b q := by
  rw [Bool.eq_iff_iff, m.consistent.isInclusiveAncestor_iff, m.consistent'.isInclusiveAncestor_iff]
  exact ⟨m.under hab hpq, m.symm.under hab (hpq.imp id And.symm)⟩

theorem isContainer_eq (m : Matches outer c R d d') (hpq : R.add c c p q) :
    d.isContainer p = d'.isContainer q := by
  rw [isContainer, isContainer, (m.known p q hpq).1]

/-- Paired nodes are moved, and so are their counterparts. -/
theorem moves (m : Matches outer c R d d') {moved moved' : List NodeId}
    {target target' reference reference' : Option NodeId}
    (w : Moves d d₁ moved target reference) (w' : Moves d' d₁' moved' target' reference')
    (hmoved : List.Forall₂ R moved moved') (htarget : Option.Rel (R.add c c) target target')
    (href : Option.Rel R reference reference') (consistent : d₁.Consistent)
    (consistent' : d₁'.Consistent) (size : d₁.nodes.size = d.nodes.size)
    (size' : d₁'.nodes.size = d'.nodes.size) : Matches outer c R d₁ d₁' := by
  have mem : ∀ a b, R a b → (a ∈ moved ↔ b ∈ moved') := fun a b hab =>
    List.rel_mem m.unique hab hmoved
  have paired : ∀ n ∈ moved, ∃ n', R n n' := by
    intro n hn
    obtain ⟨i, hi, rfl⟩ := List.getElem_of_mem hn
    exact ⟨_, hmoved.get hi (hmoved.length_eq ▸ hi)⟩
  have paired' : ∀ n' ∈ moved', ∃ n, R n n' := by
    intro n' hn'
    obtain ⟨i, hi, rfl⟩ := List.getElem_of_mem hn'
    exact ⟨_, hmoved.get (hmoved.length_eq ▸ hi) hi⟩
  refine ⟨consistent, consistent', m.unique, fun a b h => ?_, fun a b h => ?_, fun a b h => ?_,
    fun n h => ?_, fun n h => ?_, fun n hn => ?_, m.outer_not⟩
  · rw [w.kind, w'.kind]
    exact m.known a b h
  · have atTarget : target = some a ↔ target' = some b := by
      cases htarget with
      | none => simp
      | some ht =>
        simp only [Option.some.injEq]
        exact ⟨fun e => m.rooted_unique.2 (e ▸ ht) h, fun e => m.rooted_unique.1 (e ▸ ht) h⟩
    rw [w.children, w'.children]
    have kept := forall₂_filter_notMem m.unique hmoved (m.children a b h)
    by_cases ht : target = some a
    · rw [if_pos ht, if_pos (atTarget.1 ht)]
      exact forall₂_spliceBefore m.unique href hmoved kept
    · rw [if_neg ht, if_neg (mt atTarget.2 ht)]
      exact kept
  · rw [w.parent, w'.parent]
    by_cases ha : a ∈ moved
    · rwa [if_pos ha, if_pos ((mem a b h).1 ha)]
    · rw [if_neg ha, if_neg (mt (mem a b h).2 ha)]
      exact m.parent a b h
  -- nothing above `c` is paired, so none of it is moved
  · apply m.above n (w.above _ h)
    intro a ha hc
    obtain ⟨b, hab⟩ := paired a ha
    exact (m.outer_not a (m.above a hc)).1 b hab
  · apply m.above' n (w'.above _ h)
    intro b hb hc
    obtain ⟨a, hab⟩ := paired' b hb
    exact (m.outer_not b (m.above' b hc)).2 a hab
  · rw [size, size']
    exact m.outer_lt n hn

theorem remove (m : Matches outer c R d d') (hab : R a b) :
    Agree (Matches outer c R) (d.remove a) (d'.remove b) := by
  obtain ⟨same, isSome⟩ := m.known a b (.inl hab)
  rw [Document.remove, if_pos (isSome_kind?.symm.trans isSome),
    Document.remove, if_pos (isSome_kind?.symm.trans (same ▸ isSome))]
  exact .ok (m.moves (m.consistent.detach_moves a) (m.consistent'.detach_moves b)
    (.cons hab .nil) .none .none (m.consistent.detach a) (m.consistent'.detach b)
    (size_detach a d) (size_detach b d'))

theorem insert (m : Matches outer c R d d') (hpq : R.add c c p q) (hab : R a b)
    {reference reference' : Option NodeId} (href : Option.Rel R reference reference') :
    Agree (Matches outer c R) (d.insert p reference a) (d'.insert q reference' b) := by
  obtain ⟨hkind, isSome⟩ := m.known a b (.inl hab)
  obtain ⟨kind, hk⟩ := Option.isSome_iff_exists.1 isSome
  have hk' : d'.kind? b = some kind := hkind ▸ hk
  by_cases guard : (!d.isContainer p || d.isInclusiveAncestor a p) = true
  · have guard' := guard
    rw [m.isContainer_eq hpq, m.isInclusiveAncestor_eq hab hpq] at guard'
    rw [Document.insert, if_pos guard, Document.insert, if_pos guard']
    exact .error _ _
  · have guard' := guard
    rw [m.isContainer_eq hpq, m.isInclusiveAncestor_eq hab hpq] at guard'
    obtain ⟨d₁, h, w⟩ := m.consistent.exists_insert reference guard hk
    obtain ⟨d₁', h', w'⟩ := m.consistent'.exists_insert reference' guard' hk'
    have hmoved : List.Forall₂ R (d.takeOut a kind).1 (d'.takeOut b kind).1 := by
      cases kind with
      | fragment => exact m.children a b (.inl hab)
      | element data => exact .cons hab .nil
      | text data => exact .cons hab .nil
      | marker => exact .cons hab .nil
    rw [h, h']
    exact .ok (m.moves w w' hmoved (.some hpq) href (m.consistent.insert h)
      (m.consistent'.insert h') (size_insert h) (size_insert h'))

theorem appendChild (m : Matches outer c R d d') (hpq : R.add c c p q) (hab : R a b) :
    Agree (Matches outer c R) (d.appendChild p a) (d'.appendChild q b) := m.insert hpq hab .none

theorem insertBefore (m : Matches outer c R d d') (hab : R a b) (hpq : R p q) :
    Agree (Matches outer c R) (d.insertBefore a p) (d'.insertBefore b q) := by
  have record : ∀ {a b}, R a b →
      ∃ r r', d.record? a = some r ∧ d'.record? b = some r' := by
    intro a b hab
    obtain ⟨same, isSome⟩ := m.known a b (.inl hab)
    obtain ⟨r, hr⟩ := Option.isSome_iff_exists.1 (isSome_kind?.symm.trans isSome)
    obtain ⟨r', hr'⟩ := Option.isSome_iff_exists.1 (isSome_kind?.symm.trans (same ▸ isSome))
    exact ⟨r, r', hr, hr'⟩
  obtain ⟨r, r', hr, hr'⟩ := record hpq
  obtain ⟨s, s', hs, hs'⟩ := record hab
  have hparent := m.parent p q hpq
  simp only [parent?, hr, hr', Option.bind_some] at hparent
  rw [Document.insertBefore, Document.insertBefore]
  simp only [hr, hr', hs, hs', Option.isNone_some, Bool.false_eq_true, if_false]
  revert hparent
  generalize r.parent = x, r'.parent = y
  intro hparent
  cases hparent with
  | none => exact .error _ _
  | some hpq' =>
    have same : a = p ↔ b = q := eq_iff_of_biUnique m.unique hpq hab
    by_cases h : a = p
    · simp only [if_pos h, if_pos (same.1 h)]
      exact .ok m
    · simp only [if_neg h, if_neg (mt same.2 h)]
      exact m.insert hpq' hab (.some hpq)

/-- The data of two counterparts is changed to the same. -/
theorem recast (m : Matches outer c R d d') (hab : R a b) (kind : NodeKind)
    (consistent : (d.update a fun r => { r with kind }).Consistent)
    (consistent' : (d'.update b fun r => { r with kind }).Consistent) :
    Matches outer c R (d.update a fun r => { r with kind })
      (d'.update b fun r => { r with kind }) := by
  obtain ⟨same, isSome⟩ := m.known a b (.inl hab)
  obtain ⟨old, hk⟩ := Option.isSome_iff_exists.1 isSome
  have hk' : d'.kind? b = some old := same ▸ hk
  have parent : ∀ (d : Document) (a n : NodeId),
      (d.update a fun r => { r with kind }).parent? n = d.parent? n :=
    fun _ _ => parent?_update fun _ => rfl
  have children : ∀ (d : Document) (a n : NodeId),
      (d.update a fun r => { r with kind }).children n = d.children n :=
    fun _ _ => children_update fun _ => rfl
  have under : ∀ (d : Document) (a : NodeId),
      (d.update a fun r => { r with kind }).Under = d.Under := by
    intro d a
    funext n q
    rw [Under, Under, parent]
  refine ⟨consistent, consistent', m.unique, fun x y h => ?_, fun x y h => ?_, fun x y h => ?_,
    fun n h => m.above n (under d a ▸ h), fun n h => m.above' n (under d' b ▸ h), fun n hn => ?_,
    m.outer_not⟩
  · rw [kind?_recast hk, kind?_recast hk']
    have hxy : x = a ↔ y = b := eq_iff_of_biUnique m.rooted_unique (.inl hab) h
    by_cases hx : x = a
    · rw [if_pos hx, if_pos (hxy.1 hx)]
      exact ⟨rfl, rfl⟩
    · rw [if_neg hx, if_neg (mt hxy.2 hx)]
      exact m.known x y h
  · rw [children, children]
    exact m.children x y h
  · rw [parent, parent]
    exact m.parent x y h
  · rw [size_update, size_update]
    exact m.outer_lt n hn

theorem updateElement (m : Matches outer c R d d') (hab : R a b) {f : ElementData → ElementData}
    (hf : ∀ data, data.WellFormed → (f data).WellFormed) :
    Agree (Matches outer c R) (d.updateElement a f) (d'.updateElement b f) := by
  obtain ⟨same, isSome⟩ := m.known a b (.inl hab)
  obtain ⟨kind, hk⟩ := Option.isSome_iff_exists.1 isSome
  have hk' : d'.kind? b = some kind := same ▸ hk
  cases kind with
  | element data =>
    have h : d.updateElement a f =
        .ok (d.update a fun r => { r with kind := .element (f data) }) := by
      simp only [Document.updateElement, hk]
    have h' : d'.updateElement b f =
        .ok (d'.update b fun r => { r with kind := .element (f data) }) := by
      simp only [Document.updateElement, hk']
    rw [h, h']
    exact .ok (m.recast hab _ (m.consistent.updateElement hf h) (m.consistent'.updateElement hf h'))
  | text | marker | fragment =>
    simp only [Document.updateElement, hk, hk']
    exact .error _ _

theorem setAttribute (m : Matches outer c R d d') (hab : R a b) (name value : String) :
    Agree (Matches outer c R) (d.setAttribute a name value) (d'.setAttribute b name value) := by
  unfold Document.setAttribute
  split
  next valid => exact m.updateElement hab fun _ w => w.setAttribute value valid
  · exact .error _ _

theorem removeAttribute (m : Matches outer c R d d') (hab : R a b) (name : String) :
    Agree (Matches outer c R) (d.removeAttribute a name) (d'.removeAttribute b name) :=
  m.updateElement hab fun _ w => w.removeAttribute _

theorem setProperty (m : Matches outer c R d d') (hab : R a b) (name : String) (v : Value) :
    Agree (Matches outer c R) (d.setProperty a name v) (d'.setProperty b name v) :=
  m.updateElement hab fun _ w => w.setProperty name v

theorem addListener (m : Matches outer c R d d') (hab : R a b) (event callback : String) :
    Agree (Matches outer c R) (d.addListener a event callback) (d'.addListener b event callback) :=
  m.updateElement hab fun _ w => w.addListener _

theorem removeListener (m : Matches outer c R d d') (hab : R a b) (event callback : String) :
    Agree (Matches outer c R) (d.removeListener a event callback)
      (d'.removeListener b event callback) :=
  m.updateElement hab fun _ w => w.removeListener _

/-- The siblings up to another node are the counterparts of those in the other document. -/
theorem range (m : Matches outer c R d d') (hab : R a b) (hpq : R p q) :
    List.Forall₂ R (d.range a p) (d'.range b q) := by
  have following : List.Forall₂ R (d.followingSiblings a) (d'.followingSiblings b) := by
    have hparent := m.parent a b hab
    unfold followingSiblings
    revert hparent
    generalize d.parent? a = x, d'.parent? b = y
    intro hparent
    cases hparent with
    | none => exact .nil
    | some h =>
      exact List.forall₂_drop 1
        (forall₂_dropWhile (m.children _ _ h) (decide_ne_of_biUnique m.unique hab))
  exact forall₂_through m.unique hpq (.cons hab following)

theorem setText (m : Matches outer c R d d') (hab : R a b) (text : String) :
    Agree (Matches outer c R) (d.setText a text) (d'.setText b text) := by
  obtain ⟨same, isSome⟩ := m.known a b (.inl hab)
  obtain ⟨kind, hk⟩ := Option.isSome_iff_exists.1 isSome
  have hk' : d'.kind? b = some kind := same ▸ hk
  cases kind with
  | text old =>
    have h : d.setText a text = .ok (d.update a fun r => { r with kind := .text text }) := by
      simp only [Document.setText, hk]
    have h' : d'.setText b text = .ok (d'.update b fun r => { r with kind := .text text }) := by
      simp only [Document.setText, hk']
    rw [h, h']
    exact .ok (m.recast hab _ (m.consistent.setText h) (m.consistent'.setText h'))
  | element | marker | fragment =>
    simp only [Document.setText, hk, hk']
    exact .error _ _

/-- Two new nodes are paired. -/
theorem create (m : Matches outer c R d d') (kind : NodeKind)
    (hkind : ∀ data, kind = .element data → data.WellFormed) :
    Matches outer c (R.add d.nodes.size d'.nodes.size) (d.create kind).2 (d'.create kind).2 := by
  have lt : ∀ {a b : Nat}, R.add c c a b → a < d.nodes.size ∧ b < d'.nodes.size := by
    intro a b h
    obtain ⟨same, isSome⟩ := m.known a b h
    exact ⟨lt_size_of_kind? isSome, lt_size_of_kind? (same ▸ isSome)⟩
  have left : ∀ n, ¬R d.nodes.size n := fun n h => absurd (lt (.inl h)).1 (Nat.lt_irrefl _)
  have right : ∀ n, ¬R n d'.nodes.size := fun n h => absurd (lt (.inl h)).2 (Nat.lt_irrefl _)
  have under : ∀ d : Document, (d.create kind).2.Under = d.Under := by
    intro d
    funext n q
    rw [Under, Under, parent?_create]
  have split : ∀ {a b : NodeId}, (R.add d.nodes.size d'.nodes.size).add c c a b →
      R.add c c a b ∨ a = d.nodes.size ∧ b = d'.nodes.size := by
    rintro a b ((h | h) | h)
    · exact .inl (.inl h)
    · exact .inr h
    · exact .inl (.inr h)
  have unknown : ∀ d : Document, d.record? d.nodes.size = none := by simp [record?]
  refine ⟨m.consistent.create kind hkind, m.consistent'.create kind hkind,
    Pairing.biUnique_add m.unique left right, fun a b h => ?_, fun a b h => ?_, fun a b h => ?_,
    fun n h => m.above n (under d ▸ h), fun n h => m.above' n (under d' ▸ h), fun n hn => ?_,
    fun n hn => ?_⟩
  · rw [kind?_create, kind?_create]
    rcases split h with h | ⟨rfl, rfl⟩
    · rw [if_neg (Nat.ne_of_lt (lt h).1), if_neg (Nat.ne_of_lt (lt h).2)]
      exact m.known a b h
    · rw [if_pos rfl, if_pos rfl]
      exact ⟨rfl, rfl⟩
  · rw [children_create, children_create]
    rcases split h with h | ⟨rfl, rfl⟩
    · exact (m.children a b h).imp fun _ _ => .inl
    · simp only [Document.children, unknown]
      exact .nil
  · rw [parent?_create, parent?_create]
    rcases h with h | ⟨rfl, rfl⟩
    · exact rel_mono (fun _ _ => Or.imp_left .inl) (m.parent a b h)
    · simp only [parent?, unknown]
      exact .none
  · obtain ⟨hlt, hlt'⟩ := m.outer_lt n hn
    rw [size_create, size_create]
    exact ⟨Nat.lt_succ_of_lt hlt, Nat.lt_succ_of_lt hlt'⟩
  · obtain ⟨hlt, hlt'⟩ := m.outer_lt n hn
    constructor
    · rintro b (h | ⟨rfl, -⟩)
      · exact (m.outer_not n hn).1 b h
      · exact absurd hlt (Nat.lt_irrefl _)
    · rintro a (h | ⟨-, rfl⟩)
      · exact (m.outer_not n hn).2 a h
      · exact absurd hlt' (Nat.lt_irrefl _)

end Matches

end Document

/-! ### Paired records -/

mutual
/-- The same content but for the nodes. -/
inductive Content.Paired (R : Pairing) : Content → Content → Prop
  | empty : Content.Paired R .empty .empty
  | text {n n' : NodeId} (h : R n n') : Content.Paired R (.text n) (.text n')
  | nested {shared : SharedSkeleton} {start start' stop stop' : NodeId}
      {places places' : List Place} (hstart : R start start') (hstop : R stop stop')
      (h : List.Forall₂ (Place.Paired R) places places') :
      Content.Paired R (.nested shared start stop places) (.nested shared start' stop' places')
  | list {items items' : List Item} (h : List.Forall₂ (Item.Paired R) items items') :
      Content.Paired R (.list items) (.list items')

inductive Item.Paired (R : Pairing) : Item → Item → Prop
  | mk {shown : Value} {content content' : Content} (h : Content.Paired R content content') :
      Item.Paired R (.mk shown content) (.mk shown content')

inductive Place.Paired (R : Pairing) : Place → Place → Prop
  | vacant : Place.Paired R .vacant .vacant
  | attribute {n n' : NodeId} {binding : Binding} {shown : Value} (h : R n n') :
      Place.Paired R (.attribute n binding shown) (.attribute n' binding shown)
  | content {marker marker' : NodeId} {item item' : Item} (h : R marker marker')
      (hitem : Item.Paired R item item') :
      Place.Paired R (.content marker item) (.content marker' item')
end

abbrev Items.Paired (R : Pairing) : List Item → List Item → Prop := List.Forall₂ (Item.Paired R)

abbrev Places.Paired (R : Pairing) : List Place → List Place → Prop :=
  List.Forall₂ (Place.Paired R)

/-- Paired places of the same holes. -/
abbrev Bound.Paired (R : Pairing) : List (Nat × Place) → List (Nat × Place) → Prop :=
  List.Forall₂ fun x y => x.1 = y.1 ∧ Place.Paired R x.2 y.2

section
variable {R S : Pairing}

mutual
/-- What is paired stays so with more pairs. -/
theorem Content.Paired.mono (le : R ≤ S) : (c : Content) → {c' : Content} →
    Content.Paired R c c' → Content.Paired S c c'
  | _, _, .empty => .empty
  | _, _, .text h => .text (le _ _ h)
  | .nested _ _ _ places, _, .nested hstart hstop h =>
      .nested (le _ _ hstart) (le _ _ hstop) (Places.Paired.mono le places h)
  | .list items, _, .list h => .list (Items.Paired.mono le items h)
termination_by structural c => c

theorem Items.Paired.mono (le : R ≤ S) : (items : List Item) → {items' : List Item} →
    Items.Paired R items items' → Items.Paired S items items'
  | [], _, .nil => .nil
  | .mk _ content :: rest, _, .cons (.mk h) others =>
      .cons (.mk (Content.Paired.mono le content h)) (Items.Paired.mono le rest others)
termination_by structural items => items

theorem Places.Paired.mono (le : R ≤ S) : (places : List Place) → {places' : List Place} →
    Places.Paired R places places' → Places.Paired S places places'
  | [], _, .nil => .nil
  | .vacant :: rest, _, .cons .vacant others => .cons .vacant (Places.Paired.mono le rest others)
  | .attribute .. :: rest, _, .cons (.attribute h) others =>
      .cons (.attribute (le _ _ h)) (Places.Paired.mono le rest others)
  | .content _ (.mk _ content) :: rest, _, .cons (.content h (.mk hcontent)) others =>
      .cons (.content (le _ _ h) (.mk (Content.Paired.mono le content hcontent)))
        (Places.Paired.mono le rest others)
termination_by structural places => places
end

theorem Item.Paired.mono (le : R ≤ S) {item item' : Item} (h : Item.Paired R item item') :
    Item.Paired S item item' := by
  cases h with
  | mk h => exact .mk (h.mono le)

theorem Place.Paired.mono (le : R ≤ S) {p p' : Place} (h : Place.Paired R p p') :
    Place.Paired S p p' := by
  obtain _ | h | ⟨h, hitem⟩ := h
  · exact .vacant
  · exact .attribute (le _ _ h)
  · exact .content (le _ _ h) (hitem.mono le)

theorem Bound.Paired.mono (le : R ≤ S) {bound bound' : List (Nat × Place)}
    (h : Bound.Paired R bound bound') : Bound.Paired S bound bound' :=
  h.imp fun _ _ h => ⟨h.1, h.2.mono le⟩

theorem Item.Paired.shown {item item' : Item} (h : Item.Paired R item item') :
    item.shown = item'.shown := by
  cases h
  rfl

theorem Item.Paired.content {item item' : Item} (h : Item.Paired R item item') :
    Content.Paired R item.content item'.content := by
  cases h with
  | mk h => exact h

theorem Item.paired_absent : Item.Paired R .absent .absent := .mk .empty

mutual
theorem Content.Paired.firstNode? : (c : Content) → {c' : Content} → Content.Paired R c c' →
    Option.Rel R c.firstNode? c'.firstNode?
  | _, _, .empty => .none
  | _, _, .text h => .some h
  | _, _, .nested hstart _ _ => .some hstart
  | .list items, _, .list h => Items.Paired.firstNodeOf? items h
termination_by structural c => c

theorem Items.Paired.firstNodeOf? : (items : List Item) → {items' : List Item} →
    Items.Paired R items items' → Option.Rel R (firstNodeOf? items) (firstNodeOf? items')
  | [], _, .nil => .none
  | .mk _ content :: rest, _, .cons (.mk h) others =>
      rel_orElse (Content.Paired.firstNode? content h) (Items.Paired.firstNodeOf? rest others)
termination_by structural items => items
end

theorem Items.Paired.anchorOf {items items' : List Item} (h : Items.Paired R items items')
    {anchor anchor' : NodeId} (hanchor : R anchor anchor') :
    R (LiveTemplate.anchorOf items anchor) (LiveTemplate.anchorOf items' anchor') :=
  rel_getD (Items.Paired.firstNodeOf? items h) hanchor

theorem Items.Paired.keys {items items' : List Item} (h : Items.Paired R items items') :
    items.filterMap (·.shown.key?) = items'.filterMap (·.shown.key?) := by
  induction h with
  | nil => rfl
  | cons h _ ih => rw [List.filterMap_cons, List.filterMap_cons, h.shown, ih]

/-- Of paired items the same are removed, taken over and left. -/
theorem Items.Paired.keyedStep {items items' : List Item} (h : Items.Paired R items items')
    (nextKeys : List Value) (fresh : Bool) :
    let step := Live.keyedStep (isStale nextKeys) fresh items
    let step' := Live.keyedStep (isStale nextKeys) fresh items'
    Items.Paired R step.removed step'.removed ∧
      Item.Paired R (step.reused.getD .absent) (step'.reused.getD .absent) ∧
      Items.Paired R step.rest step'.rest := by
  have stale : ∀ item item', Item.Paired R item item' →
      isStale nextKeys item = isStale nextKeys item' := by
    intro item item' h
    rw [isStale, isStale, h.shown]
  have removed := forall₂_takeWhile h stale
  have rest := forall₂_dropWhile h stale
  simp only [Live.keyedStep]
  split
  · exact ⟨.nil, Item.paired_absent, h⟩
  · revert rest
    generalize items.dropWhile _ = x, items'.dropWhile _ = y
    intro rest
    cases rest with
    | nil => exact ⟨removed, Item.paired_absent, .nil⟩
    | cons first others => exact ⟨removed, first, others⟩

/-! Tables of places -/

theorem Places.paired_vacant (count : Nat) :
    Places.Paired R (List.replicate count .vacant) (List.replicate count .vacant) :=
  List.forall₂_same.2 fun p hp => by
    rw [List.eq_of_mem_replicate hp]
    exact .vacant

theorem Places.Paired.put {places places' : List Place} (h : Places.Paired R places places')
    {p p' : Place} (hp : Place.Paired R p p') (index : Nat) :
    Places.Paired R (Places.put index p places) (Places.put index p' places') := by
  rw [Places.put, Places.put, h.length_eq]
  split
  · exact forall₂_set h hp index
  · exact List.rel_append (List.rel_append h (Places.paired_vacant _)) (.cons hp .nil)

theorem Places.Paired.ofBound {bound bound' : List (Nat × Place)} (h : Bound.Paired R bound bound')
    (holes : Nat) : Places.Paired R (Places.ofBound holes bound) (Places.ofBound holes bound') := by
  have paired : ∀ {places places' : List Place}, Places.Paired R places places' →
      Places.Paired R (bound.foldl (fun places x => Places.put x.1 x.2 places) places)
        (bound'.foldl (fun places x => Places.put x.1 x.2 places) places') := by
    induction h with
    | nil => exact fun h => h
    | @cons x y _ _ hxy _ ih =>
      obtain ⟨i, p⟩ := x
      obtain ⟨j, p'⟩ := y
      obtain ⟨rfl, hp⟩ := hxy
      exact fun h => ih (h.put hp i)
  exact paired (Places.paired_vacant holes)

end

end LiveTemplate
