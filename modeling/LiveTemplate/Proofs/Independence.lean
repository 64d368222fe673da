import LiveTemplate.Proofs.Identity
import LiveTemplate.Proofs.Mirroring

/-!
# Independent containers

Whatever is rendered into a container or unmounted from it, nothing changes but the container and
what is below it. So containers that are not inside each other do not know of each other: what is
below one of them after any moves is what the moves into this container alone would have made of
it, but for the numbers of the nodes.
-/
namespace LiveTemplate
open Document Subtree Live Patched

/-! ### Trees without numbers -/

namespace Subtree

mutual
/-- The tree with no node numbered. -/
def unnumbered : Subtree → Subtree
  | .node _ kind children => .node 0 kind (unnumberedAll children)
termination_by structural t => t

def unnumberedAll : List Subtree → List Subtree
  | [] => []
  | t :: rest => t.unnumbered :: unnumberedAll rest
termination_by structural ts => ts
end

end Subtree

namespace Document

section
variable {d d' : Document} {top n : NodeId}

theorem Consistent.below_iff (c : d.Consistent) :
    d.Below top n ↔ Relation.TransGen d.Under n top := by
  constructor
  · intro h
    induction h with
    | child h => exact .single ((c.mem_children _ _).1 h)
    | step _ h ih => exact .head ((c.mem_children _ _).1 h) ih
  · intro h
    induction h using Relation.TransGen.head_induction_on with
    | single h => exact .child ((c.mem_children _ _).2 h)
    | head h _ ih => exact .step ih ((c.mem_children _ _).2 h)

theorem not_below_of_children (h : d.children top = []) : ¬d.Below top n := by
  intro below
  induction below with
  | child hn => simp [h] at hn
  | step _ _ ih => exact ih

/-- A node and those above it are different nodes of the document. -/
theorem Consistent.branch (c : d.Consistent) {above : List NodeId} {r : NodeRecord}
    (nodup : above.Nodup) (lt : ∀ a : Nat, a ∈ above → a < d.nodes.size)
    (under : ∀ a ∈ above, Relation.TransGen d.Under n a) (hr : d.record? n = some r) :
    (n :: above).Nodup ∧ ∀ a : Nat, a ∈ n :: above → a < d.nodes.size := by
  constructor
  · exact List.nodup_cons.2 ⟨fun h => c.acyclic n (under n h), nodup⟩
  · rintro a (_ | ⟨_, ha⟩)
    · exact lt_size_of_record? hr
    · exact lt a ha

/-- No branch is longer than the table, so more depth shows no more. -/
theorem Consistent.subtrees_succ (c : d.Consistent) {depth : Nat} {ids above : List NodeId}
    (nodup : above.Nodup) (lt : ∀ a : Nat, a ∈ above → a < d.nodes.size)
    (under : ∀ n ∈ ids, ∀ a ∈ above, Relation.TransGen d.Under n a)
    (enough : d.nodes.size ≤ depth + above.length) :
    d.subtrees (depth + 1) ids = d.subtrees depth ids := by
  induction depth generalizing ids above with
  | zero =>
    rw [Document.subtrees, Document.subtrees, List.filterMap_eq_nil_iff]
    intro n hn
    cases hr : d.record? n with
    | none => rfl
    | some r =>
      obtain ⟨nodup', lt'⟩ := c.branch nodup lt (under n hn) hr
      have sub : n :: above ⊆ List.range d.nodes.size := fun a ha => List.mem_range.2 (lt' a ha)
      have := nodup'.length_le_of_subset sub
      simp only [List.length_cons, List.length_range] at this
      omega
  | succ depth ih =>
    rw [Document.subtrees, Document.subtrees]
    apply List.filterMap_congr
    intro n hn
    cases hr : d.record? n with
    | none => rfl
    | some r =>
      obtain ⟨nodup', lt'⟩ := c.branch nodup lt (under n hn) hr
      have under' : ∀ m ∈ r.children, ∀ a ∈ n :: above, Relation.TransGen d.Under m a := by
        intro m hm a ha
        have hparent : d.Under m n := (c.mem_children n m).1 (by rwa [children_of_record hr])
        rcases List.mem_cons.1 ha with rfl | ha
        · exact .single hparent
        · exact .head hparent (under n hn a ha)
      rw [Option.map_some, Option.map_some, ih nodup' lt' under' (by rw [List.length_cons]; omega)]

theorem Consistent.subtrees_of_le (c : d.Consistent) (ids : List NodeId) {depth : Nat}
    (h : d.nodes.size ≤ depth) : d.subtrees depth ids = d.subtrees d.nodes.size ids := by
  induction depth, h using Nat.le_induction with
  | base => rfl
  | succ depth h ih =>
    rw [← ih]
    exact c.subtrees_succ List.nodup_nil (by simp) (by simp) (by simpa using h)

end

namespace Matches
variable {outer : NodeId → Prop} {c : NodeId} {R : Pairing} {d d' d₁ : Document}

theorem subtrees (m : Matches outer c R d d') (depth : Nat) {ids ids' : List NodeId}
    (h : List.Forall₂ R ids ids') :
    unnumberedAll (d.subtrees depth ids) = unnumberedAll (d'.subtrees depth ids') := by
  induction depth generalizing ids ids' with
  | zero => rfl
  | succ depth ih =>
    rw [Document.subtrees, Document.subtrees]
    induction h with
    | nil => rfl
    | @cons a b ids ids' hab _ ihids =>
      obtain ⟨same, isSome⟩ := m.known a b (.inl hab)
      obtain ⟨r, hr⟩ := Option.isSome_iff_exists.1 (isSome_kind?.symm.trans isSome)
      obtain ⟨r', hr'⟩ := Option.isSome_iff_exists.1 (isSome_kind?.symm.trans (same ▸ isSome))
      have hkind : r.kind = r'.kind := by simpa [kind?, hr, hr'] using same
      have hchildren : List.Forall₂ R r.children r'.children := by
        have := m.children a b (.inl hab)
        rwa [children_of_record hr, children_of_record hr'] at this
      simp only [List.filterMap_cons, hr, hr', Option.map_some, unnumberedAll, unnumbered, hkind,
        ih hchildren, ihids]

/-- What is below `c` is the same in both documents, but for the numbers. -/
theorem below (m : Matches outer c R d d') :
    unnumberedAll (d.below c) = unnumberedAll (d'.below c) := by
  have h := m.subtrees (max d.nodes.size d'.nodes.size) (m.children c c Pairing.add_self)
  rwa [m.consistent.subtrees_of_le _ (Nat.le_max_left ..),
    m.consistent'.subtrees_of_le _ (Nat.le_max_right ..)] at h

/-- What is above a paired node is paired, up to `c`. -/
theorem above_paired (m : Matches outer c R d d') {a b n : NodeId} (hab : R.add c c a b)
    (h : Relation.ReflTransGen d.Under a n) :
    (∃ n', R n n') ∨ Relation.ReflTransGen d.Under c n := by
  induction h using Relation.ReflTransGen.head_induction_on generalizing b with
  | refl =>
    rcases hab with hab | ⟨rfl, -⟩
    · exact .inl ⟨b, hab⟩
    · exact .inr .refl
  | @head a p hp path ih =>
    rcases hab with hab | ⟨rfl, -⟩
    · have hparent := m.parent a b hab
      rw [show d.parent? a = some p from hp] at hparent
      obtain ⟨q, -, hpq⟩ := rel_some_left hparent
      exact ih hpq
    · exact .inr (.head hp path)

/-- Changes that spare all paired nodes and `c` do not matter. -/
theorem elsewhere (m : Matches outer c R d d') (consistent : d₁.Consistent)
    (size : d.nodes.size ≤ d₁.nodes.size)
    (same : ∀ a b, R.add c c a b → d₁.record? a = d.record? a)
    (above : ∀ n, Relation.ReflTransGen d₁.Under c n → outer n) : Matches outer c R d₁ d' where
  consistent := consistent
  consistent' := m.consistent'
  unique := m.unique
  known a b h := by
    rw [kind?, same a b h]
    exact m.known a b h
  children a b h := by
    rw [Document.children, same a b h]
    exact m.children a b h
  parent a b h := by
    rw [parent?, same a b (.inl h)]
    exact m.parent a b h
  above := above
  above' := m.above'
  outer_lt n hn := ⟨Nat.lt_of_lt_of_le (m.outer_lt n hn).1 size, (m.outer_lt n hn).2⟩
  outer_not := m.outer_not

end Matches

/-- A node that was there and is not below the container. -/
def Outer (d : Document) (c n : NodeId) : Prop := n < d.nodes.size ∧ ¬d.Below c n

section
variable {d : Document} {c n : NodeId}

theorem Consistent.outer_of_above (consistent : d.Consistent) (container : d.isContainer c = true)
    (h : Relation.ReflTransGen d.Under c n) : d.Outer c n := by
  constructor
  · induction h with
    | refl => exact lt_size_of_isContainer container
    | tail _ hp ih => exact consistent.low _ _ ih hp
  · intro hbelow
    exact consistent.acyclic c (.trans_right h (consistent.below_iff.1 hbelow))

/-- As long as the nodes that were there keep their parents, the same ones are above the
container. -/
theorem Consistent.above_of_parents (consistent : d.Consistent)
    (container : d.isContainer c = true) {d' : Document}
    (parents : ∀ n < d.nodes.size, d'.parent? n = d.parent? n)
    (h : Relation.ReflTransGen d'.Under c n) : Relation.ReflTransGen d.Under c n := by
  induction h with
  | refl => exact .refl
  | tail _ hp ih =>
    have lt := (consistent.outer_of_above container ih).1
    exact ih.tail ((parents _ lt).symm.trans hp)

/-- A document matches itself below each of its containers. -/
theorem Consistent.matches_self (consistent : d.Consistent) (container : d.isContainer c = true) :
    Matches (d.Outer c) c (fun a b => a = b ∧ d.Below c a) d d := by
  have known : ∀ a, d.Below c a ∨ a = c → (d.kind? a).isSome = true := by
    rintro a (h | rfl)
    · obtain ⟨p, hp, -⟩ := Relation.TransGen.head'_iff.1 (consistent.below_iff.1 h)
      rw [isSome_kind?]
      cases hr : d.record? a with
      | none => simp [Under, parent?, hr] at hp
      | some r => rfl
    · obtain ⟨r, hr⟩ := exists_record_of_isContainer container
      rw [isSome_kind?, hr, Option.isSome_some]
  have split : ∀ {a b}, Pairing.add (fun a b => a = b ∧ d.Below c a) c c a b →
      a = b ∧ (d.Below c a ∨ a = c) := by
    rintro a b (⟨rfl, h⟩ | ⟨rfl, rfl⟩)
    · exact ⟨rfl, .inl h⟩
    · exact ⟨rfl, .inr rfl⟩
  refine ⟨consistent, consistent, ⟨?_, ?_⟩, fun a b h => ?_, fun a b h => ?_, ?_,
    fun n => consistent.outer_of_above container, fun n => consistent.outer_of_above container,
    fun n hn => ⟨hn.1, hn.1⟩, fun n hn => ⟨?_, ?_⟩⟩
  · rintro a b a' ⟨rfl, -⟩ ⟨rfl, -⟩
    rfl
  · rintro a b b' ⟨rfl, -⟩ ⟨rfl, -⟩
    rfl
  · obtain ⟨rfl, inside⟩ := split h
    exact ⟨rfl, known a inside⟩
  · obtain ⟨rfl, inside⟩ := split h
    refine List.forall₂_same.2 fun n hn => ⟨rfl, ?_⟩
    rcases inside with below | rfl
    · exact .step below hn
    · exact .child hn
  · rintro a b ⟨rfl, h⟩
    obtain ⟨p, hp, path⟩ := Relation.TransGen.head'_iff.1 (consistent.below_iff.1 h)
    rw [show d.parent? a = some p from hp]
    rcases Relation.reflTransGen_iff_eq_or_transGen.1 path with rfl | path
    · exact .some Pairing.add_self
    · exact .some (.inl ⟨rfl, consistent.below_iff.2 path⟩)
  · rintro m ⟨rfl, h⟩
    exact hn.2 h
  · rintro m ⟨rfl, h⟩
    exact hn.2 h

end

end Document

/-! ### Where a move acts -/

def Move.container : Move → NodeId
  | .render _ container _ => container
  | .unmount _ container => container

theorem Move.On.container {m : Move} {d : Document} (on : m.On d) :
    d.isContainer m.container = true := by
  cases m with
  | render i q v => exact on.1
  | unmount i q => exact on

namespace Scene
variable {start s t : Scene} {plots : NodeId → List Plot} {m : Move} {n : Nat}
  {moves : List Move} {c : NodeId}

/-- A move rewrites the plots of its container, and the renderers know the same of all others. -/
theorem Stands.act_rewrites (st : s.Stands False start.host.document plots)
    (on : m.On start.host.document) :
    (∀ i q, q ≠ m.container →
      ((s.act m).1.renderers i).mounted? q = (s.renderers i).mounted? q) ∧
    ∃ plots', Rewrites s.host.document (s.act m).1.host.document m.container
      (start.host.document.children m.container) (Plot.forests (plots m.container))
      (Plot.forests plots') [] := by
  have others : ∀ {i c} {r' : Renderer},
      (∀ q, q ≠ c → r'.mounted? q = (s.renderers i).mounted? q) → ∀ j q, q ≠ c →
        (Function.update s.renderers i r' j).mounted? q = (s.renderers j).mounted? q := by
    intro i c r' same
    rw [Function.forall_update_iff s.renderers
      (p := fun j r => ∀ q, q ≠ c → r.mounted? q = (s.renderers j).mounted? q)]
    exact ⟨same, fun _ _ _ _ => rfl⟩
  cases m with
  | render i q v =>
    have ends := Renderer.render_replots (i := i) on.2 (st.plotted q on.1) (st.block q on.1)
    by_cases hf : ((s.renderers i).render v q s.host).failure = none
    · obtain ⟨same, l, w, -⟩ := ends.of_none hf
      exact ⟨others same, l, w⟩
    · obtain ⟨same, l, w, -⟩ := ends.of_some hf
      exact ⟨others same, l, w⟩
  | unmount i q =>
    have ends := Renderer.unmount_replots (i := i) (st.plotted q on) (st.block q on)
    by_cases hf : ((s.renderers i).unmount q s.host).failure = none
    · obtain ⟨-, same, l, w, -⟩ := ends.of_none hf
      exact ⟨others same, l, w⟩
    · exact (ends.of_some hf).elim

/-- All nodes but the container and those below it are as they were. -/
theorem Stands.act_others (st : s.Stands False start.host.document plots)
    (on : m.On start.host.document) (hn : n < s.host.document.nodes.size) (hne : n ≠ m.container)
    (hbelow : ¬s.host.document.Below m.container n) :
    (s.act m).1.host.document.record? n = s.host.document.record? n := by
  obtain ⟨-, l, w⟩ := st.act_rewrites on
  exact w.others n hn hne (mt ((st.block _ on.container).below n) hbelow)

/-- What was there at the start keeps its parent. -/
theorem Stands.act_parent (st : s.Stands False start.host.document plots)
    (on : m.On start.host.document) (hn : n < start.host.document.nodes.size) :
    (s.act m).1.host.document.parent? n = s.host.document.parent? n := by
  obtain ⟨-, l, w⟩ := st.act_rewrites on
  by_cases hne : n = m.container
  · obtain ⟨r, hr, -⟩ := (st.block _ on.container).record
    rw [hne, parent?_of_record? hr, parent?_of_record? (w.record r hr)]
  · rw [parent?, w.others n (Nat.lt_of_lt_of_le hn st.size_le) hne
      (st.notMem_plots on.container hn), parent?]

/-- As far as can be seen from the container the scenes are the same. -/
def Mirrors (outer : NodeId → Prop) (c : NodeId) (s t : Scene) : Prop :=
  ∃ R, Matches outer c R s.host.document t.host.document ∧
    ∀ i, (s.renderers i).PairedAt c R (t.renderers i)

/-- A move into the container is made in both scenes. -/
theorem Mirrors.act {outer : NodeId → Prop} (mirrors : Mirrors outer c s t)
    (hm : m.container = c) : Mirrors outer c (s.act m).1 (t.act m).1 := by
  obtain ⟨R, matching, paired⟩ := mirrors
  have next : ∀ {i S} {r r' : Renderer}, R ≤ S → r.PairedAt c S r' → ∀ j,
      (Function.update s.renderers i r j).PairedAt c S (Function.update t.renderers i r' j) := by
    intro i S r r' le h j
    by_cases hj : j = i
    · subst hj
      rwa [Function.update_self, Function.update_self]
    · rw [Function.update_of_ne hj, Function.update_of_ne hj]
      exact (paired j).mono le
  cases m with
  | render i q v =>
    obtain rfl : q = c := hm
    obtain ⟨S, le, matching₁, h, -⟩ := Renderer.render_mirrors v (paired i) _ _ matching
    exact ⟨S, matching₁, next le h⟩
  | unmount i q =>
    obtain rfl : q = c := hm
    obtain ⟨S, le, matching₁, h, -⟩ := Renderer.unmount_mirrors (paired i) _ _ matching
    exact ⟨S, matching₁, next le h⟩

/-- A move elsewhere is made in one of the scenes only. -/
theorem Mirrors.act_elsewhere (mirrors : Mirrors (start.host.document.Outer c) c s t)
    (consistent : start.host.document.Consistent)
    (container : start.host.document.isContainer c = true)
    (st : s.Stands False start.host.document plots) (on : m.On start.host.document)
    (parents : ∀ n < start.host.document.nodes.size,
      s.host.document.parent? n = start.host.document.parent? n)
    (hm : m.container ≠ c) (outside : ¬start.host.document.Below c m.container)
    (outside' : ¬start.host.document.Below m.container c) :
    Mirrors (start.host.document.Outer c) c (s.act m).1 t := by
  obtain ⟨R, matching, paired⟩ := mirrors
  have outer : start.host.document.Outer c m.container :=
    ⟨lt_size_of_isContainer on.container, outside⟩
  have same : ∀ a b, R.add c c a b →
      (s.act m).1.host.document.record? a = s.host.document.record? a := by
    intro a b hab
    -- above a paired node are paired ones, then `c`, then what was above `c` at the start
    have apart : ¬Relation.ReflTransGen s.host.document.Under a m.container := by
      intro h
      rcases matching.above_paired hab h with ⟨n', hn'⟩ | h
      · exact (matching.outer_not _ outer).1 n' hn'
      · have above := consistent.above_of_parents container parents h
        rcases Relation.reflTransGen_iff_eq_or_transGen.1 above with h | h
        · exact hm h
        · exact outside' (consistent.below_iff.2 h)
    refine st.act_others on (lt_size_of_kind? (matching.known a b hab).2) ?_ ?_
    · rintro rfl
      exact apart .refl
    · exact fun h => apart (matching.consistent.below_iff.1 h).to_reflTransGen
  have consistent₁ := run_keeps_consistent matching.consistent [m]
  refine ⟨R, matching.elsewhere consistent₁ ?_ same fun n h => ?_, fun i => ?_⟩
  · obtain ⟨-, l, w⟩ := st.act_rewrites on
    exact w.size_le
  · refine consistent.outer_of_above container (consistent.above_of_parents container ?_ h)
    exact fun n hn => (st.act_parent on hn).trans (parents n hn)
  · rw [Renderer.PairedAt, (st.act_rewrites on).1 i c (Ne.symm hm)]
    exact paired i

/-- Moves elsewhere do not matter to a container. -/
theorem Mirrors.run (mirrors : Mirrors (start.host.document.Outer c) c s t)
    (consistent : start.host.document.Consistent)
    (container : start.host.document.isContainer c = true)
    (st : s.Stands False start.host.document plots)
    (parents : ∀ n < start.host.document.nodes.size,
      s.host.document.parent? n = start.host.document.parent? n)
    (moves : List Move) (on : ∀ m ∈ moves, m.On start.host.document)
    (apart : ∀ m ∈ moves, m.container ≠ c → ¬start.host.document.Below c m.container ∧
      ¬start.host.document.Below m.container c) :
    Mirrors (start.host.document.Outer c) c (s.run moves)
      (t.run (moves.filter (·.container = c))) := by
  induction moves generalizing s t plots with
  | nil => exact mirrors
  | cons m rest ih =>
    rw [List.forall_mem_cons] at on apart
    obtain ⟨plots', next⟩ := st.act on.1
    have parents' : ∀ n < start.host.document.nodes.size,
        (s.act m).1.host.document.parent? n = start.host.document.parent? n := fun n hn =>
      (st.act_parent on.1 hn).trans (parents n hn)
    by_cases hm : m.container = c
    · rw [List.filter_cons_of_pos (by simpa using hm)]
      exact ih (mirrors.act hm) next parents' on.2 apart.2
    · rw [List.filter_cons_of_neg (by simpa using hm)]
      obtain ⟨outside, outside'⟩ := apart.1 hm
      exact ih (mirrors.act_elsewhere consistent container st on.1 parents hm outside outside')
        next parents' on.2 apart.2

/-- Any number of renderers render into containers that were there at the start, none of them
inside another. Each move, failed or not, leaves all nodes as they are but the container and what
was below it. So after all of them what is below a container is what the moves into it alone would
have made of it, but for the numbers of the nodes. -/
theorem run_independent (new : start.New) (consistent : start.host.document.Consistent)
    (moves : List Move) (on : ∀ m ∈ moves, m.On start.host.document)
    (apart : ∀ m ∈ moves, ∀ m' ∈ moves, ¬start.host.document.Below m.container m'.container) :
    (∀ before m after, moves = before ++ m :: after →
      let d := (start.run before).host.document
      ∀ n < d.nodes.size, n ≠ m.container → ¬d.Below m.container n →
        ((start.run before).act m).1.host.document.record? n = d.record? n) ∧
      ∀ c ∈ moves.map Move.container,
        unnumberedAll ((start.run moves).host.document.below c) =
          unnumberedAll ((start.run (moves.filter (·.container = c))).host.document.below c) := by
  have st : start.Stands False start.host.document fun _ => [] :=
    new.stands_of_closed consistent.closed
  constructor
  · rintro before m after rfl d n hn hne hbelow
    rw [List.forall_mem_append, List.forall_mem_cons] at on
    obtain ⟨plots, next⟩ := st.run before on.1
    exact next.act_others on.2.1 hn hne hbelow
  · intro c hc
    obtain ⟨m, hm, rfl⟩ := List.mem_map.1 hc
    have container := (on m hm).container
    have self : Mirrors (start.host.document.Outer m.container) m.container start start := by
      refine ⟨_, consistent.matches_self container, fun i => ?_⟩
      rw [Renderer.PairedAt, new i m.container]
      exact .none
    obtain ⟨R, matching, -⟩ := self.run consistent container st (fun _ _ => rfl) moves on
      fun m' hm' _ => ⟨apart m hm m' hm', apart m' hm' m hm⟩
    exact matching.below

/-- Two renderers in two lists. One of the renders fails, and the nodes of the first list have other
numbers than they would have without the second. -/
theorem run_independent_lists :
    let row : SharedSkeleton := ⟨.parsed 1, ⟨[.element "li" [] [.hole 0]], 1⟩⟩
    let half : SharedSkeleton := ⟨.parsed 2, ⟨[.element "p" [] [], .element "1b" [] []], 0⟩⟩
    let rows (handle : Nat) (texts : List String) : Value :=
      .list handle (texts.map fun s => .template 0 row [.text s])
    let start : Scene := { host := { document := Primitive.run [.createElement "ul",
      .appendChild 0 1, .createElement "ol", .appendChild 0 2] .empty } }
    let failing : Move := .render 0 1 (.template 3 half [])
    let moves : List Move := [.render 0 1 (rows 1 ["a", "b"]), .render 1 2 (rows 2 ["c"]), failing,
      .render 0 2 (.text "d"), .render 0 1 (rows 4 ["e"]), .unmount 1 2]
    let before := start.run (moves.take 2)
    let final := start.run moves
    let alone := start.run (moves.filter (·.container = 1))
    (before.act failing).2 = some (.invalidTagName "1b") ∧
      (∀ n < before.host.document.nodes.size, n ≠ 1 → ¬before.host.document.Below 1 n →
        (before.act failing).1.host.document.record? n = before.host.document.record? n) ∧
      final.host.document.innerMarkup body =
        "<ul><p></p><!----><li>e<!----></li><!----><!----></ul><ol>d<!----></ol>" ∧
      final.host.document.children 1 = [23, 27, 30, 28, 26] ∧
      alone.host.document.children 1 = [16, 18, 21, 19, 17] ∧
      unnumberedAll (final.host.document.below 1) =
        unnumberedAll (alone.host.document.below 1) := by
  intro row half rows start failing moves before final alone
  have on : ∀ m ∈ moves, m.On start.host.document := by
    have made : row.Made := .inr ⟨["<li>", "</li>"], by decide +kernel⟩
    have made' : half.Made := .inr ⟨["<p></p><1b></1b>"], by decide +kernel⟩
    have container : start.host.document.isContainer 1 = true ∧
        start.host.document.isContainer 2 = true := by decide +kernel
    simp [moves, failing, rows, Move.On, container, Value.Built, Value.BuiltAll, made, made']
    decide
  have apart : ∀ m ∈ moves, ∀ m' ∈ moves,
      ¬start.host.document.Below m.container m'.container := by
    have leaves : ∀ m ∈ moves, start.host.document.children m.container = [] := by
      have empty : start.host.document.children 1 = [] ∧ start.host.document.children 2 = [] := by
        decide +kernel
      simp [moves, failing, Move.container, empty]
    exact fun m hm _ _ => not_below_of_children (leaves m hm)
  have consistent : start.host.document.Consistent := (Primitive.run_consistent _).1
  obtain ⟨others, below⟩ := run_independent (fun _ _ => rfl) consistent moves on apart
  have failed : (before.act failing).2 = some (.invalidTagName "1b") := by decide +kernel
  have kept := others (moves.take 2) failing (moves.drop 3) rfl
  have shown : final.host.document.innerMarkup body =
      "<ul><p></p><!----><li>e<!----></li><!----><!----></ul><ol>d<!----></ol>" := by
    decide +kernel
  have numbers : final.host.document.children 1 = [23, 27, 30, 28, 26] ∧
      alone.host.document.children 1 = [16, 18, 21, 19, 17] := by decide +kernel
  have same := below 1 (by simp [moves, Move.container])
  -- the documents need not be computed again
  clear_value start
  exact ⟨failed, kept, shown, numbers.1, numbers.2, same⟩

end Scene

end LiveTemplate
