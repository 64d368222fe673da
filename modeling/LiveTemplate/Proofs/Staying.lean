import LiveTemplate.Proofs.Identity

/-!
# Nodes that stay

A skeleton that is rendered again and again keeps the nodes that it has been mounted as.
What was shown at a place stays for the next value where the two are of a kind: a text for
a scalar, a skeleton with its markers for a template of the same skeleton, the rows of a
list for one that is not keyed, each at its index. A node that stays has one parent all the
time, and stands in one order with all the others that do.
-/
namespace LiveTemplate
open Document Subtree Live Patched

/-! ### The order of nodes that stay -/

section
variable {d d' between : Document} {count : Nat} {p : Primitive} {q : NodeId} {nodes : List NodeId}

namespace Document

theorem filter_spliceBefore {reference : Option NodeId} {moved ids : List NodeId}
    {old : NodeId → Bool} (new : ∀ n ∈ moved, old n = false) :
    (spliceBefore reference moved ids).filter old = ids.filter old := by
  have nothing : moved.filter old = [] := by simpa using new
  cases reference with
  | none => simp [spliceBefore, nothing]
  | some r =>
    simp only [spliceBefore, List.filter_append, nothing, List.append_nil]
    rw [← List.filter_append, List.takeWhile_append_dropWhile]

end Document

/-- The first nodes among the children stay in their order, though some may be taken out. -/
theorem Primitive.edit_children (c : d.Consistent) (low : Low count d) (new : p.PutsNew count)
    (h : p.edit d = .ok d') (q : NodeId) :
    ((d'.children q).filter fun n : Nat => n < count).Sublist (d.children q) := by
  rcases edit_cases h with ⟨kind, rfl⟩ | ⟨parent, reference, id, young, h⟩ | ⟨id, rfl⟩ | shaped
  · rw [children_create]
    exact List.filter_sublist
  · obtain ⟨moved, w, -, -, can⟩ := c.insert_moves h
    have hid := young count new
    -- neither the node nor a child of a fragment that is put somewhere is one of the first
    have late : ∀ n ∈ moved, (fun n : Nat => decide (n < count)) n = false := by
      intro n hn
      rcases (can n hn).1 with rfl | hc
      · simpa using hid
      · by_contra hlt
        have := low n id (by simpa using hlt) ((c.mem_children id n).1 hc)
        omega
    rw [w.children]
    split
    · rw [filter_spliceBefore late]
      exact List.filter_sublist.trans List.filter_sublist
    · exact List.filter_sublist.trans List.filter_sublist
  · rw [(c.detach_moves id).children]
    exact List.filter_sublist.trans (by simp)
  · rw [shaped.2.2]
    exact List.filter_sublist

theorem Document.Edits.children (c : d.Consistent) (low : Primitive.Low count d)
    (e : d.Edits count d') (q : NodeId) :
    ((d'.children q).filter fun n : Nat => n < count).Sublist (d.children q) := by
  induction e with
  | refl => exact List.filter_sublist
  | @tail d₁ d₂ e once ih =>
    obtain ⟨p, new, h⟩ := once
    have c₁ := Edits.consistent c e
    have low₁ : Primitive.Low count d₁ := low.of_parent (Edits.parent c low e)
    have step := (Primitive.edit_children c₁ low₁ new h q).filter fun n : Nat => n < count
    simp only [List.filter_filter, Bool.and_self] at step
    exact step.trans ih

/-- At every moment of the edits that lead from one document to the other, the nodes are below
the container, each has the same parent, and all stand in the same order. -/
structure Document.Steady (q : NodeId) (d d' : Document) (nodes : List NodeId) : Prop where
  edits : d.Edits d.nodes.size d'
  place : ∀ between, d.Edits d.nodes.size between → between.Edits d.nodes.size d' →
    ∀ n ∈ nodes, between.parent? n = d.parent? n ∧ between.Below q n
  order : ∀ between, d.Edits d.nodes.size between → between.Edits d.nodes.size d' →
    ∀ p, (between.children p).filter (· ∈ nodes) = (d.children p).filter (· ∈ nodes)

/-- Nodes that are found below the container at the end have been steady. -/
theorem Document.Steady.of_below (c : d.Consistent) (e : d.Edits d.nodes.size d')
    (old : ∀ n : Nat, n ∈ nodes → n < d.nodes.size) (below : ∀ n ∈ nodes, d'.Below q n) :
    d.Steady q d' nodes := by
  refine ⟨e, fun between e₁ e₂ n hn => e₁.below c e₂ (below n hn) (old n hn), ?_⟩
  intro between e₁ e₂ p
  have c₁ := e₁.consistent c
  have sub : ((between.children p).filter (· ∈ nodes)).Sublist
      ((d.children p).filter (· ∈ nodes)) := by
    have step := (e₁.children c c.low p).filter (· ∈ nodes)
    rw [List.filter_filter] at step
    convert step using 2
    funext n
    by_cases hn : n ∈ nodes
    · simp [hn, old n hn]
    · simp [hn]
  -- the children are the same, for their parents are
  refine sub.eq_of_length (List.Perm.length_eq ?_)
  refine (List.perm_ext_iff_of_nodup ((c₁.nodup p).filter _) ((c.nodup p).filter _)).2 fun n => ?_
  simp only [List.mem_filter, decide_eq_true_eq, and_congr_left_iff]
  intro hn
  rw [c₁.mem_children, c.mem_children, (e₁.below c e₂ (below n hn) (old n hn)).1]

end

/-! ### What stays for the next value -/

/-- What is shown for a value stays for the next one. -/
def Value.Continues : Value → Value → Prop
  | .template _ shared _, .template _ shared' _ => shared = shared'
  | .list .., .list _ vs => Value.allKeyed vs = false
  | u, v => u.Scalar ∧ v.Scalar

/-- What a render makes of a content and its forest, by the values before and after. A scalar
is shown by the text node of the one before, a template by the markers and the nodes of the
same skeleton. For a list that is not keyed this goes for each index that is in both lists;
what is beyond the old ones is made of new nodes, and what is beyond the new ones is taken out:
it is below none of the `first` nodes of the document. -/
inductive Keeps (first : Nat) (q : NodeId) (d d' : Document) :
    Value → Content → List Subtree → Value → Content → List Subtree → Prop
  | text {u v : Value} {n : NodeId} {s s' : String} (scalar : u.Scalar) (scalar' : v.Scalar)
      (steady : d.Steady q d' [n]) :
      Keeps first q d d' u (.text n) [.node n (.text s) []] v (.text n) [.node n (.text s') []]
  | template {handle handle' : Nat} {us vs : List Value} {shared : SharedSkeleton}
      {start stop : NodeId} {places places' : List Place} {ss : List Stem}
      {data data' : NodeId → ElementData} {fill fill' : NodeId → List Subtree}
      (seated : Seated shared ss places) (seated' : Seated shared ss places')
      (steady : d.Steady q d' (start :: Stem.ownAll ss ++ [stop]))
      (contents : ∀ (i : Nat) (marker : NodeId) (item item' : Item),
        places[i]? = some (.content marker item) → places'[i]? = some (.content marker item') →
        Keeps first q d d' (Markup.valueAt us i) item.content (fill marker)
          (Markup.valueAt vs i) item'.content (fill' marker)) :
      Keeps first q d d'
        (.template handle shared us) (.nested shared start stop places)
        (.node start .marker [] :: Stem.assembleAll data fill ss ++ [.node stop .marker []])
        (.template handle' shared vs) (.nested shared start stop places')
        (.node start .marker [] :: Stem.assembleAll data' fill' ss ++ [.node stop .marker []])
  | list {handle handle' : Nat} {us vs : List Value} {rows rows' : List Row}
      (unkeyed : Value.allKeyed vs = false) (length : rows.length = us.length)
      (length' : rows'.length = vs.length)
      (kept : ∀ (i : Nat) (u v : Value) (row row' : Row), us[i]? = some u → vs[i]? = some v →
        rows[i]? = some row → rows'[i]? = some row' →
        Keeps first q d d' u row.item.content row.forest v row'.item.content row'.forest)
      (new : ∀ (i : Nat) (row' : Row), us.length ≤ i → rows'[i]? = some row' →
        ∀ n : Nat, n ∈ idsAll row'.forest → d.nodes.size ≤ n)
      (gone : ∀ (i : Nat) (row : Row), vs.length ≤ i → rows[i]? = some row →
        (∀ n ∈ roots row.forest, d'.parent? n = none) ∧
          ∀ n ∈ idsAll row.forest, ∀ top : Nat, top < first → ¬d'.Below top n) :
      Keeps first q d d' (.list handle us) (.list (Row.items rows)) (Row.forests rows)
        (.list handle' vs) (.list (Row.items rows')) (Row.forests rows')
  | other {u v : Value} {c c' : Content} {f f' : List Subtree} (apart : ¬u.Continues v) :
      Keeps first q d d' u c f v c' f'

section
variable {ω : Watch} {faithful : Prop} {u v : Value} {c c' : Content} {f f' : List Subtree}
  {shared : SharedSkeleton} {start stop n : NodeId} {places : List Place} {items : List Item}

/-! ### The value that a content shows -/

theorem Fits.alike (fits : Fits ω True u c f) (alike : u.Alike v) : Fits ω True v c f := by
  rcases alike.cases with rfl | ⟨m, n, rfl, rfl, -⟩
  · exact fits
  · cases fits with
    | empty shows => exact absurd (shows trivial).2 id
    | text left right shows =>
      obtain ⟨hl, hr, -, hs⟩ := shows trivial
      exact .text left right fun _ => ⟨hl, hr, trivial, hs.trans alike.toText⟩
    | nested left right table contents shows =>
      obtain ⟨-, -, _, _, heq, -⟩ := shows trivial
      contradiction
    | list fits shows =>
      obtain ⟨_, _, heq, -⟩ := shows trivial
      contradiction

theorem Fits.scalar (fits : Fits ω True u (.text n) f) : u.Scalar := by
  cases fits with
  | text left right shows => exact (shows trivial).2.2.1

theorem Fits.template (fits : Fits ω True u (.nested shared start stop places) f) :
    ∃ handle values, u = .template handle shared values ∧ Places.Match places values := by
  cases fits with
  | nested left right table contents shows => exact (shows trivial).2.2

theorem Fits.values (fits : Fits ω True u (.list items) f) :
    ∃ handle us, u = .list handle us ∧ List.Forall₂ Value.Alike (items.map Item.shown) us := by
  cases fits with
  | list fits shows => exact shows trivial

theorem Fits.exists_text (fits : Fits ω True u c f) (scalar : u.Scalar) : ∃ n, c = .text n := by
  cases fits with
  | empty shows =>
    have blank := (shows trivial).2
    cases u <;> simp_all [Value.Blank, Value.Scalar]
  | text left right shows => exact ⟨_, rfl⟩
  | nested left right table contents shows =>
    obtain ⟨-, -, _, _, rfl, -⟩ := shows trivial
    exact absurd scalar id
  | list fits shows =>
    obtain ⟨_, _, rfl, -⟩ := shows trivial
    exact absurd scalar id

theorem Fits.exists_items {handle : Nat} {us : List Value} (fits : Fits ω True (.list handle us) c f) :
    ∃ items, c = .list items := by
  cases fits with
  | empty shows => exact absurd (shows trivial).2 id
  | text left right shows => exact absurd (shows trivial).2.2.1 id
  | nested left right table contents shows =>
    obtain ⟨-, -, _, _, heq, -⟩ := shows trivial
    contradiction
  | list fits shows => exact ⟨_, rfl⟩

/-- Where a value stays for the next one, so does the content that shows it. -/
theorem Value.Continues.resumes (h : u.Continues v) (fits : Fits ω True u c f)
    (fits' : Fits ω True v c' f') : c.Resumes c' := by
  unfold Continues at h
  split at h
  · obtain ⟨_, _, _, rfl⟩ := fits_template fits trivial
    obtain ⟨_, _, _, rfl⟩ := fits_template fits' trivial
    exact h
  · obtain ⟨_, rfl⟩ := fits.exists_items
    obtain ⟨_, rfl⟩ := fits'.exists_items
    trivial
  · obtain ⟨_, rfl⟩ := fits.exists_text h.1
    obtain ⟨_, rfl⟩ := fits'.exists_text h.2
    trivial

end

/-! ### Forests that are exchanged -/

/-- A forest has become another one somewhere in the container: what is there now is below the
container, and what has gone is below none of the first nodes. -/
structure Exchanged (first : Nat) (q : NodeId) (d d' : Document) (f f' : List Subtree) : Prop where
  consistent : d.Consistent
  edits : d.Edits d.nodes.size d'
  container : (q : Nat) < first
  stood : ∃ parent before behind, Block d parent before f behind ∧
    (parent = q ∨ d'.Below q parent)
  stands : ∀ n ∈ idsAll f', d'.Below q n
  gone : ∀ n ∈ idsAll f, n ∉ idsAll f' → ∀ top : Nat, top < first → ¬d'.Below top n

namespace Exchanged
variable {first : Nat} {q : NodeId} {d d' : Document} {f f' g g' : List Subtree}
  {nodes : List NodeId}

theorem nodup (ex : Exchanged first q d d' f f') : (idsAll f).Nodup := by
  obtain ⟨_, _, _, b, -⟩ := ex.stood
  exact b.nodup

theorem lt_size (ex : Exchanged first q d d' f f') (n : Nat) (hn : n ∈ idsAll f) :
    n < d.nodes.size := by
  obtain ⟨_, _, _, b, -⟩ := ex.stood
  exact b.holds.lt_size n hn

theorem steady (ex : Exchanged first q d d' f f') (old : nodes ⊆ idsAll f)
    (now : nodes ⊆ idsAll f') : d.Steady q d' nodes :=
  .of_below ex.consistent ex.edits (fun n hn => ex.lt_size n (old hn)) fun n hn =>
    ex.stands n (now hn)

/-- A root that has gone has no parent any more. -/
theorem root_gone (ex : Exchanged first q d d' f f') {n : NodeId} (hn : n ∈ roots f)
    (gone : n ∉ idsAll f') : d'.parent? n = none := by
  obtain ⟨parent, before, behind, b, above⟩ := ex.stood
  have hmem := roots_subset _ hn
  rcases ex.edits.parent ex.consistent ex.consistent.low n (ex.lt_size n hmem) with same | none
  · exfalso
    have child : n ∈ d'.children parent :=
      ((ex.edits.consistent ex.consistent).mem_children parent n).2 (same.trans (b.holds.parent_eq hn))
    apply ex.gone n hmem gone q ex.container
    rcases above with rfl | above
    · exact .child child
    · exact .step above child
  · exact none

/-- What holds of the whole holds of a part of it, from which nothing has moved elsewhere. -/
theorem narrow (ex : Exchanged first q d d' f f')
    (stood : ∃ parent before behind, Block d parent before g behind ∧
      (parent = q ∨ d'.Below q parent))
    (sub : idsAll g ⊆ idsAll f) (sub' : idsAll g' ⊆ idsAll f')
    (stays : ∀ n : Nat, n < d.nodes.size → n ∈ idsAll g → n ∈ idsAll f' → n ∈ idsAll g') :
    Exchanged first q d d' g g' where
  consistent := ex.consistent
  edits := ex.edits
  container := ex.container
  stood := stood
  stands n hn := ex.stands n (sub' hn)
  gone n hn no := ex.gone n (sub hn) fun h => no (stays n (ex.lt_size n (sub hn)) hn h)

theorem head (ex : Exchanged first q d d' (f ++ g) (f' ++ g')) (grown : Grown d.nodes.size g g') :
    Exchanged first q d d' f f' := by
  obtain ⟨parent, before, behind, b, above⟩ := ex.stood
  have part : Block d parent (before ++ roots []) f (roots g ++ behind) :=
    Block.part (by simpa using b)
  refine ex.narrow ⟨parent, _, _, part, above⟩ (by simp) (by simp) fun n hn h h' => ?_
  have nodup := ex.nodup
  rw [idsAll_append, List.nodup_append] at nodup
  rw [idsAll_append, List.mem_append] at h'
  refine h'.resolve_right fun h' => ?_
  rcases grown n h' with h' | h'
  · exact nodup.2.2 n h n h' rfl
  · omega

theorem tail (ex : Exchanged first q d d' (f ++ g) (f' ++ g')) (grown : Grown d.nodes.size f f') :
    Exchanged first q d d' g g' := by
  obtain ⟨parent, before, behind, b, above⟩ := ex.stood
  have part : Block d parent (before ++ roots f) g (roots [] ++ behind) :=
    Block.part (by simpa using b)
  refine ex.narrow ⟨parent, _, _, part, above⟩ (by simp) (by simp) fun n hn h h' => ?_
  have nodup := ex.nodup
  rw [idsAll_append, List.nodup_append] at nodup
  rw [idsAll_append, List.mem_append] at h'
  refine h'.resolve_left fun h' => ?_
  rcases grown n h' with h' | h'
  · exact nodup.2.2 n h' n h rfl
  · omega

/-- The parent of a marker that stays is the container or is below it. -/
theorem spot {ss : List Stem} {data data' : NodeId → ElementData}
    {fill fill' : NodeId → List Subtree}
    (ex : Exchanged first q d d' (Stem.assembleAll data fill ss) (Stem.assembleAll data' fill' ss))
    (grown : ∀ spot, Grown d.nodes.size (fill spot) (fill' spot)) {m : NodeId × Nat}
    (hm : m ∈ Stem.markersAll ss) : Exchanged first q d d' (fill m.1) (fill' m.1) := by
  obtain ⟨parent, before, behind, b, -⟩ := ex.stood
  obtain ⟨p, before', rest, focus⟩ := Stem.focusAll_marker ss b m hm
  refine ex.narrow ⟨p, before', _, focus.block, ?_⟩ (Stem.fillAll_subset data fill ss m hm)
    (Stem.fillAll_subset data' fill' ss m hm) (Stem.fill_stays b.nodup grown hm)
  have own := Stem.marker_mem_ownAll ss m hm
  have below := ex.stands m.1 (Stem.ownAll_subset data' fill' own)
  have stays := ex.edits.below ex.consistent .refl below
    (ex.lt_size m.1 (Stem.ownAll_subset data fill own))
  have up : d'.parent? m.1 = some p := stays.1.trans (focus.block.behind_parent m.1 (by simp))
  have c' := ex.edits.consistent ex.consistent
  cases below with
  | child h => exact .inl (Option.some.inj (up.symm.trans ((c'.mem_children _ _).1 h)))
  | step above h =>
    obtain rfl := Option.some.inj (up.symm.trans ((c'.mem_children _ _).1 h))
    exact .inr above

end Exchanged

/-! ### What is carried on stays -/

section
variable {first : Nat} {q : NodeId} {d d' : Document}

/-- The rows of two lists by their index, for any values that they show. -/
structure KeepsByPosition (first : Nat) (q : NodeId) (d d' : Document) (rows rows' : List Row) :
    Prop where
  kept : ∀ (i : Nat) (u v : Value) (row row' : Row), rows[i]? = some row → rows'[i]? = some row' →
    Fits .blind True u row.item.content row.forest →
    Fits .blind True v row'.item.content row'.forest →
    Keeps first q d d' u row.item.content row.forest v row'.item.content row'.forest
  new : ∀ (i : Nat) (row' : Row), rows.length ≤ i → rows'[i]? = some row' →
    ∀ n : Nat, n ∈ idsAll row'.forest → d.nodes.size ≤ n
  gone : ∀ (i : Nat) (row : Row), rows'.length ≤ i → rows[i]? = some row →
    ∀ n ∈ idsAll row.forest, n ∉ idsAll (Row.forests rows')

variable {row row' : Row} {rows rows' : List Row} {us vs : List Value}

theorem KeepsByPosition.insert (keeps : KeepsByPosition first q d d' rows rows') (none : rows = [])
    (new : ∀ n : Nat, n ∈ idsAll row'.forest → d.nodes.size ≤ n) :
    KeepsByPosition first q d d' rows (row' :: rows') := by
  subst none
  refine ⟨by simp, fun i r' _ hr' n hn => ?_, by simp⟩
  cases i with
  | zero =>
    obtain rfl : row' = r' := by simpa using hr'
    exact new n hn
  | succ i => exact keeps.new i r' (Nat.zero_le i) hr' n hn

theorem KeepsByPosition.reuse (keeps : KeepsByPosition first q d d' rows rows')
    (head : ∀ u v : Value, Fits .blind True u row.item.content row.forest →
      Fits .blind True v row'.item.content row'.forest →
      Keeps first q d d' u row.item.content row.forest v row'.item.content row'.forest)
    (apart : ∀ n ∈ idsAll (Row.forests rows), n ∉ idsAll row'.forest) :
    KeepsByPosition first q d d' (row :: rows) (row' :: rows') where
  kept i u v r r' hr hr' fits fits' := by
    cases i with
    | zero =>
      obtain rfl : row = r := by simpa using hr
      obtain rfl : row' = r' := by simpa using hr'
      exact head u v fits fits'
    | succ i => exact keeps.kept i u v r r' hr hr' fits fits'
  new i r' le hr' := by
    cases i with
    | zero => simp at le
    | succ i => exact keeps.new i r' (by simpa using le) hr'
  gone i r le hr n hn := by
    cases i with
    | zero => simp at le
    | succ i =>
      have hr : rows[i]? = some r := hr
      have hmem := Row.subset_forests (List.mem_of_getElem? hr) hn
      have rest := keeps.gone i r (by simpa using le) hr n hn
      simpa using ⟨apart n hmem, rest⟩

theorem Row.alike_at (shown : List.Forall₂ Value.Alike ((Row.items rows).map Item.shown) us)
    {i : Nat} {u : Value} (hr : rows[i]? = some row) (hu : us[i]? = some u) :
    row.item.shown.Alike u := by
  obtain ⟨-, alike⟩ := List.forall₂_iff_get.1 shown
  obtain ⟨hi, rfl⟩ := List.getElem?_eq_some_iff.1 hr
  obtain ⟨hj, rfl⟩ := List.getElem?_eq_some_iff.1 hu
  simpa [Row.items] using alike i (by simpa [Row.items] using hi) hj

/-- A list that is not keyed stays index by index. -/
theorem KeepsByPosition.list (keeps : KeepsByPosition first q d d' rows rows') {handle handle' : Nat}
    (ex : Exchanged first q d d' (Row.forests rows) (Row.forests rows'))
    (unkeyed : Value.allKeyed vs = false)
    (shown : List.Forall₂ Value.Alike ((Row.items rows).map Item.shown) us)
    (shown' : List.Forall₂ Value.Alike ((Row.items rows').map Item.shown) vs)
    (fits : ∀ row ∈ rows, row.Fits .blind) (fits' : ∀ row' ∈ rows', row'.Fits .blind) :
    Keeps first q d d' (.list handle us) (.list (Row.items rows)) (Row.forests rows)
      (.list handle' vs) (.list (Row.items rows')) (Row.forests rows') := by
  have length : rows.length = us.length := by simpa [Row.items] using shown.length_eq
  have length' : rows'.length = vs.length := by simpa [Row.items] using shown'.length_eq
  refine .list unkeyed length length' ?_ ?_ ?_
  · intro i u v row row' hu hv hr hr'
    have alike := Row.alike_at shown hr hu
    have alike' := Row.alike_at shown' hr' hv
    exact keeps.kept i u v row row' hr hr' ((fits row (List.mem_of_getElem? hr)).alike alike)
      ((fits' row' (List.mem_of_getElem? hr')).alike alike')
  · exact length ▸ keeps.new
  · intro i row le hr
    have gone := keeps.gone i row (length' ▸ le) hr
    have sub := Row.subset_forests (List.mem_of_getElem? hr)
    refine ⟨fun n hn => ex.root_gone ?_ (gone n (roots_subset _ hn)), fun n hn =>
      ex.gone n (sub hn) (gone n hn)⟩
    obtain ⟨left, right, rfl⟩ := List.append_of_mem (List.mem_of_getElem? hr)
    simp [hn]

mutual
/-- What is carried on stays where the value does. -/
theorem Carries.keeps_nodes : {c c' : Content} → {f f' : List Subtree} →
    Carries .blind d.nodes.size c f c' f' → ∀ {u v : Value}, Fits .blind True u c f →
    Fits .blind True v c' f' → Exchanged first q d d' f f' → Keeps first q d d' u c f v c' f'
  | _, _, _, _, .fresh apart _, _, _, fits, fits', _ =>
      .other fun h => apart (h.resumes fits fits')
  | _, _, _, _, .text n s s', _, _, fits, fits', ex =>
      .text fits.scalar fits'.scalar (ex.steady (by simp) (by simp))
  | _, _, _, _, @Carries.nested _ _ shared start stop places places' ss data data' fill fill'
      seated seated' inner inner' grown contents, _, _, fits, fits', ex => by
      obtain ⟨handle, us, rfl, shown⟩ := fits.template
      obtain ⟨handle', vs, rfl, shown'⟩ := fits'.template
      have own : ∀ (data : NodeId → ElementData) (fill : NodeId → List Subtree),
          start :: Stem.ownAll ss ++ [stop] ⊆
            idsAll (.node start .marker [] :: Stem.assembleAll data fill ss ++ [.node stop .marker []]) := by
        intro data fill n hn
        have := @Stem.ownAll_subset ss data fill n
        simp at hn ⊢
        tauto
      refine .template seated seated' (ex.steady (own data fill) (own data' fill')) ?_
      intro i marker item item' hi hi'
      have opened : Exchanged first q d d' ([.node start .marker []] ++ Stem.assembleAll data fill ss)
          ([.node start .marker []] ++ Stem.assembleAll data' fill' ss) := ex.head .refl
      have inside := opened.tail .refl
      refine (contents i marker item item' hi hi').keeps_nodes
        ((inner i marker item hi).alike ?_) ((inner' i marker item' hi').alike ?_)
        (inside.spot grown (seated.marker_of hi))
      · exact shown i _ hi _ rfl
      · exact shown' i _ hi' _ rfl
  | _, _, _, _, @Carries.list _ _ stale fresh rows rows' items _ placed, _, _, fits, fits', ex => by
      obtain ⟨handle, us, rfl, shown⟩ := fits.values
      obtain ⟨handle', vs, rfl, shown'⟩ := fits'.values
      cases keyed : Value.allKeyed vs with
      | true => exact .other (by simp [Value.Continues, keyed])
      | false =>
        have byPosition := placed ((keys_of_alike shown').2.trans keyed)
        exact (items.keeps_nodes byPosition ex).list ex keyed shown shown' items.fits.1 items.fits.2
termination_by structural _ _ _ _ h => h

/-- Where no item is stale and no value fresh, the rows are carried on by their index. -/
theorem CarriesItems.keeps_nodes : {stale : Item → Bool} → {fresh : Value → Bool} →
    {rows rows' : List Row} → CarriesItems .blind d.nodes.size stale fresh rows rows' →
    ByPosition stale fresh → Exchanged first q d d' (Row.forests rows) (Row.forests rows') →
    KeepsByPosition first q d d' rows rows'
  | _, _, _, _, .nil, _, _ => ⟨by simp, by simp, by simp⟩
  | _, _, _, _, .remove gone _ _, ⟨stale, _⟩, _ => by
      obtain rfl := gone.resolve_left (by simp [stale])
      exact ⟨by simp, by simp, by simp [Row.forests]⟩
  | _, _, _, _, .insert come _ new rest, place, ex => by
      have none := come.resolve_left (by simp [place.2])
      have whole : Exchanged first q d d' ([] ++ Row.forests _) (_ ++ Row.forests _) := ex
      exact (rest.keeps_nodes place (whole.tail fun n hn => .inr (new n hn))).insert none new
  | _, _, _, _, @CarriesItems.reuse _ _ _ _ row row' rows rows' _ _ _ _ grown carries rest, place, ex => by
      have whole : Exchanged first q d d' (row.forest ++ Row.forests rows)
          (row'.forest ++ Row.forests rows') := ex
      refine (rest.keeps_nodes place (whole.tail grown)).reuse
        (fun u v fits fits' => carries.keeps_nodes fits fits' (whole.head rest.grown)) fun n hn h => ?_
      -- an old node of the first row is found in the first row only
      have nodup := whole.nodup
      rw [idsAll_append, List.nodup_append] at nodup
      rcases grown n h with h | h
      · exact nodup.2.2 n h n hn rfl
      · have := (whole.tail grown).lt_size n hn
        omega
termination_by structural _ _ _ _ h => h
end

end

/-! ### Runs of renders -/

/-- Of the contents of a table each stays for the next one at its place, where its value does.
Tables of the same stems have the same marker at each place of content. -/
def KeepsContents (first : Nat) (q : NodeId) (d d' : Document) (us : List Value)
    (places : List Place) (fill : NodeId → List Subtree) (vs : List Value)
    (places' : List Place) (fill' : NodeId → List Subtree) : Prop :=
  ∀ (i : Nat) (marker : NodeId) (item item' : Item),
    places[i]? = some (.content marker item) → places'[i]? = some (.content marker item') →
    Keeps first q d d' (Markup.valueAt us i) item.content (fill marker)
      (Markup.valueAt vs i) item'.content (fill' marker)

namespace Scene
variable {s start : Scene} {first i : Nat} {q : NodeId} {shared : SharedSkeleton} {ss : List Stem}
  {places : List Place} {fill : NodeId → List Subtree} {u v : Value} {values : List Value}

/-- A renderer shows the value in the container on the nodes of these stems, with these contents
in front of the markers. None of the first nodes is among them. -/
structure Displays (first i : Nat) (q : NodeId) (shared : SharedSkeleton) (ss : List Stem)
    (places : List Place) (fill : NodeId → List Subtree) (v : Value) (s : Scene) : Prop where
  mounted : (s.renderers i).mounted? q = some ⟨shared, places, ss.map Stem.top⟩
  shows : Places.Match places v.parts.2
  contents : PlacesFit .blind (fun _ => True) fill places
  stands : ∃ data before behind,
    TableFits .blind (fun _ => True) (fun _ _ => True) shared ss data fill places ∧
      Block s.host.document q before (Stem.assembleAll data fill ss) behind ∧
      ∀ n : Nat, n ∈ idsAll (Stem.assembleAll data fill ss) → first ≤ n

/-- A render for the same skeleton keeps the nodes of the stems, and what stays in front of the
markers. -/
theorem Displays.render (shown : s.Displays first i q shared ss places fill u)
    (c : s.host.document.Consistent) (hq : (q : Nat) < first)
    (le : first ≤ s.host.document.nodes.size) (built : v.Built) (same : v.parts.1 = shared)
    (succeeds : (s.act (.render i q v)).2 = none) :
    ∃ places' fill', (s.act (.render i q v)).1.Displays first i q shared ss places' fill' v ∧
      KeepsContents first q s.host.document (s.act (.render i q v)).1.host.document
        u.parts.2 places fill v.parts.2 places' fill' := by
  obtain ⟨data, before, behind, table, b, young⟩ := shown.stands
  obtain ⟨-, length, builtAll⟩ := Renderer.parts_built built
  have e := act_edits (s := s) le_rfl (.render i q v)
  have run : (s.renderers i).render v q s.host =
      (patchPlaces places v.parts.2 s.host).map fun places =>
        (s.renderers i).put q ⟨shared, places, ss.map Stem.top⟩ := by
    rw [Renderer.render_of_shared shown.mounted same.symm, Renderer.patchMounted, shown.mounted]
  simp only [act, run, Patched.map] at succeeds e ⊢
  obtain ⟨⟨data', fill', w, table', contents', carry⟩, shows'⟩ :=
    (PatchesPlaces.table (patchPlaces_ends .blind shared v.parts.2 builtAll) (same ▸ length) b table
      shown.contents fun i p _ => placeWithin_blind i p).of_none succeeds
  have b' := w.block b
  refine ⟨_, fill', ⟨?_, shows', contents', data', before, behind, table', b', ?_⟩, ?_⟩
  · simp [Renderer.mounted?_put]
  · intro n hn
    rcases w.fresh n hn with h | h
    · exact young n h
    · omega
  · intro j marker item item' hj hj'
    have ex : Exchanged first q s.host.document (patchPlaces places v.parts.2 s.host).host.document
        (Stem.assembleAll data fill ss) (Stem.assembleAll data' fill' ss) := by
      refine ⟨c, e, hq, ⟨q, before, behind, b, .inl rfl⟩, b'.below, ?_⟩
      intro n hn gone top htop
      refine w.gone_not_below c e b hn gone fun h => ?_
      have := young top h
      omega
    have alike : item.shown.Alike (Markup.valueAt u.parts.2 j) := shown.shows j _ hj _ rfl
    have alike' : item'.shown.Alike (Markup.valueAt v.parts.2 j) := shows' j _ hj' _ rfl
    exact (carry.carries j marker item item' (Nat.zero_le j) trivial hj hj').keeps_nodes
      ((shown.contents j marker item hj).alike alike) ((contents' j marker item' hj').alike alike')
      (ex.spot carry.grown (table.seated.marker_of hj))

/-- The nodes of the stems are steady from one time to another. -/
theorem Displays.steady {s' : Scene} {places' : List Place} {fill' : NodeId → List Subtree}
    (shown : s.Displays first i q shared ss places fill u)
    (shown' : s'.Displays first i q shared ss places' fill' v) (c : s.host.document.Consistent)
    (e : s.host.document.Edits s.host.document.nodes.size s'.host.document) :
    s.host.document.Steady q s'.host.document (Stem.ownAll ss) := by
  obtain ⟨data, _, _, -, b, -⟩ := shown.stands
  obtain ⟨data', _, _, -, b', -⟩ := shown'.stands
  exact .of_below c e (fun n hn => b.holds.lt_size n (Stem.ownAll_subset data fill hn))
    fun n hn => b'.below n (Stem.ownAll_subset data' fill' hn)

/-- The first render of a run, for whichever skeleton was mounted before. -/
theorem act_displays (new : start.New) (consistent : start.host.document.Consistent)
    {moves : List Move} (on : ∀ m ∈ moves ++ [.render i q v], m.On start.host.document)
    (succeeds : start.Succeeds (moves ++ [.render i q v])) :
    ∃ ss places fill, (start.run (moves ++ [.render i q v])).Displays start.host.document.nodes.size
      i q v.parts.1 ss places fill v := by
  obtain ⟨plots, st⟩ := (new.stands_of_closed consistent.closed).run_clean _ on succeeds
  have container : start.host.document.isContainer q = true := (on (.render i q v) (by simp)).1
  obtain ⟨⟨shared, places, nodes⟩, hm, rfl, records⟩ :
      (start.run (moves ++ [.render i q v])).Shows i q v := by
    rw [run_append]
    obtain ⟨first, last, -⟩ := succeeds_append.1 succeeds
    exact act_shows (run_recorded new.recorded first) last
  obtain ⟨left, f, right, hplots, ss, data, fill, rfl, rfl, table, contents⟩ :=
    (st.plotted q container).exists_split hm
  have b := st.block q container
  have young := st.young q container
  have split : Plot.forests (plots q) =
      Plot.forests left ++ Stem.assembleAll data fill ss ++ Plot.forests right := by
    simp [hplots]
  rw [split] at b young
  refine ⟨ss, places, fill, hm, records.same, contents, data, _, _, table, b.part, fun n hn => ?_⟩
  exact young n (by simp [hn])

/-- The same stems are shown after each render of a run, and from each render to the next the
contents stay. -/
theorem Displays.run (shown : s.Displays first i q shared ss places fill u)
    (c : s.host.document.Consistent) (hq : (q : Nat) < first)
    (le : first ≤ s.host.document.nodes.size) (built : ∀ v ∈ values, v.Built)
    (same : ∀ v ∈ values, v.parts.1 = shared) (succeeds : s.Succeeds (values.map (.render i q))) :
    ∃ (tables : Nat → List Place) (fills : Nat → NodeId → List Subtree),
      tables 0 = places ∧ fills 0 = fill ∧
      (∀ k v, (u :: values)[k]? = some v →
        (s.run ((values.take k).map (.render i q))).Displays first i q shared ss (tables k)
          (fills k) v) ∧
      ∀ k v w, (u :: values)[k]? = some v → (u :: values)[k + 1]? = some w →
        KeepsContents first q (s.run ((values.take k).map (.render i q))).host.document
          (s.run ((values.take (k + 1)).map (.render i q))).host.document
          v.parts.2 (tables k) (fills k) w.parts.2 (tables (k + 1)) (fills (k + 1)) := by
  induction values generalizing s u places fill with
  | nil =>
    refine ⟨fun _ => places, fun _ => fill, rfl, rfl, fun k v hk => ?_, by simp⟩
    obtain ⟨rfl, rfl⟩ : k = 0 ∧ u = v := by
      cases k with
      | zero => simpa using hk
      | succ k => simp at hk
    exact shown
  | cons v values ih =>
    rw [List.forall_mem_cons] at built same
    obtain ⟨first', rest⟩ := succeeds
    obtain ⟨places', fill', shown', keeps⟩ := shown.render c hq le built.1 same.1 first'
    have step := act_edits (s := s) le_rfl (.render i q v)
    obtain ⟨tables, fills, rfl, rfl, displays, contents⟩ := ih shown' (step.consistent c)
      (Nat.le_trans le step.size_le) built.2 same.2 rest
    refine ⟨fun k => k.casesOn places tables, fun k => k.casesOn fill fills, rfl, rfl,
      fun k w hk => ?_, fun k w w' hk hk' => ?_⟩
    · cases k with
      | zero =>
        obtain rfl : u = w := by simpa using hk
        exact shown
      | succ k => exact displays k w hk
    · cases k with
      | zero =>
        obtain rfl : u = w := by simpa using hk
        obtain rfl : v = w' := by simpa using hk'
        exact keeps
      | succ k => exact contents k w w' hk hk'

/-- More of the renders of a run go on from where fewer have led. -/
theorem run_take (moves : List Move) (values : List Value) {k l : Nat} (le : k ≤ l) :
    start.run (moves ++ (values.take l).map (.render i q)) =
      (start.run (moves ++ (values.take k).map (.render i q))).run
        (((values.take l).drop k).map (.render i q)) := by
  have take : values.take k = (values.take l).take k := by
    rw [List.take_take, Nat.min_eq_left le]
  rw [take, ← run_append, List.append_assoc, ← List.map_append, List.take_append_drop]

/-- Templates of one skeleton are rendered into a container one after the other, after any
moves, and all of it succeeds. The nodes that the skeleton has been mounted as stay where they
are in one order from the first of these renders on, and from each render to the next what is
in front of a marker stays where its value does. -/
theorem run_keeps_nodes {moves : List Move} (new : start.New)
    (consistent : start.host.document.Consistent)
    (on : ∀ m ∈ moves ++ values.map (.render i q), m.On start.host.document)
    (succeeds : start.Succeeds (moves ++ values.map (.render i q)))
    (same : ∀ v ∈ values, v.parts.1 = shared) :
    let first := start.host.document.nodes.size
    let after (k : Nat) : Scene := start.run (moves ++ (values.take k).map (.render i q))
    ∃ (ss : List Stem) (tables : Nat → List Place) (fills : Nat → NodeId → List Subtree),
      (∀ k v, values[k]? = some v →
        (after (k + 1)).Displays first i q shared ss (tables k) (fills k) v) ∧
      (∀ k l, 0 < k → k ≤ l → l ≤ values.length →
        (after k).host.document.Steady q (after l).host.document (Stem.ownAll ss)) ∧
      ∀ k u v, values[k]? = some u → values[k + 1]? = some v →
        KeepsContents first q (after (k + 1)).host.document (after (k + 2)).host.document
          u.parts.2 (tables k) (fills k) v.parts.2 (tables (k + 1)) (fills (k + 1)) := by
  intro first after
  cases values with
  | nil => exact ⟨[], fun _ => [], fun _ _ => [], by simp, by simp; omega, by simp⟩
  | cons v values =>
    have starts : ∀ k, after (k + 1) =
        (start.run (moves ++ [.render i q v])).run ((values.take k).map (.render i q)) := by
      intro k
      simp [after, ← run_append]
    have hv : v.parts.1 = shared := same v (by simp)
    have split : moves ++ (v :: values).map (.render i q) =
        moves ++ [.render i q v] ++ values.map (.render i q) := by simp
    rw [split] at on succeeds
    obtain ⟨succeeds₁, succeeds₂⟩ := succeeds_append.1 succeeds
    obtain ⟨ss, places, fill, shown⟩ := act_displays new consistent
      (fun m hm => on m (List.mem_append_left _ hm)) succeeds₁
    have container := (on (.render i q v) (by simp)).1
    have c := run_keeps_consistent consistent (moves ++ [.render i q v])
    have le := (run_edits (s := start) (Nat.zero_le _) (moves ++ [.render i q v])).size_le
    obtain ⟨tables, fills, -, -, displays, contents⟩ := (hv ▸ shown).run c
      (lt_size_of_isContainer container) le (fun w hw => (on (.render i q w) (by simp [hw])).2)
      (fun w hw => same w (by simp [hw])) succeeds₂
    refine ⟨ss, tables, fills, fun k w hk => starts k ▸ displays k w hk, ?_, fun k u w hk hk' => ?_⟩
    · intro k l hk hkl hl
      have shows : ∀ k, 0 < k → k ≤ (v :: values).length → ∃ w places fill,
          (after k).Displays first i q shared ss places fill w := by
        intro k hk hl
        obtain ⟨k, rfl⟩ := Nat.exists_eq_succ_of_ne_zero hk.ne'
        exact ⟨_, _, _, starts k ▸ displays k _ (List.getElem?_eq_getElem hl)⟩
      obtain ⟨_, _, _, shown⟩ := shows k hk (Nat.le_trans hkl hl)
      obtain ⟨_, _, _, shown'⟩ := shows l (Nat.lt_of_lt_of_le hk hkl) hl
      refine shown.steady shown' (run_keeps_consistent consistent _) ?_
      have later : after l = (after k).run ((((v :: values).take l).drop k).map (.render i q)) :=
        run_take moves (v :: values) hkl
      rw [later]
      exact run_edits le_rfl _
    · rw [starts, starts]
      exact contents k u w hk hk'

/-- A list of texts grows by one, behind what another renderer has put there. -/
theorem run_keeps_nodes_list :
    let list : SharedSkeleton := ⟨.parsed 1, ⟨[.element "ul" [] [.hole 0]], 1⟩⟩
    let old : Value := .template 1 list [.list 2 [.text "a", .text "b"]]
    let next : Value := .template 3 list [.list 4 [.text "c", .text "d", .text "e"]]
    let moves : List Move := [.render 1 body (.text "-")]
    let after (k : Nat) := ({} : Scene).run (moves ++ ([old, next].take k).map (Move.render 0 body))
    (after 1).host.document.innerMarkup body = "-<!----><ul>ab<!----></ul>" ∧
      (after 2).host.document.innerMarkup body = "-<!----><ul>cde<!----></ul>" ∧
      ∃ ss places fill places' fill', (after 1).Displays 1 0 body list ss places fill old ∧
        (after 2).Displays 1 0 body list ss places' fill' next ∧
        (after 1).host.document.Steady body (after 2).host.document (Stem.ownAll ss) ∧
        KeepsContents 1 body (after 1).host.document (after 2).host.document
          [.list 2 [.text "a", .text "b"]] places fill
          [.list 4 [.text "c", .text "d", .text "e"]] places' fill' := by
  intro list old next moves after
  have on : ∀ m ∈ moves ++ [old, next].map (Move.render 0 body), m.On ({} : Scene).host.document := by
    have made : list.Made := .inr ⟨["<ul>", "</ul>"], by decide +kernel⟩
    have container : ({} : Scene).host.document.isContainer body = true := by decide
    simp [moves, old, next, Move.On, container, Value.Built, Value.BuiltAll, made]
    decide
  have succeeds : ({} : Scene).Succeeds (moves ++ [old, next].map (Move.render 0 body)) := by
    refine ⟨?_, ?_, ?_, trivial⟩ <;> decide +kernel
  have same : ∀ v ∈ [old, next], v.parts.1 = list := by simp [old, next, Value.parts]
  obtain ⟨ss, tables, fills, displays, steady, contents⟩ :=
    run_keeps_nodes (fun _ _ => rfl) consistent_empty on succeeds same
  refine ⟨by decide +kernel, by decide +kernel, ss, _, _, _, _, displays 0 old rfl,
    displays 1 next rfl, steady 1 2 (by decide) (by decide) (by decide), contents 0 old next rfl rfl⟩

end Scene

end LiveTemplate
