import LiveTemplate.Document.InPlace
import LiveTemplate.Proofs.Integrity
import LiveTemplate.Proofs.Names
import LiveTemplate.Proofs.Steps

/-!
# Edits in place keep a document consistent

Every edit of a consistent document makes a consistent one, and done in place it comes
to the same. The steps that an edit in place takes after its checks cannot fail then: the
nodes they look up are known, and a reference is found among the children of its parent.
So an edit that fails has changed nothing.
-/
namespace LiveTemplate
open Document

/-! ### The data of elements -/

namespace ElementData.WellFormed
variable {data : ElementData}

theorem new {tag : String} (h : isValidTag tag = true) :
    ElementData.WellFormed { tag := Text.lower tag } where
  tag := by rw [isValidTag_lower, h]
  tag_lower := Text.lower_lower tag
  names := by simp [Entries.names]
  listeners := .nil

theorem setAttribute (w : data.WellFormed) {name : String} (value : String)
    (h : isValidAttributeName name = true) :
    { data with attributes := Entries.put (Text.lower name) value data.attributes }.WellFormed where
  tag := w.tag
  tag_lower := w.tag_lower
  listeners := w.listeners
  names n hn := by
    rw [Entries.names_put] at hn
    split at hn
    · exact w.names n hn
    · cases List.mem_append.1 hn with
      | inl hn => exact w.names n hn
      | inr hn =>
          rw [List.mem_singleton.1 hn, isValidAttributeName_lower, Text.lower_lower]
          exact ⟨h, rfl⟩

theorem removeAttribute (w : data.WellFormed) (name : String) :
    { data with attributes := Entries.erase name data.attributes }.WellFormed where
  tag := w.tag
  tag_lower := w.tag_lower
  listeners := w.listeners
  names n hn := by
    apply w.names
    obtain ⟨entry, hentry, rfl⟩ := List.mem_map.1 hn
    exact List.mem_map_of_mem (List.mem_of_mem_filter hentry)

theorem addListener (w : data.WellFormed) (listener : String × String) :
    (if data.listeners.contains listener then data
      else { data with listeners := data.listeners ++ [listener] }).WellFormed := by
  split
  · exact w
  next h =>
    refine ⟨w.tag, w.tag_lower, w.names, ?_⟩
    apply List.nodup_append.2
    refine ⟨w.listeners, List.nodup_singleton _, ?_⟩
    intro a ha b hb hab
    rw [← List.mem_singleton.1 hb, ← hab] at h
    exact h (by simpa using ha)

theorem removeListener (w : data.WellFormed) (listener : String × String) :
    { data with listeners := data.listeners.filter (· ≠ listener) }.WellFormed :=
  ⟨w.tag, w.tag_lower, w.names, w.listeners.filter _⟩

theorem setProperty (w : data.WellFormed) (name : String) (v : Value) :
    { data with properties := Entries.put name v data.properties }.WellFormed :=
  ⟨w.tag, w.tag_lower, w.names, w.listeners⟩

end ElementData.WellFormed

namespace Document
variable {d d' : Document}

/-! ### Steps in place -/

namespace InPlace

variable {id : NodeId} {r : NodeRecord}

theorem record_run (h : d.record? id = some r) : record id d = .ok r d := by
  simp [record, h]

theorem record_unknown (h : d.record? id = none) :
    record id d = .error (.unknownNode id) d := by
  simp [record, h]

theorem change_run (h : (d.record? id).isSome = true) (f : NodeRecord → NodeRecord) :
    change id f d = .ok () (d.update id f) := by
  obtain ⟨r, hr⟩ := Option.isSome_iff_exists.1 h
  rw [change, bind_ok (record_run hr)]
  rfl

theorem adopt_run {moved : List NodeId} {parent : NodeId}
    (known : ∀ m ∈ moved, (d.record? m).isSome = true) :
    moved.forM (fun child => change child fun r => { r with parent := some parent }) d =
      .ok () (moved.foldl (setParent (some parent)) d) := by
  induction moved generalizing d with
  | nil => rfl
  | cons m rest ih =>
      rw [List.forall_mem_cons] at known
      rw [List.forM_eq_forM, List.forM_cons, bind_ok (change_run known.1 _)]
      apply ih
      intro n hn
      rw [record?_update]
      split
      · simpa using known.2 n hn
      · exact known.2 n hn

theorem known_of_parent (c : Consistent d) {parent : NodeId} (hp : d.parent? id = some parent) :
    (d.record? parent).isSome = true := by
  have := (c.mem_children parent id).2 hp
  cases hq : d.record? parent with
  | none => simp [children, hq] at this
  | some s => rfl

theorem detach_eq (c : Consistent d) (id : NodeId) :
    InPlace.detach id d = d.settle (d.remove id) := by
  cases hr : d.record? id with
  | none =>
      rw [InPlace.detach, bind_error (record_unknown hr)]
      simp [Document.remove, hr, settle]
  | some r =>
      have hp : d.parent? id = r.parent := parent?_of_record? hr
      rw [InPlace.detach, bind_ok (record_run hr), Document.remove, hr, Option.isSome_some,
        if_pos rfl, settle]
      cases h : r.parent with
      | none =>
          rw [h] at hp
          rw [Document.detach, hp]
          rfl
      | some parent =>
          rw [h] at hp
          have known : ((d.update id fun r => { r with parent := none }).record? parent).isSome =
              true := by
            rw [record?_update, if_neg (c.ne_parent hp).symm]
            exact known_of_parent c hp
          have hid : (d.record? id).isSome = true := by rw [hr]; rfl
          rw [Document.detach, hp]
          exact (bind_ok (change_run hid _)).trans (change_run known _)

theorem takeOut_run (c : Consistent d) (hr : d.record? id = some r) :
    InPlace.takeOut id r d = .ok (d.takeOut id r.kind).1 (d.takeOut id r.kind).2 := by
  have known : (d.record? id).isSome = true := by rw [hr]; rfl
  have single : InPlace.detach id d = .ok () (d.detach id) := by
    rw [detach_eq c, Document.remove, if_pos known, settle]
  unfold InPlace.takeOut
  cases hk : r.kind with
  | fragment =>
      rw [Document.takeOut, children, hr]
      exact bind_ok (change_run known _)
  | element data => exact bind_ok single
  | text data => exact bind_ok single
  | marker => exact bind_ok single

theorem children_takeOut (c : Consistent d) {parent : NodeId} {kind : NodeKind}
    (hk : d.kind? id = some kind) (hne : id ≠ parent) :
    (d.takeOut id kind).2.children parent = (d.children parent).filter (· ≠ id) := by
  have single : (d.detach id).children parent = (d.children parent).filter (· ≠ id) := by
    rw [(c.detach_moves id).children, if_neg (by simp)]
    simp
  cases kind with
  | fragment =>
      have known : (d.kind? id).isSome = true := by rw [hk]; rfl
      rw [Document.takeOut, children_updateChildren known, if_neg hne.symm,
        c.filter_children (by simp [c.fragment id hk])]
  | element data => exact single
  | text data => exact single
  | marker => exact single

theorem update_congr {f g : NodeRecord → NodeRecord}
    (h : ∀ r, d.record? id = some r → f r = g r) : d.update id f = d.update id g := by
  have same : ∀ n, (d.update id f).record? n = (d.update id g).record? n := by
    intro n
    rw [record?_update, record?_update]
    split
    next hn =>
      rw [hn]
      cases hr : d.record? id with
      | none => rfl
      | some r => rw [Option.map_some, Option.map_some, h r hr]
    · rfl
  exact congrArg Document.mk (Array.ext_getElem? same)

/-- An index stands for a reference if the two mean the same place among the children of
the parent without the node. -/
theorem insertAt_eq (c : Consistent d) {parent : NodeId} {index : Option Nat}
    {reference : Option NodeId}
    (same : ∀ moved, spliceAt index moved ((d.children parent).filter (· ≠ id)) =
      spliceBefore reference moved ((d.children parent).filter (· ≠ id))) :
    InPlace.insertAt parent index id d = d.settle (d.insert parent reference id) := by
  have start : InPlace.insertAt parent index id d = _ :=
    bind_ok (show (get : DocumentM Document) d = .ok d d from rfl)
  rw [start, Document.insert]
  by_cases guard : (!d.isContainer parent || d.isInclusiveAncestor id parent) = true
  · rw [if_pos guard, if_pos guard]
    rfl
  · rw [if_neg guard, if_neg guard]
    simp only [Bool.or_eq_true, Bool.not_eq_true', not_or, Bool.not_eq_false,
      Bool.not_eq_true] at guard
    cases hr : d.record? id with
    | none =>
        rw [bind_error (record_unknown hr), kind?, hr]
        rfl
    | some r =>
        have hk : d.kind? id = some r.kind := by rw [kind?, hr]; rfl
        have hne : id ≠ parent := by
          rintro rfl
          have := (c.isInclusiveAncestor_iff id id).2 .refl
          rw [guard.2] at this
          contradiction
        have out := c.takeOut hk guard.2
        have hmoved : ∀ m ∈ (d.takeOut id r.kind).1,
            ((d.takeOut id r.kind).2.record? m).isSome = true := by
          intro m hm
          rw [← isSome_kind?, out.1.kind]
          exact (out.2.2 m hm).1
        have hparent : ((((d.takeOut id r.kind).1).foldl (setParent (some parent))
            (d.takeOut id r.kind).2).record? parent).isSome = true := by
          rw [← isSome_kind?, kind?_foldl_setParent, out.1.kind]
          have := guard.1
          cases hp : d.kind? parent with
          | none => simp [isContainer, hp] at this
          | some k => rfl
        rw [bind_ok (record_run hr), bind_ok (takeOut_run c hr), bind_ok (adopt_run hmoved),
          change_run hparent, hk]
        rw [settle, updateChildren]
        congr 1
        apply update_congr
        intro s hs
        have hchildren : s.children = (d.children parent).filter (· ≠ id) := by
          rw [← children_takeOut c hk hne, ← children_foldl_setParent (some parent)
            (d.takeOut id r.kind).1, children, hs]
          rfl
        rw [hchildren, same]

theorem spliceAt_findIdx? {reference : NodeId} {i : Nat} {ids : List NodeId}
    (h : ids.findIdx? (· = reference) = some i) (moved : List NodeId) :
    spliceAt (some i) moved ids = spliceBefore (some reference) moved ids := by
  obtain ⟨-, rfl⟩ := List.findIdx?_eq_some_iff_findIdx_eq.1 h
  simp only [spliceAt, spliceBefore, List.takeWhile_eq_take_findIdx_not,
    List.dropWhile_eq_drop_findIdx_not, ne_eq, decide_not, Bool.not_not]

/-- A child of the same parent is found, also after another one has been taken out. -/
theorem insertAhead_eq (c : Consistent d) {parent reference : NodeId}
    (href : d.parent? reference = some parent) (hid : d.parent? id ≠ some parent) :
    InPlace.insertAhead parent reference id d =
      d.settle (d.insert parent (some reference) id) := by
  have start : InPlace.insertAhead parent reference id d = _ :=
    bind_ok (show (get : DocumentM Document) d = .ok d d from rfl)
  rw [start]
  have mem := (c.mem_children parent reference).2 href
  cases h : (d.children parent).findIdx? (· = reference) with
  | none => simpa using List.findIdx?_eq_none_iff.1 h reference mem
  | some i =>
      apply insertAt_eq c
      intro moved
      rw [c.filter_children hid]
      exact spliceAt_findIdx? h moved

/-- To take a node out first makes no difference to its insertion beside its old place,
and that cannot fail. -/
theorem insert_detach (c : Consistent d) {parent : NodeId} (reference : Option NodeId)
    (hp : d.parent? id = some parent) :
    ∃ d', d.insert parent reference id = .ok d' ∧
      (d.detach id).insert parent reference id = .ok d' := by
  have w := c.detach_moves id
  have container := c.isContainer_parent hp
  have apart : ∀ m ∈ [id], ¬ Relation.ReflTransGen d.Under parent m := by
    intro m hm h
    rw [List.mem_singleton.1 hm] at h
    exact c.acyclic id (.head' hp h)
  have guard : d.isInclusiveAncestor id parent = false := by
    rw [← Bool.not_eq_true, c.isInclusiveAncestor_iff]
    exact apart id (by simp)
  have guard' : (d.detach id).isInclusiveAncestor id parent = false := by
    rw [← Bool.not_eq_true, (c.detach id).isInclusiveAncestor_iff]
    exact fun h => apart id (by simp) (w.above apart h)
  have alone : (d.detach id).parent? id = none := by
    rw [w.parent, if_pos (by simp)]
  have still : (d.detach id).detach id = d.detach id := by
    rw [Document.detach, alone]
  obtain ⟨kind, hk⟩ : ∃ kind, d.kind? id = some kind := by
    cases hk : d.kind? id with
    | none => simp [parent?, Option.map_eq_none_iff.1 hk] at hp
    | some kind => exact ⟨kind, rfl⟩
  have out : (d.detach id).takeOut id kind = d.takeOut id kind := by
    cases kind with
    | fragment =>
        rw [c.fragment id hk] at hp
        contradiction
    | element data => simp [Document.takeOut, still]
    | text data => simp [Document.takeOut, still]
    | marker => simp [Document.takeOut, still]
  simp only [Document.insert, isContainer_congr (w.kind parent), container, guard, guard',
    w.kind id, hk, out]
  exact ⟨_, rfl, rfl⟩

theorem insertBefore_eq (c : Consistent d) (id reference : NodeId) :
    InPlace.insertBefore id reference d = d.settle (d.insertBefore id reference) := by
  unfold InPlace.insertBefore Document.insertBefore
  cases href : d.record? reference with
  | none =>
      rw [bind_error (record_unknown href)]
      rfl
  | some r =>
      rw [bind_ok (record_run href)]
      have hp := parent?_of_record? href
      obtain ⟨kind, parent, children⟩ := r
      cases parent with
      | none => rfl
      | some parent =>
          by_cases hne : id = reference
          · simp only [if_pos hne]
            rfl
          · simp only [if_neg hne]
            cases hid : d.record? id with
            | none =>
                rw [bind_error (record_unknown hid)]
                rfl
            | some s =>
                have hs : d.parent? id = s.parent := parent?_of_record? hid
                rw [bind_ok (record_run hid)]
                simp only [Option.isNone_some, Bool.false_eq_true, if_false]
                split
                next hsame =>
                  -- the node leaves its place, which is beside the new one
                  rw [hsame] at hs
                  have w := c.detach_moves id
                  have run : InPlace.detach id d = .ok () (d.detach id) := by
                    rw [detach_eq c, Document.remove, hid, Option.isSome_some, if_pos rfl, settle]
                  have hp' : (d.detach id).parent? reference = some parent := by
                    rw [w.parent, if_neg (by simpa using Ne.symm hne), hp]
                  have hid' : (d.detach id).parent? id ≠ some parent := by
                    rw [w.parent, if_pos (by simp)]
                    simp
                  obtain ⟨d', h, h'⟩ := insert_detach c (some reference) hs
                  rw [bind_ok run, insertAhead_eq (c.detach id) hp' hid', h, h']
                  rfl
                next hother =>
                  exact insertAhead_eq c hp (by rw [hs]; exact hother)

end InPlace

end Document

/-! ### Any sequence of edits -/

namespace Primitive
variable {d d' : Document}

theorem perform_eq (c : d.Consistent) (p : Primitive) : p.perform d = d.settle (p.edit d) := by
  cases p with
  | appendChild parent id => exact InPlace.insertAt_eq c fun _ => rfl
  | insertBefore id reference => exact InPlace.insertBefore_eq c id reference
  | remove id => exact InPlace.detach_eq c id
  | createElement | createText | createMarker | createFragment | setAttribute | removeAttribute
  | setProperty | addListener | removeListener | setText => rfl

theorem edit_consistent (c : d.Consistent) {p : Primitive} (h : p.edit d = .ok d') :
    d'.Consistent := by
  cases p with
  | createElement tag =>
      simp only [edit, Document.createElement] at h
      split at h
      next valid =>
        obtain rfl := Except.ok.inj h
        apply c.create
        rintro _ ⟨⟩
        exact .new valid
      · contradiction
  | createText text =>
      obtain rfl := Except.ok.inj h
      exact c.create _ (by simp)
  | createMarker =>
      obtain rfl := Except.ok.inj h
      exact c.create _ (by simp)
  | createFragment =>
      obtain rfl := Except.ok.inj h
      exact c.create _ (by simp)
  | appendChild parent id => exact Consistent.insert c h
  | insertBefore id reference =>
      simp only [edit, Document.insertBefore] at h
      split at h
      · contradiction
      · split at h
        · contradiction
        · split at h
          · rwa [← Except.ok.inj h]
          · split at h
            · contradiction
            · exact Consistent.insert c h
  | remove id =>
      simp only [edit, Document.remove] at h
      split at h
      · rw [← Except.ok.inj h]
        exact c.detach id
      · contradiction
  | setAttribute id name value =>
      simp only [edit, Document.setAttribute] at h
      split at h
      next valid => exact Consistent.updateElement c (fun _ w => w.setAttribute value valid) h
      · contradiction
  | removeAttribute id name =>
      exact Consistent.updateElement c (fun _ w => w.removeAttribute _) h
  | setProperty id name v =>
      exact Consistent.updateElement c (fun _ w => w.setProperty name v) h
  | addListener id event callback =>
      exact Consistent.updateElement c (fun _ w => w.addListener _) h
  | removeListener id event callback =>
      exact Consistent.updateElement c (fun _ w => w.removeListener _) h
  | setText id text => exact Consistent.setText c h

theorem after_consistent (c : d.Consistent) (p : Primitive) : (after d p).Consistent := by
  rw [after, perform_eq c]
  cases h : p.edit d with
  | error e => exact c
  | ok d' => exact edit_consistent c h

theorem run_of_consistent (c : d.Consistent) (ps : List Primitive) : (run ps d).Consistent := by
  induction ps generalizing d with
  | nil => exact c
  | cons p rest ih => exact ih (after_consistent c p)

end Primitive

/-- The body stands alone. -/
theorem Document.consistent_empty : Document.Consistent .empty := by
  have parent : ∀ n, Document.empty.parent? n = none := by
    intro n
    cases n <;> rfl
  have children : ∀ n, Document.empty.children n = [] := by
    intro n
    cases n <;> rfl
  constructor
  · intro p n
    simp [parent, children]
  · intro p
    rw [children]
    exact .nil
  · intro n h
    obtain ⟨p, hp, -⟩ := Relation.TransGen.head'_iff.1 h
    rw [Under, parent] at hp
    contradiction
  · intro n _
    exact children n
  · intro n _
    exact parent n
  · intro n data h
    cases n with
    | zero =>
        obtain rfl : { tag := "body" } = data := by simpa [kind?, record?, empty] using h
        exact ⟨by decide +kernel, by decide +kernel, by simp [Entries.names], .nil⟩
    | succ n => simp [kind?, record?, empty] at h

/-- However a document has been edited, it is consistent; and every edit that is then done
in place comes to what the edit makes of the document as a whole, so that one that fails
leaves the document as it was. -/
theorem Primitive.run_consistent (ps : List Primitive) :
    (run ps .empty).Consistent ∧
      (∀ p : Primitive, p.perform (run ps .empty) =
        (run ps .empty).settle (p.edit (run ps .empty))) ∧
      ∀ (p : Primitive) (e : DocumentError) (d : Document),
        p.perform (run ps .empty) = .error e d → d = run ps .empty := by
  have c := run_of_consistent consistent_empty ps
  refine ⟨c, perform_eq c, ?_⟩
  intro p e d h
  rw [perform_eq c] at h
  cases hp : p.edit (run ps .empty) with
  | ok d' => simp [hp, settle] at h
  | error e' =>
      rw [hp] at h
      cases h
      rfl

end LiveTemplate
