import LiveTemplate.Proofs.Ledgers
import LiveTemplate.Proofs.Leftovers

/-!
# Ownership

As long as no render fails, every node below a container was there at the start or belongs
to what a renderer has mounted, and its ledger says to what. The content of a place is a
run of siblings in front of the marker of the place, and the one of an item a run within
it; clearing it takes these nodes away and no other. So what is unmounted leaves the
container as it was. None of this holds where a container is itself inside of what has
been rendered, since that may be cleared while the record of what stands in it stays.
-/
namespace LiveTemplate
open Document Subtree Live Patched

/-! ### Nodes below a container -/

/-- A child of a node, or a child of one that is below it. -/
inductive Document.Below (d : Document) (top : NodeId) : NodeId → Prop
  | child {n : NodeId} (h : n ∈ d.children top) : Below d top n
  | step {m n : NodeId} (above : Below d top m) (h : n ∈ d.children m) : Below d top n

section
variable {d : Document} {top : NodeId}

theorem Document.children_of_record {n : NodeId} {r : NodeRecord} (h : d.record? n = some r) :
    d.children n = r.children := by
  simp [children, h]

mutual
theorem Document.Holds.below : {parent : NodeId} → {t : Subtree} → Holds d parent t →
    d.Below top t.root → ∀ n ∈ t.ids, d.Below top n
  | _, .node id _ children, ⟨record, inner⟩, hroot, n, hn => by
      rcases List.mem_cons.1 hn with rfl | hn
      · exact hroot
      · refine inner.below (fun m hm => .step hroot ?_) n hn
        rw [root, children_of_record record]
        exact hm

/-- What is held below a node is below it. -/
theorem Document.HoldsAll.below : {parent : NodeId} → {f : List Subtree} → HoldsAll d parent f →
    (∀ n ∈ roots f, d.Below top n) → ∀ n ∈ idsAll f, d.Below top n
  | _, [], _, _, n, hn => by simp at hn
  | _, t :: rest, ⟨first, others⟩, hroots, n, hn => by
      rw [roots_cons, List.forall_mem_cons] at hroots
      rw [idsAll_cons, List.mem_append] at hn
      rcases hn with hn | hn
      · exact first.below hroots.1 n hn
      · exact others.below hroots.2 n hn
end

/-- All that stands in a container is below it. -/
theorem Document.Block.below {before behind : List NodeId} {f : List Subtree}
    (b : Block d top before f behind) : ∀ n ∈ idsAll f, d.Below top n := by
  refine b.holds.below fun n hn => .child ?_
  rw [b.children_eq]
  simp [hn]

mutual
theorem Document.Holds.child_mem : {parent : NodeId} → {t : Subtree} → Holds d parent t →
    ∀ m ∈ t.ids, ∀ n ∈ d.children m, n ∈ t.ids
  | _, .node id _ children, ⟨record, inner⟩, m, hm, n, hn => by
      rcases List.mem_cons.1 hm with rfl | hm
      · rw [children_of_record record] at hn
        exact List.mem_cons_of_mem _ (roots_subset _ hn)
      · exact List.mem_cons_of_mem _ (inner.child_mem m hm n hn)

/-- A child of a node that is held is held as well. -/
theorem Document.HoldsAll.child_mem : {parent : NodeId} → {f : List Subtree} →
    HoldsAll d parent f → ∀ m ∈ idsAll f, ∀ n ∈ d.children m, n ∈ idsAll f
  | _, [], _, m, hm, _, _ => by simp at hm
  | _, t :: rest, ⟨first, others⟩, m, hm, n, hn => by
      rw [idsAll_cons, List.mem_append] at hm ⊢
      rcases hm with hm | hm
      · exact .inl (first.child_mem m hm n hn)
      · exact .inr (others.child_mem m hm n hn)
end

end

/-! ### What is mounted -/

/-- The content of a part is a run of siblings, in front of the marker if it has one. If
it is cleared, this run is gone, and all else is as it was. -/
def Part.InPlace (h : Host) (part : Part) (segment : List Subtree) : Prop :=
  ∃ parent before behind,
    h.document.children parent = before ++ roots segment ++ behind ∧
    (∀ marker, part.marker? = some marker → behind.head? = some marker) ∧
    (∃ l, Owns part.content segment l) ∧ HoldsAll h.document parent segment ∧
    ∃ h', clear part.content h = .ok () h' ∧ h'.document.children parent = before ++ behind ∧
      (∀ n ∈ roots segment, h'.document.parent? n = none) ∧
      ∀ n : Nat, n < h.document.nodes.size → n ≠ parent → n ∉ idsAll segment →
        h'.document.record? n = h.document.record? n

theorem Stood.inPlace {ω : Watch} {h : Host} {part : Part} {segment : List Subtree}
    (s : Stood ω h.document part segment) : part.InPlace h segment := by
  obtain ⟨parent, before, behind, v, b, fits, hmarker⟩ := s
  have cleared : Runs (clear part.content) h (fun _ h' =>
      Rewrites h.document h'.document parent before segment [] behind) (fun _ => False) :=
    clear_runs fits b fun h' f' w hf => by
      obtain rfl := hf trivial
      exact w
  have loose := fits_loosens fits b
  rw [Runs] at cleared
  cases heq : clear part.content h with
  | error e h' =>
    rw [heq] at cleared
    exact cleared.2.elim
  | ok u h' =>
    rw [heq] at cleared
    refine ⟨parent, before, behind, b.children_eq, hmarker, fits.owns, b.holds, h', heq, ?_,
      fun n hn => loose h' heq n (.inl hn), cleared.others⟩
    simpa using (cleared.block b).children_eq

/-- All nodes that are on record for what is mounted. -/
def Mounted.recorded (m : Mounted) : List NodeId := m.nodes ++ recordedAt m.places

/-- What is mounted is all that stands in the container behind its first children. Its
ledger has each node below these once, and everything on record is in it. Whatever is
recorded along some path is in place, and what is recorded along two paths has a node in
common only if one path leads through the other. -/
structure Mounted.Owned (m : Mounted) (h : Host) (container : NodeId) (initial : List NodeId)
    (f : List Subtree) (l : Ledger) : Prop where
  owns : m.Owns f l
  children : h.document.children container = initial ++ roots f
  holds : HoldsAll h.document container f
  names : Entries.names l = idsAll f
  nodup : (Entries.names l).Nodup
  recorded : ∀ n ∈ m.recorded, n ∈ Entries.names l ∧ h.document.Below container n
  segments : ∃ segment : List Nat → List Subtree,
    (∀ path part, Recorded (m.places.map Place.part?) path part → part.InPlace h (segment path) ∧
      idsAll (segment path) ⊆ Entries.names l) ∧
    ∀ path part path' part', Recorded (m.places.map Place.part?) path part →
      Recorded (m.places.map Place.part?) path' part' → ¬path <+: path' → ¬path' <+: path →
      ∀ n ∈ idsAll (segment path), n ∉ idsAll (segment path')

theorem Stem.top_mem_idsAll {data : NodeId → ElementData} {fill : NodeId → List Subtree}
    {ss : List Stem} : ss.map Stem.top ⊆ idsAll (Stem.assembleAll data fill ss) := by
  induction ss with
  | nil => simp
  | cons s rest ih =>
    obtain ⟨t, hs, ht⟩ := @Stem.assemble_top data fill s
    rw [List.map_cons, List.cons_subset, Stem.assembleAll, hs]
    refine ⟨?_, fun n hn => ?_⟩
    · simp [← ht, t.root_mem_ids]
    · rw [idsAll_append]
      exact List.mem_append_right _ (ih hn)

/-- What is faithful and all that stands in the container is owned. -/
theorem Mounted.Occupies.owned {m : Mounted} {f : List Subtree} {h : Host} {container : NodeId}
    {initial : List NodeId} (o : m.Occupies True f) (b : Block h.document container initial f []) :
    ∃ l, m.Owned h container initial f l := by
  obtain ⟨ss, data, fill, rfl, hnodes, t, contents⟩ := o
  obtain ⟨books, owns⟩ := exists_books fun i marker item hi => (contents i marker item hi).owns
  have names : Entries.names (Stem.ledgerAll none fill books ss) =
      idsAll (Stem.assembleAll data fill ss) := by
    refine Stem.names_ledgerAll ss fun m hm => ?_
    obtain ⟨item, hi⟩ := t.seated.place_of_marker hm
    exact (owns _ _ _ hi).names_eq
  have children : h.document.children container = initial ++ roots (Stem.assembleAll data fill ss) := by
    simpa using b.children_eq
  obtain ⟨segment, hs⟩ := t.seated.segments b contents fun i marker item hi q _ _ b' =>
    (contents i marker item hi).segments b'
  refine ⟨_, ⟨ss, data, fill, books, rfl, rfl, hnodes, t.seated, owns⟩, children, b.holds, names,
    names ▸ b.nodup, fun n hn => ?_, segment, fun path part r => ⟨(hs.stood path part r).inPlace,
      names ▸ hs.inside path part r⟩, hs.apart⟩
  have mem : n ∈ idsAll (Stem.assembleAll data fill ss) := by
    rcases List.mem_append.1 hn with hn | hn
    · rw [hnodes] at hn
      exact Stem.top_mem_idsAll hn
    · exact t.seated.recorded (fun i marker item hi => (owns i marker item hi).recorded) hn
  exact ⟨names ▸ mem, b.below n mem⟩

/-- Where only one renderer has something mounted, all plots are its own. -/
theorem Plotted.sole {renderers : Nat → Renderer} {i : Nat} {container : NodeId}
    {plots : List Plot} {m : Mounted} (p : Plotted True renderers container plots)
    (others : ∀ j, j ≠ i → (renderers j).mounted? container = none)
    (hm : (renderers i).mounted? container = some m) : m.Occupies True (Plot.forests plots) := by
  obtain ⟨left, f, right, rfl, occupies⟩ := p.exists_split hm
  have empty : ∀ z ∈ left ++ right, z.forest = [] := by
    intro z hz
    have mem : z ∈ left ++ ⟨some i, f⟩ :: right := by
      rw [List.mem_append] at hz
      rw [List.mem_append, List.mem_cons]
      exact hz.imp_right .inr
    refine p.vacant trivial z mem ?_
    cases ht : z.tenant with
    | none => rfl
    | some j =>
      obtain ⟨m', hm', -⟩ := p.occupied z mem j ht
      rw [others j fun hj => p.tenant_ne z hz (hj ▸ ht)] at hm'
      simp at hm'
  have hleft : Plot.forests left = [] :=
    List.flatMap_eq_nil_iff.2 fun z hz => empty z (List.mem_append_left _ hz)
  have hright : Plot.forests right = [] :=
    List.flatMap_eq_nil_iff.2 fun z hz => empty z (List.mem_append_right _ hz)
  simpa [hleft, hright] using occupies

namespace Scene

/-- A node below a container was there at the start, or stands in one of the plots. -/
theorem Stands.below {faithful : Prop} {start : Document} {plots : NodeId → List Plot} {s : Scene}
    (st : s.Stands faithful start plots) (closed : Closed start) {q : NodeId}
    (container : start.isContainer q = true) {n : Nat} (h : s.host.document.Below q n) :
    n < start.nodes.size ∨ ∃ q', start.isContainer q' = true ∧
      n ∈ idsAll (Plot.forests (plots q')) := by
  have child : ∀ m : Nat, m < start.nodes.size → ∀ n : Nat, n ∈ start.children m →
      n < start.nodes.size := by
    intro m hm n hn
    cases hr : start.record? m with
    | none => simp [children, hr] at hn
    | some r =>
      rw [children_of_record hr] at hn
      exact (closed m r hr).child_lt n hn
  have ofContainer : ∀ q : Nat, start.isContainer q = true → ∀ n : Nat,
      n ∈ s.host.document.children q → n < start.nodes.size ∨
        ∃ q', start.isContainer q' = true ∧ n ∈ idsAll (Plot.forests (plots q')) := by
    intro q hq n hn
    have hchildren := (st.block q hq).children_eq
    rw [List.append_nil] at hchildren
    rw [hchildren, List.mem_append] at hn
    exact hn.imp (child q (lt_size_of_isContainer hq) n) fun h => ⟨q, hq, roots_subset _ h⟩
  induction h with
  | child h => exact ofContainer q container _ h
  | @step m n _ h ih =>
    rcases ih with hm | ⟨q', hq', hm⟩
    · cases hc : start.isContainer m with
      | true => exact ofContainer m hc n h
      | false =>
        have same := st.others m hm hc
        rw [children, same] at h
        exact .inl (child m hm n h)
    · exact .inr ⟨q', hq', (st.block q' hq').holds.child_mem m hm n h⟩

/-- A renderer that makes room for a skeleton where it shows another one leaves the first
children only. -/
theorem Stands.makeRoom_children {start : Document} {plots : NodeId → List Plot} {s : Scene}
    {i : Nat} {q : NodeId} {shared : SharedSkeleton} (st : s.Stands True start plots)
    (container : start.isContainer q = true)
    (others : ∀ j, j ≠ i → (s.renderers j).mounted? q = none)
    (ne : ∀ m, (s.renderers i).mounted? q = some m → m.shared ≠ shared) :
    ((s.renderers i).makeRoom shared q s.host).failure = none ∧
      ((s.renderers i).makeRoom shared q s.host).host.document.children q = start.children q := by
  rw [Renderer.makeRoom]
  cases hm : (s.renderers i).mounted? q with
  | none =>
    refine ⟨rfl, (st.unmounted container fun j => ?_).2⟩
    by_cases hj : j = i
    · exact hj ▸ hm
    · exact others j hj
  | some m =>
    obtain ⟨succeeds, left, hchildren, -, empty⟩ := @Stands.unmount_children _ _ _ _ i q st container
    rw [empty trivial others, List.append_nil] at hchildren
    dsimp only
    rw [if_neg (ne m hm)]
    exact ⟨succeeds, hchildren⟩

/-- After any renders and unmounts of one renderer that have all succeeded, what it has
mounted owns all that stands in its containers behind their first children. No node is
owned in two containers or was there at the start, and no other node is below any of the
containers. What is unmounted, or gives way to another skeleton, leaves the container with
its first children. -/
theorem run_owned {start : Scene} (new : start.New) (edited : Edited start.host.document)
    (moves : List Move) (on : ∀ m ∈ moves, m.On start.host.document) (i : Nat)
    (only : ∀ m ∈ moves, m.renderer = i) (succeeds : start.Succeeds moves) :
    let final := start.run moves
    let isContainer := fun q => start.host.document.isContainer q = true
    ∃ (forest : NodeId → List Subtree) (ledger : NodeId → Ledger),
      (∀ q, isContainer q → ∀ m, (final.renderers i).mounted? q = some m →
        m.Owned final.host q (start.host.document.children q) (forest q) (ledger q)) ∧
      (∀ q, isContainer q → (final.renderers i).mounted? q = none →
        final.host.document.children q = start.host.document.children q ∧ ledger q = []) ∧
      (∀ q, isContainer q → ∀ n : Nat, n ∈ Entries.names (ledger q) →
        start.host.document.nodes.size ≤ n ∧
          ∀ q', isContainer q' → n ∈ Entries.names (ledger q') → q' = q) ∧
      (∀ q, isContainer q → ∀ n : Nat, final.host.document.Below q n →
        n < start.host.document.nodes.size ∨
          ∃ q', isContainer q' ∧ n ∈ Entries.names (ledger q')) ∧
      ∀ q, isContainer q →
        ((final.act (.unmount i q)).2 = none ∧
          (final.act (.unmount i q)).1.host.document.children q =
            start.host.document.children q) ∧
        ∀ shared, (∀ m, (final.renderers i).mounted? q = some m → m.shared ≠ shared) →
          ((final.renderers i).makeRoom shared q final.host).failure = none ∧
            ((final.renderers i).makeRoom shared q final.host).host.document.children q =
              start.host.document.children q := by
  intro final isContainer
  obtain ⟨plots, st⟩ := (new.stands edited).run_clean moves on succeeds
  have others : ∀ q j, j ≠ i → (final.renderers j).mounted? q = none := by
    intro q j hj
    have idle : final.renderers j = start.renderers j :=
      run_renderers_of_ne moves fun m hm => only m hm ▸ Ne.symm hj
    rw [idle]
    exact new j q
  have unmounted : ∀ q, isContainer q → (final.renderers i).mounted? q = none →
      Plot.forests (plots q) = [] ∧
        final.host.document.children q = start.host.document.children q := by
    refine fun q hq hm => st.unmounted hq fun j => ?_
    by_cases hj : j = i
    · exact hj ▸ hm
    · exact others q j hj
  have books : ∀ q, ∃ l : Ledger, isContainer q →
      Entries.names l = idsAll (Plot.forests (plots q)) ∧
      ∀ m, (final.renderers i).mounted? q = some m →
        m.Owned final.host q (start.host.document.children q) (Plot.forests (plots q)) l := by
    intro q
    by_cases hq : isContainer q
    · cases hm : (final.renderers i).mounted? q with
      | some m =>
        obtain ⟨l, owned⟩ := ((st.plotted q hq).sole (others q) hm).owned (st.block q hq)
        refine ⟨l, fun _ => ⟨owned.names, fun m' hm' => ?_⟩⟩
        exact Option.some.inj hm' ▸ owned
      | none =>
        exact ⟨[], fun _ => ⟨by rw [(unmounted q hq hm).1]; rfl, fun m' hm' => by simp at hm'⟩⟩
    · exact ⟨[], fun h => absurd h hq⟩
  choose ledger hledger using books
  refine ⟨fun q => Plot.forests (plots q), ledger, fun q hq => (hledger q hq).2, fun q hq hm => ?_,
    fun q hq n hn => ?_, fun q hq n hn => ?_, fun q hq => ⟨?_, fun shared ne => ?_⟩⟩
  · obtain ⟨empty, hchildren⟩ := unmounted q hq hm
    have hnames := (hledger q hq).1
    rw [empty] at hnames
    exact ⟨hchildren, List.map_eq_nil_iff.1 hnames⟩
  · rw [(hledger q hq).1] at hn
    refine ⟨st.young q hq n hn, fun q' hq' hn' => ?_⟩
    rw [(hledger q' hq').1] at hn'
    by_contra hne
    exact st.apart q' q hq' hq hne n hn' hn
  · refine (st.below edited.closed hq hn).imp_right fun ⟨q', hq', hn⟩ => ⟨q', hq', ?_⟩
    rwa [(hledger q' hq').1]
  · obtain ⟨hnone, left, hchildren, -, empty⟩ := @Stands.unmount_children _ _ _ _ i q st hq
    rw [empty trivial (others q), List.append_nil] at hchildren
    exact ⟨hnone, hchildren⟩
  · exact st.makeRoom_children hq (others q) ne

/-- A paragraph in the body, with a list at its hole for text. -/
theorem run_owned_list :
    let v := Value.list 1 [.text "a", .template 2 .paragraph [.null, .text "b"]]
    let moves : List Move := [.render 0 body (.template 0 .paragraph [.text "t", v])]
    let final := ({} : Scene).run moves
    final.host.document.innerMarkup body =
        "<p title=\"t\">Hi a<!----><p>Hi b<!----></p><!----><!----></p>" ∧
      ∃ m f l, (final.renderers 0).mounted? body = some m ∧ m.Owned final.host body [] f l := by
  intro v moves final
  have on : ∀ m ∈ moves, m.On ({} : Scene).host.document := by
    simp [moves, v, Move.On, Value.Built, Value.BuiltAll]
    decide
  have succeeds : ({} : Scene).Succeeds moves := ⟨by decide +kernel, trivial⟩
  obtain ⟨forest, ledger, owned, -⟩ := run_owned (fun _ _ => rfl) .empty moves on 0
    (by simp [moves, Move.renderer]) succeeds
  have mounted : ((final.renderers 0).mounted? body).isSome = true := by decide +kernel
  obtain ⟨m, hm⟩ := Option.isSome_iff_exists.1 mounted
  exact ⟨by decide +kernel, m, _, _, hm, owned body (by decide) m hm⟩

/-- A container inside of what has been rendered. The markup of the element that it is
changes, and what has been mounted into it is gone, while it is still on record. -/
theorem inner_container_loses_nodes :
    let host : SharedSkeleton := ⟨.parsed 2, ⟨[.element "div" [("unsafe-html", .hole 0)] []], 1⟩⟩
    let moves : List Move := [.render 0 body (.template 0 host [.text "a"]), .render 0 1 (.text "x"),
      .render 0 body (.template 1 host [.text "b"])]
    let final := ({} : Scene).run moves
    ({} : Scene).Succeeds moves ∧ final.host.document.innerMarkup body = "<div>b</div>" ∧
      ((final.renderers 0).mounted? 1).map Mounted.recorded = some [3, 3, 4] ∧
      final.host.document.parent? 3 = none ∧ final.host.document.parent? 4 = none := by
  intro host moves final
  refine ⟨⟨?_, ?_, ?_, trivial⟩, ?_, ?_, ?_, ?_⟩
  · decide +kernel
  · decide +kernel
  · decide +kernel
  · decide +kernel
  · decide +kernel
  · decide +kernel
  · decide +kernel

end Scene

end LiveTemplate
