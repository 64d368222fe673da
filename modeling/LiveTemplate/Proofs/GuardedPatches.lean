import LiveTemplate.Proofs.Guarding

/-!
# Patches that guard hosts

A skeleton that is mounted puts its elements and markers on record, and nothing stands in
those of its elements that are to be given markup later. From there on each patch tells which
nodes are on record behind it. So whatever is rendered, as long as nothing fails every host
shows the markup of the value that its table has for it.
-/
namespace LiveTemplate
open Document Subtree Live

/-! ### New tables -/

section
variable {p : Place} {places : List Place} {k : Mark} {n : NodeId} {v : Value}

theorem Place.mem_marks_of_bare (bare : p.bare = p) (hk : k ∈ p.marks) :
    (∃ b, p = .attribute k.1 b .null ∧ k.2 = if b = .markup then some .null else none) ∨
      p = .content k.1 .absent := by
  rcases p with _ | ⟨n, b, v⟩ | ⟨marker, item⟩
  · simp [Place.marks] at hk
  · simp only [Place.bare, Place.attribute.injEq, true_and] at bare
    obtain rfl := List.mem_singleton.1 hk
    exact .inl ⟨b, by rw [bare], by rw [bare]⟩
  · simp only [Place.bare, Place.content.injEq, true_and] at bare
    subst bare
    obtain rfl := List.mem_singleton.1 hk
    exact .inr rfl

theorem Place.nodup_hosts_of_bare (bare : p.bare = p) : (hostsIn p.marks).Nodup := by
  rcases p with _ | ⟨n, b, v⟩ | ⟨marker, item⟩
  · exact .nil
  · by_cases hb : b = .markup <;> simp [Place.marks, hb, hostsIn]
  · simp only [Place.bare, Place.content.injEq, true_and] at bare
    subst bare
    exact .nil

/-- No host is on record twice in a table if none is at two places of it. -/
theorem nodup_hostsAt (single : ∀ p ∈ places, (hostsIn p.marks).Nodup)
    (apart : ∀ (i j : Nat) (p q : Place) (n : NodeId), places[i]? = some p →
      places[j]? = some q → n ∈ hostsIn p.marks → n ∈ hostsIn q.marks → i = j) :
    (hostsIn (marksAt places)).Nodup := by
  induction places with
  | nil => exact .nil
  | cons p rest ih =>
    rw [List.forall_mem_cons] at single
    rw [marksAt, hostsIn_append, List.nodup_append]
    refine ⟨single.1, ih single.2 fun i j q r n hi hj hn hn' => ?_, fun n hn m hm h => ?_⟩
    · exact Nat.succ.inj (apart (i + 1) (j + 1) q r n hi hj hn hn')
    · obtain ⟨v, hv⟩ := mem_hostsIn.1 hm
      obtain ⟨j, q, hj, hq⟩ := mem_marksAt.1 hv
      have same := apart 0 (j + 1) p q m rfl hj (h ▸ hn) (mem_hostsIn.2 ⟨v, hq⟩)
      contradiction

namespace Seated
variable {shared : SharedSkeleton} {ss : List Stem}

/-- What is on record in a new table is one of its elements or markers. -/
theorem marks_subset (s : Seated shared ss places)
    (bare : ∀ (i : Nat) (p : Place), places[i]? = some p → p.bare = p) (hk : k ∈ marksAt places)
    (data : NodeId → ElementData) (fill : NodeId → List Subtree) :
    k.1 ∈ idsAll (Stem.assembleAll data fill ss) := by
  obtain ⟨elements, -, markers⟩ := Stem.mem_idsAll data fill ss
  obtain ⟨i, p, hp, hk⟩ := mem_marksAt.1 hk
  rcases Place.mem_marks_of_bare (bare i p hp) hk with ⟨b, rfl, -⟩ | rfl
  · obtain ⟨tag, attrs, he, -⟩ := s.element_of hp
    exact elements _ he
  · exact markers _ (s.marker_of hp)

/-- A host of a new table is an element that is given markup through the hole of its place. -/
theorem host_of (s : Seated shared ss places)
    (bare : ∀ (i : Nat) (p : Place), places[i]? = some p → p.bare = p) {i : Nat}
    (hp : places[i]? = some p) (h : (n, some v) ∈ p.marks) :
    v = .null ∧ ∃ tag attrs, (n, tag, attrs) ∈ Stem.elementsAll ss ∧
      markupSource? attrs = some (.hole i) := by
  rcases Place.mem_marks_of_bare (bare i p hp) h with ⟨b, rfl, hv⟩ | rfl
  · have hb : b = .markup := by
      by_contra ne
      simp [ne] at hv
    subst hb
    obtain ⟨tag, attrs, he, bound⟩ := s.element_of hp
    refine ⟨by simpa using hv, tag, attrs, he, ?_⟩
    exact (boundTo_markup (s.attrs_proper he).1).1 bound
  · simp [Place.marks, Item.absent, Item.marks, Content.marks] at h

theorem nodup_hosts (s : Seated shared ss places)
    (bare : ∀ (i : Nat) (p : Place), places[i]? = some p → p.bare = p)
    {data : NodeId → ElementData} {fill : NodeId → List Subtree}
    (nodup : (idsAll (Stem.assembleAll data fill ss)).Nodup) :
    (hostsIn (marksAt places)).Nodup := by
  refine nodup_hostsAt (fun p hp => ?_) fun i j p q n hi hj hn hn' => ?_
  · obtain ⟨i, hi, rfl⟩ := List.getElem_of_mem hp
    exact Place.nodup_hosts_of_bare (bare i _ (List.getElem?_eq_getElem hi))
  · obtain ⟨v, hv⟩ := mem_hostsIn.1 hn
    obtain ⟨w, hw⟩ := mem_hostsIn.1 hn'
    obtain ⟨-, tag, attrs, he, source⟩ := s.host_of bare hi hv
    obtain ⟨-, tag', attrs', he', source'⟩ := s.host_of bare hj hw
    have same := (Stem.distinctAll ss nodup).element_eq _ he _ he' rfl
    simp only [Prod.mk.injEq, true_and] at same
    rw [same.2, source'] at source
    simpa using source.symm

end Seated

end

/-! ### Mounting -/

/-- An element is what its block says it is. -/
theorem Document.Block.shelters {d : Document} {q n : NodeId} {before behind : List NodeId}
    {e : ElementData} {kids : List Subtree}
    (b : Block d q before [.node n (.element e) kids] behind) : d.Shelters n kids := by
  obtain ⟨record, inner⟩ := b.holds.1
  have nodup := b.nodup
  simp only [idsAll_cons, ids_node, idsAll_nil, List.append_nil, List.nodup_cons] at nodup
  refine ⟨?_, ?_, inner, nodup.2⟩
  · rw [element?_eq_some.2 ⟨_, record, rfl⟩]
    rfl
  · rw [children_of_record record]

namespace Live
variable {α β : Type} {marks : List Mark}

/-- A table that has just been mounted puts its nodes on record, and nothing stands in its
hosts. -/
theorem mount_guarded {shared : SharedSkeleton} (made : shared.Made) {q : NodeId} {h h' : Host}
    {r : List NodeId × List Place} (g : Guarded h.document marks) (hq : q ∈ nodesIn marks)
    (free : q ∉ hostsIn marks) (container : h.document.isContainer q = true)
    (run : mount shared.skeleton q h = .ok r h') :
    Guarded h'.document (marksAt r.2 ++ marks) := by
  obtain ⟨k, hk, rfl⟩ := mem_nodesIn.1 hq
  have b := g.consistent.block container
  have mounted := mount_seats (fun _ => false) made b
  rw [Runs, run] at mounted
  obtain ⟨ss, data, fill, w, -, seated, bare, shows⟩ := mounted
  have b' := w.block b
  rw [List.nil_append] at w b'
  refine g.mount ((mount_traces _ _).consistent run g.consistent) w hk rfl free
    (fun k hk => seated.marks_subset bare hk data fill) (seated.nodup_hosts bare w.nodup)
    fun n v hv => ?_
  obtain ⟨i, p, hp, hv⟩ := mem_marksAt.1 hv
  obtain ⟨hnull, tag, attrs, he, source⟩ := seated.host_of bare hp hv
  refine ⟨?_, hnull⟩
  have host := Stem.hostAll_of_element ss seated.proper _ he (by simp [source])
  have empty : fill n = [] := by
    refine shapes_eq_nil ((shows.host _ host).trans ?_)
    simp [markupShapes, source]
  obtain ⟨q', before', kids, behind', plug, focus⟩ := Stem.focusAll_element ss b' _ he
  have kids_eq : kids = [] := (focus.kids_host _ host rfl).trans empty
  exact kids_eq ▸ focus.focus.block.shelters

/-! ### Patches -/

/-- Where all hosts are guarded, a patch that succeeds leaves them so. -/
def Patched.Guards (marks : List Mark) (r : Host → Patched α) (marks' : α → List Mark) : Prop :=
  ∀ h, (r h).failure = none → Guarded h.document marks →
    Guarded (r h).host.document (marks' (r h).state)

namespace Patched.Guards
variable {marks₁ : List Mark} {Q : α → List Mark} {R : β → List Mark}
  {r : Host → Patched α}

theorem done {a : α} (sub : ∀ d, Guarded d marks → Guarded d (Q a)) :
    Patched.Guards marks (fun h => ⟨a, h, none⟩) Q := fun _ _ g => sub _ g

theorem map {f : α → β} (hr : Patched.Guards marks r Q)
    (sub : ∀ a d, Guarded d (Q a) → Guarded d (R (f a))) :
    Patched.Guards marks (fun h => (r h).map f) R := fun h hf g => sub _ _ (hr h hf g)

theorem before (sub : ∀ d, Guarded d marks → Guarded d marks₁)
    (hr : Patched.Guards marks₁ r Q) : Patched.Guards marks r Q :=
  fun h hf g => hr h hf (sub _ g)

theorem andThen {next : α → Host → Patched β} {kept : α → β} (hr : Patched.Guards marks r Q)
    (hnext : ∀ a, Patched.Guards (Q a) (next a) R) :
    Patched.Guards marks (fun h => (r h).andThen next kept) R := by
  intro h hf g
  obtain ⟨first, eq⟩ := andThen_of_none hf
  dsimp only at hf ⊢
  rw [eq] at hf ⊢
  exact hnext _ _ hf (hr h first g)

theorem attempt {m : HostM α} {done : α → β} {kept : β} (hm : Live.Guards marks m Q)
    (sub : ∀ a d, Guarded d (Q a) → Guarded d (R (done a))) :
    Patched.Guards marks (Patched.attempt m done kept) R := by
  intro h hf g
  obtain ⟨a, h', run, eq⟩ := exists_of_attempt hf
  rw [eq]
  exact sub _ _ (hm h a h' run g)

theorem toStep (hr : Patched.Guards marks r Q) :
    Live.Guards marks (fun h => (r h).toStep) Q := by
  intro h a h' ha g
  cases hf : (r h).failure with
  | none =>
    simp only [Patched.toStep, hf, EStateM.Result.ok.injEq] at ha
    rw [← ha.1, ← ha.2]
    exact hr h hf g
  | some e => simp [Patched.toStep, hf] at ha

end Patched.Guards

variable {others : List Mark} {anchor : NodeId}

theorem patchText_guards (ha : anchor ∈ nodesIn others) (c : Content) (text : String) :
    Patched.Guards (c.marks ++ others) (patchText anchor c text) fun c' => c'.marks ++ others := by
  have replaced : Guards (c.marks ++ others) (do
      clear c
      let node ← Host.create (.text text)
      Host.insertBefore node anchor
      pure node) fun n => (n, none) :: others := by
    refine (clear_guards others c).bind fun _ => (Guards.create (by simp)).bind fun n => ?_
    refine Guards.bind (.insertBefore (List.mem_cons_self ..) ?_) fun _ => .pure fun _ g => g
    exact List.mem_cons_of_mem _ ha
  cases c with
  | text n => exact .attempt (.setText (List.mem_cons_self ..) text) fun _ _ g => g
  | empty => exact .attempt replaced fun _ _ g => g
  | nested shared start stop places => exact .attempt replaced fun _ _ g => g
  | list items => exact .attempt replaced fun _ _ g => g

section
variable {shared : SharedSkeleton} {patch : List Place → Host → Patched (List Place)}

/-- A template is mounted and patched in a fragment, and put in front of the anchor. -/
theorem instantiate_guards (made : shared.Made) (ha : anchor ∈ nodesIn others)
    (hp : ∀ places others, Patched.Guards (marksAt places ++ others) (patch places)
      fun places' => marksAt places' ++ others) :
    Guards others (instantiate shared patch anchor) fun c => c.marks ++ others := by
  unfold instantiate
  refine (Guards.create (by simp)).bind fun start => ?_
  refine (Guards.create (by simp)).bind fun stop => ?_
  intro h c h' run g
  obtain ⟨fragment, h₁, created, run⟩ := exists_of_bind_ok run
  obtain ⟨⟨tops, places⟩, h₂, mounted, run⟩ := exists_of_bind_ok run
  have g₁ := Guards.create (by simp) h fragment h₁ created g
  have kind : h₁.document.kind? fragment = some .fragment := by
    cases created
    have record := record?_create_self .fragment h.document
    show ((h.document.create .fragment).2).kind? _ = _
    rw [kind?, record]
    rfl
  have g₂ := mount_guarded made g₁ (List.mem_cons_self ..) (g₁.fragment_free kind)
    (by simp [isContainer, kind]) mounted
  refine Guards.bind (R := fun c => c.marks ++ others) (hp places _).toStep (fun places => ?_)
    h₂ c h' run g₂
  have known : ∀ n ∈ fragment :: stop :: start :: nodesIn others, n ∈ nodesIn
      (marksAt places ++ (fragment, none) :: (stop, none) :: (start, none) :: others) :=
    fun n hn => mem_nodesIn_append _ hn
  refine (Guards.insertBefore (known _ (by simp)) (known _ (by simp [ha]))).bind fun _ => ?_
  refine (Guards.insertBefore (known _ (by simp)) (known _ (by simp [ha]))).bind fun _ => ?_
  refine (Guards.insertBefore (known _ (by simp)) (known _ (by simp [ha]))).bind fun _ => ?_
  have kept : (marksAt places ++ (start, none) :: others).Sublist
      (marksAt places ++ (fragment, none) :: (stop, none) :: (start, none) :: others) :=
    (List.Sublist.refl _).append (.cons _ (.cons _ (.refl _)))
  exact .pure fun d g => (g.sublist kept).perm List.perm_middle

theorem patchTemplate_guards (made : shared.Made) (ha : anchor ∈ nodesIn others)
    (hp : ∀ places others, Patched.Guards (marksAt places ++ others) (patch places)
      fun places' => marksAt places' ++ others) (c : Content) :
    Patched.Guards (c.marks ++ others) (patchTemplate anchor shared patch c)
      fun c' => c'.marks ++ others := by
  have replaced : Patched.Guards (c.marks ++ others)
      (Patched.attempt (do clear c; instantiate shared patch anchor) id .empty)
      fun c' => c'.marks ++ others :=
    .attempt ((clear_guards others c).bind fun _ => instantiate_guards made ha hp) fun _ _ g => g
  cases c with
  | nested shared' start stop places =>
    intro h
    dsimp only [patchTemplate]
    split
    · have inner := (hp places ((start, none) :: others)).before
        fun _ g => g.perm List.perm_middle.symm
      exact inner.map (fun _ _ g => g.perm List.perm_middle) h
    · exact replaced h
  | empty => exact replaced
  | text n => exact replaced
  | list items => exact replaced

end

theorem patchList_guards {patch : List Item → Host → Patched (List Item)}
    (hp : ∀ items, Patched.Guards (marksOf items ++ others) (patch items)
      fun items' => marksOf items' ++ others) (c : Content) :
    Patched.Guards (c.marks ++ others) (patchList patch c) fun c' => c'.marks ++ others := by
  have cleared : Patched.Guards (c.marks ++ others)
      (Patched.attempt (clear c) (fun _ => Content.list []) .empty) fun c' => c'.marks ++ others :=
    .attempt (clear_guards others c) fun _ _ g => g
  have taken : Patched.Guards (c.marks ++ others) (takeItems c) fun c' => c'.marks ++ others := by
    cases c with
    | list items => exact .done fun _ g => g
    | empty => exact cleared
    | text n => exact cleared
    | nested shared start stop places => exact cleared
  refine taken.andThen fun c => ?_
  cases c with
  | list items => exact (hp items).map fun _ _ g => g
  | empty => exact .done fun _ g => g
  | text n => exact .done fun _ g => g
  | nested shared start stop places => exact .done fun _ g => g

theorem updateItem_guards {patch : Content → Host → Patched Content} (item : Item) (next : Value)
    (hp : ∀ c : Content, Patched.Guards (c.marks ++ others) (patch c)
      fun c' => c'.marks ++ others) :
    Patched.Guards (item.marks ++ others) (updateItem patch item next)
      fun item' => item'.marks ++ others := by
  have patched : Patched.Guards (item.marks ++ others) (fun h => (patch item.content h).andThen
      (fun c' h => ⟨Item.mk next c', h, none⟩) fun c' => .mk item.shown c')
      fun item' => item'.marks ++ others := by
    rw [item.marks_eq]
    exact (hp item.content).andThen fun c' => .done fun _ g => g
  intro h
  unfold updateItem
  split
  · exact fun _ g => g
  · exact patched h

theorem updatePlace_guards {patch : NodeId → Content → Host → Patched Content} (p : Place)
    (next : Value) (hp : ∀ marker others c, marker ∈ nodesIn others →
      Patched.Guards (c.marks ++ others) (patch marker c) fun c' => c'.marks ++ others) :
    Patched.Guards (p.marks ++ others) (updatePlace patch p next)
      fun p' => p'.marks ++ others := by
  rcases p with _ | ⟨n, b, v⟩ | ⟨marker, item⟩
  · exact .done fun _ g => g
  · have applied : Patched.Guards ((Place.attribute n b v).marks ++ others)
        (Patched.attempt (apply n b v next) (fun _ => Place.attribute n b next) (.attribute n b v))
        fun p' => p'.marks ++ others :=
      .attempt (applyPlace_guards n b v next others) fun _ _ g => g
    intro h
    dsimp only [updatePlace]
    split
    · exact fun _ g => g
    · exact applied h
  · -- the marker stays on record beside what is in front of it
    have inner := updateItem_guards item next fun c =>
      hp marker ((marker, none) :: others) c (List.mem_cons_self ..)
    exact (inner.before fun _ g => g.perm List.perm_middle.symm).map
      fun _ _ g => g.perm List.perm_middle

theorem cleared_guards (others : List Mark) (c : Content) :
    Patched.Guards (c.marks ++ others) (Patched.attempt (clear c) (fun _ => Content.empty) .empty)
      fun c' => c'.marks ++ others := .attempt (clear_guards others c) fun _ _ g => g

/-- The first of some places or items is patched beside the others, and the others beside what
has become of it. -/
theorem Patched.Guards.cons {γ : Type} (own : γ → List Mark) (all : List γ → List Mark)
    (split : ∀ x xs, all (x :: xs) = own x ++ all xs) {x : γ} {rest : List γ}
    {r : Host → Patched γ} {s : Host → Patched (List γ)} {kept : γ → List γ}
    (first : Patched.Guards (own x ++ (all rest ++ others)) r
      fun x' => own x' ++ (all rest ++ others))
    (next : ∀ x', Patched.Guards (all rest ++ (own x' ++ others)) s
      fun rest' => all rest' ++ (own x' ++ others)) :
    Patched.Guards (own x ++ (all rest ++ others))
      (fun h => (r h).andThen (fun x' h => (s h).map (x' :: ·)) kept)
      fun xs => all xs ++ others := by
  refine first.andThen fun x' => ((next x').before fun _ g => ?_).map fun rest' _ g => ?_
  · exact g.perm (List.perm_append_comm_assoc ..)
  · rw [split, List.append_assoc]
    exact g.perm (List.perm_append_comm_assoc ..)

theorem withdrawAll_guards (others : List Mark) (places : List Place) :
    Patched.Guards (marksAt places ++ others) (withdrawAll places)
      fun places' => marksAt places' ++ others := by
  induction places generalizing others with
  | nil => exact .done fun _ g => g
  | cons p rest ih =>
    have first : Patched.Guards (p.marks ++ (marksAt rest ++ others)) (withdraw p)
        fun p' => p'.marks ++ (marksAt rest ++ others) := by
      intro h
      rw [withdraw_eq]
      exact updatePlace_guards p .null (fun _ others c _ => cleared_guards others c) h
    rw [marksAt, List.append_assoc]
    exact .cons Place.marks marksAt (fun _ _ => rfl) first fun p' => ih _

/-! ### Values -/

mutual
/-- A content is patched with a value, in front of a node on record. -/
theorem patchContent_guards : (v : Value) → v.Built → ∀ {others : List Mark} {anchor : NodeId},
    anchor ∈ nodesIn others → ∀ c : Content,
    Patched.Guards (c.marks ++ others) (patchContent anchor c v) fun c' => c'.marks ++ others
  | .null, _, others, _, _, c | .attributes .., _, others, _, _, c | .callback _, _, others, _, _, c
  | .cell _, _, others, _, _, c | .payload _, _, others, _, _, c => cleared_guards others c
  | .bool _, _, _, _, ha, c | .number _, _, _, _, ha, c | .text _, _, _, _, ha, c =>
      patchText_guards ha c _
  | .template _ shared values, built, _, _, ha, c =>
      patchTemplate_guards built.1 ha (fun places others =>
        patchPlaces_guards values built.2.2 others places) c
  | .list _ items, built, others, anchor, ha, c => by
      intro h
      simp only [patchContent]
      split
      · exact patchList_guards (fun old => patchKeyed_guards items built ha _ _ old) c h
      · exact patchList_guards (fun old => patchItems_guards items built ha old) c h
termination_by structural v => v

theorem patchItems_guards : (vs : List Value) → Value.BuiltAll vs →
    ∀ {others : List Mark} {anchor : NodeId}, anchor ∈ nodesIn others → ∀ items : List Item,
    Patched.Guards (marksOf items ++ others) (patchItems anchor items vs)
      fun items' => marksOf items' ++ others
  | [], _, others, _, _, items => .attempt (clearItems_guards others items) fun _ _ g => g
  | next :: vs, built, others, anchor, ha, [] => by
      have first := updateItem_guards .absent next (patchContent_guards next built.1 ha)
      have rest := fun item : Item =>
        patchItems_guards vs built.2 (mem_nodesIn_append item.marks ha) []
      exact .cons Item.marks marksOf (fun _ _ => rfl) first rest
  | next :: vs, built, others, anchor, ha, item :: rest => by
      have first := updateItem_guards item next
        (patchContent_guards next built.1 (anchorOf_mem rest ha))
      have others := fun item : Item =>
        patchItems_guards vs built.2 (mem_nodesIn_append item.marks ha) rest
      rw [marksOf, List.append_assoc]
      exact .cons Item.marks marksOf (fun _ _ => rfl) first others
termination_by structural vs => vs

theorem patchKeyed_guards : (vs : List Value) → Value.BuiltAll vs →
    ∀ {others : List Mark} {anchor : NodeId}, anchor ∈ nodesIn others →
    ∀ (prevKeys nextKeys : List Value) (items : List Item),
    Patched.Guards (marksOf items ++ others) (patchKeyed anchor prevKeys nextKeys items vs)
      fun items' => marksOf items' ++ others
  | [], _, others, _, _, _, _, items => .attempt (clearItems_guards others items) fun _ _ g => g
  | next :: vs, built, others, anchor, ha, prevKeys, nextKeys, items => by
      have split := keyedStep_split (isStale nextKeys) (isFresh prevKeys next) items
      simp only [patchKeyed]
      generalize keyedStep (isStale nextKeys) (isFresh prevKeys next) items = step at split
      have reused : marksOf step.reused.toList = (step.reused.getD .absent).marks := by
        cases step.reused with
        | none => rfl
        | some item => exact List.append_nil _
      rw [← split, marksOf_append, marksOf_append, reused, List.append_assoc, List.append_assoc]
      let kept := (step.reused.getD .absent).marks ++ (marksOf step.rest ++ others)
      have removed : Patched.Guards (marksOf step.removed ++ kept)
          (Patched.attempt (clearItems step.removed) id ()) fun _ => kept :=
        .attempt (clearItems_guards kept step.removed) fun _ _ g => g
      refine removed.andThen fun _ => ?_
      have first := updateItem_guards (step.reused.getD .absent) next
        (patchContent_guards next built.1 (anchorOf_mem step.rest ha))
      have others := fun item : Item => patchKeyed_guards vs built.2
        (mem_nodesIn_append item.marks ha) prevKeys nextKeys step.rest
      exact .cons Item.marks marksOf (fun _ _ => rfl) first others
termination_by structural vs => vs

theorem patchPlaces_guards : (vs : List Value) → Value.BuiltAll vs → ∀ (others : List Mark)
    (places : List Place),
    Patched.Guards (marksAt places ++ others) (patchPlaces places vs)
      fun places' => marksAt places' ++ others
  | [], _, others, places => withdrawAll_guards others places
  | next :: vs, built, others, [] => .done fun _ g => g
  | next :: vs, built, others, p :: rest => by
      have first : Patched.Guards (p.marks ++ (marksAt rest ++ others)) _ _ :=
        updatePlace_guards p next fun marker others c h => patchContent_guards next built.1 h c
      rw [marksAt, List.append_assoc]
      exact .cons Place.marks marksAt (fun _ _ => rfl) first fun p' =>
        patchPlaces_guards vs built.2 _ rest
termination_by structural vs => vs
end

end Live

end LiveTemplate
