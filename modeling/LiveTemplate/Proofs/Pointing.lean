import LiveTemplate.Proofs.Incremental
import LiveTemplate.Proofs.Ownership
import LiveTemplate.Proofs.Pinning

/-!
# Cells point at live elements

After renders into one container that have all succeeded, every cell that is bound in the
value shown last holds the element by which it is bound, and this element is below the
container, whatever bound the cell before. It only takes that no value binds a cell twice: a
cell that has been holds the element that was applied last, and still does when only the
other one binds it.
-/
namespace LiveTemplate
open Document Subtree Live Patched

/-! ### What is shown for a value, and what the cells hold -/

mutual
/-- The forest is shown for the value, and every cell that is bound at one of its elements
holds that element. -/
inductive Points (cells : List Pin) : Value → List Subtree → Prop
  | blank {v : Value} (blank : v.Blank) : Points cells v []
  | text {v : Value} (n : NodeId) (scalar : v.Scalar) :
      Points cells v [.node n (.text v.toText) []]
  | template {handle : Nat} {shared : SharedSkeleton} {values : List Value} {f : List Subtree}
      (start stop : NodeId) (table : TablePoints cells shared values f) :
      Points cells (.template handle shared values)
        (.node start .marker [] :: f ++ [.node stop .marker []])
  | list {handle : Nat} {values : List Value} {f : List Subtree}
      (items : ItemsPoint cells values f) : Points cells (.list handle values) f

/-- The elements of a skeleton, with what the values show at its markers. -/
inductive TablePoints (cells : List Pin) : SharedSkeleton → List Value → List Subtree → Prop
  | mk {shared : SharedSkeleton} {values : List Value} {ss : List Stem}
      {data : NodeId → ElementData} {fill : NodeId → List Subtree}
      (nodes : Stem.nodes ss = shared.nodes) (proper : Stem.ProperAll ss)
      (tag : ∀ e ∈ Stem.elementsAll ss, (data e.1).tag = Text.lower e.2.1)
      (holds : ∀ e ∈ Stem.elementsAll ss, ∀ i b, BoundTo e.2.2 i b →
        ∀ c ∈ (Markup.valueAt values i).cellsVia b, Entries.get? c cells = some e.1)
      (contents : ∀ m ∈ Stem.markersAll ss,
        Points cells (Markup.valueAt values m.2) (fill m.1)) :
      TablePoints cells shared values (Stem.assembleAll data fill ss)

inductive ItemsPoint (cells : List Pin) : List Value → List Subtree → Prop
  | nil : ItemsPoint cells [] []
  | cons {v : Value} {rest : List Value} {f g : List Subtree} (head : Points cells v f)
      (tail : ItemsPoint cells rest g) : ItemsPoint cells (v :: rest) (f ++ g)
end

/-! ### The bindings of a value are those on record -/

namespace Value
variable {a b : Value}

theorem Alike.refs (h : a.Alike b) : a.refs = b.refs := by
  rcases h.cases with rfl | ⟨m, n, rfl, rfl, -, -⟩
  · rfl
  · rfl

theorem Alike.blank (h : a.Alike b) (blank : a.Blank) : b.Blank := by
  rcases h.cases with rfl | ⟨m, n, rfl, rfl, -, -⟩
  · exact blank
  · exact blank

theorem Alike.scalar (h : a.Alike b) (scalar : a.Scalar) : b.Scalar := by
  rcases h.cases with rfl | ⟨m, n, rfl, rfl, -, -⟩
  · exact scalar
  · exact scalar

theorem Alike.template {handle : Nat} {shared : SharedSkeleton} {values : List Value}
    (h : (Value.template handle shared values).Alike b) : b = .template handle shared values := by
  rcases h.cases with rfl | ⟨m, n, hm, -⟩
  · rfl
  · contradiction

theorem Alike.list {handle : Nat} {items : List Value} (h : (Value.list handle items).Alike b) :
    b = .list handle items := by
  rcases h.cases with rfl | ⟨m, n, hm, -⟩
  · rfl
  · contradiction

theorem Blank.refs {v : Value} (h : v.Blank) : v.refs = [] := by
  cases v <;> first | rfl | exact h.elim

theorem Scalar.refs {v : Value} (h : v.Scalar) : v.refs = [] := by
  cases v <;> first | rfl | exact h.elim

theorem refsAll_of_alike {vs ws : List Value} (h : List.Forall₂ Alike vs ws) :
    refsAll vs = refsAll ws := by
  induction h with
  | nil => rfl
  | cons h _ ih => rw [refsAll, refsAll, h.refs, ih]

/-- A value that is no template is the only content of its skeleton. -/
theorem refsFrom_parts (v : Value) :
    refsFrom (Node.seatsAll v.parts.1.nodes) 0 v.parts.2 = v.refs := by
  have bare : refsFrom (Node.seatsAll SharedSkeleton.bare.nodes) 0 [v] = v.refs := List.append_nil _
  cases v <;> first | rfl | exact bare

end Value

namespace Seated
variable {shared : SharedSkeleton} {ss : List Stem} {places : List Place} {i : Nat} {p : Place}

/-- What a value binds at a hole is told by the place of the hole. -/
theorem refsFrom_singleton (s : Seated shared ss places) (hp : places[i]? = some p) (v : Value) :
    Value.refsFrom (Node.seatsAll shared.nodes) i [v] =
      match p with
      | .vacant => []
      | .attribute _ b _ => v.cellsVia b
      | .content .. => v.refs := by
  have seats := fun {t} => Stem.mem_seatsAll (i := i) ss s.proper (t := t)
  rw [s.nodes] at seats
  simp only [Value.refsFrom, List.append_nil]
  cases ht : Entries.get? i (Node.seatsAll shared.nodes) with
  | none =>
    have absent : ∀ t, (i, t) ∉ Node.seatsAll shared.nodes := fun t mem =>
      Entries.get?_eq_none_iff.1 ht (List.mem_map_of_mem mem)
    rcases p with _ | ⟨n, b, w⟩ | ⟨marker, item⟩
    · rfl
    · obtain ⟨tag, attrs, he, hb⟩ := s.element_of hp
      exact absurd (seats.2 (.inl ⟨_, he, b, hb, rfl⟩)) (absent _)
    · exact absurd (seats.2 (.inr ⟨_, s.marker_of hp, rfl, rfl⟩)) (absent _)
  | some t =>
    rcases seats.1 (Entries.mem_of_get? ht) with ⟨e, he, b, hb, rfl⟩ | ⟨m, hm, rfl, rfl⟩
    · obtain ⟨w, hw⟩ := s.place_of_element he hb
      obtain rfl := Option.some.inj (hp.symm.trans hw)
      rfl
    · obtain ⟨item, hi⟩ := s.place_of_marker hm
      obtain rfl := Option.some.inj (hp.symm.trans hi)
      rfl

end Seated

theorem pinsAt_map_fst {seats : List (Nat × Seat)} {places : List Place} {values : List Value}
    (index : Nat) (length : values.length = places.length)
    (h : ∀ (i : Nat) (p : Place), places[i]? = some p →
      p.pins.map Prod.fst = Value.refsFrom seats (index + i) [Markup.valueAt values i]) :
    (pinsAt places).map Prod.fst = Value.refsFrom seats index values := by
  induction places generalizing index values with
  | nil =>
    obtain rfl := List.length_eq_zero_iff.1 length
    rfl
  | cons p rest ih =>
    cases values with
    | nil => simp at length
    | cons v values =>
      have head := h 0 p rfl
      have tail := ih (index + 1) (by simpa using length) fun i q hq => by
        have := h (i + 1) q hq
        rwa [← Nat.add_assoc, Nat.add_right_comm] at this
      rw [pinsAt, List.map_append, head, tail]
      simp [Value.refsFrom, Markup.valueAt]

section
variable {ω : Watch} {clean : Nat → Prop} {kept : NodeId → Target → Prop}
  {shared : SharedSkeleton} {ss : List Stem} {data : NodeId → ElementData}
  {fill : NodeId → List Subtree} {places : List Place} {values : List Value}

/-- A table has the cells on record that the values bind, given that its contents have. -/
theorem TableFits.refs (t : TableFits ω clean kept shared ss data fill places)
    (same : Places.Match places values) (length : values.length = shared.holes)
    (contents : ∀ (i : Nat) (marker : NodeId) (item : Item),
      places[i]? = some (.content marker item) → item.content.pins.map Prod.fst = item.shown.refs) :
    (pinsAt places).map Prod.fst = Value.refsFrom (Node.seatsAll shared.nodes) 0 values := by
  refine pinsAt_map_fst 0 (length.trans t.seated.length.symm) fun i p hp => ?_
  rw [Nat.zero_add, t.seated.refsFrom_singleton hp]
  rcases p with _ | ⟨n, b, v⟩ | ⟨marker, item⟩
  · rfl
  · have alike := same i _ hp v rfl
    simp [Place.pins, alike.cellsVia b, Function.comp_def]
  · have alike := same i _ hp item.shown rfl
    rw [Place.pins, item.pins_eq, contents i marker item hp]
    exact alike.refs

mutual
/-- A content has the cells on record that its value binds. -/
theorem Fits.refs : {v : Value} → {c : Content} → {f : List Subtree} → Fits ω True v c f →
    v.Built → c.pins.map Prod.fst = v.refs
  | _, _, _, .empty shows, _ => (shows trivial).2.refs.symm
  | _, _, _, .text _ _ shows, _ => (shows trivial).2.2.1.refs.symm
  | _, _, _, .nested _ _ table contents shows, built => by
      obtain ⟨-, -, handle, values, rfl, same⟩ := shows trivial
      exact table.refs same built.2.1 fun i marker item hi =>
        (contents i marker item hi).refs (table.sound i _ hi item.shown rfl).1
  | _, .list _, _, .list fits shows, _ => by
      obtain ⟨handle, vs, rfl, same⟩ := shows trivial
      rw [Value.refs, ← Value.refsAll_of_alike same]
      exact fits.refs

theorem FitsItems.refs : {items : List Item} → {f : List Subtree} → FitsItems ω True items f →
    (pinsOf items).map Prod.fst = Value.refsAll (items.map Item.shown)
  | _, _, .nil _ => rfl
  | item :: _, _, .cons built _ head tail => by
      rw [pinsOf, List.map_append, item.pins_eq, head.refs built, tail.refs]
      rfl
end

/-! ### What a faithful table shows -/

theorem mem_pinsAt {p : Pin} : p ∈ pinsAt places ↔
    ∃ (i : Nat) (q : Place), places[i]? = some q ∧ p ∈ q.pins := by
  rw [pinsAt_eq, List.mem_flatMap]
  constructor
  · rintro ⟨q, hq, hp⟩
    obtain ⟨i, hi, rfl⟩ := List.getElem_of_mem hq
    exact ⟨i, _, List.getElem?_eq_getElem hi, hp⟩
  · rintro ⟨i, q, hi, hp⟩
    exact ⟨q, List.mem_of_getElem? hi, hp⟩

theorem TableFits.points (t : TableFits ω clean kept shared ss data fill places)
    (same : Places.Match places values) {cells : List Pin} (held : Held (pinsAt places) cells)
    (contents : ∀ (i : Nat) (marker : NodeId) (item : Item),
      places[i]? = some (.content marker item) → Held item.content.pins cells →
      ∀ v, item.shown.Alike v → Points cells v (fill marker)) :
    TablePoints cells shared values (Stem.assembleAll data fill ss) := by
  refine .mk t.seated.nodes t.seated.proper t.tag (fun e he i b hb c hc => ?_) fun m hm => ?_
  · obtain ⟨v, hv⟩ := t.seated.place_of_element he hb
    refine held (c, e.1) (mem_pinsAt.2 ⟨i, _, hv, ?_⟩)
    rw [← (same i _ hv v rfl).cellsVia] at hc
    simp [Place.pins, hc]
  · obtain ⟨item, hi⟩ := t.seated.place_of_marker hm
    refine contents m.2 m.1 item hi (fun p hp => ?_) _ (same m.2 _ hi item.shown rfl)
    refine held p (mem_pinsAt.2 ⟨m.2, _, hi, ?_⟩)
    rwa [Place.pins, item.pins_eq]

mutual
/-- A faithful content shows its value, and the cells point at its elements if all that it
has on record holds. -/
theorem Fits.points {cells : List Pin} : {v : Value} → {c : Content} → {f : List Subtree} →
    Fits ω True v c f → Held c.pins cells → ∀ w, v.Alike w → Points cells w f
  | _, _, _, .empty shows, _, w, alike => by
      obtain ⟨rfl, blank⟩ := shows trivial
      exact .blank (alike.blank blank)
  | _, _, _, .text _ _ shows, _, w, alike => by
      obtain ⟨rfl, rfl, scalar, rfl⟩ := shows trivial
      rw [alike.toText]
      exact .text _ (alike.scalar scalar)
  | _, .nested _ start stop _, _, .nested _ _ table contents shows, held, w, alike => by
      obtain ⟨rfl, rfl, handle, values, rfl, same⟩ := shows trivial
      obtain rfl := alike.template
      rw [List.nil_append, List.append_nil]
      exact .template start stop (table.points same held fun i marker item hi held v alike =>
        (contents i marker item hi).points held v alike)
  | _, .list items, _, .list fits shows, held, w, alike => by
      obtain ⟨handle, vs, rfl, same⟩ := shows trivial
      obtain rfl := alike.list
      exact .list (fits.points held vs same)

theorem FitsItems.points {cells : List Pin} : {items : List Item} → {f : List Subtree} →
    FitsItems ω True items f → Held (pinsOf items) cells →
    ∀ vs, List.Forall₂ Value.Alike (items.map Item.shown) vs → ItemsPoint cells vs f
  | _, _, .nil shows, _, _, .nil => by
      rw [shows trivial]
      exact .nil
  | item :: _, _, .cons _ _ head tail, held, _, .cons alike others => by
      rw [pinsOf, item.pins_eq] at held
      refine .cons (head.points (fun p hp => held p ?_) _ alike)
        (tail.points (fun p hp => held p ?_) _ others)
      · exact List.mem_append_left _ hp
      · exact List.mem_append_right _ hp
end

end

/-! ### Nodes on record -/

mutual
theorem Content.pins_recorded : (c : Content) → c.pins.map Prod.snd ⊆ c.recorded
  | .empty => List.Subset.refl _
  | .text _ => List.nil_subset _
  | .nested _ _ _ places => by
      have inner := pinsAt_recorded places
      rw [Content.pins, Content.recorded]
      exact fun n hn => List.mem_cons_of_mem _ (List.mem_cons_of_mem _ (inner hn))
  | .list items => pinsOf_recorded items
termination_by structural c => c

theorem Place.pins_recorded : (p : Place) → p.pins.map Prod.snd ⊆ p.recorded
  | .vacant => List.Subset.refl _
  | .attribute n b v => by
      intro m hm
      simp only [Place.pins, List.map_map, List.mem_map, Function.comp_apply] at hm
      obtain ⟨c, -, rfl⟩ := hm
      exact List.mem_singleton_self _
  | .content _ item => fun _ hn => List.mem_cons_of_mem _ (Item.pins_recorded item hn)
termination_by structural p => p

theorem Item.pins_recorded : (item : Item) → item.pins.map Prod.snd ⊆ item.recorded
  | .mk _ content => Content.pins_recorded content
termination_by structural item => item

/-- The node of a binding is on record. -/
theorem pinsAt_recorded : (places : List Place) → (pinsAt places).map Prod.snd ⊆ recordedAt places
  | [] => List.Subset.refl _
  | p :: rest => by
      rw [pinsAt, recordedAt, List.map_append, List.append_subset]
      exact ⟨List.subset_append_of_subset_left _ (Place.pins_recorded p),
        List.subset_append_of_subset_right _ (pinsAt_recorded rest)⟩
termination_by structural places => places

theorem pinsOf_recorded : (items : List Item) → (pinsOf items).map Prod.snd ⊆ recordedOf items
  | [] => List.Subset.refl _
  | item :: rest => by
      rw [pinsOf, recordedOf, List.map_append, List.append_subset]
      exact ⟨List.subset_append_of_subset_left _ (Item.pins_recorded item),
        List.subset_append_of_subset_right _ (pinsOf_recorded rest)⟩
termination_by structural items => items
end

/-! ### Sessions -/

namespace Mounted
variable {ω : Watch} {container : NodeId} {initial : List NodeId} {debris : List Subtree}
  {tried : List (List Value)} {m : Mounted} {h : Host} {values : List Value}

/-- A table at which all is clean has the cells on record that its values bind. -/
theorem Stands.refs (s : m.Stands ω container initial debris tried h)
    (clean : ∀ i, Clean m.places tried i) (same : Places.Match m.places values)
    (length : values.length = m.shared.holes) :
    (pinsAt m.places).map Prod.fst = Value.refsFrom (Node.seatsAll m.shared.nodes) 0 values := by
  obtain ⟨ss, data, fill, -, -, t, contents⟩ := s
  refine t.refs same length fun i marker item hi => ?_
  exact ((contents i marker item hi).mono fun _ => clean i).refs (t.sound i _ hi item.shown rfl).1

/-- If all that a clean table has on record holds, the cells point at the elements that it
shows, and these are below the container. -/
theorem Stands.points (s : m.Stands ω container initial debris tried h)
    (clean : ∀ i, Clean m.places tried i) (same : Places.Match m.places values)
    (held : Held (pinsAt m.places) h.cells) :
    ∃ forest, Block h.document container initial (debris ++ forest) [] ∧
      TablePoints h.cells m.shared values forest ∧
      ∀ p ∈ pinsAt m.places, h.document.Below container p.2 := by
  obtain ⟨ss, data, fill, b, -, t, contents⟩ := s
  have faithful : ∀ (i : Nat) (marker : NodeId) (item : Item),
      m.places[i]? = some (.content marker item) →
      Fits ω True item.shown item.content (fill marker) :=
    fun i marker item hi => (contents i marker item hi).mono fun _ => clean i
  refine ⟨_, b, ?_, fun p hp => b.below _ ?_⟩
  · exact t.points same held fun i marker item hi => (faithful i marker item hi).points
  · rw [idsAll_append]
    refine List.mem_append_right _ (t.seated.recorded (fun i marker item hi => ?_)
      (pinsAt_recorded _ (List.mem_map_of_mem hp)))
    obtain ⟨l, owns⟩ := (faithful i marker item hi).owns
    exact owns.recorded

end Mounted

/-- No cell is bound twice in a value that is rendered. -/
def Action.BindsOnce : Action → Prop
  | .render v => v.refs.Nodup
  | _ => True

namespace Session
variable {ω : Watch} {container : NodeId} {initial : List NodeId} {debris : List Subtree}
  {s : Session} {a : Action} {v : Value}

/-- All bindings on record hold. -/
def CellsHeld (container : NodeId) (s : Session) : Prop :=
  Held (s.renderer.pins container) s.host.cells

/-- What a render that succeeds has on record are the bindings of its value. -/
theorem render_refs (built : v.Built) (stands : Stands ω container initial debris s)
    (before : Admitted ω container s) (clean : s.renderer.AllClean container s.tried)
    (succeeds : (s.act container (.render v)).2 = none) :
    ((s.act container (.render v)).1.renderer.pins container).map Prod.fst = v.refs := by
  obtain ⟨m, hm, shared, same, stands', clean'⟩ :=
    render_mounted built stands before clean succeeds
  have length : v.parts.2.length = m.shared.holes := by
    rw [shared]
    exact (Renderer.parts_built built).2.1
  rw [Renderer.pins_of_mounted hm, stands'.refs clean' same length, shared, v.refsFrom_parts]

/-- A step that succeeds where all is clean keeps all bindings on record true. -/
theorem act_held (built : a.Built) (once : a.BindsOnce)
    (stands : Stands ω container initial debris s) (before : Admitted ω container s)
    (clean : s.renderer.AllClean container s.tried) (succeeds : (s.act container a).2 = none)
    (held : CellsHeld container s) : CellsHeld container (s.act container a).1 := by
  cases a with
  | render v =>
    have pinned := Renderer.render_pins v container s.renderer s.host succeeds
    refine pinned.held ?_ held
    have refs := render_refs built stands before clean succeeds
    exact refs ▸ once
  | unmount =>
    have left : Patched.LeavesCells s.host.cells [] (s.renderer.unmount container s.host)
      fun r => r.1.pins container := Renderer.unmount_leavesCells
    exact fun p hp => absurd ((left succeeds).2 hp) (by simp)
  | clearCache => exact held

/-- After a render that succeeds where all is clean and all bindings held, the cells that the
value binds point at what is shown for it. -/
theorem render_points (built : v.Built) (once : v.refs.Nodup)
    (stands : Stands ω container initial debris s) (before : Admitted ω container s)
    (clean : s.renderer.AllClean container s.tried)
    (succeeds : (s.act container (.render v)).2 = none) (held : CellsHeld container s) :
    let s' := (s.act container (.render v)).1
    ∃ forest, Block s'.host.document container initial (debris ++ forest) [] ∧
      TablePoints s'.host.cells v.parts.1 v.parts.2 forest ∧
      ∀ c ∈ v.refs, ∃ n, Entries.get? c s'.host.cells = some n ∧
        s'.host.document.Below container n := by
  intro s'
  have held' : CellsHeld container s' := act_held built once stands before clean succeeds held
  have refs := render_refs built stands before clean succeeds
  obtain ⟨m, hm, shared, same, stands', clean'⟩ :=
    render_mounted built stands before clean succeeds
  rw [CellsHeld, Renderer.pins_of_mounted hm] at held'
  rw [Renderer.pins_of_mounted hm] at refs
  obtain ⟨forest, b, points, below⟩ := stands'.points clean' same held'
  refine ⟨forest, b, shared ▸ points, fun c hc => ?_⟩
  rw [← refs, List.mem_map] at hc
  obtain ⟨p, hp, rfl⟩ := hc
  exact ⟨p.2, held' p hp, below p hp⟩

/-- All bindings on record hold after any actions that have succeeded. -/
theorem run_held (actions : List Action) (built : ∀ a ∈ actions, a.Built)
    (once : ∀ a ∈ actions, a.BindsOnce) (stands : Stands ω container initial debris s)
    (admitted : ∀ t ∈ visits container actions s, Admitted ω container t)
    (clean : s.renderer.AllClean container s.tried) (succeeds : Succeeds container actions s)
    (held : CellsHeld container s) : CellsHeld container (run container actions s) := by
  induction actions generalizing s with
  | nil => exact held
  | cons a rest ih =>
    have first := admitted s (self_mem_visits ..)
    have builtFirst := built a (List.mem_cons_self ..)
    obtain ⟨next, clean'⟩ := act_clean builtFirst stands first clean succeeds.1
    have held' := act_held builtFirst (once a (List.mem_cons_self ..)) stands first clean
      succeeds.1 held
    exact ih (fun b hb => built b (List.mem_cons_of_mem _ hb))
      (fun b hb => once b (List.mem_cons_of_mem _ hb)) next
      (fun t ht => admitted t (List.mem_cons_of_mem _ ht)) clean' succeeds.2 held'

/-- After renders into one container that have all succeeded, with whatever unmounted in
between, each cell that is bound in the value rendered last holds the element by which it is
bound, and this element is below the container. -/
theorem run_points {start : Session} (new : start.New) (edited : Edited start.host.document)
    (isContainer : start.host.document.isContainer container = true) (actions : List Action)
    (built : ∀ a ∈ actions ++ [.render v], a.Built)
    (once : ∀ a ∈ actions ++ [.render v], a.BindsOnce)
    (succeeds : Succeeds container (actions ++ [.render v]) start) :
    let final := run container (actions ++ [.render v]) start
    ∃ forest,
      Block final.host.document container (start.host.document.children container) forest [] ∧
      TablePoints final.host.cells v.parts.1 v.parts.2 forest ∧
      ∀ c ∈ v.refs, ∃ n, Entries.get? c final.host.cells = some n ∧
        final.host.document.Below container n := by
  intro final
  -- nothing is looked at, so every route may be taken
  have one : OneRoute (fun _ => false) container
      (visits container (actions ++ [.render v]) start) := fun _ _ h => by simp at h
  have admitted : ∀ t ∈ visits container actions start, Admitted (watch one) container t :=
    fun t ht => admitted_of_mem one (visits_prefix_subset _ _ ht)
  have earlier : ∀ a ∈ actions, a ∈ actions ++ [.render v] := fun a ha => List.mem_append_left _ ha
  have last : Action.render v ∈ actions ++ [.render v] := by simp
  have standsFirst := new.stands (watch one) edited isContainer
  have heldFirst : CellsHeld container start := by
    rw [CellsHeld, Renderer.pins_of_none new.mounted?]
    simp [Held]
  obtain ⟨succeeds₁, succeeds₂, -⟩ := succeeds_append.1 succeeds
  obtain ⟨stands, clean⟩ := run_clean actions (fun a ha => built a (earlier a ha)) standsFirst
    admitted new.clean succeeds₁
  have held := run_held actions (fun a ha => built a (earlier a ha))
    (fun a ha => once a (earlier a ha)) standsFirst admitted new.clean succeeds₁ heldFirst
  have hfinal : final = ((run container actions start).act container (.render v)).1 := run_snoc ..
  rw [hfinal]
  exact render_points (built _ last) (once _ last) stands (admitted _ (run_mem_visits ..)) clean
    succeeds₂ held

/-- The cell of the first row is an entry that is spread over the second one afterwards, and
the cell of the second one is bound in the first. -/
theorem run_points_rows :
    let list : SharedSkeleton := ⟨.parsed 0, ⟨[.element "ul" [] [.hole 0]], 1⟩⟩
    let row : SharedSkeleton := ⟨.parsed 1,
      ⟨[.element "li" [("ref", .hole 0), ("...", .hole 1)] []], 2⟩⟩
    let first := Value.template 0 list [.list 1
      [.template 2 row [.cell "a", .null], .template 3 row [.cell "b", .null]]]
    let second := Value.template 4 list [.list 5 [.template 6 row [.cell "b", .null],
      .template 7 row [.null, .attributes 8 [("ref", .cell "a")]]]]
    let final := run body [.render first, .render second] {}
    Succeeds body [.render first, .render second] {} ∧ second.refs = ["b", "a"] ∧
      (run body [.render first] {}).host.cells = [("a", 6), ("b", 10)] ∧
      final.host.cells = [("a", 10), ("b", 6)] ∧
      ∀ c ∈ second.refs, ∃ n, Entries.get? c final.host.cells = some n ∧
        final.host.document.Below body n := by
  intro list row first second final
  have made : list.Made ∧ row.Made :=
    ⟨.inr ⟨["<ul>", "</ul>"], by decide +kernel⟩,
      .inr ⟨["<li ref=", " ...", "></li>"], by decide +kernel⟩⟩
  have built : ∀ a ∈ [Action.render first] ++ [.render second], a.Built := by
    simp [first, second, Action.Built, Value.Built, Value.BuiltAll, Value.BuiltEntries, made]
    decide
  have once : ∀ a ∈ [Action.render first] ++ [.render second], a.BindsOnce := by
    have nodup : first.refs.Nodup ∧ second.refs.Nodup := by decide +kernel
    intro a ha
    rcases List.mem_pair.1 ha with rfl | rfl
    · exact nodup.1
    · exact nodup.2
  have succeeds : Succeeds body ([Action.render first] ++ [.render second]) {} := by
    refine ⟨?_, ?_, trivial⟩ <;> decide +kernel
  obtain ⟨forest, -, -, points⟩ := run_points ⟨rfl, rfl⟩ .empty
    (by rfl : Document.empty.isContainer body = true) [.render first] built once succeeds
  exact ⟨succeeds, by decide +kernel, by decide +kernel, by decide +kernel, points⟩

/-- Two rows bind the same cell. It holds the second one still when only the first one binds
it. -/
example :
    let list : SharedSkeleton := ⟨.parsed 0, ⟨[.element "ul" [] [.hole 0]], 1⟩⟩
    let row : SharedSkeleton := ⟨.parsed 1, ⟨[.element "li" [("ref", .hole 0)] []], 1⟩⟩
    let rows (handle : Nat) (second : Value) := Value.template handle list [.list (handle + 1)
      [.template (handle + 2) row [.cell "a"], .template (handle + 3) row [second]]]
    let actions : List Action := [.render (rows 0 (.cell "a")), .render (rows 4 .null)]
    Succeeds body actions {} ∧ (rows 4 .null).refs = ["a"] ∧
      (run body actions {}).host.document.innerMarkup body =
        "<ul><!----><li></li><!----><!----><li></li><!----><!----></ul>" ∧
      (run body actions {}).host.cells = [("a", 10)] := by
  intro list row rows actions
  refine ⟨⟨?_, ?_, trivial⟩, ?_, ?_, ?_⟩
  all_goals decide +kernel

end Session

end LiveTemplate
