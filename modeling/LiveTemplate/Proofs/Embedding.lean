import LiveTemplate.Proofs.GuardedPatches
import LiveTemplate.Proofs.Pointing

/-!
# Markup in place of children

An element is given markup through a hole, and the markup is that of a canonical forest which
a document prints as it is written. After renders into one container that have all succeeded,
the element has just this markup in it, whatever markup it showed before; and where the value
is written as a string, the markup stands between the tags of the element. What the template
has inside of the element is in neither of them.
-/
namespace LiveTemplate
open Document Subtree Live Patched

/-! ### Parts of what is written -/

namespace Markup

/-- One string stands somewhere in another one. -/
def HasPart (whole part : String) : Prop := ∃ left right, whole = left ++ part ++ right

namespace HasPart
variable {a b c : String}

theorem refl (a : String) : HasPart a a := ⟨"", "", by simp⟩

theorem empty (a : String) : HasPart a "" := ⟨a, "", by simp⟩

theorem inside (left right : String) (h : HasPart a b) : HasPart (left ++ a ++ right) b := by
  obtain ⟨l, r, rfl⟩ := h
  exact ⟨left ++ l, r ++ right, by simp [String.append_assoc]⟩

theorem trans (h : HasPart a b) (h' : HasPart b c) : HasPart a c := by
  obtain ⟨left, right, rfl⟩ := h
  exact h'.inside left right

end HasPart

variable {options : MarkupOptions} {values : List Value} {contentAt : Nat → String} {tag : String}
  {attrs : Attributes} {i : Nat}

/-- The children of an element are written inside of it unless it is given markup. -/
theorem hasPart_children (open_ : markupSource? attrs = none) (children : List Node) :
    HasPart (node options values contentAt (.element tag attrs children))
      (nodes options values contentAt children) := by
  have inner : inner? values attrs = none := by rw [inner?, open_]
  cases children with
  | nil => exact .empty _
  | cons n rest =>
    refine ⟨"<" ++ tag ++ attributes options values attrs ++ ">", closingTag tag, ?_⟩
    simp [node, inner, open_, String.append_assoc]

/-- Markup that is given through a hole is written between the tags. -/
theorem node_of_source (source : markupSource? attrs = some (.hole i))
    (given : valueAt values i ≠ .null) (children : List Node) :
    node options values contentAt (.element tag attrs children) =
      "<" ++ tag ++ attributes options values attrs ++ ">" ++ (valueAt values i).toText ++
        closingTag tag := by
  have inner : inner? values attrs = some (valueAt values i).toText := by
    simp only [inner?, source, Value.isNull_iff, if_neg given]
  simp [node, inner, String.append_assoc]

theorem contentAt_eq (options : MarkupOptions) (values : List Value) (i : Nat) :
    Markup.contentAt options values i = content options (valueAt values i) := by
  induction values generalizing i with
  | nil => simp [Markup.contentAt, valueAt, content]
  | cons v rest ih =>
    cases i with
    | zero => simp [Markup.contentAt, valueAt]
    | succ i =>
      rw [Markup.contentAt, ih]
      simp [valueAt]

end Markup

namespace Stem
open Markup
variable {options : MarkupOptions} {values : List Value} {contentAt : Nat → String}

mutual
theorem node_parts : (s : Stem) → s.Proper →
    (∀ e ∈ s.elements, ∃ children, HasPart (Markup.node options values contentAt s.node)
      (Markup.node options values contentAt (.element e.2.1 e.2.2 children))) ∧
    ∀ m ∈ s.markers, HasPart (Markup.node options values contentAt s.node) (contentAt m.2)
  | .element id tag attrs children, proper => by
      obtain ⟨elements, markers⟩ := nodes_parts children proper.2
      have below : HasPart
          (Markup.node options values contentAt (.element tag attrs (nodes children)))
          (Markup.nodes options values contentAt (nodes children)) :=
        hasPart_children proper.1 _
      refine ⟨fun e he => ?_, fun m hm => below.trans (markers m hm)⟩
      rcases List.mem_cons.1 he with rfl | he
      · exact ⟨_, .refl _⟩
      · obtain ⟨kids, part⟩ := elements e he
        exact ⟨kids, below.trans part⟩
  | .host id tag attrs hidden, _ => by
      refine ⟨fun e he => ?_, fun m hm => by simp [Stem.markers] at hm⟩
      obtain rfl := List.mem_singleton.1 he
      exact ⟨hidden, .refl _⟩
  | .text .., _ => by simp [Stem.elements, Stem.markers]
  | .hole marker index, _ => by
      refine ⟨fun e he => by simp [Stem.elements] at he, fun m hm => ?_⟩
      obtain rfl := List.mem_singleton.1 hm
      exact .refl _
termination_by structural s => s

/-- The elements that were mounted are written, and so is the content of each hole. -/
theorem nodes_parts : (ss : List Stem) → ProperAll ss →
    (∀ e ∈ elementsAll ss, ∃ children, HasPart (Markup.nodes options values contentAt (nodes ss))
      (Markup.node options values contentAt (.element e.2.1 e.2.2 children))) ∧
    ∀ m ∈ markersAll ss, HasPart (Markup.nodes options values contentAt (nodes ss)) (contentAt m.2)
  | [], _ => by simp [elementsAll, markersAll]
  | s :: rest, proper => by
      obtain ⟨elements, markers⟩ := node_parts s proper.1
      obtain ⟨elements', markers'⟩ := nodes_parts rest proper.2
      have first : ∀ part, HasPart (Markup.node options values contentAt s.node) part →
          HasPart (Markup.nodes options values contentAt (nodes (s :: rest))) part := by
        intro part h
        have := h.inside "" (Markup.nodes options values contentAt (nodes rest))
        rwa [String.empty_append] at this
      have later : ∀ part, HasPart (Markup.nodes options values contentAt (nodes rest)) part →
          HasPart (Markup.nodes options values contentAt (nodes (s :: rest))) part := by
        intro part h
        have := h.inside (Markup.node options values contentAt s.node) ""
        rwa [String.append_empty] at this
      refine ⟨fun e he => ?_, fun m hm => ?_⟩
      · rcases List.mem_append.1 he with he | he
        · obtain ⟨kids, part⟩ := elements e he
          exact ⟨kids, first _ part⟩
        · obtain ⟨kids, part⟩ := elements' e he
          exact ⟨kids, later _ part⟩
      · rcases List.mem_append.1 hm with hm | hm
        · exact first _ (markers m hm)
        · exact later _ (markers' m hm)
termination_by structural ss => ss
end

end Stem

/-! ### What is shown for a value, and what stands in its hosts -/

/-- Markup that is given to an element through a hole. -/
def MarkupOf (values : List Value) (attrs : Attributes) (v : Value) : Prop :=
  ∃ i, markupSource? attrs = some (.hole i) ∧ Markup.valueAt values i = v ∧ v ≠ .null

mutual
/-- The forest is shown for the value, and every element of it that is given markup through a
hole has just this markup in it. -/
inductive Embeds (d : Document) : Value → List Subtree → Prop
  | blank {v : Value} (blank : v.Blank) : Embeds d v []
  | text {v : Value} (n : NodeId) (scalar : v.Scalar) : Embeds d v [.node n (.text v.toText) []]
  | template {handle : Nat} {shared : SharedSkeleton} {values : List Value} {f : List Subtree}
      (start stop : NodeId) (table : TableEmbeds d shared values f) :
      Embeds d (.template handle shared values)
        (.node start .marker [] :: f ++ [.node stop .marker []])
  | list {handle : Nat} {values : List Value} {f : List Subtree}
      (items : ItemsEmbed d values f) : Embeds d (.list handle values) f

/-- The elements of a skeleton, with what the values show at its markers. Where the skeleton is
written with the values, the same markup stands between the tags of the element. -/
inductive TableEmbeds (d : Document) : SharedSkeleton → List Value → List Subtree → Prop
  | mk {shared : SharedSkeleton} {values : List Value} {ss : List Stem}
      {data : NodeId → ElementData} {fill : NodeId → List Subtree}
      (nodes : Stem.nodes ss = shared.nodes) (proper : Stem.ProperAll ss)
      (tag : ∀ e ∈ Stem.elementsAll ss, (data e.1).tag = Text.lower e.2.1)
      (live : ∀ e ∈ Stem.elementsAll ss, ∀ v, MarkupOf values e.2.2 v → IsEchoed v.toText →
        d.innerMarkup e.1 = v.toText)
      (written : ∀ e ∈ Stem.elementsAll ss, ∀ v, MarkupOf values e.2.2 v →
        ∀ options, Markup.HasPart (Markup.filled options values shared.skeleton)
          ("<" ++ e.2.1 ++ Markup.attributes options values e.2.2 ++ ">" ++ v.toText ++
            Markup.closingTag e.2.1))
      (contents : ∀ m ∈ Stem.markersAll ss, Embeds d (Markup.valueAt values m.2) (fill m.1))
      (beside : ∀ m ∈ Stem.markersAll ss,
        ∀ options, Markup.HasPart (Markup.filled options values shared.skeleton)
          (Markup.content options (Markup.valueAt values m.2))) :
      TableEmbeds d shared values (Stem.assembleAll data fill ss)

inductive ItemsEmbed (d : Document) : List Value → List Subtree → Prop
  | nil : ItemsEmbed d [] []
  | cons {v : Value} {rest : List Value} {f g : List Subtree} (head : Embeds d v f)
      (tail : ItemsEmbed d rest g) : ItemsEmbed d (v :: rest) (f ++ g)
end

/-- All hosts on record give back the markup of their values. -/
def HostsShow (d : Document) (marks : List Mark) : Prop :=
  ∀ n v, (n, some v) ∈ marks → v ≠ .null → IsEchoed v.toText → d.innerMarkup n = v.toText

section
variable {d : Document} {marks marks' : List Mark}

theorem HostsShow.mono (h : HostsShow d marks) (sub : marks' ⊆ marks) : HostsShow d marks' :=
  fun n v hv => h n v (sub hv)

theorem Guarded.hostsShow (g : Guarded d marks) : HostsShow d marks := by
  intro n v hv ne echoed
  obtain ⟨kids, s, filled, -⟩ := g.host n v hv
  exact s.innerMarkup.trans (filled ne echoed)

variable {ω : Watch} {clean : Nat → Prop} {kept : NodeId → Target → Prop}
  {shared : SharedSkeleton} {ss : List Stem} {data : NodeId → ElementData}
  {fill : NodeId → List Subtree} {places : List Place} {values : List Value}

theorem TableFits.embeds (t : TableFits ω clean kept shared ss data fill places)
    (same : Places.Match places values) (shown : HostsShow d (marksAt places))
    (contents : ∀ (i : Nat) (marker : NodeId) (item : Item),
      places[i]? = some (.content marker item) → HostsShow d item.content.marks →
      ∀ v, item.shown.Alike v → Embeds d v (fill marker)) :
    TableEmbeds d shared values (Stem.assembleAll data fill ss) := by
  have parts : ∀ options,
      (∀ e ∈ Stem.elementsAll ss, ∃ children,
        Markup.HasPart (Markup.filled options values shared.skeleton)
          (Markup.node options values (Markup.contentAt options values)
            (.element e.2.1 e.2.2 children))) ∧
      ∀ m ∈ Stem.markersAll ss, Markup.HasPart (Markup.filled options values shared.skeleton)
        (Markup.contentAt options values m.2) := by
    intro options
    rw [Markup.filled, show shared.skeleton.nodes = Stem.nodes ss from t.seated.nodes.symm]
    exact Stem.nodes_parts ss t.seated.proper
  refine .mk t.seated.nodes t.seated.proper t.tag (fun e he v hv echoed => ?_)
    (fun e he v hv options => ?_) (fun m hm => ?_) fun m hm options => ?_
  · obtain ⟨i, source, rfl, ne⟩ := hv
    have bound := (boundTo_markup (t.seated.attrs_proper he).1).2 source
    obtain ⟨v, hv⟩ := t.seated.place_of_element he bound
    have alike := same i _ hv v rfl
    rw [← alike.toText] at echoed ⊢
    refine shown e.1 v (mem_marksAt.2 ⟨i, _, hv, ?_⟩) (mt alike.null_iff.1 ne) echoed
    simp [Place.marks]
  · obtain ⟨i, source, rfl, ne⟩ := hv
    obtain ⟨children, part⟩ := (parts options).1 e he
    rwa [Markup.node_of_source source ne] at part
  · obtain ⟨item, hi⟩ := t.seated.place_of_marker hm
    refine contents m.2 m.1 item hi (shown.mono fun k hk => ?_) _ (same m.2 _ hi item.shown rfl)
    refine mem_marksAt.2 ⟨m.2, _, hi, List.mem_cons_of_mem _ ?_⟩
    rwa [item.marks_eq]
  · have part := (parts options).2 m hm
    rwa [Markup.contentAt_eq] at part

mutual
/-- A faithful content shows its value, with the markup that the hosts on record show. -/
theorem Fits.embeds : {v : Value} → {c : Content} → {f : List Subtree} → Fits ω True v c f →
    HostsShow d c.marks → ∀ w, v.Alike w → Embeds d w f
  | _, _, _, .empty shows, _, w, alike => by
      obtain ⟨rfl, blank⟩ := shows trivial
      exact .blank (alike.blank blank)
  | _, _, _, .text _ _ shows, _, w, alike => by
      obtain ⟨rfl, rfl, scalar, rfl⟩ := shows trivial
      rw [alike.toText]
      exact .text _ (alike.scalar scalar)
  | _, .nested _ start stop _, _, .nested _ _ table contents shows, shown, w, alike => by
      obtain ⟨rfl, rfl, handle, values, rfl, same⟩ := shows trivial
      obtain rfl := alike.template
      rw [List.nil_append, List.append_nil]
      have inner := shown.mono (List.subset_cons_self ..)
      exact .template start stop (table.embeds same inner fun i marker item hi shown v alike =>
        (contents i marker item hi).embeds shown v alike)
  | _, .list items, _, .list fits shows, shown, w, alike => by
      obtain ⟨handle, vs, rfl, same⟩ := shows trivial
      obtain rfl := alike.list
      exact .list (fits.embeds shown vs same)

theorem FitsItems.embeds : {items : List Item} → {f : List Subtree} →
    FitsItems ω True items f → HostsShow d (marksOf items) →
    ∀ vs, List.Forall₂ Value.Alike (items.map Item.shown) vs → ItemsEmbed d vs f
  | _, _, .nil shows, _, _, .nil => by
      rw [shows trivial]
      exact .nil
  | item :: _, _, .cons _ _ head tail, shown, _, .cons alike others => by
      rw [marksOf, item.marks_eq] at shown
      exact .cons (head.embeds (shown.mono (List.subset_append_left ..)) _ alike)
        (tail.embeds (shown.mono (List.subset_append_right ..)) _ others)
end

end

/-! ### Renders -/

namespace Renderer
variable {ω : Watch} {container : NodeId} {initial : List NodeId} {debris : List Subtree}
  {tried : List (List Value)} {r : Renderer} {h : Host} {m : Mounted} {v : Value}
  {shared : SharedSkeleton} {values : List Value}

/-- The nodes that are on record in a container. -/
def marks (container : NodeId) (r : Renderer) : List Mark :=
  match r.mounted? container with
  | none => []
  | some m => marksAt m.places

theorem marks_of_none (hm : r.mounted? container = none) : r.marks container = [] := by
  rw [marks, hm]

theorem marks_of_mounted (hm : r.mounted? container = some m) :
    r.marks container = marksAt m.places := by
  rw [marks, hm]

theorem settle_guarded (made : shared.Made) (hm : r.mounted? container = none)
    (c : h.document.Consistent) (isContainer : h.document.isContainer container = true)
    (hf : (r.settle shared container h).failure = none) :
    Guarded (r.settle shared container h).host.document
      ((r.settle shared container h).state.marks container) := by
  have known : (container : Nat) < h.document.nodes.size := (c.block isContainer).parent_lt
  have alone : Guarded h.document [(container, none)] :=
    (Guarded.nil c).cons known fun _ _ _ hv => by simp at hv
  rw [settle, hm] at hf ⊢
  obtain ⟨⟨tops, places⟩, h', run, eq⟩ := exists_of_attempt hf
  dsimp only
  rw [eq, marks_of_mounted (mounted?_put _)]
  have mounted := mount_guarded made alone (List.mem_singleton_self _) (by simp [hostsIn])
    isContainer run
  exact mounted.sublist (List.sublist_append_left ..)

theorem patchMounted_guarded (built : Value.BuiltAll values)
    (g : Guarded h.document (r.marks container))
    (hf : (r.patchMounted values container h).failure = none) :
    Guarded (r.patchMounted values container h).host.document
      ((r.patchMounted values container h).state.marks container) := by
  unfold patchMounted at hf ⊢
  split at hf
  · exact g
  next m hm =>
    have patched := patchPlaces_guards values built [] m.places h hf
    rw [marks_of_mounted hm, ← List.append_nil (marksAt m.places)] at g
    rw [map, marks_of_mounted (mounted?_put _)]
    simpa using patched g

/-- Where nothing is mounted, a skeleton is mounted and filled with values. -/
theorem fill_guarded (made : shared.Made) (built : Value.BuiltAll values)
    (hm : r.mounted? container = none) (c : h.document.Consistent)
    (isContainer : h.document.isContainer container = true)
    (hf : ((r.settle shared container h).andThen (patchMounted values container) id).failure =
      none) :
    let filled := (r.settle shared container h).andThen (patchMounted values container) id
    Guarded filled.host.document (filled.state.marks container) := by
  intro filled
  obtain ⟨first, eq⟩ := andThen_of_none hf
  rw [eq] at hf
  have settled := settle_guarded made hm c isContainer first
  simpa only [filled, eq] using patchMounted_guarded built settled hf

/-- When another skeleton is to be mounted, nothing is mounted in the container any more. -/
theorem makeRoom_clears (s : r.Stands ω container initial debris tried h)
    (other : ¬∃ m, r.mounted? container = some m ∧ m.shared = shared)
    (room : (r.makeRoom shared container h).failure = none) :
    (r.makeRoom shared container h).state.mounted? container = none ∧
      (r.makeRoom shared container h).host.document.isContainer container = true := by
  rw [Stands] at s
  unfold makeRoom at room ⊢
  cases hm : r.mounted? container with
  | none =>
    rw [hm] at s
    exact ⟨hm, s.container⟩
  | some m =>
    rw [hm] at s
    simp only [hm, if_neg fun same => other ⟨m, hm, same⟩] at room ⊢
    obtain ⟨hr, _, b, -⟩ := (unmount_ends hm s).of_none room
    refine ⟨?_, b.container⟩
    rw [map, hr]
    exact mounted?_forget

/-- A render that succeeds where all hosts are guarded leaves all of them guarded. -/
theorem render_guarded (built : v.Built) (s : r.Stands ω container initial debris tried h)
    (g : Guarded h.document (r.marks container))
    (hf : (r.render v container h).failure = none) :
    Guarded (r.render v container h).host.document
      ((r.render v container h).state.marks container) := by
  obtain ⟨made, -, builtAll⟩ := parts_built built
  by_cases shown : ∃ m, r.mounted? container = some m ∧ m.shared = v.parts.1
  · obtain ⟨m, hm, same⟩ := shown
    rw [render_of_shared hm same] at hf ⊢
    exact patchMounted_guarded builtAll g hf
  · rw [render_eq] at hf ⊢
    obtain ⟨room, eq⟩ := andThen_of_none hf
    rw [eq] at hf ⊢
    have traces : Patched.Traces 0 (r.makeRoom v.parts.1 container) :=
      makeRoom_traces _ _ _
    have c := (traces h (Nat.zero_le _)).consistent g.consistent
    obtain ⟨empty, isContainer⟩ := makeRoom_clears s shown room
    exact fill_guarded made builtAll empty c isContainer hf

end Renderer

/-- A clean table whose hosts show their markup embeds it in what it has put into the container. -/
theorem Mounted.Stands.embeds {ω : Watch} {container : NodeId} {initial : List NodeId}
    {debris : List Subtree} {tried : List (List Value)} {m : Mounted} {h : Host}
    {values : List Value} (s : m.Stands ω container initial debris tried h)
    (clean : ∀ i, Clean m.places tried i) (same : Places.Match m.places values)
    (shown : HostsShow h.document (marksAt m.places)) :
    ∃ forest, Block h.document container initial (debris ++ forest) [] ∧
      TableEmbeds h.document m.shared values forest := by
  obtain ⟨ss, data, fill, b, -, t, contents⟩ := s
  refine ⟨_, b, t.embeds same shown fun i marker item hi shown v alike => ?_⟩
  exact ((contents i marker item hi).mono fun _ => clean i).embeds shown v alike

namespace Session
variable {ω : Watch} {container : NodeId} {initial : List NodeId} {debris : List Subtree}
  {s : Session} {a : Action} {v : Value}

/-- All hosts that are on record in the container are guarded. -/
def HostsGuarded (container : NodeId) (s : Session) : Prop :=
  Guarded s.host.document (s.renderer.marks container)

/-- A step that succeeds keeps all hosts guarded. -/
theorem act_guarded (built : a.Built) (stands : Stands ω container initial debris s)
    (succeeds : (s.act container a).2 = none) (guarded : HostsGuarded container s) :
    HostsGuarded container (s.act container a).1 := by
  cases a with
  | render v => exact Renderer.render_guarded built stands guarded succeeds
  | unmount =>
    obtain ⟨hm, -⟩ := (unmount_ends stands).of_none succeeds
    have traces : Patched.Traces 0 (s.renderer.unmount container) :=
      Renderer.unmount_traces _ _
    have c := (traces s.host (Nat.zero_le _)).consistent guarded.consistent
    have none : (s.renderer.unmount container s.host).state.1.marks container = [] :=
      Renderer.marks_of_none hm
    show Guarded _ ((s.renderer.unmount container s.host).state.1.marks container)
    rw [none]
    exact .nil c
  | clearCache => exact guarded

/-- All hosts are guarded after any actions that have succeeded. -/
theorem run_guarded (actions : List Action) (built : ∀ a ∈ actions, a.Built)
    (stands : Stands ω container initial debris s)
    (admitted : ∀ t ∈ visits container actions s, Admitted ω container t)
    (clean : s.renderer.AllClean container s.tried) (succeeds : Succeeds container actions s)
    (guarded : HostsGuarded container s) : HostsGuarded container (run container actions s) := by
  induction actions generalizing s with
  | nil => exact guarded
  | cons a rest ih =>
    have builtFirst := built a (List.mem_cons_self ..)
    obtain ⟨next, clean'⟩ := act_clean builtFirst stands (admitted s (self_mem_visits ..)) clean
      succeeds.1
    exact ih (fun b hb => built b (List.mem_cons_of_mem _ hb)) next
      (fun t ht => admitted t (List.mem_cons_of_mem _ ht)) clean' succeeds.2
      (act_guarded builtFirst stands succeeds.1 guarded)

/-- After renders into one container that have all succeeded, with whatever unmounted in
between, every element that is given canonical markup by the value rendered last has this
markup in it, and the markup stands between its tags where the value is written. -/
theorem run_embeds {start : Session} (new : start.New)
    (consistent : start.host.document.Consistent)
    (isContainer : start.host.document.isContainer container = true) (actions : List Action)
    (built : ∀ a ∈ actions ++ [.render v], a.Built)
    (succeeds : Succeeds container (actions ++ [.render v]) start) :
    let final := run container (actions ++ [.render v]) start
    ∃ forest,
      Block final.host.document container (start.host.document.children container) forest [] ∧
      TableEmbeds final.host.document v.parts.1 v.parts.2 forest := by
  intro final
  -- nothing is looked at, so every route may be taken
  have one : OneRoute (fun _ => false) container
      (visits container (actions ++ [.render v]) start) := fun _ _ h => by simp at h
  have admitted : ∀ t ∈ visits container actions start, Admitted (watch one) container t :=
    fun t ht => admitted_of_mem one (visits_prefix_subset _ _ ht)
  have earlier : ∀ a ∈ actions, a.Built := fun a ha => built a (List.mem_append_left _ ha)
  have last : v.Built := built (.render v) (by simp)
  have standsFirst : Stands (watch one) container (start.host.document.children container) []
      start := by
    rw [Stands, Renderer.Stands, new.mounted?]
    exact consistent.block isContainer
  have guardedFirst : HostsGuarded container start := by
    rw [HostsGuarded, Renderer.marks_of_none new.mounted?]
    exact .nil consistent
  obtain ⟨succeeds₁, succeeds₂, -⟩ := succeeds_append.1 succeeds
  obtain ⟨stands, clean⟩ := run_clean actions earlier standsFirst admitted new.clean succeeds₁
  have guarded := run_guarded actions earlier standsFirst admitted new.clean succeeds₁ guardedFirst
  have guarded' := act_guarded (a := .render v) last stands succeeds₂ guarded
  obtain ⟨m, hm, shared, same, stands', clean'⟩ :=
    render_mounted last stands (admitted _ (run_mem_visits ..)) clean succeeds₂
  have hfinal : final = ((run container actions start).act container (.render v)).1 := run_snoc ..
  rw [HostsGuarded, Renderer.marks_of_mounted hm] at guarded'
  rw [hfinal, ← shared]
  exact stands'.embeds clean' same guarded'.hostsShow

/-- The host of a row shows other markup when the list is rendered again. The text and the hole
that the row has inside of the host show nothing. -/
theorem run_embeds_row :
    let list : SharedSkeleton := ⟨.parsed 0, ⟨[.element "ul" [] [.hole 0]], 1⟩⟩
    let row : SharedSkeleton := ⟨.parsed 1,
      ⟨[.element "li" [("unsafe-html", .hole 0)] [.text "static", .hole 1]], 2⟩⟩
    let rows (handle : Nat) (markup : String) := Value.template handle list [.list (handle + 1)
      [.template (handle + 2) row [.text markup, .text "hidden"]]]
    let actions : List Action := [.render (rows 0 "<i>a</i>"), .render (rows 3 "b<b>c</b>")]
    let final := run body actions {}
    Succeeds body actions {} ∧ IsEchoed "b<b>c</b>" ∧
      final.host.document.innerMarkup 6 = "b<b>c</b>" ∧
      final.host.document.innerMarkup body =
        "<ul><!----><li>b<b>c</b></li><!----><!----></ul>" ∧
      Markup.content {} (rows 3 "b<b>c</b>") = "<ul><li>b<b>c</b></li></ul>" ∧
      ∃ forest, Block final.host.document body [] forest [] ∧
        TableEmbeds final.host.document list (rows 3 "b<b>c</b>").parts.2 forest := by
  intro list row rows actions final
  have made : list.Made ∧ row.Made :=
    ⟨.inr ⟨["<ul>", "</ul>"], by decide +kernel⟩,
      .inr ⟨["<li unsafe-html=", ">static", "</li>"], by decide +kernel⟩⟩
  have built : ∀ a ∈ [Action.render (rows 0 "<i>a</i>")] ++ [.render (rows 3 "b<b>c</b>")],
      a.Built := by
    simp [rows, Action.Built, Value.Built, Value.BuiltAll, made]
    decide
  have succeeds : Succeeds body actions {} := by
    refine ⟨?_, ?_, trivial⟩ <;> decide +kernel
  have echoed : IsEchoed "b<b>c</b>" :=
    ⟨[.text "b", .element "b" [] [.text "c"]], by decide, by decide, by decide +kernel⟩
  exact ⟨succeeds, echoed, by decide +kernel, by decide +kernel, by decide +kernel,
    run_embeds ⟨rfl, rfl⟩ consistent_empty (by rfl : Document.empty.isContainer body = true)
      [.render (rows 0 "<i>a</i>")] built succeeds⟩

/-- The markup that a host showed before a failure is taken for shown when it is rendered again,
but it has been removed in between. -/
theorem markup_lost :
    let host : SharedSkeleton := ⟨.parsed 0, ⟨[.element "div" [("unsafe-html", .hole 0)] []], 1⟩⟩
    let v (handle : Nat) (markup : String) := Value.template handle host [.text markup]
    let first := run body [.render (v 0 "a")] {}
    let failed := first.act body (.render (v 1 "<1b></1b>"))
    let again := failed.1.act body (.render (v 2 "a"))
    IsEchoed "a" ∧ first.host.document.innerMarkup 1 = "a" ∧
      failed.2 = some (.invalidTagName "1b") ∧ again.2 = none ∧
      again.1.host.document.innerMarkup 1 = "" ∧ Markup.content {} (v 2 "a") = "<div>a</div>" := by
  intro host v first failed again
  have echoed : IsEchoed "a" := ⟨[.text "a"], by decide, by decide, by decide +kernel⟩
  refine ⟨echoed, ?_, ?_, ?_, ?_, ?_⟩
  all_goals decide +kernel

end Session

end LiveTemplate
