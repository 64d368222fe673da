import LiveTemplate.Proofs.Stems

/-!
# Mounting

Mounting a skeleton at the end of a parent puts the nodes of a fresh stem there: its
elements have what their literals write, markup that is given as a literal fills its
host, and nothing stands in front of the markers. It fails exactly when a name of a tag
or of an attribute is not allowed, and then leaves some forest behind.
-/
namespace LiveTemplate
open Document Subtree

theorem Binding.ofName?_eq_markup {name : String} :
    ofName? name = some .markup ↔ name = markupName := by
  constructor
  · intro h
    unfold ofName? at h
    split at h <;> try contradiction
    split at h <;> try contradiction
    split at h <;> try contradiction
    split at h
    next hn => exact hn
    next =>
      unfold ofPlainName at h
      split at h <;> simp at h
  · rintro rfl
    decide

theorem wrote_markup (x : Target) (v : Value) (ks : List String) : wrote x .markup v ks = none := by
  cases ks <;> simp [wrote, Binding.effect]

namespace Live

variable {h : Host} {parent : NodeId} {before behind : List NodeId} {mid : List Subtree}

/-- A new node, put at the end of the parent. -/
theorem appendCreated {kind : NodeKind} (hk : kind ≠ .fragment)
    (b : Block h.document parent before mid []) {good : Unit → Host → Prop} {bad : Host → Prop}
    (next : ∀ h' : Host, Rewrites h.document h'.document parent before mid
      (mid ++ [.node h.document.nodes.size kind []]) [] → good () h') :
    Runs (Host.appendChild parent h.document.nodes.size)
      { h with document := (h.document.create kind).2 } good bad := by
  have w := (Rewrites.refl b).create b kind
  have hnot : h.document.nodes.size ∉ idsAll mid := fun hm =>
    absurd (b.holds.lt_size _ hm) (Nat.lt_irrefl _)
  have l : Loose (h.document.create kind).2 h.document.nodes.size
      [.node h.document.nodes.size kind []] := by
    refine .single ?_ hk trivial
    rw [record?_create, if_pos rfl]
    rfl
  obtain ⟨d₂, hok, hw, -⟩ := Rewrites.insert b w l (Nat.le_refl _) (by simp)
    (by
      intro n hn
      simp only [idsAll_cons, ids_node, idsAll_nil, List.append_nil, List.mem_singleton] at hn
      subst hn
      exact ⟨Nat.le_refl _, hnot⟩) hnot
  exact Runs.edit_ok hok (next _ hw)

/-- A step that changes only the data of an element rewrites its block. -/
theorem Edits.rewrites {m : HostM Unit} {good bad : ElementData → ElementData → Prop} {n : NodeId}
    {data : ElementData} {kids : List Subtree} (e : Edits n m good bad)
    (b : Block h.document parent before [.node n (.element data) kids] behind) :
    Runs m h
      (fun _ h' => ∃ data', Rewrites h.document h'.document parent before
        [.node n (.element data) kids] [.node n (.element data') kids] behind ∧ good data data')
      (fun h' => ∃ data', Rewrites h.document h'.document parent before
        [.node n (.element data) kids] [.node n (.element data') kids] behind ∧ bad data data') := by
  have hd : h.document.element? n = some data := element?_eq_some.2 ⟨_, b.holds.1.1, rfl⟩
  refine (e h data hd).mono ?_ ?_
  · rintro _ h' ⟨data', hdoc, hg⟩
    exact ⟨data', hdoc ▸ Rewrites.recast b, hg⟩
  · rintro h' ⟨data', hdoc, hb⟩
    exact ⟨data', hdoc ▸ Rewrites.recast b, hb⟩

/-- A way to put markup in place of these children of a node, with what the markup shows
then, and which markup can be shown. -/
def Fills (looked : Target → Bool) (fill : NodeId → String → HostM Unit)
    (shape : String → List Shape) (ok : String → Prop) (kids : List Subtree) : Prop :=
  ∀ (h : Host) (node : NodeId) (text : String), Block h.document node [] kids [] →
    Runs (fill node text) h
      (fun _ h' => ∃ kids', Rewrites h.document h'.document node [] kids kids' [] ∧
        shapes looked kids' = shape text ∧ ok text)
      (fun h' => ∃ kids', Rewrites h.document h'.document node [] kids kids' [] ∧ ¬ok text)

variable {looked : Target → Bool} {fill : NodeId → String → HostM Unit}
  {shape : String → List Shape} {ok : String → Prop}

/-- What stands in an element when its literals have been mounted. -/
def literalShapes (shape : String → List Shape) (attrs : Attributes) (old : List Shape) :
    List Shape :=
  match markupSource? attrs with
  | some (.literal text) => shape text
  | _ => old

theorem markupSource?_cons_of_ne {name : String} {value : AttrValue} {rest : Attributes}
    (h : name ≠ Binding.markupName) : markupSource? ((name, value) :: rest) = markupSource? rest := by
  simp [markupSource?, Entries.get?, h]

theorem markupSource?_of_notMem {attrs : Attributes} (h : Binding.markupName ∉ Entries.names attrs) :
    markupSource? attrs = none := Entries.get?_eq_none_iff.2 h

/-- Only markup that is given as a literal puts something into the element. -/
theorem literalShapes_of_ne {name : String} (h : name ≠ Binding.markupName) (value : AttrValue)
    (old : List Shape) : literalShapes shape [(name, value)] old = old := by
  rw [literalShapes, markupSource?_cons_of_ne h]
  rfl

theorem literalShapes_hole (name : String) (index : Nat) (old : List Shape) :
    literalShapes shape [(name, .hole index)] old = old := by
  by_cases h : name = Binding.markupName
  · simp [literalShapes, markupSource?, Entries.get?, h]
  · exact literalShapes_of_ne h _ old

theorem shapes_eq_nil {looked : Target → Bool} {f : List Subtree} (h : shapes looked f = []) : f = [] := by
  cases f with
  | nil => rfl
  | cons t rest => simp at h

/-- What mounting the attributes of an element comes to. -/
structure AttrsMounted (looked : Target → Bool) (shape : String → List Shape) (node : NodeId)
    (attrs : Attributes) (data data' : ElementData) (kids kids' : List Subtree)
    (places : List (Nat × Place)) : Prop where
  places : places = attrPlaces node attrs
  tag : data'.tag = data.tag
  reading : ∀ x, data'.reading x =
    (attrs.filterMap (literalWrite x)).getLast?.getD (data.reading x)
  kids : shapes looked kids' = literalShapes shape attrs (shapes looked kids)

theorem literalsAccepted_cons {a : String × AttrValue} {rest : Attributes} :
    Node.LiteralsAccepted ok (a :: rest) ↔
      Node.LiteralsAccepted ok [a] ∧ Node.LiteralsAccepted ok rest := by
  simp [Node.LiteralsAccepted]

theorem literalsAccepted_unnamed {name : String} {value : AttrValue}
    (unnamed : Binding.ofName? name = none) : Node.LiteralsAccepted ok [(name, value)] := by
  simp [Node.LiteralsAccepted, unnamed]

theorem literalsAccepted_hole (name : String) (index : Nat) :
    Node.LiteralsAccepted ok [(name, .hole index)] := by
  simp [Node.LiteralsAccepted]

theorem literalsAccepted_literal {name text : String} {c : Binding}
    (named : Binding.ofName? name = some c) :
    Node.LiteralsAccepted ok [(name, .literal text)] ↔
      if c = .markup then ok text else c.Accepts (.text text) := by
  simp [Node.LiteralsAccepted, named]

theorem AttrsMounted.cons {node : NodeId} {a : String × AttrValue} {rest : Attributes}
    {data data₁ data₂ : ElementData} {kids kids₁ kids₂ : List Subtree}
    {places places' : List (Nat × Place)}
    (first : AttrsMounted looked shape node [a] data data₁ kids kids₁ places)
    (others : AttrsMounted looked shape node rest data₁ data₂ kids₁ kids₂ places')
    (hn : a.1 ∉ Entries.names rest) :
    AttrsMounted looked shape node (a :: rest) data data₂ kids kids₂ (places ++ places') where
  places := by
    rw [first.places, others.places, attrPlaces, attrPlaces, attrPlaces, ← List.filterMap_append]
    rfl
  tag := by rw [others.tag, first.tag]
  reading x := by
    rw [others.reading, first.reading]
    cases hw : literalWrite x a <;> cases hl : (rest.filterMap (literalWrite x)).getLast? <;>
      simp [hw, List.getLast?_cons, hl]
  kids := by
    obtain ⟨name, value⟩ := a
    rw [others.kids]
    by_cases hname : name = Binding.markupName
    · subst hname
      have hrest := markupSource?_of_notMem hn
      have hfirst := first.kids
      simp only [literalShapes, hrest]
      cases value <;> simpa [literalShapes, markupSource?, Entries.get?] using hfirst
    · rw [literalShapes, literalShapes, markupSource?_cons_of_ne hname, first.kids,
        literalShapes_of_ne hname]

theorem AttrsMounted.nil (node : NodeId) (data : ElementData) (kids : List Subtree) :
    AttrsMounted looked shape node [] data data kids kids [] :=
  ⟨rfl, rfl, fun _ => rfl, rfl⟩

/-- Where there was nothing, an attribute that is no markup has put nothing. -/
theorem AttrsMounted.kids_eq_nil {node : NodeId} {a : String × AttrValue}
    {data data' : ElementData} {kids' : List Subtree} {places : List (Nat × Place)}
    (m : AttrsMounted looked shape node [a] data data' [] kids' places)
    (h : a.1 ≠ Binding.markupName) : kids' = [] :=
  shapes_eq_nil (m.kids.trans (literalShapes_of_ne h _ _))

/-! ### One attribute after the other -/

/-- What is done for one attribute. -/
def mountAttribute (fill : NodeId → String → HostM Unit) (node : NodeId) :
    String × AttrValue → HostM (List (Nat × Place))
  | (name, value) =>
      match Binding.ofName? name, value with
      | none, _ => pure []
      | some .markup, .literal s => do
          fill node s
          pure []
      | some binding, .literal s => do
          writeDirect node binding .null (.text s)
          pure []
      | some binding, .hole index => pure [(index, .attribute node binding .null)]

theorem mountAttributes_cons (node : NodeId) (a : String × AttrValue) (rest : Attributes) :
    mountAttributes fill node (a :: rest) =
      (do
        let first ← mountAttribute fill node a
        let others ← mountAttributes fill node rest
        pure (first ++ others)) := by
  obtain ⟨name, value⟩ := a
  simp only [mountAttributes, mountAttribute]
  cases Binding.ofName? name with
  | none => simp
  | some c => cases c <;> cases value <;> simp

/-- An element of a block that has become another one. -/
def Recast (h h' : Host) (parent : NodeId) (before behind : List NodeId) (node : NodeId)
    (data data' : ElementData) (kids kids' : List Subtree) : Prop :=
  Rewrites h.document h'.document parent before [.node node (.element data) kids]
    [.node node (.element data') kids'] behind

/-- What mounting attributes on an element of a block comes to. -/
def Adorns (looked : Target → Bool) (shape : String → List Shape) (ok : String → Prop)
    (attrs : Attributes) (h : Host) (parent : NodeId) (before behind : List NodeId) (node : NodeId)
    (data : ElementData) (kids : List Subtree) (places : List (Nat × Place)) (h' : Host) : Prop :=
  ∃ data' kids', Recast h h' parent before behind node data data' kids kids' ∧
    AttrsMounted looked shape node attrs data data' kids kids' places ∧
    Node.LiteralsAccepted ok attrs

/-- What failing to do so leaves. -/
def Spoils (ok : String → Prop) (attrs : Attributes) (h : Host) (parent : NodeId)
    (before behind : List NodeId) (node : NodeId) (data : ElementData) (kids : List Subtree)
    (h' : Host) : Prop :=
  ∃ data' kids', Recast h h' parent before behind node data data' kids kids' ∧
    ¬Node.LiteralsAccepted ok attrs

section
variable {node : NodeId} {data data₁ : ElementData} {kids kids₁ : List Subtree} {h₁ h' : Host}
  {a : String × AttrValue} {rest : Attributes} {places places' : List (Nat × Place)}

theorem Adorns.cons (w : Recast h h₁ parent before behind node data data₁ kids kids₁)
    (first : AttrsMounted looked shape node [a] data data₁ kids kids₁ places)
    (accepted : Node.LiteralsAccepted ok [a]) (hn : a.1 ∉ Entries.names rest)
    (others : Adorns looked shape ok rest h₁ parent before behind node data₁ kids₁ places' h') :
    Adorns looked shape ok (a :: rest) h parent before behind node data kids (places ++ places')
      h' := by
  obtain ⟨data₂, kids₂, w₂, mounted, hok⟩ := others
  exact ⟨data₂, kids₂, w.trans w₂, first.cons mounted hn, literalsAccepted_cons.2 ⟨accepted, hok⟩⟩

theorem Spoils.cons (w : Recast h h₁ parent before behind node data data₁ kids kids₁)
    (others : Spoils ok rest h₁ parent before behind node data₁ kids₁ h') :
    Spoils ok (a :: rest) h parent before behind node data kids h' := by
  obtain ⟨data₂, kids₂, w₂, refused⟩ := others
  exact ⟨data₂, kids₂, w.trans w₂, fun h => refused (literalsAccepted_cons.1 h).2⟩

theorem Spoils.first (spoils : Spoils ok [a] h parent before behind node data kids h') :
    Spoils ok (a :: rest) h parent before behind node data kids h' := by
  obtain ⟨data₁, kids₁, w, refused⟩ := spoils
  exact ⟨data₁, kids₁, w, fun h => refused (literalsAccepted_cons.1 h).1⟩

/-- An attribute that writes nothing leaves the element as it is. -/
theorem Adorns.still (b : Block h.document parent before [.node node (.element data) kids] behind)
    (unwritten : ∀ x, literalWrite x a = none)
    (unfilled : ∀ old, literalShapes shape [a] old = old) (accepted : Node.LiteralsAccepted ok [a]) :
    Adorns looked shape ok [a] h parent before behind node data kids (attrPlaces node [a]) h :=
  ⟨data, kids, Rewrites.refl b, ⟨rfl, rfl, fun x => by simp [unwritten x], (unfilled _).symm⟩,
    accepted⟩

/-- Markup fills its element, which has been empty. -/
theorem mountAttribute_markup (fills : Fills looked fill shape ok []) (text : String)
    (b : Block h.document parent before [.node node (.element data) []] behind) :
    Runs (mountAttribute fill node (Binding.markupName, .literal text)) h
      (Adorns looked shape ok [(Binding.markupName, .literal text)] h parent before behind node
        data [])
      (Spoils ok [(Binding.markupName, .literal text)] h parent before behind node data []) := by
  have named := Binding.ofName?_eq_markup.2 rfl
  have accepted : Node.LiteralsAccepted ok [(Binding.markupName, .literal text)] ↔ ok text := by
    rw [literalsAccepted_literal named, if_pos rfl]
  simp only [mountAttribute, named]
  rw [Runs.bind]
  refine (fills h node text (b.inside (Stem.container_of_element b))).mono ?_ ?_
  · rintro _ h₁ ⟨kids₁, w, hshape, hok⟩
    refine ⟨data, kids₁, w.inside b, ⟨rfl, rfl, fun x => ?_, ?_⟩, accepted.2 hok⟩
    · simp [literalWrite, named, wrote_markup]
    · simpa [literalShapes, markupSource?, Entries.get?] using hshape
  · rintro h₁ ⟨kids₁, w, hok⟩
    exact ⟨data, kids₁, w.inside b, fun h => hok (accepted.1 h)⟩

/-- Any other literal is written to the data of the element. -/
theorem mountAttribute_literal {name text : String} {c : Binding}
    (named : Binding.ofName? name = some c) (hc : c ≠ .markup)
    (b : Block h.document parent before [.node node (.element data) kids] behind) :
    Runs (mountAttribute fill node (name, .literal text)) h
      (Adorns looked shape ok [(name, .literal text)] h parent before behind node data kids)
      (Spoils ok [(name, .literal text)] h parent before behind node data kids) := by
  have hname : name ≠ Binding.markupName := fun h =>
    hc (Option.some.inj (named.symm.trans (Binding.ofName?_eq_markup.2 h)))
  have accepted : Node.LiteralsAccepted ok [(name, .literal text)] ↔ c.Accepts (.text text) := by
    rw [literalsAccepted_literal named, if_neg hc]
  simp only [mountAttribute, named]
  rw [Runs.bind]
  refine ((writeLiteral_reads node c text).rewrites b).mono ?_ ?_
  · rintro _ h₁ ⟨data₁, w, ⟨tag, reading⟩, hok⟩
    refine ⟨data₁, kids, w, ⟨rfl, tag, fun x => ?_, ?_⟩, accepted.2 hok⟩
    · rw [reading]
      cases hw : wrote x c (.text text) [] <;> simp [literalWrite, named, hw]
    · exact (literalShapes_of_ne hname _ _).symm
  · rintro h₁ ⟨data₁, w, -, hok⟩
    exact ⟨data₁, kids, w, fun h => hok (accepted.1 h)⟩

theorem mountAttribute_runs (fills : Fills looked fill shape ok []) (a : String × AttrValue)
    (b : Block h.document parent before [.node node (.element data) kids] behind)
    (empty : a.1 = Binding.markupName → kids = []) :
    Runs (mountAttribute fill node a) h
      (Adorns looked shape ok [a] h parent before behind node data kids)
      (Spoils ok [a] h parent before behind node data kids) := by
  obtain ⟨name, value⟩ := a
  cases named : Binding.ofName? name with
  | none =>
    have hname : name ≠ Binding.markupName := fun h => by
      rw [Binding.ofName?_eq_markup.2 h] at named
      contradiction
    have adorns : Adorns looked shape ok [(name, value)] h parent before behind node data kids
        (attrPlaces node [(name, value)]) h :=
      .still b (fun x => by cases value <;> simp [literalWrite, named])
        (literalShapes_of_ne hname value) (literalsAccepted_unnamed named)
    have places : attrPlaces node [(name, value)] = [] := by
      cases value <;> simp [attrPlaces, named]
    simpa only [mountAttribute, named, Runs.pure, places] using adorns
  | some c =>
    cases value with
    | hole index =>
      have adorns : Adorns looked shape ok [(name, .hole index)] h parent before behind node data
          kids (attrPlaces node [(name, .hole index)]) h :=
        .still b (fun _ => rfl) (literalShapes_hole name index) (literalsAccepted_hole name index)
      have places : attrPlaces node [(name, .hole index)] = [(index, .attribute node c .null)] := by
        simp [attrPlaces, named]
      simpa only [mountAttribute, named, Runs.pure, places] using adorns
    | literal text =>
      by_cases hc : c = .markup
      · subst hc
        obtain rfl := Binding.ofName?_eq_markup.1 named
        obtain rfl := empty rfl
        exact mountAttribute_markup fills text b
      · exact mountAttribute_literal named hc b

end

/-- The attributes are mounted one after the other. Only an element without children is
given markup. -/
theorem mountAttributes_runs (fills : Fills looked fill shape ok []) (node : NodeId) :
    ∀ (attrs : Attributes), (Entries.names attrs).Nodup →
    ∀ {h : Host} {parent : NodeId} {before behind : List NodeId} {data : ElementData}
      {kids : List Subtree},
    Block h.document parent before [.node node (.element data) kids] behind →
    (Binding.markupName ∈ Entries.names attrs → kids = []) →
    Runs (mountAttributes fill node attrs) h
      (Adorns looked shape ok attrs h parent before behind node data kids)
      (Spoils ok attrs h parent before behind node data kids)
  | [], _, h, parent, before, behind, data, kids, b, _ =>
      ⟨data, kids, Rewrites.refl b, .nil node data kids, by simp [Node.LiteralsAccepted]⟩
  | a :: rest, nodup, h, parent, before, behind, data, kids, b, empty => by
      obtain ⟨hn, nodup⟩ := List.nodup_cons.1 nodup
      rw [mountAttributes_cons, Runs.bind]
      refine (mountAttribute_runs fills a b fun ha => empty (by simp [Entries.names, ha])).mono ?_
        fun _ => .first
      rintro places h₁ ⟨data₁, kids₁, w, first, accepted⟩
      have empty₁ : Binding.markupName ∈ Entries.names rest → kids₁ = [] := fun hm => by
        have hname : a.1 ≠ Binding.markupName := fun ha => hn (ha ▸ hm)
        obtain rfl := empty (List.mem_cons_of_mem _ hm)
        exact first.kids_eq_nil hname
      rw [Runs.bind]
      exact (mountAttributes_runs fills node rest nodup (w.block b) empty₁).mono
        (fun _ _ => .cons w first accepted hn) fun _ => .cons w

/-- A stem as it stands right after it was mounted. -/
structure StemsMounted (looked : Target → Bool) (shape : String → List Shape)
    (nodes : List Node) (ss : List Stem) (data : NodeId → ElementData)
    (inner : NodeId → List Subtree) (tops : List NodeId) (places : List (Nat × Place)) : Prop where
  nodes : Stem.nodes ss = nodes
  proper : Stem.ProperAll ss
  tops : tops = ss.map Stem.top
  places : places = Stem.boundAll ss
  elements : ∀ e ∈ Stem.elementsAll ss, (data e.1).tag = Text.lower e.2.1 ∧
    ∀ x, (data e.1).reading x = lookLiteral x e.2.2
  hosts : ∀ e ∈ Stem.hostsAll ss, shapes looked (inner e.1) = literalShapes shape e.2 []
  markers : ∀ m ∈ Stem.markersAll ss, inner m.1 = []

/-- What is added behind a block is new. -/
theorem added_fresh {d d' : Document} {parent : NodeId}
    {before : List NodeId} (mid : List Subtree) {new : List Subtree}
    (w : Rewrites d d' parent before mid (mid ++ new) []) :
    ∀ n : Nat, n ∈ idsAll new → d.nodes.size ≤ n := by
  intro n hn
  have nodup := w.nodup
  rw [idsAll_append, List.nodup_append] at nodup
  rcases w.fresh n (by simp [hn]) with h | h
  · exact absurd rfl (nodup.2.2 n h n hn)
  · exact h

theorem StemsMounted.congr {nodes : List Node} {ss : List Stem}
    {data : NodeId → ElementData} {inner : NodeId → List Subtree}
    {tops : List NodeId} {places : List (Nat × Place)}
    (m : StemsMounted looked shape nodes ss data inner tops places)
    (data' : NodeId → ElementData) (inner' : NodeId → List Subtree)
    (hdata : ∀ n ∈ idsAll (Stem.assembleAll data inner ss), data' n = data n)
    (hinner : ∀ n ∈ idsAll (Stem.assembleAll data inner ss), inner' n = inner n) :
    StemsMounted looked shape nodes ss data' inner' tops places ∧
      Stem.assembleAll data' inner' ss = Stem.assembleAll data inner ss := by
  obtain ⟨h1, h2, h3⟩ := Stem.mem_idsAll data inner ss
  refine ⟨⟨m.nodes, m.proper, m.tops, m.places, fun e he => ?_, fun e he => ?_, fun k hk => ?_⟩, ?_⟩
  · rw [hdata _ (h1 e he)]
    exact m.elements e he
  · rw [hinner _ (h2 e he)]
    exact m.hosts e he
  · rw [hinner _ (h3 k hk)]
    exact m.markers k hk
  · exact Stem.assembleAll_congr ss (fun e he => hdata _ (h1 e he))
      (fun e he => hinner _ (h2 e he)) fun k hk => hinner _ (h3 k hk)

theorem StemsMounted.append {nodes nodes' : List Node} {ss ss' : List Stem}
    {data : NodeId → ElementData} {inner : NodeId → List Subtree}
    {tops tops' : List NodeId} {places places' : List (Nat × Place)}
    (m : StemsMounted looked shape nodes ss data inner tops places)
    (m' : StemsMounted looked shape nodes' ss' data inner tops' places') :
    StemsMounted looked shape (nodes ++ nodes') (ss ++ ss') data inner (tops ++ tops')
      (places ++ places') where
  nodes := by rw [Stem.nodes_append, m.nodes, m'.nodes]
  proper := Stem.properAll_append.2 ⟨m.proper, m'.proper⟩
  tops := by rw [m.tops, m'.tops, List.map_append]
  places := by rw [m.places, m'.places, Stem.boundAll_append]
  elements e he := by
    rw [Stem.elementsAll_append, List.mem_append] at he
    exact he.elim (m.elements e) (m'.elements e)
  hosts e he := by
    rw [Stem.hostsAll_append, List.mem_append] at he
    exact he.elim (m.hosts e) (m'.hosts e)
  markers k hk := by
    rw [Stem.markersAll_append, List.mem_append] at hk
    exact hk.elim (m.markers k) (m'.markers k)

/-- What mounting nodes at the end of a block comes to. -/
def Grows (looked : Target → Bool) (shape : String → List Shape) (ok : String → Prop) (h : Host)
    (parent : NodeId) (before : List NodeId) (mid : List Subtree) (nodes : List Node)
    (tops : List NodeId) (places : List (Nat × Place)) (h' : Host) : Prop :=
  ∃ ss data inner,
    Rewrites h.document h'.document parent before mid (mid ++ Stem.assembleAll data inner ss) [] ∧
    StemsMounted looked shape nodes ss data inner tops places ∧ Node.MountableAll ok nodes

/-- What failing to do so leaves. -/
def Stunts (ok : String → Prop) (h : Host) (parent : NodeId) (before : List NodeId)
    (mid : List Subtree) (nodes : List Node) (h' : Host) : Prop :=
  ∃ forest, Rewrites h.document h'.document parent before mid (mid ++ forest) [] ∧
    ¬Node.MountableAll ok nodes

/-- The first node mounted, and then the others. -/
theorem Grows.append {h h₁ h₂ : Host} {n : Node} {rest : List Node} {tops tops' : List NodeId}
    {places places' : List (Nat × Place)} {ss : List Stem} {data : NodeId → ElementData}
    {inner : NodeId → List Subtree}
    (w : Rewrites h.document h₁.document parent before mid
      (mid ++ Stem.assembleAll data inner ss) [])
    (m : StemsMounted looked shape [n] ss data inner tops places)
    (ok₁ : Node.MountableAll ok [n])
    (others : Grows looked shape ok h₁ parent before (mid ++ Stem.assembleAll data inner ss) rest
      tops' places' h₂) :
    Grows looked shape ok h parent before mid (n :: rest) (tops ++ tops') (places ++ places') h₂ := by
  obtain ⟨ss', data', inner', w', m', ok'⟩ := others
  -- what was mounted first has smaller numbers than what was mounted then
  have small : ∀ n : Nat, n ∈ idsAll (Stem.assembleAll data inner ss) → n < h₁.document.nodes.size :=
    fun n hn => w.holds.lt_size n (by simp [hn])
  have large : ∀ n : Nat, n ∈ idsAll (Stem.assembleAll data' inner' ss') →
      h₁.document.nodes.size ≤ n := added_fresh _ w'
  let data₂ : NodeId → ElementData := fun n =>
    if (n : Nat) < h₁.document.nodes.size then data n else data' n
  let inner₂ : NodeId → List Subtree := fun n =>
    if (n : Nat) < h₁.document.nodes.size then inner n else inner' n
  obtain ⟨m₁, he₁⟩ := m.congr data₂ inner₂
    (fun n hn => if_pos (small n hn)) fun n hn => if_pos (small n hn)
  obtain ⟨m₂, he₂⟩ := m'.congr data₂ inner₂
    (fun n hn => if_neg (Nat.not_lt.2 (large n hn))) fun n hn => if_neg (Nat.not_lt.2 (large n hn))
  refine ⟨ss ++ ss', data₂, inner₂, ?_, m₁.append m₂, ok₁.1, ok'⟩
  rw [Stem.assembleAll_append, he₁, he₂, ← List.append_assoc]
  exact w.trans w'

theorem mountText_runs (text : String) {h : Host} (b : Block h.document parent before mid []) :
    Runs (mountNode fill parent (.text text)) h
      (fun r h' => Grows looked shape ok h parent before mid [.text text] [r.1] r.2 h')
      (Stunts ok h parent before mid [.text text]) := by
  rw [mountNode, Runs.bind, Runs.create, Runs.bind]
  refine appendCreated (by simp) b fun h' w => ?_
  exact ⟨[.text h.document.nodes.size text], fun _ => { tag := "" }, fun _ => [],
    by simpa [Stem.assembleAll, Stem.assemble] using w,
    ⟨rfl, ⟨trivial, trivial⟩, rfl, rfl, by simp [Stem.elementsAll, Stem.elements],
      by simp [Stem.hostsAll, Stem.hosts], by simp [Stem.markersAll, Stem.markers]⟩, trivial, trivial⟩

theorem mountHole_runs (index : Nat) {h : Host} (b : Block h.document parent before mid []) :
    Runs (mountNode fill parent (.hole index)) h
      (fun r h' => Grows looked shape ok h parent before mid [.hole index] [r.1] r.2 h')
      (Stunts ok h parent before mid [.hole index]) := by
  rw [mountNode, Runs.bind, Runs.create, Runs.bind]
  refine appendCreated (by simp) b fun h' w => ?_
  exact ⟨[.hole h.document.nodes.size index], fun _ => { tag := "" }, fun _ => [],
    by simpa [Stem.assembleAll, Stem.assemble] using w,
    ⟨rfl, ⟨trivial, trivial⟩, rfl, rfl, by simp [Stem.elementsAll, Stem.elements],
      by simp [Stem.hostsAll, Stem.hosts], by simp⟩, trivial, trivial⟩

/-! ### An element at the end of its parent -/

section
variable {h₁ h₂ : Host} {n : NodeId} {tag : String} {attrs : Attributes} {children : List Node}
  {data data' : ElementData} {kids kids' : List Subtree} {places places' : List (Nat × Place)}

/-- The last element is a block of its own. -/
theorem block_last (b : Block h.document parent before mid [])
    (w : Rewrites h.document h₁.document parent before mid
      (mid ++ [.node n (.element data) kids]) []) :
    Block h₁.document parent (before ++ roots mid) [.node n (.element data) kids]
      (roots [] ++ []) := by
  have := w.block b
  rw [← List.append_nil (mid ++ _)] at this
  exact this.part

theorem Recast.last (b : Block h.document parent before mid [])
    (w : Rewrites h.document h₁.document parent before mid
      (mid ++ [.node n (.element data) kids]) [])
    (recast : Recast h₁ h₂ parent (before ++ roots mid) (roots [] ++ []) n data data' kids kids') :
    Rewrites h.document h₂.document parent before mid
      (mid ++ [.node n (.element data') kids']) [] := by
  have whole : Block h₁.document parent before (mid ++ [.node n (.element data) kids] ++ []) [] := by
    simpa using w.block b
  have := Rewrites.part whole recast
  exact w.trans (by simpa using this)

/-- What is put into the last element is put at the end of its parent. -/
theorem fill_last (b : Block h.document parent before mid [])
    (w : Rewrites h.document h₁.document parent before mid
      (mid ++ [.node n (.element data) kids]) [])
    (filled : Rewrites h₁.document h₂.document n [] kids kids' []) :
    Rewrites h.document h₂.document parent before mid
      (mid ++ [.node n (.element data) kids']) [] :=
  Recast.last b w (filled.inside (block_last b w))

/-- Attributes that are mounted on a new element write what its literals write. -/
theorem AttrsMounted.reading_new
    (m : AttrsMounted looked shape n attrs { tag } data [] kids places) (x : Target) :
    data.reading x = lookLiteral x attrs := by
  rw [m.reading, lookLiteral]
  cases x <;> rfl

/-- An element that is given markup as a literal has no children of its own. -/
theorem Grows.host (w : Rewrites h.document h₁.document parent before mid
      (mid ++ [.node n (.element data) kids]) [])
    (m : AttrsMounted looked shape n attrs { tag := Text.lower tag } data [] kids places)
    (valid : isValidTag tag = true) (accepted : Node.LiteralsAccepted ok attrs)
    (host : (markupSource? attrs).isSome = true) :
    Grows looked shape ok h parent before mid [.element tag attrs children] [n] places h₁ := by
  have kidsShape : shapes looked kids = literalShapes shape attrs [] := m.kids
  refine ⟨[.host n tag attrs children], fun _ => data, fun _ => kids,
    by simpa [Stem.assembleAll, Stem.assemble] using w,
    ⟨rfl, ⟨host, trivial⟩, rfl, ?_, ?_, ?_, ?_⟩, ⟨valid, accepted, ?_⟩, trivial⟩
  · simp [Stem.boundAll, Stem.bound, m.places]
  · simp [Stem.elementsAll, Stem.elements, m.tag, m.reading_new]
  · simp [Stem.hostsAll, Stem.hosts, kidsShape]
  · simp [Stem.markersAll, Stem.markers]
  · rw [if_pos host]
    trivial

/-- Any other element has what its children grow into. -/
theorem Grows.element (b : Block h.document parent before mid [])
    (w : Rewrites h.document h₁.document parent before mid
      (mid ++ [.node n (.element data) []]) [])
    (m : AttrsMounted looked shape n attrs { tag := Text.lower tag } data [] [] places)
    (valid : isValidTag tag = true) (accepted : Node.LiteralsAccepted ok attrs)
    (open_ : markupSource? attrs = none) {tops : List NodeId}
    (grows : Grows looked shape ok h₁ n [] [] children tops places' h₂) :
    Grows looked shape ok h parent before mid [.element tag attrs children] [n]
      (places ++ places') h₂ := by
  obtain ⟨ss, data', inner, w', m', mountable⟩ := grows
  -- the element has a smaller number than what is put into it
  have apart : ∀ k ∈ idsAll (Stem.assembleAll data' inner ss), k ≠ n := by
    intro k hk he
    have large := added_fresh [] w' k hk
    have small := w.holds.lt_size n (by simp)
    exact absurd small (Nat.not_lt.2 (he ▸ large))
  obtain ⟨m', assembled⟩ := m'.congr (Function.update data' n data) inner
    (fun k hk => Function.update_of_ne (apart k hk) _ _) fun _ _ => rfl
  refine ⟨[.element n tag attrs ss], Function.update data' n data, inner, ?_,
    ⟨?_, ⟨⟨open_, m'.proper⟩, trivial⟩, rfl, ?_, ?_, ?_, ?_⟩, ⟨valid, accepted, ?_⟩, trivial⟩
  · simpa [Stem.assembleAll, Stem.assemble, assembled] using fill_last b w w'
  · simp [Stem.nodes, Stem.node, m'.nodes]
  · simp [Stem.boundAll, Stem.bound, m.places, m'.places]
  · intro e he
    simp only [Stem.elementsAll, Stem.elements, List.append_nil, List.mem_cons] at he
    rcases he with rfl | he
    · simp [m.tag, m.reading_new]
    · exact m'.elements e he
  · intro e he
    exact m'.hosts e (by simpa [Stem.hostsAll, Stem.hosts] using he)
  · intro k hk
    exact m'.markers k (by simpa [Stem.markersAll, Stem.markers] using hk)
  · simpa [open_] using mountable

end

mutual
theorem mountNode_runs (fills : Fills looked fill shape ok []) : (n : Node) → n.Proper →
    ∀ {h : Host} {parent : NodeId} {before : List NodeId} {mid : List Subtree},
    Block h.document parent before mid [] →
    Runs (mountNode fill parent n) h
      (fun r h' => Grows looked shape ok h parent before mid [n] [r.1] r.2 h')
      (Stunts ok h parent before mid [n])
  | .text text, _, _, _, _, _, b => mountText_runs text b
  | .hole index, _, _, _, _, _, b => mountHole_runs index b
  | .element tag attrs children, proper, h, parent, before, mid, b => by
      obtain ⟨-, nodup, -, -, properKids⟩ := proper
      rw [mountNode, Runs.bind, Runs.createElement]
      split
      next valid =>
        rw [Runs.bind]
        refine appendCreated (by simp) b fun h₁ w₁ => ?_
        rw [Runs.bind]
        refine (mountAttributes_runs fills _ attrs nodup (block_last b w₁) fun _ => rfl).mono ?_ ?_
        · rintro places h₂ ⟨data, kids, recast, m, accepted⟩
          have w₂ := recast.last b w₁
          split
          next host => exact .host w₂ m valid accepted host
          next host =>
            have open_ : markupSource? attrs = none := by simpa using host
            obtain rfl : kids = [] := shapes_eq_nil (by
              simpa [literalShapes, open_] using m.kids)
            rw [Runs.bind]
            have inside := (block_last b w₂).inside
              (Stem.container_of_element (block_last b w₂))
            refine (mountNodes_runs fills children properKids inside).mono ?_ ?_
            · rintro ⟨tops, places'⟩ h₃ grows
              exact .element b w₂ m valid accepted open_ grows
            · rintro h₃ ⟨forest, w₃, refused⟩
              refine ⟨_, fill_last b w₂ w₃, fun mountable => refused ?_⟩
              simpa [open_] using mountable.1.2.2
        · rintro h₂ ⟨data, kids, recast, refused⟩
          exact ⟨_, recast.last b w₁, fun mountable => refused mountable.1.2.1⟩
      next invalid =>
        refine ⟨[], ?_, fun mountable => invalid mountable.1.1⟩
        rw [List.append_nil]
        exact Rewrites.refl b
termination_by structural n => n

/-- Mounting nodes puts fresh stems at the end of the parent. -/
theorem mountNodes_runs (fills : Fills looked fill shape ok []) : (ns : List Node) →
    Node.ProperAll ns →
    ∀ {h : Host} {parent : NodeId} {before : List NodeId} {mid : List Subtree},
    Block h.document parent before mid [] →
    Runs (mountNodes fill parent ns) h
      (fun r h' => Grows looked shape ok h parent before mid ns r.1 r.2 h')
      (Stunts ok h parent before mid ns)
  | [], _, h, _, _, _, b =>
      ⟨[], fun _ => { tag := "" }, fun _ => [], by simpa [Stem.assembleAll] using Rewrites.refl b,
        ⟨rfl, trivial, rfl, rfl, by simp [Stem.elementsAll], by simp [Stem.hostsAll],
          by simp [Stem.markersAll]⟩, trivial⟩
  | n :: rest, proper, h, parent, before, mid, b => by
      rw [mountNodes, Runs.bind]
      refine (mountNode_runs fills n proper.1 b).mono ?_ ?_
      · rintro ⟨node, bound⟩ h₁ ⟨ss, data, inner, w, m, ok₁⟩
        rw [Runs.bind]
        refine (mountNodes_runs fills rest proper.2 (w.block b)).mono ?_ ?_
        · rintro ⟨nodes, others⟩ h₂ hothers
          exact Grows.append w m ok₁ hothers
        · rintro h₂ ⟨forest, w₂, hok⟩
          refine ⟨Stem.assembleAll data inner ss ++ forest, ?_, fun h => hok h.2⟩
          rw [← List.append_assoc]
          exact w.trans w₂
      · rintro h₁ ⟨forest, w, hok⟩
        exact ⟨forest, w, fun h => hok ⟨h.1, trivial⟩⟩
termination_by structural ns => ns
end

/-- Before any value is shown, every hole shows an absent one. -/
theorem StemsMounted.shows {nodes : List Node} {ss : List Stem} {data : NodeId → ElementData}
    {inner : NodeId → List Subtree} {tops : List NodeId} {places : List (Nat × Place)}
    (m : StemsMounted looked shape nodes ss data inner tops places) :
    Shows looked shape (fun _ => .null) (fun _ => []) data inner (Stem.elementsAll ss)
      (Stem.hostsAll ss) (Stem.markersAll ss) where
  tag e he := (m.elements e he).1
  reading e he x _ := by
    rw [(m.elements e he).2, look_eq_literal]
    exact fun j c _ => written_eq_none trivial fun ks => wrote_null x c ks
  host e he := by
    rw [m.hosts e he, literalShapes, markupShapes]
    cases markupSource? e.2 with
    | none => rfl
    | some source => cases source <;> rfl
  content k hk := by rw [m.markers k hk, shapes_nil]

theorem StemsMounted.shapes {nodes : List Node} {ss : List Stem} {data : NodeId → ElementData}
    {inner : NodeId → List Subtree} {tops : List NodeId} {places : List (Nat × Place)}
    (m : StemsMounted looked shape nodes ss data inner tops places) :
    shapes looked (Stem.assembleAll data inner ss) =
      Node.shapesAll looked shape (fun _ => .null) (fun _ => []) nodes := by
  rw [Stem.shapes_assembleAll ss m.proper m.shows, m.nodes]

/-! ### Markup -/

/-- The roots of a run are removed from its block. -/
theorem removeAll_runs {run : List Subtree} (left right : List Subtree) {h : Host}
    (b : Block h.document parent before (left ++ run ++ right) behind)
    {good : Unit → Host → Prop} {bad : Host → Prop}
    (next : ∀ h' : Host, Rewrites h.document h'.document parent before (left ++ run ++ right)
      (left ++ right) behind → good () h') :
    Runs (Host.removeAll (roots run)) h good bad := by
  induction run generalizing h with
  | nil => exact next h (by simpa using Rewrites.refl b)
  | cons t rest ih =>
    have heq : left ++ t :: rest ++ right = left ++ t :: (rest ++ right) := by simp
    obtain ⟨hok, w⟩ := Rewrites.remove b (by simpa using Rewrites.refl b : Rewrites h.document
      h.document parent before (left ++ t :: rest ++ right) (left ++ t :: (rest ++ right)) behind)
    show Runs (Host.remove t.root >>= fun _ => Host.removeAll (roots rest)) h good bad
    rw [Runs.bind]
    refine Runs.edit_ok hok ?_
    rw [← List.append_assoc] at w
    exact ih (w.block b) fun h' w' => next h' (w.trans w')

theorem removeChildren_runs {node : NodeId} {kids : List Subtree} {h : Host}
    (b : Block h.document node [] kids []) {good : Unit → Host → Prop} {bad : Host → Prop}
    (next : ∀ h' : Host, Rewrites h.document h'.document node [] kids [] [] → good () h') :
    Runs (Host.removeChildren node) h good bad := by
  have hc : h.document.children node = roots kids := by simpa using b.children_eq
  rw [Host.removeChildren, Runs.bind, Runs.get, hc]
  exact removeAll_runs [] [] (by simpa using b) fun h' w =>
    next h' (by simpa using w)

/-- Markup shows what it should in place of any children, and in place of none even when
the depth is used up. -/
theorem fillMarkup_fills (looked : Target → Bool) (depth : Nat) (kids : List Subtree)
    (hk : depth = 0 → kids = []) :
    Fills looked (fillMarkup depth) (fillShapes looked depth) (Fillable depth) kids := by
  induction depth generalizing kids with
  | zero =>
    intro h node text b
    obtain rfl := hk rfl
    exact ⟨[], .refl b, rfl, trivial⟩
  | succ depth ih =>
    intro h node text b
    rw [fillMarkup, Runs.bind]
    refine removeChildren_runs b fun h₁ w₁ => ?_
    have b₁ := w₁.block b
    cases hp : Skeleton.parse [text] with
    | ok skeleton =>
      have proper := (Skeleton.parse_wellFormed hp).proper
      simp only [fillShapes, Fillable, hp]
      rw [Runs.bind]
      refine (mountNodes_runs (ih [] fun _ => rfl) skeleton.nodes proper b₁).mono ?_ ?_
      · rintro ⟨tops, places⟩ h₂ ⟨ss, data, inner, w₂, m, hok⟩
        exact ⟨_, w₁.trans w₂, m.shapes, hok⟩
      · rintro h₂ ⟨forest, w₂, hok⟩
        exact ⟨_, w₁.trans w₂, hok⟩
    | error e =>
      simp only [fillShapes, Fillable, hp]
      rw [Runs.bind, Runs.create]
      refine appendCreated (by simp) b₁ fun h₂ w₂ => ?_
      exact ⟨_, w₁.trans w₂, rfl, trivial⟩

end Live

end LiveTemplate
