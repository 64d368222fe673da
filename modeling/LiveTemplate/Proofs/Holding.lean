import LiveTemplate.Proofs.Seating

/-!
# What a table holds

A table fits the skeleton that it belongs to when it has one place for every hole that
was mounted, and the document shows at each place the value that the table has for it. A
content fits the forest that it has put into the document. A failed step leaves contents
and places of which only the outline is known: they fit inexactly, with nodes around
them that nothing accounts for.
-/
namespace LiveTemplate
open Document Subtree Live

/-! ### Values between which nothing changes -/

namespace Value
variable {a b : Value}

/-- A value and itself, or two that need not be told apart. The number that is none is
not the same as itself. -/
def Alike (a b : Value) : Prop := a = b ∨ a.same b = true

theorem Alike.cases (h : a.Alike b) :
    a = b ∨ ∃ m n, a = .number m ∧ b = .number n ∧ m.isZero = true ∧ n.isZero = true := by
  rcases h with rfl | h
  · exact .inl rfl
  · exact same_cases h

theorem Alike.wrote (h : a.Alike b) (x : Target) (c : Binding) (ks : List String) :
    wrote x c a ks = wrote x c b ks := by
  rcases h with rfl | h
  · rfl
  · exact wrote_of_same h x c ks

theorem Alike.written (h : a.Alike b) (x : Target) (c : Binding) :
    written x c a = written x c b := by
  rcases h.cases with rfl | ⟨m, n, rfl, rfl, -, -⟩
  · rfl
  · exact h.wrote x c []

theorem Alike.toText (h : a.Alike b) : a.toText = b.toText := by
  rcases h with rfl | h
  · rfl
  · exact toText_of_same h

theorem Alike.null_iff (h : a.Alike b) : a = .null ↔ b = .null := by
  rcases h.cases with rfl | ⟨m, n, rfl, rfl, -, -⟩ <;> simp

theorem Alike.shapes (h : a.Alike b) (looked : Target → Bool) :
    a.shapes looked = b.shapes looked := by
  have heq := h.toText
  rcases h.cases with rfl | ⟨m, n, rfl, rfl, -, -⟩
  · rfl
  · simp only [Value.shapes, heq]

theorem Alike.renderable (h : a.Alike b) : a.Renderable ↔ b.Renderable := by
  rcases h.cases with rfl | ⟨m, n, rfl, rfl, -, -⟩
  · rfl
  · simp [Renderable]

theorem Alike.applicable (h : a.Alike b) (c : Binding) : Applicable c a ↔ Applicable c b := by
  have heq := h.toText
  rcases h.cases with rfl | ⟨m, n, rfl, rfl, hm, hn⟩
  · rfl
  · cases c <;>
      simp_all [Applicable, Writable, Binding.Accepts, isTruthy, Number.isTruthy]

theorem Alike.key? {a b : Value} (h : a.Alike b) : a.key? = b.key? := by
  rcases h.cases with rfl | ⟨m, n, rfl, rfl, -, -⟩
  · rfl
  · rfl

theorem allKeyed_congr {vs ws : List Value}
    (h : vs.map (fun v => v.key?.isSome) = ws.map fun w => w.key?.isSome) :
    allKeyed vs = allKeyed ws := by
  have eq (l : List Value) : allKeyed l =
      (!(l.map fun v => v.key?.isSome).isEmpty && (l.map fun v => v.key?.isSome).all id) := by
    rw [allKeyed, List.isEmpty_map, List.all_map]
    rfl
  rw [eq, eq, h]

/-- Nothing is shown for a value of this kind, neither text nor a node. -/
def Blank : Value → Prop
  | .null | .attributes .. | .callback _ | .cell _ | .payload _ => True
  | _ => False

/-- A value of this kind is shown as text. -/
def Scalar : Value → Prop
  | .bool _ | .number _ | .text _ => True
  | _ => False

theorem Blank.shapes {v : Value} (h : v.Blank) (looked : Target → Bool) :
    v.shapes looked = [] := by
  cases v <;> first | rfl | exact h.elim

theorem Scalar.shapes {v : Value} (h : v.Scalar) (looked : Target → Bool) :
    v.shapes looked = [.text v.toText] := by
  cases v <;> first | rfl | exact h.elim

end Value

/-! ### Places of a skeleton -/

/-- The place before it shows anything. -/
def Place.bare : Place → Place
  | .vacant => .vacant
  | .attribute n b _ => .attribute n b .null
  | .content marker _ => .content marker .absent

/-- Whether a value can be shown at a place. -/
def Place.Takes : Place → Value → Prop
  | .vacant, _ => True
  | .attribute _ b _, v => Applicable b v
  | .content .., v => v.Renderable

theorem Place.takes_bare (p : Place) (v : Value) : p.bare.Takes v ↔ p.Takes v := by
  cases p <;> exact Iff.rfl

/-- The value that the place of a hole shows; a vacant place shows an absent one. -/
def Places.shownAt (places : List Place) (index : Nat) : Value :=
  (previous? places index).getD .null

theorem Places.shownAt_of_get {places : List Place} {i : Nat} {p : Place} {v : Value}
    (h : places[i]? = some p) (hv : p.shown? = some v) : shownAt places i = v := by
  simp [shownAt, previous?, h, hv]

/-- A table with the places of the holes of a mounted skeleton. -/
structure Seated (shared : SharedSkeleton) (ss : List Stem) (places : List Place) : Prop where
  made : shared.Made
  mountable : Node.MountableAll ShowableMarkup shared.nodes
  nodes : Stem.nodes ss = shared.nodes
  proper : Stem.ProperAll ss
  length : places.length = shared.holes
  seat : ∀ i p, p ≠ .vacant → ((places.map Place.bare)[i]? = some p ↔ (i, p) ∈ Stem.boundAll ss)

namespace Seated
variable {shared : SharedSkeleton} {ss : List Stem} {places places' : List Place}

theorem congr (s : Seated shared ss places) (h : places'.map Place.bare = places.map Place.bare) :
    Seated shared ss places' where
  made := s.made
  mountable := s.mountable
  nodes := s.nodes
  proper := s.proper
  length := by
    have := congrArg List.length h
    simpa [s.length] using this
  seat := h ▸ s.seat

variable {i : Nat} {n : NodeId} {b : Binding} {v : Value}

theorem mem_bound (s : Seated shared ss places) {p : Place} (h : places[i]? = some p)
    (hp : p ≠ .vacant) : (i, p.bare) ∈ Stem.boundAll ss := by
  refine (s.seat i p.bare ?_).1 (by simp [h])
  cases p <;> simp [Place.bare] at hp ⊢

/-- The element that an attribute place belongs to. -/
theorem element_of (s : Seated shared ss places) (h : places[i]? = some (.attribute n b v)) :
    ∃ tag attrs, (n, tag, attrs) ∈ Stem.elementsAll ss ∧ BoundTo attrs i b := by
  rcases (Stem.mem_boundAll ss).1 (s.mem_bound h (by simp)) with ⟨⟨m, tag, attrs⟩, he, c, hc, heq⟩ | h
  · simp only [Place.bare, Place.attribute.injEq, and_true] at heq
    obtain ⟨rfl, rfl⟩ := heq
    exact ⟨tag, attrs, he, hc⟩
  · simp [Place.bare] at h

theorem marker_of (s : Seated shared ss places) {item : Item}
    (h : places[i]? = some (.content n item)) : (n, i) ∈ Stem.markersAll ss := by
  rcases (Stem.mem_boundAll ss).1 (s.mem_bound h (by simp)) with h | ⟨⟨m, j⟩, hm, rfl, heq⟩
  · simp [Place.bare] at h
  · simp only [Place.bare, Place.content.injEq, and_true] at heq
    exact heq ▸ hm

theorem place_of_element (s : Seated shared ss places) {e : NodeId × String × Attributes}
    (he : e ∈ Stem.elementsAll ss) (hb : BoundTo e.2.2 i b) :
    ∃ v, places[i]? = some (.attribute e.1 b v) := by
  have h := (s.seat i (.attribute e.1 b .null) (by simp)).2
    ((Stem.mem_boundAll ss).2 (.inl ⟨e, he, b, hb, rfl⟩))
  rw [List.getElem?_map, Option.map_eq_some_iff] at h
  obtain ⟨p, hp, hbare⟩ := h
  cases p <;> simp [Place.bare] at hbare
  obtain ⟨rfl, rfl⟩ := hbare
  exact ⟨_, hp⟩

theorem place_of_marker (s : Seated shared ss places) {m : NodeId × Nat} (hm : m ∈ Stem.markersAll ss) :
    ∃ item, places[m.2]? = some (.content m.1 item) := by
  have h := (s.seat m.2 (.content m.1 .absent) (by simp)).2
    ((Stem.mem_boundAll ss).2 (.inr ⟨m, hm, rfl, rfl⟩))
  rw [List.getElem?_map, Option.map_eq_some_iff] at h
  obtain ⟨p, hp, hbare⟩ := h
  cases p <;> simp [Place.bare] at hbare
  obtain rfl := hbare
  exact ⟨_, hp⟩

theorem element_proper (s : Seated shared ss places) {e : NodeId × String × Attributes}
    (he : e ∈ Stem.elementsAll ss) :
    IsTagName e.2.1.toList ∧ (Entries.names e.2.2).Nodup ∧ (attrHoles e.2.2).Nodup := by
  have wf := s.made.wellFormed
  have proper : Node.ProperAll (Stem.nodes ss) := s.nodes ▸ wf.proper
  have nodup : (Node.holesAll (Stem.nodes ss)).Nodup := s.nodes ▸ wf.nodup
  obtain ⟨named, h1, h2⟩ := Stem.elementAll_proper ss proper e he
  exact ⟨named, h1, nodup.sublist h2⟩

/-- What is known of the attributes of an element, since the skeleton was read. -/
theorem attrs_proper (s : Seated shared ss places) {e : NodeId × String × Attributes}
    (he : e ∈ Stem.elementsAll ss) :
    (Entries.names e.2.2).Nodup ∧ (attrHoles e.2.2).Nodup := (s.element_proper he).2

/-- The values can be shown at all places exactly if the skeleton can be filled with
them. -/
theorem fillsRenderably_iff (s : Seated shared ss places) (values : List Value) :
    FillsRenderably shared values ↔
      ∀ (i : Nat) (p : Place), places[i]? = some p → p.Takes (Markup.valueAt values i) := by
  have seats := fun {i t} => Stem.mem_seatsAll (i := i) ss s.proper (t := t)
  rw [s.nodes] at seats
  constructor
  · rintro ⟨-, h⟩ i p hp
    rcases p with _ | ⟨n, b, v⟩ | ⟨m, item⟩
    · trivial
    · obtain ⟨tag, attrs, he, hb⟩ := s.element_of hp
      exact h _ (seats.2 (.inl ⟨_, he, b, hb, rfl⟩))
    · exact h _ (seats.2 (.inr ⟨_, s.marker_of hp, rfl, rfl⟩))
  · refine fun h => ⟨s.mountable, fun ⟨i, t⟩ ht => ?_⟩
    rcases seats.1 ht with ⟨e, he, b, hb, rfl⟩ | ⟨m, hm, rfl, rfl⟩
    · obtain ⟨v, hv⟩ := s.place_of_element he hb
      exact h i _ hv
    · obtain ⟨item, hi⟩ := s.place_of_marker hm
      exact h _ _ hi

end Seated

/-- The skeleton has the parts that its markup is given through where it is bound. -/
theorem boundTo_markup {attrs : Attributes} (nodup : (Entries.names attrs).Nodup) {i : Nat} :
    BoundTo attrs i .markup ↔ markupSource? attrs = some (.hole i) := by
  constructor
  · rintro ⟨name, hmem, hb⟩
    obtain rfl := Binding.ofName?_eq_markup.1 hb
    exact Entries.get?_of_mem nodup hmem
  · exact fun h => ⟨_, Entries.mem_of_get? h, Binding.ofName?_eq_markup.2 rfl⟩

/-! ### Tables that fit -/

/-- Which targets are looked at, and which routes to them may be taken at which element:
one for each target at most. -/
structure Watch where
  looked : Target → Bool
  taken : NodeId → Target → Route → Prop
  unique : ∀ n x, looked x = true → ∀ r r', taken n x r → taken n x r' → r = r'

/-- The table of a mounted skeleton, and what the document shows for it. The elements
have what they should have for each target that is kept, and a host shows the markup it
should if the hole of the markup is clean. -/
structure TableFits (ω : Watch) (clean : Nat → Prop) (kept : NodeId → Target → Prop)
    (shared : SharedSkeleton) (ss : List Stem) (data : NodeId → ElementData)
    (fill : NodeId → List Subtree) (places : List Place) : Prop where
  seated : Seated shared ss places
  sound : ∀ (i : Nat) (p : Place), places[i]? = some p → ∀ v, p.shown? = some v → v.Built ∧ p.Takes v
  tag : ∀ e ∈ Stem.elementsAll ss, (data e.1).tag = Text.lower e.2.1
  reading : ∀ e ∈ Stem.elementsAll ss, ∀ x, ω.looked x = true → kept e.1 x →
    (∀ r, Writes e.2.2 (Places.shownAt places) x r → ω.taken e.1 x r) →
    (data e.1).reading x = look x (Places.shownAt places) e.2.2
  host : ∀ e ∈ Stem.hostsAll ss, (∀ i, markupSource? e.2 = some (.hole i) → clean i) →
    shapes ω.looked (fill e.1) = markupShapes (shownMarkup ω.looked) (Places.shownAt places) e.2

/-- The table shows these values. -/
def Places.Match (places : List Place) (values : List Value) : Prop :=
  ∀ (i : Nat) (p : Place), places[i]? = some p → ∀ v, p.shown? = some v → v.Alike (Markup.valueAt values i)

mutual
/-- A content and the forest that it has put into the document. A faithful one shows the
value, and nothing else. -/
inductive Fits (ω : Watch) (faithful : Prop) : Value → Content → List Subtree → Prop
  | empty {v : Value} {f : List Subtree} (shows : faithful → f = [] ∧ v.Blank) :
      Fits ω faithful v .empty f
  | text {v : Value} {n : NodeId} {s : String} (left right : List Subtree)
      (shows : faithful → left = [] ∧ right = [] ∧ v.Scalar ∧ s = v.toText) :
      Fits ω faithful v (.text n) (left ++ .node n (.text s) [] :: right)
  | nested {v : Value} {shared : SharedSkeleton} {start stop : NodeId} {places : List Place}
      {ss : List Stem} {data : NodeId → ElementData} {fill : NodeId → List Subtree}
      (left right : List Subtree)
      (table : TableFits ω (fun _ => faithful) (fun _ _ => faithful) shared ss data fill places)
      (contents : ∀ (i : Nat) (marker : NodeId) (item : Item), places[i]? = some (.content marker item) →
        Fits ω faithful item.shown item.content (fill marker))
      (shows : faithful → left = [] ∧ right = [] ∧
        ∃ handle values, v = .template handle shared values ∧ Places.Match places values) :
      Fits ω faithful v (.nested shared start stop places)
        (left ++ (.node start .marker [] :: Stem.assembleAll data fill ss ++
          [.node stop .marker []]) ++ right)
  | list {v : Value} {items : List Item} {f : List Subtree} (fits : FitsItems ω faithful items f)
      (shows : faithful →
        ∃ handle vs, v = .list handle vs ∧ List.Forall₂ Value.Alike (items.map Item.shown) vs) :
      Fits ω faithful v (.list items) f

/-- The items of a list and the forest that they have put into the document. -/
inductive FitsItems (ω : Watch) (faithful : Prop) : List Item → List Subtree → Prop
  | nil {f : List Subtree} (shows : faithful → f = []) : FitsItems ω faithful [] f
  | cons {item : Item} {rest : List Item} {f g : List Subtree} (built : item.shown.Built)
      (renderable : item.shown.Renderable) (head : Fits ω faithful item.shown item.content f)
      (tail : FitsItems ω faithful rest g) : FitsItems ω faithful (item :: rest) (f ++ g)
end

/-- The contents of a table fit what stands in front of their markers; those of clean
holes are faithful. -/
def PlacesFit (ω : Watch) (clean : Nat → Prop) (fill : NodeId → List Subtree)
    (places : List Place) : Prop :=
  ∀ (i : Nat) (marker : NodeId) (item : Item), places[i]? = some (.content marker item) →
    Fits ω (clean i) item.shown item.content (fill marker)

variable {ω : Watch} {faithful faithful' : Prop} {v v' : Value} {c : Content}
  {items : List Item} {f g : List Subtree}

theorem TableFits.mono {clean : Nat → Prop} {kept : NodeId → Target → Prop} {shared : SharedSkeleton} {ss : List Stem} {data : NodeId → ElementData}
    {fill : NodeId → List Subtree} {places : List Place}
    (t : TableFits ω clean kept shared ss data fill places) {clean' : Nat → Prop}
    {kept' : NodeId → Target → Prop} (hc : ∀ i, clean' i → clean i) (hk : ∀ n x, kept' n x → kept n x) : TableFits ω clean' kept' shared ss data fill places where
  seated := t.seated
  sound := t.sound
  tag := t.tag
  reading e he x hx h := t.reading e he x hx (hk _ _ h)
  host e he h := t.host e he fun i hi => hc i (h i hi)

mutual
/-- Whatever is not faithful fits with anything around it, and whatever the value. -/
theorem Fits.weaken (no : ¬faithful') (v' : Value) (left right : List Subtree) :
    {v : Value} → {c : Content} → {f : List Subtree} → Fits ω faithful v c f →
    Fits ω faithful' v' c (left ++ f ++ right)
  | _, _, _, .empty _ => .empty fun h => absurd h no
  | _, _, _, .text (n := n) (s := s) l r _ => by
      have heq : left ++ (l ++ .node n (.text s) [] :: r) ++ right =
          (left ++ l) ++ .node n (.text s) [] :: (r ++ right) := by simp
      rw [heq]
      exact .text _ _ fun h => absurd h no
  | _, _, _, .nested l r table contents _ => by
      have heq : ∀ inner, left ++ (l ++ inner ++ r) ++ right = (left ++ l) ++ inner ++ (r ++ right) := by
        simp
      rw [heq]
      refine .nested _ _ (table.mono (fun _ h => absurd h no) fun _ _ h => absurd h no)
        (fun i marker item hi => ?_) fun h => absurd h no
      simpa using (contents i marker item hi).weaken no item.shown [] []
  | _, _, _, .list fits _ => .list (fits.weaken no left right) fun h => absurd h no

theorem FitsItems.weaken (no : ¬faithful') (left right : List Subtree) :
    {items : List Item} → {f : List Subtree} → FitsItems ω faithful items f →
    FitsItems ω faithful' items (left ++ f ++ right)
  | _, _, .nil _ => .nil fun h => absurd h no
  | _, _, .cons built renderable head tail => by
      have h := FitsItems.cons built renderable (head.weaken no _ left [])
        (tail.weaken no [] right)
      simpa using h
end

theorem Fits.mono (h : Fits ω faithful v c f) (hf : faithful' → faithful) :
    Fits ω faithful' v c f := by
  by_cases hf' : faithful'
  · rwa [propext (iff_of_true hf' (hf hf'))]
  · have h := h.weaken hf' v [] []
    rwa [List.nil_append, List.append_nil] at h

theorem FitsItems.mono (h : FitsItems ω faithful items f) (hf : faithful' → faithful) :
    FitsItems ω faithful' items f := by
  by_cases hf' : faithful'
  · rwa [propext (iff_of_true hf' (hf hf'))]
  · have h := h.weaken hf' [] []
    rwa [List.nil_append, List.append_nil] at h

theorem PlacesFit.mono {clean clean' : Nat → Prop} {fill : NodeId → List Subtree}
    {places : List Place} (h : PlacesFit ω clean fill places) (hc : ∀ i, clean' i → clean i) :
    PlacesFit ω clean' fill places := fun i marker item hi => (h i marker item hi).mono (hc i)

/-- Where there is nothing if the content is faithful, something more may stand. -/
theorem Fits.around (h : Fits ω faithful v c f) {left right : List Subtree}
    (hl : faithful → left = []) (hr : faithful → right = []) :
    Fits ω faithful v c (left ++ f ++ right) := by
  by_cases hf : faithful
  · simpa [hl hf, hr hf] using h
  · exact h.weaken hf v left right

theorem FitsItems.split {items' : List Item} (h : FitsItems ω faithful (items ++ items') f) :
    ∃ g g', f = g ++ g' ∧ FitsItems ω faithful items g ∧ FitsItems ω faithful items' g' := by
  induction items generalizing f with
  | nil => exact ⟨[], f, rfl, .nil fun _ => rfl, h⟩
  | cons item rest ih =>
    cases h with
    | cons built renderable head tail =>
      obtain ⟨g, g', rfl, h, h'⟩ := ih tail
      exact ⟨_, g', by simp, .cons built renderable head h, h'⟩

/-! ### Where a content begins -/

mutual
/-- What stands in front of the first node of a content is not accounted for. -/
theorem Fits.trim : {v : Value} → {c : Content} → {f : List Subtree} → Fits ω faithful v c f →
    ∃ d g, f = d ++ g ∧ Fits ω faithful v c g ∧ (faithful → d = []) ∧
      (roots g).head? = c.firstNode?
  | _, _, f, .empty shows =>
      ⟨f, [], by simp, .empty fun h => ⟨rfl, (shows h).2⟩, fun h => (shows h).1, rfl⟩
  | _, _, _, .text left right shows =>
      ⟨left, _, rfl, .text [] right fun h => ⟨rfl, (shows h).2⟩, fun h => (shows h).1, rfl⟩
  | _, _, _, .nested left right table contents shows =>
      ⟨left, _, List.append_assoc .., .nested [] right table contents fun h => ⟨rfl, (shows h).2⟩,
        fun h => (shows h).1, rfl⟩
  | _, _, _, .list fits shows => by
      obtain ⟨d, g, heq, hg, hd, hfirst⟩ := fits.trim
      exact ⟨d, g, heq, .list hg shows, hd, hfirst⟩

theorem FitsItems.trim : {items : List Item} → {f : List Subtree} →
    FitsItems ω faithful items f →
    ∃ d g, f = d ++ g ∧ FitsItems ω faithful items g ∧ (faithful → d = []) ∧
      (roots g).head? = firstNodeOf? items
  | _, f, .nil shows => ⟨f, [], by simp, .nil fun _ => rfl, shows, rfl⟩
  | .mk _ c :: _, _, .cons built renderable head tail => by
      obtain ⟨d₁, f₁, rfl, hf, hd₁, hfirst⟩ := head.trim
      obtain ⟨d₂, g₂, rfl, hg, hd₂, hrest⟩ := tail.trim
      have hfirst : (roots f₁).head? = c.firstNode? := hfirst
      cases hc : c.firstNode? with
      | some n =>
        refine ⟨d₁, f₁ ++ (d₂ ++ g₂), by simp, .cons built renderable hf tail, hd₁, ?_⟩
        simp [firstNodeOf?, hc, hfirst]
      | none =>
        obtain rfl : f₁ = [] := by simpa [hc, roots] using hfirst
        refine ⟨d₁ ++ d₂, g₂, by simp, .cons built renderable hf hg, fun h => ?_, ?_⟩
        · rw [hd₁ h, hd₂ h, List.nil_append]
        · simp [firstNodeOf?, hc, hrest]
end

/-- The rest of a list stands right behind its anchor. -/
theorem FitsItems.anchored (h : FitsItems ω faithful items f) {behind : List NodeId}
    {anchor : NodeId} (head : behind.head? = some anchor) :
    ∃ d g, f = d ++ g ∧ FitsItems ω faithful items g ∧ (faithful → d = []) ∧
      (roots g ++ behind).head? = some (anchorOf items anchor) := by
  obtain ⟨d, g, heq, hg, hd, hfirst⟩ := h.trim
  refine ⟨d, g, heq, hg, hd, ?_⟩
  rw [List.head?_append, hfirst, head, anchorOf]
  cases firstNodeOf? items <;> rfl

/-! ### Elements in contents -/

mutual
/-- An element of a mounted skeleton or of what has been put into it, with its
attributes and the values that the holes of its table show. -/
inductive TableMounts (n : NodeId) (attrs : Attributes) (shown : Nat → Value) :
    SharedSkeleton → List Place → Prop
  | here {shared : SharedSkeleton} {places : List Place} {i : Nat} {b : Binding} {v : Value}
      (place : places[i]? = some (.attribute n b v))
      (seat : (i, Seat.attribute b attrs) ∈ Node.seatsAll shared.nodes)
      (shows : shown = Places.shownAt places) : TableMounts n attrs shown shared places
  | inside {shared : SharedSkeleton} {places : List Place} {i : Nat} {marker : NodeId}
      {item : Item} (place : places[i]? = some (.content marker item))
      (mounts : Mounts n attrs shown item.content) : TableMounts n attrs shown shared places

inductive Mounts (n : NodeId) (attrs : Attributes) (shown : Nat → Value) : Content → Prop
  | nested {shared : SharedSkeleton} {start stop : NodeId} {places : List Place}
      (mounts : TableMounts n attrs shown shared places) :
      Mounts n attrs shown (.nested shared start stop places)
  | item {items : List Item} {item : Item} (mem : item ∈ items)
      (mounts : Mounts n attrs shown item.content) : Mounts n attrs shown (.list items)
end

/-- How a target of an element is written to, or may be cleared when the value of a hole
changes. -/
inductive Claims (attrs : Attributes) (shown : Nat → Value) (x : Target) : Route → Prop
  | writes {r : Route} (writes : Writes attrs shown x r) : Claims attrs shown x r
  | clears {index : Nat} {b : Binding} {keys : List String} (bound : BoundTo attrs index b)
      (ne_null : shown index ≠ .null) (touches : Touches x b (shown index) keys) :
      Claims attrs shown x (.hole index keys)

/-- The routes that the value of a hole takes to what it may clear. -/
def Watch.Clears (ω : Watch) (n : NodeId) (attrs : Attributes) (shown : Nat → Value) : Prop :=
  ∀ x, ω.looked x = true → ∀ i b ks, BoundTo attrs i b → shown i ≠ .null →
    Touches x b (shown i) ks → ω.taken n x (.hole i ks)

def Watch.Admits (ω : Watch) (n : NodeId) (attrs : Attributes) (shown : Nat → Value) : Prop :=
  ∀ x, ω.looked x = true → ∀ r, Writes attrs shown x r → ω.taken n x r

variable {clean : Nat → Prop} {kept : NodeId → Target → Prop} {shared : SharedSkeleton}
  {ss : List Stem} {data : NodeId → ElementData} {fill : NodeId → List Subtree}
  {places : List Place}

/-- An element of a mounted skeleton with a hole among its attributes. -/
theorem Seated.mounts (s : Seated shared ss places) {e : NodeId × String × Attributes}
    (he : e ∈ Stem.elementsAll ss) {i : Nat} {b : Binding} (hb : BoundTo e.2.2 i b) :
    TableMounts e.1 e.2.2 (Places.shownAt places) shared places := by
  obtain ⟨v, hv⟩ := s.place_of_element he hb
  refine .here hv ?_ rfl
  rw [← s.nodes]
  exact (Stem.mem_seatsAll ss s.proper).2 (.inl ⟨e, he, b, hb, rfl⟩)

/-- Every route is taken through an element that has a hole. -/
theorem Seated.admits (s : Seated shared ss places)
    (h : ∀ n attrs shown, TableMounts n attrs shown shared places → ω.Admits n attrs shown)
    {e : NodeId × String × Attributes} (he : e ∈ Stem.elementsAll ss) :
    ω.Admits e.1 e.2.2 (Places.shownAt places) := by
  intro x hx r hr
  cases hr with
  | literal mem bound writes beside =>
    exact h _ _ _ (s.mounts he beside) x hx _ (.literal mem bound writes beside)
  | hole bound writes => exact h _ _ _ (s.mounts he bound) x hx _ (.hole bound writes)

/-! ### What is faithful shows its value -/

/-- The values that the table has for its holes, and those that it shows. -/
theorem Seated.alike (s : Seated shared ss places) {values : List Value}
    (same : Places.Match places values) {e : NodeId × String × Attributes}
    (he : e ∈ Stem.elementsAll ss) {i : Nat} {b : Binding} (hb : BoundTo e.2.2 i b) :
    (Places.shownAt places i).Alike (Markup.valueAt values i) := by
  obtain ⟨v, hv⟩ := s.place_of_element he hb
  rw [Places.shownAt_of_get hv rfl]
  exact same i _ hv v rfl

theorem markupShapes_congr {looked : Target → Bool} {shown shown' : Nat → Value}
    {attrs : Attributes}
    (h : ∀ i, markupSource? attrs = some (.hole i) → (shown i).Alike (shown' i)) :
    markupShapes (shownMarkup looked) shown attrs = markupShapes (shownMarkup looked) shown' attrs := by
  unfold markupShapes
  cases hs : markupSource? attrs with
  | none => rfl
  | some source =>
    cases source with
    | literal text => rfl
    | hole i =>
      have ha := h i hs
      simp only [ha.null_iff, ha.toText]

/-- A table that fits shows its values, given that its contents do. -/
theorem TableFits.shows (t : TableFits ω clean kept shared ss data fill places)
    (hclean : ∀ i, clean i) (hkept : ∀ n x, ω.looked x = true → kept n x) {values : List Value}
    (same : Places.Match places values)
    (admits : ∀ n attrs shown, TableMounts n attrs shown shared places → ω.Admits n attrs shown)
    (contents : ∀ (i : Nat) (marker : NodeId) (item : Item),
      places[i]? = some (.content marker item) →
      shapes ω.looked (fill marker) = item.shown.shapes ω.looked) :
    shapes ω.looked (Stem.assembleAll data fill ss) =
      Node.shapesAll ω.looked (shownMarkup ω.looked) (Markup.valueAt values)
        (Value.shapesAt ω.looked values) shared.nodes := by
  rw [← t.seated.nodes]
  refine Stem.shapes_assembleAll ss t.seated.proper ⟨t.tag, fun e he x hx => ?_, fun e he => ?_,
    fun m hm => ?_⟩
  · rw [t.reading e he x hx (hkept _ _ hx) fun r hr => t.seated.admits admits he x hx r hr]
    exact look_congr fun j c hj => (t.seated.alike same he hj).written x c
  · rw [t.host e he fun i _ => hclean i]
    obtain ⟨tag, htag⟩ := Stem.elementAll_of_host ss e he
    exact markupShapes_congr fun i hi => t.seated.alike same htag
      ((boundTo_markup (t.seated.attrs_proper htag).1).2 hi)
  · obtain ⟨item, hi⟩ := t.seated.place_of_marker hm
    rw [contents _ _ _ hi, Value.shapesAt_eq]
    exact (same _ _ hi _ rfl).shapes _

theorem shapesAll_of_alike {looked : Target → Bool} {vs ws : List Value}
    (h : List.Forall₂ Value.Alike vs ws) : Value.shapesAll looked vs = Value.shapesAll looked ws := by
  induction h with
  | nil => rfl
  | cons h _ ih => rw [Value.shapesAll, Value.shapesAll, h.shapes, ih]

mutual
/-- A faithful content shows the value. -/
theorem Fits.shapes (hf : faithful) : {v : Value} → {c : Content} → {f : List Subtree} →
    Fits ω faithful v c f →
    (∀ n attrs shown, Mounts n attrs shown c → ω.Admits n attrs shown) →
    Subtree.shapes ω.looked f = v.shapes ω.looked
  | _, _, _, .empty shows, _ => by
      obtain ⟨rfl, hv⟩ := shows hf
      rw [hv.shapes, shapes_nil]
  | _, _, _, .text _ _ shows, _ => by
      obtain ⟨rfl, rfl, hv, rfl⟩ := shows hf
      rw [hv.shapes]
      rfl
  | _, _, _, .nested _ _ table contents shows, admits => by
      obtain ⟨rfl, rfl, handle, values, rfl, same⟩ := shows hf
      have h := table.shows (fun _ => hf) (fun _ _ _ => hf) same (fun n attrs shown hm =>
          admits n attrs shown (.nested hm)) fun i marker item hi =>
        (contents i marker item hi).shapes hf fun n attrs shown hm =>
          admits n attrs shown (.nested (.inside hi hm))
      simp [h, Value.shapes, Subtree.shape, NodeKind.seen]
  | _, .list _, _, .list fits shows, admits => by
      obtain ⟨handle, vs, rfl, same⟩ := shows hf
      rw [Value.shapes, ← shapesAll_of_alike same]
      exact fits.shapes hf fun item hi n attrs shown hm => admits n attrs shown (.item hi hm)

theorem FitsItems.shapes (hf : faithful) : {items : List Item} → {f : List Subtree} →
    FitsItems ω faithful items f →
    (∀ item ∈ items, ∀ n attrs shown, Mounts n attrs shown item.content →
      ω.Admits n attrs shown) →
    Subtree.shapes ω.looked f = Value.shapesAll ω.looked (items.map Item.shown)
  | _, _, .nil shows, _ => by
      rw [shows hf]
      rfl
  | _, _, .cons _ _ head tail, admits => by
      rw [shapes_append, List.map_cons, Value.shapesAll,
        head.shapes hf (admits _ (List.mem_cons_self ..)),
        tail.shapes hf fun item hi => admits item (List.mem_cons_of_mem _ hi)]
end

end LiveTemplate
