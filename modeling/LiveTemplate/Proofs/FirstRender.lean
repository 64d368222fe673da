import LiveTemplate.Proofs.Incremental
import LiveTemplate.Proofs.Literals

/-!
# First renders

A value is rendered into a new document unless a name is in the way: the tag of an element that
it mounts, or the name of an entry that one of these elements spreads. The names of attributes
in a template never are, since the grammar has only names that a document takes. Markup mounts
what it parses to, and markup that does not parse mounts nothing.
-/
namespace LiveTemplate
open Document

/-! ### What a value mounts -/

mutual
/-- An element that is mounted with a node, given the values of the holes there: its tag, its
attributes, and the values of the holes among these. -/
inductive Node.Mounts (tag : String) (attrs : Attributes) (shown : Nat → Value) :
    Node → (Nat → Value) → Prop
  | here (children : List Node) : Node.Mounts tag attrs shown (.element tag attrs children) shown
  | child {outer : String} {others : Attributes} {children : List Node} {values : Nat → Value}
      {n : Node} (source : markupSource? others = none) (mem : n ∈ children)
      (mounts : Node.Mounts tag attrs shown n values) :
      Node.Mounts tag attrs shown (.element outer others children) values
  | content {index : Nat} {values : Nat → Value}
      (mounts : Value.Mounts tag attrs shown (values index)) :
      Node.Mounts tag attrs shown (.hole index) values
  | literalMarkup {outer : String} {others : Attributes} {children : List Node}
      {values : Nat → Value} {markup : String} {s : Skeleton} {n : Node}
      (source : markupSource? others = some (.literal markup))
      (parsed : Skeleton.parse [markup] = .ok s) (mem : n ∈ s.nodes)
      (mounts : Node.Mounts tag attrs shown n fun _ => .null) :
      Node.Mounts tag attrs shown (.element outer others children) values
  | holeMarkup {outer : String} {others : Attributes} {children : List Node}
      {values : Nat → Value} {index : Nat} {s : Skeleton} {n : Node}
      (source : markupSource? others = some (.hole index)) (ne_null : values index ≠ .null)
      (parsed : Skeleton.parse [(values index).toText] = .ok s) (mem : n ∈ s.nodes)
      (mounts : Node.Mounts tag attrs shown n fun _ => .null) :
      Node.Mounts tag attrs shown (.element outer others children) values

/-- An element that is mounted with a value. -/
inductive Value.Mounts (tag : String) (attrs : Attributes) (shown : Nat → Value) : Value → Prop
  | template {handle : Nat} {shared : SharedSkeleton} {values : List Value} {n : Node}
      (mem : n ∈ shared.nodes) (mounts : Node.Mounts tag attrs shown n (Markup.valueAt values)) :
      Value.Mounts tag attrs shown (.template handle shared values)
  | item {handle : Nat} {items : List Value} {v : Value} (mem : v ∈ items)
      (mounts : Value.Mounts tag attrs shown v) : Value.Mounts tag attrs shown (.list handle items)
end

variable {tag : String} {attrs : Attributes} {shown values : Nat → Value}

theorem Value.mounts_parts {v : Value} :
    (∃ n ∈ v.parts.1.nodes, n.Mounts tag attrs shown (Markup.valueAt v.parts.2)) ↔
      v.Mounts tag attrs shown := by
  have bare : (∃ n ∈ SharedSkeleton.bare.nodes, n.Mounts tag attrs shown (Markup.valueAt [v])) ↔
      v.Mounts tag attrs shown := by
    constructor
    · rintro ⟨n, hn, mounts⟩
      obtain rfl := List.mem_singleton.1 hn
      cases mounts with
      | content mounts => exact mounts
    · exact fun mounts => ⟨.hole 0, List.mem_singleton.2 rfl, .content mounts⟩
  cases v with
  | template handle shared values =>
    constructor
    · rintro ⟨n, hn, mounts⟩
      exact .template hn mounts
    · rintro (⟨hn, mounts⟩)
      exact ⟨_, hn, mounts⟩
  | _ => exact bare

/-! ### Names that are refused -/

/-- An entry of a mapping, or of a mapping that is spread in it, writes an attribute under a
name that no document takes. -/
inductive Refused : List (String × Value) → Prop
  | plain {entries : List (String × Value)} {name bare : String} {v : Value}
      (mem : (name, v) ∈ entries) (bound : Binding.ofEntryName? name = some (.attribute bare))
      (ne_null : v ≠ .null) (invalid : isValidAttributeName bare = false) : Refused entries
  | presence {entries : List (String × Value)} {name bare : String} {v : Value}
      (mem : (name, v) ∈ entries) (bound : Binding.ofEntryName? name = some (.presence bare))
      (truthy : v.isTruthy = true) (invalid : isValidAttributeName bare = false) : Refused entries
  | nested {entries inner : List (String × Value)} {name : String} {handle : Nat}
      (mem : (name, .attributes handle inner) ∈ entries)
      (bound : Binding.ofEntryName? name = some .spread) (refused : Refused inner) : Refused entries

theorem Refused.mono {entries more : List (String × Value)} (h : Refused entries)
    (sub : entries ⊆ more) : Refused more := by
  cases h with
  | plain mem bound ne_null invalid => exact .plain (sub mem) bound ne_null invalid
  | presence mem bound truthy invalid => exact .presence (sub mem) bound truthy invalid
  | nested mem bound refused => exact .nested (sub mem) bound refused

theorem WritableEntries.of_mem {entries : List (String × Value)} (h : WritableEntries entries)
    {name : String} {v : Value} (mem : (name, v) ∈ entries) {b : Binding}
    (bound : Binding.ofEntryName? name = some b) : Writable b v := by
  induction entries with
  | nil => simp at mem
  | cons e rest ih =>
    rcases List.mem_cons.1 mem with rfl | mem
    · exact h.1 b bound
    · exact ih h.2 mem

theorem Refused.not_writable {entries : List (String × Value)} (h : Refused entries) :
    ¬WritableEntries entries := by
  induction h with
  | plain mem bound ne_null invalid =>
    intro h
    have accepts := (writable_direct (by simp) _).1 (h.of_mem mem bound)
    simp [Binding.Accepts, ne_null, invalid] at accepts
  | presence mem bound truthy invalid =>
    intro h
    have accepts := (writable_direct (by simp) _).1 (h.of_mem mem bound)
    simp [Binding.Accepts, truthy, invalid] at accepts
  | nested mem bound refused ih =>
    exact fun h => ih ((writable_spread _).1 (h.of_mem mem bound))

mutual
theorem refused_of_not_writable : (v : Value) → ¬Writable .spread v →
    ∃ handle entries, v = .attributes handle entries ∧ Refused entries
  | .attributes handle entries, h => by
      rw [writable_spread] at h
      exact ⟨handle, entries, rfl, refused_of_not_writableEntries entries h⟩
  | .null, h => absurd trivial h
  | .bool _, h => absurd trivial h
  | .number _, h => absurd trivial h
  | .text _, h => absurd trivial h
  | .template .., h => absurd trivial h
  | .list .., h => absurd trivial h
  | .callback _, h => absurd trivial h
  | .cell _, h => absurd trivial h
  | .payload _, h => absurd trivial h
termination_by structural v => v

/-- A mapping that cannot be written has an entry that is refused. -/
theorem refused_of_not_writableEntries : (entries : List (String × Value)) →
    ¬WritableEntries entries → Refused entries
  | [], h => absurd trivial h
  | (name, v) :: rest, h => by
      have later := refused_of_not_writableEntries rest
      have spread := refused_of_not_writable v
      by_cases first : ∀ b, Binding.ofEntryName? name = some b → Writable b v
      · exact (later fun others => h ⟨first, others⟩).mono (List.subset_cons_self ..)
      · simp only [not_forall] at first
        obtain ⟨b, bound, first⟩ := first
        by_cases hb : b = .spread
        · subst hb
          obtain ⟨handle, entries, rfl, refused⟩ := spread first
          exact .nested (List.mem_cons_self ..) bound refused
        · rw [writable_direct hb] at first
          rcases b with bare | bare | _ | _ | _ | _ | _
          · simp only [Binding.Accepts, Classical.not_imp, Bool.not_eq_true] at first
            exact .plain (List.mem_cons_self ..) bound first.1 first.2
          · simp only [Binding.Accepts, Classical.not_imp, Bool.not_eq_true] at first
            exact .presence (List.mem_cons_self ..) bound first.1 first.2
          all_goals exact absurd trivial first
termination_by structural entries => entries
end

/-! ### Names of the grammar -/

/-- A tag starts with a letter from A to Z, in either case. -/
def StartsWithLetter (tag : String) : Prop := ∃ c ∈ tag.toList.head?, c.isAlpha = true

/-- Of the tags that the grammar has, a document takes those that start with a letter. -/
theorem isValidTag_iff (h : IsTagName tag.toList) : isValidTag tag = true ↔ StartsWithLetter tag := by
  obtain ⟨-, chars⟩ := h
  unfold isValidTag StartsWithLetter
  cases hcs : tag.toList with
  | nil => simp
  | cons c rest =>
    have others : rest.all (fun c => c.isAlphanum || c == '-') = true :=
      List.all_eq_true.2 fun c hc => chars c (hcs ▸ List.mem_cons_of_mem _ hc)
    simp [others]

/-- What a name of the grammar binds can be written, whatever the value is. -/
theorem IsBindingName.accepts {name : String} (h : IsBindingName name) {b : Binding}
    (hb : Binding.ofName? name = some b) (v : Value) : b.Accepts v := by
  rcases b with bare | bare | _ | _ | _ | _ | _
  · exact fun _ => (h.bare hb (.inl rfl)).isAttrName.isValidAttributeName
  · exact fun _ => (h.bare hb (.inr rfl)).isAttrName.isValidAttributeName
  all_goals trivial

/-! ### Elements that are accepted -/

/-- An element that a document takes, with all that its spreads write. -/
def Acceptable (tag : String) (attrs : Attributes) (shown : Nat → Value) : Prop :=
  isValidTag tag = true ∧
    ∀ i, (Binding.spreadName, AttrValue.hole i) ∈ attrs → WritableEntries (shown i).entries

/-- All elements that are mounted with a node are accepted. -/
def Node.Accepted (values : Nat → Value) (n : Node) : Prop :=
  ∀ tag attrs shown, n.Mounts tag attrs shown values → Acceptable tag attrs shown

def Value.Accepted (v : Value) : Prop :=
  ∀ tag attrs shown, v.Mounts tag attrs shown → Acceptable tag attrs shown

/-- All elements that markup mounts are accepted. -/
def MarkupAccepted (markup : String) : Prop :=
  ∀ s, Skeleton.parse [markup] = .ok s → ∀ n ∈ s.nodes, n.Accepted fun _ => .null

/-- The markup that an element shows in place of its children is accepted. -/
structure SourceAccepted (values : Nat → Value) (attrs : Attributes) : Prop where
  literal : ∀ markup, markupSource? attrs = some (.literal markup) → MarkupAccepted markup
  hole : ∀ i, markupSource? attrs = some (.hole i) → values i ≠ .null →
    MarkupAccepted (values i).toText

theorem Node.accepted_element {children : List Node} :
    (Node.element tag attrs children).Accepted values ↔
      Acceptable tag attrs values ∧ SourceAccepted values attrs ∧
        (markupSource? attrs = none → ∀ n ∈ children, n.Accepted values) := by
  constructor
  · intro h
    refine ⟨h _ _ _ (.here children), ⟨?_, ?_⟩, ?_⟩
    · exact fun markup source s parsed n mem _ _ _ mounts =>
        h _ _ _ (.literalMarkup source parsed mem mounts)
    · exact fun i source ne_null s parsed n mem _ _ _ mounts =>
        h _ _ _ (.holeMarkup source ne_null parsed mem mounts)
    · exact fun source n mem _ _ _ mounts => h _ _ _ (.child source mem mounts)
  · rintro ⟨here, source, kids⟩ _ _ _ mounts
    cases mounts with
    | here => exact here
    | child none mem mounts => exact kids none _ mem _ _ _ mounts
    | literalMarkup found parsed mem mounts =>
      exact source.literal _ found _ parsed _ mem _ _ _ mounts
    | holeMarkup found ne_null parsed mem mounts =>
      exact source.hole _ found ne_null _ parsed _ mem _ _ _ mounts

theorem Node.accepted_text {data : String} : (Node.text data).Accepted values :=
  fun _ _ _ mounts => nomatch mounts

theorem Node.accepted_hole {index : Nat} :
    (Node.hole index).Accepted values ↔ (values index).Accepted := by
  constructor
  · exact fun h _ _ _ mounts => h _ _ _ (.content mounts)
  · rintro h _ _ _ (_ | _ | mounts)
    exact h _ _ _ mounts

theorem Value.accepted_null : Value.null.Accepted := by
  intro tag attrs shown mounts
  cases mounts

theorem Value.accepted_template {handle : Nat} {shared : SharedSkeleton} {values : List Value} :
    (Value.template handle shared values).Accepted ↔
      ∀ n ∈ shared.nodes, n.Accepted (Markup.valueAt values) := by
  constructor
  · exact fun h n mem _ _ _ mounts => h _ _ _ (.template mem mounts)
  · rintro h _ _ _ (⟨mem, mounts⟩)
    exact h _ mem _ _ _ mounts

theorem Value.accepted_list {handle : Nat} {items : List Value} :
    (Value.list handle items).Accepted ↔ ∀ v ∈ items, v.Accepted := by
  constructor
  · exact fun h v mem _ _ _ mounts => h _ _ _ (.item mem mounts)
  · rintro h _ _ _ (_ | ⟨mem, mounts⟩)
    exact h _ mem _ _ _ mounts

/-! ### Accepted is what can be rendered -/

/-- The values of the holes that an element shows as attributes can be applied, given its
names, if its spreads can be written and its markup shown. -/
theorem applicable_iff (nodup : (Entries.names attrs).Nodup)
    (named : ∀ name ∈ Entries.names attrs, IsBindingName name) :
    (∀ i b, BoundTo attrs i b → Applicable b (values i)) ↔
      (∀ i, (Binding.spreadName, AttrValue.hole i) ∈ attrs → WritableEntries (values i).entries) ∧
        ∀ i, markupSource? attrs = some (.hole i) → values i ≠ .null →
          ShowableMarkup (values i).toText := by
  have hspread : Binding.ofName? Binding.spreadName = some .spread := by decide
  constructor
  · refine fun h => ⟨fun i mem => ?_, fun i source => ?_⟩
    · have applicable := h i .spread ⟨_, mem, hspread⟩
      rwa [Applicable, if_neg (by simp), writable_spread] at applicable
    · simpa [Applicable] using h i .markup ((boundTo_markup nodup).2 source)
  · rintro ⟨spread, markup⟩ i b bound
    unfold Applicable
    split
    next hb => exact markup i ((boundTo_markup nodup).1 (hb ▸ bound))
    next =>
      obtain ⟨name, mem, hb⟩ := bound
      by_cases hs : b = .spread
      · subst hs
        obtain rfl := Binding.ofName?_eq_spread hb
        exact (writable_spread _).2 (spread i mem)
      · exact (writable_direct hs _).2 ((named name (List.mem_map_of_mem mem)).accepts hb _)

theorem literalsAccepted_iff {markup : String → Prop} (nodup : (Entries.names attrs).Nodup)
    (named : ∀ name ∈ Entries.names attrs, IsBindingName name) :
    Node.LiteralsAccepted markup attrs ↔
      ∀ text, markupSource? attrs = some (.literal text) → markup text := by
  constructor
  · intro h text source
    have := h _ (Entries.mem_of_get? source) text rfl .markup (Binding.ofName?_eq_markup.2 rfl)
    simpa using this
  · rintro h ⟨name, value⟩ mem text rfl b hb
    split
    next hmarkup =>
      subst hmarkup
      obtain rfl := Binding.ofName?_eq_markup.1 hb
      exact h text (Entries.get?_of_mem nodup mem)
    next => exact (named name (List.mem_map_of_mem mem)).accepts hb _

/-- What can be shown at a seat, given which contents can be. -/
def Seat.Shows (content : Nat → Prop) (values : Nat → Value) (s : Nat × Seat) : Prop :=
  match s.2 with
  | .attribute b _ => Applicable b (values s.1)
  | .content => content s.1

section
variable {markup : String → Prop} {content : Nat → Prop}

/-- Whether markup can be shown is known for what an element has in place of its children. -/
def SourceKnown (markup : String → Prop) (values : Nat → Value) (attrs : Attributes) : Prop :=
  (∀ text, markupSource? attrs = some (.literal text) → (markup text ↔ MarkupAccepted text)) ∧
    ∀ i, markupSource? attrs = some (.hole i) → values i ≠ .null →
      (ShowableMarkup (values i).toText ↔ MarkupAccepted (values i).toText)

theorem SourceKnown.accepted_iff (known : SourceKnown markup values attrs) :
    SourceAccepted values attrs ↔
      (∀ text, markupSource? attrs = some (.literal text) → markup text) ∧
        ∀ i, markupSource? attrs = some (.hole i) → values i ≠ .null →
          ShowableMarkup (values i).toText := by
  constructor
  · exact fun h => ⟨fun text source => (known.1 text source).2 (h.literal text source),
      fun i source hv => (known.2 i source hv).2 (h.hole i source hv)⟩
  · exact fun h => ⟨fun text source => (known.1 text source).1 (h.1 text source),
      fun i source hv => (known.2 i source hv).1 (h.2 i source hv)⟩

mutual
theorem Node.accepted_iff : (n : Node) → n.Proper →
    n.Every (SourceKnown markup values) (fun _ => True)
      (fun i => content i ↔ (values i).Accepted) →
    (n.Accepted values ↔ n.Mountable markup ∧ ∀ s ∈ n.seats, Seat.Shows content values s)
  | .element tag attrs children, proper, every => by
      obtain ⟨-, nodup, named, -, kids⟩ := proper
      obtain ⟨known, below⟩ := every
      have seats : (∀ s ∈ attrSeats attrs, Seat.Shows content values s) ↔
          ∀ i b, BoundTo attrs i b → Applicable b (values i) := by
        constructor
        · exact fun h i b bound => h _ (Stem.mem_attrSeats.2 ⟨b, bound, rfl⟩)
        · rintro h ⟨i, s⟩ mem
          obtain ⟨b, bound, rfl⟩ := Stem.mem_attrSeats.1 mem
          exact h i b bound
      rw [Node.accepted_element, known.accepted_iff, Mountable, literalsAccepted_iff nodup named,
        Node.seats, List.forall_mem_append, seats, applicable_iff nodup named, Acceptable]
      cases source : markupSource? attrs with
      | none =>
        simp only [Option.isSome_none, Bool.false_eq_true, if_false, true_implies,
          Node.acceptedAll_iff children kids below]
        tauto
      | some given => simp [and_assoc, and_left_comm]
  | .text _, _, _ => by simp [Node.accepted_text, Mountable, Node.seats]
  | .hole index, _, every => by
      have known : content index ↔ (values index).Accepted := every
      rw [Node.accepted_hole, ← known]
      simp [Mountable, Node.seats, Seat.Shows]
termination_by structural n => n

/-- All elements of some nodes are accepted if the nodes can be mounted and the values of all
their holes shown. -/
theorem Node.acceptedAll_iff : (ns : List Node) → Node.ProperAll ns →
    Node.EveryAll (SourceKnown markup values) (fun _ => True)
      (fun i => content i ↔ (values i).Accepted) ns →
    ((∀ n ∈ ns, n.Accepted values) ↔
      Node.MountableAll markup ns ∧ ∀ s ∈ Node.seatsAll ns, Seat.Shows content values s)
  | [], _, _ => by simp [Node.MountableAll, Node.seatsAll]
  | n :: rest, proper, every => by
      rw [List.forall_mem_cons, Node.accepted_iff n proper.1 every.1,
        Node.acceptedAll_iff rest proper.2 every.2, Node.MountableAll, Node.seatsAll,
        List.forall_mem_append]
      tauto
termination_by structural ns => ns
end

end

namespace Node
variable {P P' : Attributes → Prop} {Q Q' : String → Prop} {C C' : Nat → Prop}

mutual
theorem Every.mono (attrs : ∀ as, P as → P' as) (texts : ∀ s, Q s → Q' s) (holes : ∀ i, C i → C' i) :
    (n : Node) → n.Every P Q C → n.Every P' Q' C'
  | .element _ as children, every =>
      ⟨attrs as every.1, EveryAll.mono attrs texts holes children every.2⟩
  | .text data, every => texts data every
  | .hole index, every => holes index every
termination_by structural n => n

theorem EveryAll.mono (attrs : ∀ as, P as → P' as) (texts : ∀ s, Q s → Q' s)
    (holes : ∀ i, C i → C' i) : (ns : List Node) → EveryAll P Q C ns → EveryAll P' Q' C' ns
  | [], _ => trivial
  | n :: rest, every =>
      ⟨Every.mono attrs texts holes n every.1, EveryAll.mono attrs texts holes rest every.2⟩
termination_by structural ns => ns
end

end Node

/-- The absent value can be applied anywhere. -/
theorem applicable_null (b : Binding) : Applicable b .null := by
  unfold Applicable
  split
  · simp
  · cases b <;> simp [Writable, Binding.Accepts, Value.isTruthy]

/-- At a depth that is more than the size of the markup, all elements that are mounted with it
are looked at. -/
theorem fillable_iff {markup : String} {depth : Nat} (h : markup.utf8ByteSize < depth) :
    Fillable depth markup ↔ MarkupAccepted markup := by
  induction depth generalizing markup with
  | zero => exact absurd h (Nat.not_lt_zero _)
  | succ depth ih =>
    cases parsed : Skeleton.parse [markup] with
    | error e => simp [Fillable, MarkupAccepted, parsed]
    | ok s =>
      have proper := (Skeleton.parse_wellFormed parsed).proper
      have known : Node.EveryAll (SourceKnown (Fillable depth) fun _ => .null) (fun _ => True)
          (fun _ => True ↔ Value.Accepted .null) s.nodes := by
        refine Node.EveryAll.mono (fun attrs shorter => ⟨fun text source => ih ?_, by simp⟩)
          (fun _ _ => trivial) (fun _ _ => iff_of_true trivial Value.accepted_null)
          _ (Skeleton.parse_shorter parsed)
        exact (shorter _ _ (Entries.mem_of_get? source)).trans_le (Nat.le_of_lt_succ h)
      have absent : ∀ seat ∈ Node.seatsAll s.nodes,
          Seat.Shows (fun _ => True) (fun _ => .null) seat := by
        rintro ⟨i, _ | _⟩ -
        · exact applicable_null _
        · trivial
      have all := Node.acceptedAll_iff s.nodes proper known
      rw [and_iff_left absent] at all
      simp [Fillable, MarkupAccepted, parsed, all]

theorem showableMarkup_iff {markup : String} : ShowableMarkup markup ↔ MarkupAccepted markup :=
  fillable_iff (Nat.lt_succ_self _)

theorem fillsRenderably_iff {shared : SharedSkeleton} (made : shared.Made) {content : Nat → Prop}
    (contents : ∀ i, content i ↔ (values i).Accepted) :
    (∀ n ∈ shared.nodes, n.Accepted values) ↔
      Node.MountableAll ShowableMarkup shared.nodes ∧
        ∀ s ∈ Node.seatsAll shared.nodes, Seat.Shows content values s := by
  have named : Node.NamedAll shared.nodes := by
    rcases made with rfl | ⟨fragments, h⟩
    · exact ⟨trivial, trivial⟩
    · exact Skeleton.parse_named h
  refine Node.acceptedAll_iff shared.nodes made.wellFormed.proper
    (Node.EveryAll.mono (fun attrs _ => ?_) (fun _ _ => trivial) (fun i _ => contents i) _ named)
  exact ⟨fun _ _ => showableMarkup_iff, fun _ _ _ => showableMarkup_iff⟩

namespace Value

mutual
theorem renderable_iff : (v : Value) → v.Built → (v.Renderable ↔ v.Accepted)
  | .template _ shared values, built => by
      rw [accepted_template, fillsRenderably_iff built.1 (renderableAt_iff_accepted values built.2.2)]
      exact Iff.rfl
  | .list _ items, built => by
      rw [accepted_list]
      exact renderableAll_iff_accepted items built
  | .null, _ => iff_of_true trivial accepted_null
  | .bool _, _ => ⟨fun _ _ _ _ mounts => (nomatch mounts), fun _ => trivial⟩
  | .number _, _ => ⟨fun _ _ _ _ mounts => (nomatch mounts), fun _ => trivial⟩
  | .text _, _ => ⟨fun _ _ _ _ mounts => (nomatch mounts), fun _ => trivial⟩
  | .attributes .., _ => ⟨fun _ _ _ _ mounts => (nomatch mounts), fun _ => trivial⟩
  | .callback _, _ => ⟨fun _ _ _ _ mounts => (nomatch mounts), fun _ => trivial⟩
  | .cell _, _ => ⟨fun _ _ _ _ mounts => (nomatch mounts), fun _ => trivial⟩
  | .payload _, _ => ⟨fun _ _ _ _ mounts => (nomatch mounts), fun _ => trivial⟩
termination_by structural v => v

theorem renderableAll_iff_accepted : (vs : List Value) → BuiltAll vs →
    (RenderableAll vs ↔ ∀ v ∈ vs, v.Accepted)
  | [], _ => by simp [RenderableAll]
  | v :: rest, built => by
      rw [RenderableAll, List.forall_mem_cons, renderable_iff v built.1,
        renderableAll_iff_accepted rest built.2]
termination_by structural vs => vs

theorem renderableAt_iff_accepted : (vs : List Value) → BuiltAll vs → (i : Nat) →
    (RenderableAt vs i ↔ (Markup.valueAt vs i).Accepted)
  | [], _, _ => iff_of_true trivial accepted_null
  | v :: _, built, 0 => renderable_iff v built.1
  | _ :: rest, built, i + 1 => renderableAt_iff_accepted rest built.2 i
termination_by structural vs => vs
end

/-- A value is rendered on its own if and only if all elements that it mounts are accepted. -/
theorem renderAlone_accepted {v : Value} (built : v.Built) :
    v.renderAlone.failure = none ↔ v.Accepted := by
  obtain ⟨made, -, builtAll⟩ := Renderer.parts_built built
  have contents : ∀ i, (Markup.valueAt v.parts.2 i).Renderable ↔
      (Markup.valueAt v.parts.2 i).Accepted := fun i => renderable_iff _ (built_valueAt builtAll i)
  rw [renderAlone_failure built]
  refine (fillsRenderably_iff made contents).symm.trans ?_
  constructor
  · intro h tag attrs shown mounts
    obtain ⟨n, mem, mounts⟩ := mounts_parts.2 mounts
    exact h n mem tag attrs shown mounts
  · exact fun h n mem tag attrs shown mounts => h tag attrs shown (mounts_parts.1 ⟨n, mem, mounts⟩)

end Value

/-- Markup that does not parse is shown as a text. -/
theorem Live.showMarkup_of_error {markup : String} {e : ParseError}
    (unparsed : Skeleton.parse [markup] = .error e) {h : Host} {node : NodeId} {kids : List Subtree}
    (b : Block h.document node [] kids []) : ∃ h', (showMarkup node markup).run h = .ok () h' := by
  have runs := fillMarkup_fills (fun _ => false) (markup.utf8ByteSize + 1) kids (by simp) h node markup b
  unfold Runs at runs
  split at runs
  next h' hrun => exact ⟨h', hrun⟩
  next => simp [Fillable, unparsed] at runs

/-! ### Why a render fails -/

theorem Node.properAll_of_mem {ns : List Node} (h : ProperAll ns) {n : Node} (mem : n ∈ ns) :
    n.Proper := by
  induction ns with
  | nil => simp at mem
  | cons m rest ih =>
    rcases List.mem_cons.1 mem with rfl | mem
    · exact h.1
    · exact ih h.2 mem

mutual
theorem Node.Mounts.isTagName : {n : Node} → {values : Nat → Value} →
    n.Mounts tag attrs shown values → n.Proper → (∀ i, (values i).Built) → IsTagName tag.toList
  | _, _, .here _, proper, _ => proper.1
  | _, _, .child _ mem mounts, proper, built =>
      mounts.isTagName (Node.properAll_of_mem proper.2.2.2.2 mem) built
  | _, _, .content mounts, _, built => mounts.isTagName (built _)
  | _, _, .literalMarkup _ parsed mem mounts, _, _ =>
      mounts.isTagName (Node.properAll_of_mem (Skeleton.parse_wellFormed parsed).proper mem)
        fun _ => trivial
  | _, _, .holeMarkup _ _ parsed mem mounts, _, _ =>
      mounts.isTagName (Node.properAll_of_mem (Skeleton.parse_wellFormed parsed).proper mem)
        fun _ => trivial

/-- The tag of an element that is mounted is one of the grammar. -/
theorem Value.Mounts.isTagName : {v : Value} → v.Mounts tag attrs shown → v.Built →
    IsTagName tag.toList
  | _, .template mem mounts, built =>
      mounts.isTagName (Node.properAll_of_mem built.1.wellFormed.proper mem)
        (built_valueAt built.2.2)
  | _, .item mem mounts, built => mounts.isTagName (Value.builtAll_iff.1 built _ mem)
end

namespace Value

/-- A value that is rendered into a new document fails if and only if an element that it mounts
has a tag that does not start with a letter, or spreads a mapping with an entry that is refused.
No name of an attribute that is read in a start tag is refused, and markup that does not parse
can be put into every element. -/
theorem renderAlone_fails_iff {v : Value} (built : v.Built) :
    (v.renderAlone.failure ≠ none ↔
      (∃ tag attrs shown, v.Mounts tag attrs shown ∧ ¬StartsWithLetter tag) ∨
        ∃ tag attrs shown i handle entries, v.Mounts tag attrs shown ∧
          (Binding.spreadName, AttrValue.hole i) ∈ attrs ∧
          shown i = .attributes handle entries ∧ Refused entries) ∧
      (∀ cs run rest bare, Token.Tag.scan? cs = some (.name run, rest) →
        (Binding.ofName? (String.ofList run) = some (.attribute bare) ∨
          Binding.ofName? (String.ofList run) = some (.presence bare)) →
        isValidAttributeName bare = true) ∧
      ∀ markup e, Skeleton.parse [markup] = .error e → ∀ (h : Host) (node : NodeId)
        (kids : List Subtree), Block h.document node [] kids [] →
        ∃ h', (Live.showMarkup node markup).run h = .ok () h' := by
  refine ⟨?_, ?_, ?_⟩
  · rw [ne_eq, renderAlone_accepted built]
    constructor
    · intro h
      simp only [Accepted, not_forall] at h
      obtain ⟨tag, attrs, shown, mounts, refused⟩ := h
      rw [Acceptable, isValidTag_iff (mounts.isTagName built), not_and_or] at refused
      rcases refused with letter | refused
      · exact .inl ⟨tag, attrs, shown, mounts, letter⟩
      · simp only [not_forall] at refused
        obtain ⟨i, mem, refused⟩ := refused
        rw [← writable_spread] at refused
        obtain ⟨handle, entries, shows, refused⟩ := refused_of_not_writable _ refused
        exact .inr ⟨tag, attrs, shown, i, handle, entries, mounts, mem, shows, refused⟩
    · rintro (⟨tag, attrs, shown, mounts, letter⟩ |
        ⟨tag, attrs, shown, i, handle, entries, mounts, mem, shows, refused⟩) accepted
      · exact letter ((isValidTag_iff (mounts.isTagName built)).1 (accepted _ _ _ mounts).1)
      · have writable := (accepted _ _ _ mounts).2 i mem
        rw [shows] at writable
        exact refused.not_writable writable
  · intro cs run rest bare scanned bound
    have name : IsBindingName (String.ofList run) := .inr (by
      rw [String.toList_ofList]
      exact Token.Tag.scan?_name scanned)
    rcases bound with bound | bound
    · exact (name.bare bound (.inl rfl)).isAttrName.isValidAttributeName
    · exact (name.bare bound (.inr rfl)).isAttrName.isValidAttributeName
  · exact fun markup e unparsed h node kids => Live.showMarkup_of_error unparsed

/-- A mapping that is spread from one that is spread, with a blank in a name. -/
theorem renderAlone_fails_nested :
    let v := spreadOver 0 0 2 [(Binding.spreadName, .attributes 1 [("a b", .text "c")])]
    v.Built ∧ v.renderAlone.failure ≠ none := by
  intro v
  have built : v.Built := by
    refine ⟨.inr ⟨_, Skeleton.parse_spreadDiv⟩, rfl, ⟨by decide, ⟨by decide, ?_⟩, trivial⟩, trivial⟩
    simp [BuiltEntries, Built]
  have plain : Refused [("a b", .text "c")] :=
    @Refused.plain _ _ "a b" _ (List.mem_cons_self ..) (by decide) (by simp) (by decide)
  have refused : Refused [(Binding.spreadName, .attributes 1 [("a b", .text "c")])] :=
    .nested (List.mem_cons_self ..) (by decide) plain
  have mounts : v.Mounts "div" [(Binding.spreadName, .hole 0)] _ :=
    .template (List.mem_cons_self ..) (.here [])
  exact ⟨built, (renderAlone_fails_iff built).1.2
    (.inr ⟨_, _, _, 0, _, _, mounts, List.mem_cons_self .., rfl, refused⟩)⟩

end Value

end LiveTemplate
