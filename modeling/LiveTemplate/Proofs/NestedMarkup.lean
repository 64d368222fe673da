import LiveTemplate.Live.Mount
import LiveTemplate.Proofs.Literals

/-!
# Markup in markup

Markup that is shown can hold literals that are markup again, and so on. One call shows the
outermost of it and calls itself for the literals in it, each of which is shorter than what it
stands in. So the calls come to an end: unrolled as often as the markup has bytes, and once
more, they show all of it, whatever would be done further down. The depth that bounds them
where they run is never used up, and leaves no trace in what they do.
-/
namespace LiveTemplate
open Text

/-! ### Markup that is mounted -/

/-- The literals among attributes that are markup. -/
def literalMarkups (attrs : List (String × AttrValue)) : List String :=
  attrs.filterMap fun (name, value) =>
    match Binding.ofName? name, value with
    | some .markup, .literal s => some s
    | _, _ => none

namespace Node

mutual
/-- The markup that is shown where a node is mounted. Children that markup stands in place of
are not mounted. -/
def markups : Node → List String
  | .element _ attrs children =>
      literalMarkups attrs ++ if (markupSource? attrs).isSome then [] else markupsAll children
  | .text _ => []
  | .hole _ => []
termination_by structural n => n

def markupsAll : List Node → List String
  | [] => []
  | n :: rest => n.markups ++ markupsAll rest
termination_by structural ns => ns
end

end Node

/-- The inner text is shown by a call for the outer one. -/
def Nests (outer inner : String) : Prop :=
  ∃ s, Skeleton.parse [outer] = .ok s ∧ inner ∈ Node.markupsAll s.nodes

variable {size : Nat}

theorem LiteralsShorter.markups {attrs : List (String × AttrValue)} (h : LiteralsShorter size attrs)
    {text : String} (ht : text ∈ literalMarkups attrs) : text.utf8ByteSize < size := by
  obtain ⟨⟨name, value⟩, ha, hb⟩ := List.mem_filterMap.1 ht
  cases value with
  | literal s =>
    simp only at hb
    split at hb
    next hs =>
      obtain rfl : s = text := by simpa using (AttrValue.literal.inj hs).trans (Option.some.inj hb)
      exact h name s ha
    next => contradiction
  | hole index => simp at hb

namespace Node

mutual
theorem Shorter.markups : (n : Node) → n.Shorter size → ∀ inner ∈ n.markups, inner.utf8ByteSize < size
  | .element _ attrs children, h, inner, ht => by
      rw [Node.markups, List.mem_append] at ht
      cases ht with
      | inl here => exact h.1.markups here
      | inr below =>
        split at below
        · simp at below
        · exact ShorterAll.markups children h.2 inner below
  | .text _, _, _, ht => by simp [Node.markups] at ht
  | .hole _, _, _, ht => by simp [Node.markups] at ht
termination_by structural n => n

theorem ShorterAll.markups : (ns : List Node) → ShorterAll size ns →
    ∀ inner ∈ markupsAll ns, inner.utf8ByteSize < size
  | [], _, _, ht => by simp [markupsAll] at ht
  | n :: rest, h, inner, ht => by
      rw [markupsAll, List.mem_append] at ht
      cases ht with
      | inl here => exact Shorter.markups n h.1 inner here
      | inr behind => exact ShorterAll.markups rest h.2 inner behind
termination_by structural ns => ns
end

end Node

/-- Markup inside markup is shorter. -/
theorem Nests.lt {outer inner : String} (h : Nests outer inner) :
    inner.utf8ByteSize < outer.utf8ByteSize := by
  obtain ⟨s, parsed, mem⟩ := h
  exact Node.ShorterAll.markups s.nodes (Skeleton.parse_shorter parsed) inner mem

/-- Of markups that stand one inside the other there are no more than the outermost has bytes,
and one. -/
theorem length_le_of_nests {markup : String} {inner : List String}
    (h : List.IsChain Nests (markup :: inner)) :
    (markup :: inner).length ≤ markup.utf8ByteSize + 1 := by
  induction inner generalizing markup with
  | nil => simp
  | cons next inner ih =>
    rw [List.isChain_cons_cons] at h
    have shorter := h.1.lt
    have below := ih h.2
    simp only [List.length_cons] at below ⊢
    omega

/-- Three calls, one inside the other. -/
example : List.IsChain Nests
    ["<b unsafe-html='<i unsafe-html=x>'>", "<i unsafe-html=x>", "x"] := by
  have outer : Nests "<b unsafe-html='<i unsafe-html=x>'>" "<i unsafe-html=x>" :=
    ⟨⟨[.element "b" [("unsafe-html", .literal "<i unsafe-html=x>")] []], 0⟩,
      by decide +kernel, by decide +kernel⟩
  have inner : Nests "<i unsafe-html=x>" "x" :=
    ⟨⟨[.element "i" [("unsafe-html", .literal "x")] []], 0⟩, by decide +kernel, by decide +kernel⟩
  simp [outer, inner]

/-! ### One call -/

namespace Live

/-- What is called to show markup in place of the children of a node. -/
abbrev MarkupCall := NodeId → String → HostM Unit

/-- One call, with the calls inside it left to another. -/
def showOnce (inner : MarkupCall) : MarkupCall := fun node markup => do
  Host.removeChildren node
  match Skeleton.parse [markup] with
  | .ok skeleton => do
      let _ ← mountNodes inner node skeleton.nodes
  | .error _ => do
      let text ← Host.create (.text markup)
      Host.appendChild node text

/-- Calls that go down so far, and below that whatever else is given. -/
def unrolled (below : MarkupCall) : Nat → MarkupCall
  | 0 => below
  | depth + 1 => showOnce (unrolled below depth)

variable {f g : MarkupCall}

theorem mountAttributes_congr {attrs : List (String × AttrValue)}
    (same : ∀ text ∈ literalMarkups attrs, ∀ node, f node text = g node text) (node : NodeId) :
    mountAttributes f node attrs = mountAttributes g node attrs := by
  induction attrs with
  | nil => rfl
  | cons a rest ih =>
    obtain ⟨name, value⟩ := a
    have later := ih fun text ht => same text (by
      rw [literalMarkups, List.filterMap_cons]
      split
      · exact ht
      · exact List.mem_cons_of_mem _ ht)
    simp only [mountAttributes, later]
    split
    next => rfl
    next hname => rw [same _ (by simp [literalMarkups, hname])]
    next => rfl
    next => rfl

mutual
/-- A node is mounted alike by two calls that show its markup alike. -/
theorem mountNode_congr (parent : NodeId) : (n : Node) →
    (∀ text ∈ n.markups, ∀ node, f node text = g node text) →
    mountNode f parent n = mountNode g parent n
  | .element tag attrs children, same => by
      have own : ∀ node, mountAttributes f node attrs = mountAttributes g node attrs :=
        mountAttributes_congr fun text ht => same text (List.mem_append_left _ ht)
      simp only [mountNode, own]
      split
      next => rfl
      next unowned =>
        have inside : ∀ node, mountNodes f node children = mountNodes g node children := fun node =>
          mountNodes_congr node children fun text ht => same text (by
            rw [Node.markups, if_neg unowned]
            exact List.mem_append_right _ ht)
        simp only [inside]
  | .text _, _ => rfl
  | .hole _, _ => rfl
termination_by structural n => n

theorem mountNodes_congr (parent : NodeId) : (ns : List Node) →
    (∀ text ∈ Node.markupsAll ns, ∀ node, f node text = g node text) →
    mountNodes f parent ns = mountNodes g parent ns
  | [], _ => rfl
  | n :: rest, same => by
      have first := mountNode_congr parent n fun text ht => same text (List.mem_append_left _ ht)
      have others := mountNodes_congr parent rest fun text ht =>
        same text (List.mem_append_right _ ht)
      simp only [mountNodes, first, others]
termination_by structural ns => ns
end

/-- A call depends on the calls inside it for shorter markup only. -/
theorem showOnce_congr {markup : String}
    (same : ∀ text, text.utf8ByteSize < markup.utf8ByteSize → ∀ node, f node text = g node text)
    (node : NodeId) : showOnce f node markup = showOnce g node markup := by
  unfold showOnce
  cases parsed : Skeleton.parse [markup] with
  | error e => rfl
  | ok s =>
    have nodes : mountNodes f node s.nodes = mountNodes g node s.nodes :=
      mountNodes_congr node s.nodes fun text ht => same text (Nests.lt ⟨s, parsed, ht⟩)
    simp only [nodes]

/-! ### All calls -/

/-- Below as many calls as the markup has bytes, and one, nothing is called any more. -/
theorem unrolled_eq (below below' : MarkupCall) {depth depth' : Nat} {markup : String}
    (h : markup.utf8ByteSize < depth) (h' : markup.utf8ByteSize < depth') (node : NodeId) :
    unrolled below depth node markup = unrolled below' depth' node markup := by
  induction depth generalizing depth' markup node with
  | zero => omega
  | succ depth ih =>
    cases depth' with
    | zero => omega
    | succ depth' =>
      apply showOnce_congr
      intro text shorter inner
      exact ih (by omega) (by omega) inner

theorem fillMarkup_eq_unrolled (depth : Nat) :
    fillMarkup depth = unrolled (fun _ _ => pure ()) depth := by
  induction depth with
  | zero => rfl
  | succ depth ih =>
    rw [unrolled, ← ih]
    rfl

theorem unrolled_eq_showMarkup (below : MarkupCall) {depth : Nat} {markup : String}
    (h : markup.utf8ByteSize < depth) (node : NodeId) :
    unrolled below depth node markup = showMarkup node markup := by
  rw [showMarkup, fillMarkup_eq_unrolled]
  exact unrolled_eq below _ h (Nat.lt_succ_self _) node

/-- The calls without any bound on their depth. -/
theorem showMarkup_eq_showOnce : showMarkup = showOnce showMarkup := by
  funext node markup
  rw [← unrolled_eq_showMarkup showMarkup (Nat.lt_succ_self _), unrolled]
  apply showOnce_congr
  intro text shorter inner
  exact unrolled_eq_showMarkup showMarkup shorter inner

theorem unrolled_of_eq {call : MarkupCall} (h : call = showOnce call) (depth : Nat) :
    unrolled call depth = call := by
  induction depth with
  | zero => rfl
  | succ depth ih => rw [unrolled, ih, ← h]

/-- Showing markup ends. A literal in parsed markup is shorter than the markup. So the calls,
each left to itself for the markup inside it, determine what is shown; unrolled as often as the
outermost markup has bytes, and once more, they show all of it, with anything at all in place of
the calls further down, whether the markup is shown on its own or by the literals of nodes that
are mounted; and of markups that stand one inside the other there are no more than that. -/
theorem showMarkup_ends :
    (∀ markup s, Skeleton.parse [markup] = .ok s →
      Node.ShorterAll markup.utf8ByteSize s.nodes) ∧
    (∀ call : MarkupCall, call = showOnce call ↔ call = showMarkup) ∧
    (∀ (below : MarkupCall) node markup,
      unrolled below (markup.utf8ByteSize + 1) node markup = showMarkup node markup) ∧
    (∀ (below : MarkupCall) parent nodes,
      mountNodes (fun node markup => unrolled below (markup.utf8ByteSize + 1) node markup) parent
        nodes = mountNodes showMarkup parent nodes) ∧
    ∀ markup inner, List.IsChain Nests (markup :: inner) →
      (markup :: inner).length ≤ markup.utf8ByteSize + 1 := by
  have enough : ∀ (below : MarkupCall) node markup,
      unrolled below (markup.utf8ByteSize + 1) node markup = showMarkup node markup :=
    fun below node _ => unrolled_eq_showMarkup below (Nat.lt_succ_self _) node
  refine ⟨fun _ _ => Skeleton.parse_shorter, ?_, enough, ?_, fun _ _ => length_le_of_nests⟩
  · intro call
    constructor
    · intro h
      funext node markup
      rw [← enough call, unrolled_of_eq h]
    · intro h
      rw [h]
      exact showMarkup_eq_showOnce
  · intro below parent nodes
    exact mountNodes_congr parent nodes fun text _ node => enough below node text

end Live

end LiveTemplate
