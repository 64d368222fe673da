import LiveTemplate.Proofs.Canonical
import LiveTemplate.Proofs.Instantiating

/-!
# Markup that a document gives back

A document prints tags and names in lower case and writes some characters as references. A
canonical forest in which none of this changes anything is printed by the document as it was
written: its markup is read back as the forest, the forest is mounted node by node with the
attributes in their order, and the printer of the document says of each node what the other
one says.
-/
namespace LiveTemplate
open Document Subtree Live

/-! ### Plain nodes -/

/-- A name in lower case, and a text without the start of a reference. -/
def PlainAttr : String × AttrValue → Prop
  | (name, .literal s) => Text.lower name = name ∧ '&' ∉ s.toList
  | (_, .hole _) => False

instance : DecidablePred PlainAttr
  | (_, .literal _) => inferInstanceAs (Decidable (_ ∧ _))
  | (_, .hole _) => .isFalse id

namespace Node

mutual
/-- What a document prints is not other than what is written here. -/
def Plain : Node → Prop
  | .element tag attrs children =>
      Text.lower tag = tag ∧ (∀ a ∈ attrs, PlainAttr a) ∧ PlainAll children
  | .text data => '&' ∉ data.toList ∧ '>' ∉ data.toList
  | .hole _ => False
termination_by structural n => n

def PlainAll : List Node → Prop
  | [] => True
  | n :: rest => n.Plain ∧ PlainAll rest
termination_by structural ns => ns
end

mutual
def decidePlain : (n : Node) → Decidable n.Plain
  | .element _ _ children =>
      have := decidePlainAll children
      inferInstanceAs (Decidable (_ ∧ _ ∧ _))
  | .text _ => inferInstanceAs (Decidable (_ ∧ _))
  | .hole _ => .isFalse id
termination_by structural n => n

def decidePlainAll : (ns : List Node) → Decidable (PlainAll ns)
  | [] => .isTrue trivial
  | n :: rest =>
      have := decidePlain n
      have := decidePlainAll rest
      inferInstanceAs (Decidable (_ ∧ _))
termination_by structural ns => ns
end

instance (ns : List Node) : Decidable (PlainAll ns) := decidePlainAll ns

end Node

/-- The markup of a canonical forest that a document prints as it is written. -/
def IsEchoed (markup : String) : Prop :=
  ∃ ns, Node.CanonicalAll ns ∧ Node.PlainAll ns ∧ markup = Markup.filled {} [] ⟨ns, 0⟩

/-! ### Attributes -/

/-- Literal attributes as an element has them. -/
def literalEntries (attrs : Attributes) : List (String × String) :=
  attrs.filterMap fun (name, value) =>
    match value with
    | .literal s => some (name, s)
    | .hole _ => none

section
variable {attrs : Attributes}

theorem literalEntries_cons (name s : String) (rest : Attributes) :
    literalEntries ((name, .literal s) :: rest) = (name, s) :: literalEntries rest := rfl

theorem names_literalEntries (plain : ∀ a ∈ attrs, PlainAttr a) :
    Entries.names (literalEntries attrs) = Entries.names attrs := by
  induction attrs with
  | nil => rfl
  | cons a rest ih =>
    obtain ⟨name, _ | index⟩ := a
    · exact congrArg (name :: ·) (ih fun a ha => plain a (List.mem_cons_of_mem _ ha))
    · exact (plain _ (List.mem_cons_self ..)).elim

/-- Both printers write the attributes alike. -/
theorem attributes_echo (canonical : ∀ a ∈ attrs, CanonicalAttr a)
    (plain : ∀ a ∈ attrs, PlainAttr a) :
    String.join ((literalEntries attrs).map attributeMarkup) = Markup.attributes {} [] attrs := by
  induction attrs with
  | nil => rfl
  | cons a rest ih =>
    obtain ⟨name, s | index⟩ := a
    · obtain ⟨bare, free, quote⟩ := canonical _ (List.mem_cons_self ..)
      obtain ⟨-, amp⟩ := plain _ (List.mem_cons_self ..)
      have ih := ih (fun a ha => canonical a (List.mem_cons_of_mem _ ha))
        fun a ha => plain a (List.mem_cons_of_mem _ ha)
      have hs : Text.replaceEach Text.attributeEscapes s = s :=
        Text.replaceEach_of_notMem (by simp [Text.attributeEscapes, amp, quote])
      have hfirst : attributeMarkup (name, s) =
          Markup.bound false (.attribute name) (.text s) := by
        simp [attributeMarkup, hs, Markup.bound, Markup.single, Value.isNull, Value.toText]
      rw [Markup.attributes] at ih ⊢
      rw [literalEntries_cons, List.map_cons, List.map_cons, String.join_cons, String.join_cons, ih,
        hfirst]
      simp only [bare.ofName? free]
    · exact (canonical _ (List.mem_cons_self ..)).elim

end

namespace Live
variable {fill : NodeId → String → HostM Unit} {node : NodeId} {attrs : Attributes}

/-- Literal attributes are put behind those that are there, in their order. -/
theorem mountAttributes_echoes (canonical : ∀ a ∈ attrs, CanonicalAttr a)
    (plain : ∀ a ∈ attrs, PlainAttr a) {h : Host} {data : ElementData}
    (hd : h.document.element? node = some data)
    (nodup : (Entries.names (data.attributes ++ literalEntries attrs)).Nodup) :
    Runs (mountAttributes fill node attrs) h
      (fun _ h' => h'.document = h.document.withElement node
        { data with attributes := data.attributes ++ literalEntries attrs })
      (fun _ => True) := by
  induction attrs generalizing h data with
  | nil =>
    refine (withElement_self hd).symm.trans ?_
    simp [literalEntries]
  | cons a rest ih =>
    obtain ⟨name, s | index⟩ := a
    · obtain ⟨bare, free, -⟩ := canonical _ (List.mem_cons_self ..)
      obtain ⟨lower, -⟩ := plain _ (List.mem_cons_self ..)
      have hnew : name ∉ Entries.names data.attributes := by
        rw [literalEntries_cons, Entries.names, List.map_append, List.map_cons,
          List.nodup_append] at nodup
        exact fun hm => nodup.2.2 _ hm _ (List.mem_cons_self ..) rfl
      have step : mountAttributes fill node ((name, .literal s) :: rest) = (do
          Host.edit (Document.setAttribute node name s)
          mountAttributes fill node rest) := by
        simp only [mountAttributes, bare.ofName? free]
        rfl
      rw [step, Runs.bind, Runs.edit, Document.setAttribute]
      split
      next d hok =>
        split at hok
        · rw [updateElement_eq _ hd, lower, Entries.put_of_notMem s hnew] at hok
          obtain rfl := Except.ok.inj hok
          have hsplit : data.attributes ++ (name, s) :: literalEntries rest =
              data.attributes ++ [(name, s)] ++ literalEntries rest := by simp
          rw [literalEntries_cons, hsplit] at nodup ⊢
          refine (ih (fun a ha => canonical a (List.mem_cons_of_mem _ ha))
            (fun a ha => plain a (List.mem_cons_of_mem _ ha)) (element?_withElement hd)
            nodup).mono (fun _ h' hdoc => ?_) fun _ h => h
          rw [hdoc, withElement_withElement]
        · contradiction
      next e hok =>
        split at hok
        · rw [updateElement_eq _ hd] at hok
          contradiction
        · obtain rfl := Except.error.inj hok
          exact ⟨trivial, trivial⟩
    · exact (canonical _ (List.mem_cons_self ..)).elim

/-! ### Nodes -/

variable {parent : NodeId} {before : List NodeId} {mid : List Subtree} {contentAt : Nat → String}

/-- An element prints like its node if its children do. -/
theorem element_echo {tag : String} {children : List Node} {n : NodeId} {data : ElementData}
    {kids : List Subtree} (canonical : (Node.element tag attrs children).Canonical)
    (plain : (Node.element tag attrs children).Plain) (htag : data.tag = Text.lower tag)
    (hattrs : data.attributes = literalEntries attrs)
    (hkids : markupAll kids = Markup.nodes {} [] contentAt children) :
    (Subtree.node n (.element data) kids).markup =
      Markup.node {} [] contentAt (.element tag attrs children) := by
  obtain ⟨-, -, canonicalAttrs, void, -⟩ := canonical
  obtain ⟨lower, plainAttrs, -⟩ := plain
  rw [Subtree.markup, htag, lower, hattrs, attributes_echo canonicalAttrs plainAttrs]
  refine String.toList_inj.1 ?_
  cases hvoid : isVoidTag tag with
  | true =>
    obtain rfl := void hvoid
    rw [toList_void canonicalAttrs hvoid]
    simp [Token.Tag.ending]
  | false =>
    rw [toList_element canonicalAttrs hvoid, hkids]
    simp [Markup.closingTag]

mutual
/-- A node that is mounted is printed as it is written. -/
theorem mountNode_echoes : (n : Node) → n.Canonical → n.Plain →
    ∀ {h : Host} {parent : NodeId} {before : List NodeId} {mid : List Subtree},
    Block h.document parent before mid [] →
    Runs (mountNode fill parent n) h
      (fun _ h' => ∃ t, Rewrites h.document h'.document parent before mid (mid ++ [t]) [] ∧
        t.markup = Markup.node {} [] contentAt n)
      (fun _ => True)
  | .text data, canonical, plain, h, parent, before, mid, b => by
      rw [mountNode, Runs.bind, Runs.create, Runs.bind]
      refine appendCreated (by simp) b fun h' w => ⟨_, w, ?_⟩
      rw [Subtree.markup, Markup.node]
      refine Text.replaceEach_of_notMem ?_
      simpa [Text.textEscapes] using ⟨plain.1, canonical.1, plain.2⟩
  | .hole index, canonical, _, _, _, _, _, _ => canonical.elim
  | .element tag attrs children, canonical, plain, h, parent, before, mid, b => by
      have ⟨_, nodup, canonicalAttrs, _, canonicalKids⟩ := canonical
      have ⟨_, plainAttrs, plainKids⟩ := plain
      let n := h.document.nodes.size
      let data₀ : ElementData := { tag := Text.lower tag }
      rw [mountNode, Runs.bind, Runs.createElement]
      split
      next valid =>
        rw [Runs.bind]
        refine appendCreated (by simp) b fun h₁ w₁ => ?_
        have b₁ : Block h₁.document parent (before ++ roots mid)
            [.node n (.element data₀) []] (roots [] ++ []) := by
          have := w₁.block b
          rw [← List.append_nil (mid ++ _)] at this
          exact this.part
        have hd : h₁.document.element? n = some data₀ :=
          element?_eq_some.2 ⟨_, b₁.holds.1.1, rfl⟩
        rw [Runs.bind]
        refine (mountAttributes_echoes canonicalAttrs plainAttrs hd ?_).mono ?_ fun _ h => h
        · rwa [show data₀.attributes = [] from rfl, List.nil_append,
            names_literalEntries plainAttrs]
        · intro _ h₂ hdoc
          rw [if_neg (by simp [markupSource?_of_canonical canonicalAttrs])]
          let data₂ : ElementData := { data₀ with attributes := [] ++ literalEntries attrs }
          have w₁₂ : Rewrites h.document h₂.document parent before mid
              (mid ++ [.node n (.element data₂) []]) [] := by
            have w₂ : Rewrites h₁.document h₂.document parent (before ++ roots mid)
                [.node n (.element data₀) []] [.node n (.element data₂) []] (roots [] ++ []) :=
              hdoc ▸ Rewrites.recast b₁
            have := w₂.part (by simpa using w₁.block b)
            exact w₁.trans (by simpa using this)
          have b₂ : Block h₂.document parent before
              (mid ++ [.node n (.element data₂) []] ++ []) [] := by
            simpa using w₁₂.block b
          rw [Runs.bind]
          refine (mountNodes_echoes children canonicalKids plainKids
            (b₂.part.inside (Stem.container_of_element b₂.part))).mono ?_ fun _ h => h
          rintro ⟨tops, places⟩ h₃ ⟨kids, w₃, hkids⟩
          refine ⟨.node n (.element data₂) kids, ?_, element_echo canonical plain rfl rfl hkids⟩
          have := (w₃.inside b₂.part).part b₂
          exact w₁₂.trans (by simpa using this)
      next => trivial
termination_by structural n => n

theorem mountNodes_echoes : (ns : List Node) → Node.CanonicalAll ns → Node.PlainAll ns →
    ∀ {h : Host} {parent : NodeId} {before : List NodeId} {mid : List Subtree},
    Block h.document parent before mid [] →
    Runs (mountNodes fill parent ns) h
      (fun _ h' => ∃ f, Rewrites h.document h'.document parent before mid (mid ++ f) [] ∧
        markupAll f = Markup.nodes {} [] contentAt ns)
      (fun _ => True)
  | [], _, _, _, _, _, _, b => ⟨[], by simpa using Rewrites.refl b, rfl⟩
  | n :: rest, canonical, plain, h, parent, before, mid, b => by
      rw [mountNodes, Runs.bind]
      refine (mountNode_echoes n canonical.1 plain.1 b).mono ?_ fun _ h => h
      rintro ⟨node, bound⟩ h₁ ⟨t, w, ht⟩
      rw [Runs.bind]
      refine (mountNodes_echoes rest canonical.2.2 plain.2 (w.block b)).mono ?_ fun _ h => h
      rintro ⟨nodes, others⟩ h₂ ⟨f, w', hf⟩
      refine ⟨t :: f, ?_, ?_⟩
      · simpa using w.trans w'
      · rw [markupAll, ht, hf, Markup.nodes]
termination_by structural ns => ns
end

/-- Markup that is put in place of any children is given back by the document. -/
theorem showMarkup_echoes {kids : List Subtree} {markup : String} (echoed : IsEchoed markup)
    {h : Host} (b : Block h.document node [] kids []) :
    Runs (showMarkup node markup) h
      (fun _ h' => ∃ kids', Rewrites h.document h'.document node [] kids kids' [] ∧
        markupAll kids' = markup)
      (fun _ => True) := by
  obtain ⟨ns, canonical, plain, rfl⟩ := echoed
  rw [showMarkup, fillMarkup, Runs.bind]
  refine removeChildren_runs b fun h₁ w₁ => ?_
  simp only [Skeleton.parse_filled canonical]
  rw [Runs.bind]
  have echoes := @mountNodes_echoes (fillMarkup (Markup.filled {} [] ⟨ns, 0⟩).utf8ByteSize)
    (Markup.contentAt {} []) ns canonical plain h₁ node [] [] (w₁.block b)
  refine echoes.mono ?_ fun _ h => h
  rintro ⟨tops, places⟩ h₂ ⟨f, w₂, hf⟩
  exact ⟨f, w₁.trans w₂, hf⟩

end Live

end LiveTemplate
