import LiveTemplate.Proofs.Readback

/-!
# Canonical forests

A forest without holes is canonical when nothing in it is written in more than one way: names
are bare, no attribute occurs twice and none is reserved, a text is what is left when its line
breaks are trimmed, and no two texts stand side by side. Reading the markup of a canonical
forest gives the forest again, whichever way void elements are written. A text is read up to
the next tag, so what matters behind it is only that a tag comes, or nothing.
-/
namespace LiveTemplate
open Text

/-! ### Entries that are written one after the other -/

namespace Entries
variable {κ α : Type} [DecidableEq κ]

theorem put_of_notMem {name : κ} {entries : List (κ × α)} (value : α)
    (h : name ∉ names entries) : put name value entries = entries ++ [(name, value)] := by
  induction entries with
  | nil => rfl
  | cons entry rest ih =>
    obtain ⟨n, v⟩ := entry
    simp only [names, List.map_cons, List.mem_cons, not_or] at h
    rw [put, if_neg (Ne.symm h.1), ih h.2]
    rfl

theorem foldl_put_of_nodup {rest done : List (κ × α)} (nodup : (names (done ++ rest)).Nodup) :
    rest.foldl (fun entries entry => put entry.1 entry.2 entries) done = done ++ rest := by
  induction rest generalizing done with
  | nil => simp
  | cons entry rest ih =>
    have hnew : entry.1 ∉ names done := by
      rw [names, List.map_append, List.map_cons, List.nodup_append] at nodup
      exact fun h => nodup.2.2 _ h _ (List.mem_cons_self ..) rfl
    have hsplit : done ++ entry :: rest = done ++ [entry] ++ rest := by simp
    have hput : put entry.1 entry.2 done = done ++ [entry] := put_of_notMem entry.2 hnew
    calc rest.foldl (fun entries entry => put entry.1 entry.2 entries) (put entry.1 entry.2 done)
        = put entry.1 entry.2 done ++ rest := ih (by rwa [hput, ← hsplit])
      _ = done ++ entry :: rest := by rw [hput, hsplit]

/-- Where no name occurs twice, each entry is written behind the others. -/
theorem ofList_of_nodup {entries : List (κ × α)} (nodup : (names entries).Nodup) :
    ofList entries = entries := @foldl_put_of_nodup _ _ _ entries [] nodup

end Entries

/-! ### Canonical nodes -/

/-- An attribute that is written as it is read: under a bare name that is not reserved, with a
text that does not end its quotes. -/
def CanonicalAttr : String × AttrValue → Prop
  | (name, .literal s) =>
      IsBareName name.toList ∧
        name ∉ [Binding.keyName, Binding.referenceName, Binding.markupName] ∧ '"' ∉ s.toList
  | (_, .hole _) => False

-- decided along the characters of a name, never over all characters there are
instance (cs : List Char) : Decidable (IsTagName cs) :=
  have := List.decidableBAll (fun c => Token.isTagNameChar c = true) cs
  inferInstanceAs (Decidable (_ ∧ _))

instance (cs : List Char) : Decidable (IsBareName cs) :=
  have := List.decidableBAll (fun c => Token.isAttrNameChar c = true) cs
  inferInstanceAs (Decidable (_ ∧ _))

instance : DecidablePred CanonicalAttr
  | (_, .literal _) => inferInstanceAs (Decidable (_ ∧ _ ∧ _))
  | (_, .hole _) => .isFalse id

namespace Node

def isText : Node → Bool
  | .text _ => true
  | _ => false

mutual
/-- A text of blanks alone would be taken for the space in front of a tag. -/
def Canonical : Node → Prop
  | .element tag attrs children =>
      IsTagName tag.toList ∧ (Entries.names attrs).Nodup ∧ (∀ a ∈ attrs, CanonicalAttr a) ∧
        (isVoidTag tag = true → children = []) ∧ CanonicalAll children
  | .text data =>
      '<' ∉ data.toList ∧ (¬∀ c ∈ data.toList, isBlank c = true) ∧
        trimLineBreaks data.toList = data.toList
  | .hole _ => False
termination_by structural n => n

def CanonicalAll : List Node → Prop
  | [] => True
  | n :: rest =>
      n.Canonical ∧ (n.isText = true → ∀ m ∈ rest.head?, m.isText = false) ∧ CanonicalAll rest
termination_by structural ns => ns
end

mutual
def decideCanonical : (n : Node) → Decidable n.Canonical
  | .element _ _ children =>
      have := decideCanonicalAll children
      inferInstanceAs (Decidable (_ ∧ _ ∧ _ ∧ _ ∧ _))
  | .text data =>
      have := List.decidableBAll (fun c => isBlank c = true) data.toList
      inferInstanceAs (Decidable (_ ∧ _ ∧ _))
  | .hole _ => .isFalse id
termination_by structural n => n

def decideCanonicalAll : (ns : List Node) → Decidable (CanonicalAll ns)
  | [] => .isTrue trivial
  | n :: rest =>
      have := decideCanonical n
      have := decideCanonicalAll rest
      inferInstanceAs (Decidable (_ ∧ _ ∧ _))
termination_by structural ns => ns
end

instance (ns : List Node) : Decidable (CanonicalAll ns) := decideCanonicalAll ns

end Node

/-! ### Attributes of a canonical element -/

/-- Literal attributes as they are written. -/
def literalOutputs (attrs : List (String × AttrValue)) : List (String × AttrOutput) :=
  attrs.filterMap fun (name, value) =>
    match value with
    | .literal s => some (name, .literal s)
    | .hole _ => none

section
variable {attrs : List (String × AttrValue)} {name : String}

/-- A bare name that is not reserved names an attribute. -/
theorem IsBareName.ofName? (h : IsBareName name.toList)
    (free : name ∉ [Binding.keyName, Binding.referenceName, Binding.markupName]) :
    Binding.ofName? name = some (.attribute name) := by
  obtain ⟨c, cs, hcs⟩ := List.exists_cons_of_ne_nil h.1
  have hsigil := Token.isSigil_of_isAttrNameChar (h.2 c (hcs ▸ List.mem_cons_self ..))
  have hc : c ≠ '?' ∧ c ≠ '.' ∧ c ≠ '@' := by
    simpa [Token.isSigil, and_assoc] using hsigil
  have hspread : name ≠ Binding.spreadName := by
    rintro rfl
    obtain ⟨rfl, -⟩ := List.cons.inj hcs
    exact hc.2.1 rfl
  have hplain : Binding.ofPlainName name = .attribute name := by
    rw [Binding.ofPlainName, hcs]
    split <;> simp_all
  simp only [List.mem_cons, List.not_mem_nil, or_false, not_or] at free
  rw [Binding.ofName?, if_neg free.1, if_neg hspread, if_neg free.2.1, if_neg free.2.2, hplain]

theorem attrOutputs_of_canonical (canonical : ∀ a ∈ attrs, CanonicalAttr a) (shown : Nat → Value) :
    attrOutputs shown attrs = literalOutputs attrs := by
  induction attrs with
  | nil => rfl
  | cons a rest ih =>
    obtain ⟨name, _ | index⟩ := a
    next s =>
      obtain ⟨bare, free, -⟩ := canonical _ (List.mem_cons_self ..)
      have ih := ih fun a ha => canonical a (List.mem_cons_of_mem _ ha)
      have first : attrOutputs shown ((name, .literal s) :: rest) =
          (name, .literal s) :: attrOutputs shown rest := by
        simp [attrOutputs, attrOutcomes, bare.ofName? free, outcomes, Binding.outcome, Value.isNull,
          kept, Value.toText]
      rw [first, ih]
      rfl
    next => exact (canonical _ (List.mem_cons_self ..)).elim

/-- What is read where canonical attributes are written. -/
theorem writtenAttrs_of_canonical (nodup : (Entries.names attrs).Nodup)
    (canonical : ∀ a ∈ attrs, CanonicalAttr a) : writtenAttrs (literalOutputs attrs) = attrs := by
  have hmap : (literalOutputs attrs).map (fun a => (a.1, AttrValue.literal a.2.written)) =
      attrs := by
    clear nodup
    induction attrs with
    | nil => rfl
    | cons a rest ih =>
      obtain ⟨name, _ | index⟩ := a
      next s =>
        have ih := ih fun a ha => canonical a (List.mem_cons_of_mem _ ha)
        exact congrArg (_ :: ·) ih
      next => exact (canonical _ (List.mem_cons_self ..)).elim
  show Entries.ofList ((literalOutputs attrs).map fun a => (a.1, AttrValue.literal a.2.written)) = _
  rw [hmap]
  exact Entries.ofList_of_nodup nodup

theorem confined_literalOutputs (canonical : ∀ a ∈ attrs, CanonicalAttr a) :
    ConfinedAttrs (literalOutputs attrs) := by
  intro a ha
  obtain ⟨⟨name, value⟩, hmem, heq⟩ := List.mem_filterMap.1 ha
  cases value with
  | literal s =>
    obtain rfl := Option.some.inj heq
    obtain ⟨bare, -, quotes⟩ := canonical _ hmem
    exact ⟨bare.isAttrName, quotes⟩
  | hole index => contradiction

/-- Literals are printed alike under all options. -/
theorem printAttrs_literalOutputs (options : MarkupOptions) (attrs : List (String × AttrValue)) :
    printAttrs options (literalOutputs attrs) = printAttrs {} (literalOutputs attrs) := by
  refine congrArg String.join (List.map_congr_left fun a ha => ?_)
  obtain ⟨⟨name, value⟩, -, heq⟩ := List.mem_filterMap.1 ha
  cases value with
  | literal s =>
    obtain rfl := Option.some.inj heq
    rfl
  | hole index => contradiction

theorem attributes_of_canonical (canonical : ∀ a ∈ attrs, CanonicalAttr a) (options : MarkupOptions) :
    Markup.attributes options [] attrs = printAttrs {} (literalOutputs attrs) := by
  rw [attributes_eq_print, attrOutputs_of_canonical canonical, printAttrs_literalOutputs]

theorem markupSource?_of_canonical (canonical : ∀ a ∈ attrs, CanonicalAttr a) :
    markupSource? attrs = none := by
  refine Entries.get?_eq_none_iff.2 fun h => ?_
  obtain ⟨⟨name, value⟩, hmem, rfl⟩ := List.mem_map.1 h
  cases value with
  | literal s =>
    obtain ⟨-, free, -⟩ := canonical _ hmem
    simp at free
  | hole index => exact canonical _ hmem

variable {options : MarkupOptions} {contentAt : Nat → String} {tag : String}

/-- A void element is a start tag. -/
theorem toList_void (canonical : ∀ a ∈ attrs, CanonicalAttr a) (void : isVoidTag tag = true) :
    (Markup.node options [] contentAt (.element tag attrs [])).toList =
      '<' :: (tag.toList ++ ((Markup.attributes options [] attrs).toList ++
        Token.Tag.ending options.selfCloseVoid)) := by
  have hsource := markupSource?_of_canonical canonical
  have hinner : Markup.inner? [] attrs = none := by rw [Markup.inner?, hsource]
  cases hself : options.selfCloseVoid <;>
    simp [Markup.node, hinner, hsource, Markup.emptyEnd, void, hself, Token.Tag.ending] <;>
    rfl

/-- Any other element stands between its tags. -/
theorem toList_element (canonical : ∀ a ∈ attrs, CanonicalAttr a) (void : isVoidTag tag = false)
    (children : List Node) :
    (Markup.node options [] contentAt (.element tag attrs children)).toList =
      '<' :: (tag.toList ++ ((Markup.attributes options [] attrs).toList ++ '>' ::
        ((Markup.nodes options [] contentAt children).toList ++ (Markup.closingTag tag).toList))) := by
  have hsource := markupSource?_of_canonical canonical
  have hinner : Markup.inner? [] attrs = none := by rw [Markup.inner?, hsource]
  cases children <;> simp [Markup.node, hinner, hsource, Markup.emptyEnd, void, Markup.nodes]

end

/-! ### What is read exactly -/

/-- A tag comes next, or nothing. -/
def AtTag (rest : List Char) : Prop := ∀ c ∈ rest.head?, c = '<'

namespace Draft

variable {d : Draft} {hasNext : Bool} {rest : List Char}

/-- A text that is not blank is read up to the next tag. -/
theorem readRun_data {data : String} (canonical : (Node.text data).Canonical)
    (hmode : d.mode = .content) (ends : AtTag rest) :
    d.readRun hasNext (data.toList ++ rest) = (d.add (.text data)).readRun hasNext rest := by
  obtain ⟨hopen, hblank, htrim⟩ := canonical
  have hne : data.toList ≠ [] := by
    intro hnil
    simp [hnil] at hblank
  have htake : d.takeContent (.text data.toList) = d.add (.text data) := by
    simp only [takeContent, htrim, if_neg hne, String.ofList_toList]
  have hscan : Token.Content.scan (data.toList ++ rest) = (.text data.toList, rest) := by
    cases rest with
    | nil => rw [List.append_nil, Token.Content.scan_text hopen]
    | cons c rest =>
      obtain rfl := ends c rfl
      exact Token.Content.scan_before hopen hblank
  rw [readRun_step (by simp [hne]) (step_content hmode hscan), htake]

variable {options : MarkupOptions} {tag : String} {attrs : List (String × AttrValue)}

/-- A start tag is read with the attributes of the element. -/
theorem readRun_canonicalTag (named : IsTagName tag.toList) (nodup : (Entries.names attrs).Nodup)
    (canonical : ∀ a ∈ attrs, CanonicalAttr a) (hmode : d.mode = .content) (selfClosing : Bool) :
    d.readRun hasNext ('<' :: (tag.toList ++ ((Markup.attributes options [] attrs).toList ++
        (Token.Tag.ending selfClosing ++ rest)))) =
      (d.endTag { tag := tag, attrs := attrs } selfClosing).readRun hasNext rest := by
  have stop := printAttrs_stops {} (literalOutputs attrs) selfClosing rest
  rw [attributes_of_canonical canonical, readRun_bracket hmode (Token.Content.markup?_openTag named stop),
    readRun_startTag rfl tag (confined_literalOutputs canonical) selfClosing,
    writtenAttrs_of_canonical nodup canonical]

/-- The closing tag of the innermost open element finishes it. -/
theorem readRun_closingTag {nodes : List Node} {e : OpenElement} {outer : List OpenElement}
    (named : IsTagName e.tag.toList) :
    (⟨nodes, e :: outer, .content⟩ : Draft).readRun hasNext
        ((Markup.closingTag e.tag).toList ++ rest) =
      ((⟨nodes, outer, .content⟩ : Draft).add e.toNode).readRun hasNext rest := by
  have hclosing : (Markup.closingTag e.tag).toList ++ rest =
      '<' :: '/' :: (e.tag.toList ++ '>' :: rest) := by
    simp [Markup.closingTag]
  have htake : (⟨nodes, e :: outer, .content⟩ : Draft).takeContent (.closeTag e.tag.toList) =
      (⟨nodes, outer, .content⟩ : Draft).add e.toNode := by
    rw [takeContent, String.ofList_toList, closeNamed_innermost, add_eq_addAll]
  rw [hclosing, readRun_bracket rfl (Token.Content.markup?_closeTag named), htake]

end Draft

namespace Node

variable {options : MarkupOptions} {contentAt : Nat → String}

/-- Where no text stands first, a tag does, or nothing. -/
theorem atTag_nodes {ns : List Node} (canonical : CanonicalAll ns) {rest : List Char}
    (first : ∀ m ∈ ns.head?, m.isText = false) (ends : AtTag rest) :
    AtTag ((Markup.nodes options [] contentAt ns).toList ++ rest) := by
  cases ns with
  | nil => simpa [Markup.nodes] using ends
  | cons n ns =>
    cases n with
    | element tag attrs children => simp [AtTag, Markup.nodes, Markup.node]
    | text data => simp [isText] at first
    | hole index => exact canonical.1.elim

mutual
/-- A canonical node is read where it is written, if a text ends at a tag. -/
theorem readRun_canonical : (n : Node) → n.Canonical → ∀ {d : Draft} {hasNext : Bool}
    {rest : List Char}, d.mode = .content → (n.isText = true → AtTag rest) →
    d.readRun hasNext ((Markup.node options [] contentAt n).toList ++ rest) =
      (d.add n).readRun hasNext rest
  | .text data, canonical, d, hasNext, rest, hmode, ends => by
      rw [Markup.node]
      exact Draft.readRun_data canonical hmode (ends rfl)
  | .hole index, canonical, _, _, _, _, _ => canonical.elim
  | .element tag attrs children, ⟨named, nodup, canonical, void, kids⟩, d, hasNext, rest, hmode, _ => by
      obtain ⟨nodes, opened, mode⟩ := d
      obtain rfl : mode = .content := hmode
      cases hvoid : isVoidTag tag with
      | true =>
        -- a void element is finished at the end of its start tag
        obtain rfl := void hvoid
        rw [toList_void canonical hvoid]
        simp only [List.cons_append, List.append_assoc]
        rw [Draft.readRun_canonicalTag named nodup canonical rfl, Draft.endTag,
          if_pos (by simp [hvoid])]
        rfl
      | false =>
        have hprint : (Markup.node options [] contentAt (.element tag attrs children)).toList ++ rest =
            '<' :: (tag.toList ++ ((Markup.attributes options [] attrs).toList ++
              (Token.Tag.ending false ++ ((Markup.nodes options [] contentAt children).toList ++
                ((Markup.closingTag tag).toList ++ rest))))) := by
          simp [toList_element canonical hvoid, Token.Tag.ending]
        have hend : (⟨nodes, opened, .content⟩ : Draft).endTag { tag := tag, attrs := attrs } false =
            ⟨nodes, { tag := tag, attrs := attrs } :: opened, .content⟩ := by
          rw [Draft.endTag, if_neg (by simp [hvoid])]
        -- the element is the innermost that is open while its children are read
        have hkids : (⟨nodes, { tag := tag, attrs := attrs } :: opened, .content⟩ : Draft).addAll
            children = ⟨nodes, ⟨tag, attrs, children⟩ :: opened, .content⟩ := by
          simp [Draft.addAll]
        have ends : AtTag ((Markup.closingTag tag).toList ++ rest) := by
          simp [AtTag, Markup.closingTag]
        rw [hprint, Draft.readRun_canonicalTag named nodup canonical rfl, hend,
          readRun_canonicalAll children kids rfl ends, hkids]
        exact Draft.readRun_closingTag (e := ⟨tag, attrs, children⟩) named
termination_by structural n => n

theorem readRun_canonicalAll : (ns : List Node) → CanonicalAll ns → ∀ {d : Draft}
    {hasNext : Bool} {rest : List Char}, d.mode = .content → AtTag rest →
    d.readRun hasNext ((Markup.nodes options [] contentAt ns).toList ++ rest) =
      (d.addAll ns).readRun hasNext rest
  | [], _, d, hasNext, rest, _, _ => by simp [Markup.nodes]
  | n :: ns, ⟨canonical, apart, others⟩, d, hasNext, rest, hmode, ends => by
      have hprint : (Markup.nodes options [] contentAt (n :: ns)).toList ++ rest =
          (Markup.node options [] contentAt n).toList ++
            ((Markup.nodes options [] contentAt ns).toList ++ rest) := by
        simp [Markup.nodes]
      have hmode' : (d.add n).mode = .content := (Draft.addAll_mode [n]).trans hmode
      rw [hprint, readRun_canonical n canonical hmode fun htext => atTag_nodes others (apart htext) ends,
        readRun_canonicalAll ns others hmode' ends, Draft.add_eq_addAll, Draft.addAll_addAll]
      rfl
termination_by structural ns => ns
end

end Node

namespace Skeleton

/-- A canonical forest is read back from its markup, under all options. -/
theorem parse_filled {ns : List Node} (canonical : Node.CanonicalAll ns) (options : MarkupOptions) :
    parse [Markup.filled options [] ⟨ns, 0⟩] = .ok ⟨ns, 0⟩ := by
  have reads := @Node.readRun_canonicalAll options (Markup.contentAt options []) ns canonical {} false
    [] rfl (by simp [AtTag])
  rw [List.append_nil] at reads
  have hread : readFragments 0 none {} [Markup.filled options [] ⟨ns, 0⟩] =
      .ok (({} : Draft).addAll ns) := by
    simp [readFragments, behindQuote, Markup.filled, reads, Except.mapError, bind,
      Except.bind]
  have hfinish : (({} : Draft).addAll ns).finish = ns := by
    simp [Draft.addAll, Draft.finish, Draft.close]
  simp [parse, hread, hfinish, bind, Except.bind, pure, Except.pure]

/-- Texts around a void element that is written with a slash, in an element whose closing tag
comes right behind another one. -/
theorem parse_filled_form :
    let ns : List Node := [.element "form" [("class", .literal "a > b")]
      [.text "Name: ", .element "Input" [("data-x", .literal "1"), ("checked", .literal "")] [],
        .text " & ", .element "b" [] []]]
    Node.CanonicalAll ns ∧
      Markup.filled ⟨true, true⟩ [] ⟨ns, 0⟩ =
        "<form class=\"a > b\">Name: <Input data-x=\"1\" checked=\"\"/> & <b></b></form>" ∧
      parse [Markup.filled ⟨true, true⟩ [] ⟨ns, 0⟩] = .ok ⟨ns, 0⟩ := by
  intro ns
  have canonical : Node.CanonicalAll ns := by decide +kernel
  exact ⟨canonical, by decide +kernel, parse_filled canonical _⟩

end Skeleton

end LiveTemplate
