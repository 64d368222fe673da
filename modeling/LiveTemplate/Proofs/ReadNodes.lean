import LiveTemplate.Proofs.Rereading
import LiveTemplate.Proofs.SpreadNames

/-!
# Nodes that are read

What mounting, markup and the document rely on without a check: of whatever fragments a tree is
read, all its names are those of the grammar, nothing but a hole is spread, a void element has
nothing in it, and no text is empty, has a line break to trim at an end, or has an opening bracket
behind anything but blanks. This holds as well where the source ends within a start tag, where a
quote is opened in front of a hole, and where what looks like a tag turns out to be text.
-/
namespace LiveTemplate
open Text

/-! ### Trimming twice -/

namespace Text

/-- A run of blanks in front has no line feed in it. -/
def Unbroken (cs : List Char) : Prop := '\n' ∉ cs.takeWhile isBlank

theorem dropBrokenLead_of_unbroken {cs : List Char} (h : Unbroken cs) : dropBrokenLead cs = cs :=
  if_neg h

theorem unbroken_dropBrokenLead (cs : List Char) : Unbroken (dropBrokenLead cs) := by
  unfold dropBrokenLead
  split
  · have blankless : (dropBlanks cs).takeWhile isBlank = [] := by
      have := List.dropWhile_get_zero_not isBlank cs
      simpa [dropBlanks, List.takeWhile_eq_nil_iff] using this
    simp [Unbroken, blankless]
  · assumption

theorem Unbroken.of_start {cs ds : List Char} (h : Unbroken ds) (hstart : cs <+: ds) :
    Unbroken cs := by
  obtain ⟨rest, rfl⟩ := hstart
  intro hmem
  refine h ?_
  rw [List.takeWhile_append]
  split
  next hall =>
    exact List.mem_append_left _ ((List.takeWhile_sublist _).subset hmem)
  · exact hmem

/-- What is trimmed has nothing left to trim. -/
theorem trimLineBreaks_trimLineBreaks (cs : List Char) :
    trimLineBreaks (trimLineBreaks cs) = trimLineBreaks cs := by
  have front : Unbroken (trimLineBreaks cs) := by
    have hstart : trimLineBreaks cs <+: dropBrokenLead cs := by
      have h := dropBrokenLead_suffix (dropBrokenLead cs).reverse
      rwa [← List.reverse_prefix, List.reverse_reverse] at h
    exact (unbroken_dropBrokenLead cs).of_start hstart
  have back : Unbroken (trimLineBreaks cs).reverse := by
    rw [trimLineBreaks, List.reverse_reverse]
    exact unbroken_dropBrokenLead _
  rw [trimLineBreaks.eq_def (trimLineBreaks cs), dropBrokenLead_of_unbroken front,
    dropBrokenLead_of_unbroken back, List.reverse_reverse]

end Text

/-! ### Regular nodes -/

/-- A text that has nothing to trim, and in which an opening bracket comes before all but
blanks. -/
structure RegularText (data : String) : Prop where
  nonempty : data ≠ ""
  trimmed : trimLineBreaks data.toList = data.toList
  bracket : ∀ front back, data.toList = front ++ '<' :: back → ∀ c ∈ front, isBlank c = true

/-- An attribute with a name that can stand in a start tag. What is spread is a hole. -/
structure RegularAttr (name : String) (value : AttrValue) : Prop where
  named : IsBindingName name
  spread : name = Binding.spreadName → ∃ index, value = .hole index

/-- What holds of every node that is read, apart from the nodes in it. -/
def Node.Regular : Node → Prop
  | .element tag attrs children =>
      IsTagName tag.toList ∧ (∀ name value, (name, value) ∈ attrs → RegularAttr name value) ∧
        (isVoidTag tag = true → children = [])
  | .text data => RegularText data
  | .hole _ => True

theorem regularText_of_scanned : OfScannedText RegularText := by
  intro cs run rest hscan hleft
  refine ⟨?_, ?_, ?_⟩
  · simpa using hleft
  · rw [String.toList_ofList, trimLineBreaks_trimLineBreaks]
  · intro front back hdata
    rw [String.toList_ofList] at hdata
    obtain ⟨cut, cut', hrun⟩ := trimLineBreaks_infix run
    have hbracket : run = (cut ++ front) ++ '<' :: (back ++ cut') := by
      rw [← hrun, hdata]
      simp
    intro c hc
    exact (Token.Content.scan_text_bracket hscan hbracket).1 c (List.mem_append_right _ hc)

/-- The dots of a spread are not a name of the grammar. -/
theorem not_isAttrName_spreadName : ¬IsAttrName Binding.spreadName.toList := by
  rintro ⟨sigil, bare, heq, hlength, -, hne, hbare⟩
  have dots : Binding.spreadName.toList = ['.', '.', '.'] := rfl
  rw [dots] at heq
  have dot : '.' ∈ bare := by
    match sigil, hlength with
    | [], _ => exact (show ['.', '.', '.'] = bare from heq) ▸ List.mem_cons_self ..
    | [_], _ => exact (show ['.', '.'] = bare from (List.cons.inj heq).2) ▸ List.mem_cons_self ..
  exact absurd (hbare _ dot) (by decide)

theorem regularAttr_of {attrs : List (String × AttrValue)} (named : LiteralsNamed attrs)
    (names : ∀ name ∈ Entries.names attrs, IsBindingName name) {name : String} {value : AttrValue}
    (h : (name, value) ∈ attrs) : RegularAttr name value := by
  refine ⟨names name (List.mem_map_of_mem h), ?_⟩
  rintro rfl
  cases value with
  | hole index => exact ⟨index, rfl⟩
  | literal text => exact absurd (named _ text h) not_isAttrName_spreadName

namespace Node

mutual
theorem regular_of_mem_preorder {n : Node} : (m : Node) → m.Proper → m.Named →
    (∀ data, .text data ∈ m.preorder → RegularText data) → n ∈ m.preorder → n.Regular
  | .text data, _, _, texts, h => by
      obtain rfl := List.mem_singleton.1 h
      exact texts data h
  | .hole index, _, _, _, h => by
      obtain rfl := List.mem_singleton.1 h
      trivial
  | .element tag attrs children, ⟨htag, _, names, void, proper⟩, ⟨named, inner⟩, texts, h => by
      rcases List.mem_cons.1 h with rfl | h
      · exact ⟨htag, fun _ _ => regularAttr_of named names, void⟩
      · exact regular_of_mem children proper inner
          (fun data hdata => texts data (List.mem_cons_of_mem _ hdata)) h
termination_by structural m => m

theorem regular_of_mem {n : Node} : (ns : List Node) → ProperAll ns → NamedAll ns →
    (∀ data, .text data ∈ preorderAll ns → RegularText data) → n ∈ preorderAll ns → n.Regular
  | [], _, _, _, h => by simp at h
  | m :: rest, ⟨proper, properRest⟩, ⟨named, namedRest⟩, texts, h => by
      rcases List.mem_append.1 h with h | h
      · exact regular_of_mem_preorder m proper named
          (fun data hdata => texts data (List.mem_append_left _ hdata)) h
      · exact regular_of_mem rest properRest namedRest
          (fun data hdata => texts data (List.mem_append_right _ hdata)) h
termination_by structural ns => ns
end

end Node

namespace Skeleton

/-- Every node of a tree that is read is regular, wherever in the tree it is. -/
theorem parse_regular {fragments : List String} {s : Skeleton} (h : parse fragments = .ok s) :
    ∀ n ∈ Node.preorderAll s.nodes, n.Regular := by
  intro n hn
  exact Node.regular_of_mem s.nodes (parse_wellFormed h).proper (parse_named h)
    (fun data => parse_texts regularText_of_scanned h) hn

/-- A void element in capitals, a bracket that is text, a spread, a hole in quotes, a name with a
sign, and a start tag that never ends. -/
theorem parse_regular_unended :
    let s : Skeleton := ⟨[.text "a", .element "BR" [] [], .text " <* ",
      .element "p" [("...", .hole 0), ("?c", .hole 1)] [.text "\td", .hole 2,
        .element "i-1" [("@e:f", .literal "g"), ("h", .literal "")] []]], 3⟩
    parse ["\n a<BR> <* <p ... ", " ?c='", "'>\td\n\r", "</q><i-1 @e:f=g h"] = .ok s ∧
      ∀ n ∈ Node.preorderAll s.nodes, n.Regular := by
  intro s
  have read : parse ["\n a<BR> <* <p ... ", " ?c='", "'>\td\n\r", "</q><i-1 @e:f=g h"] = .ok s := by
    decide +kernel
  exact ⟨read, parse_regular read⟩

end Skeleton

end LiveTemplate
