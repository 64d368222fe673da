import LiveTemplate.Proofs.Transcripts

/-!
# Closing tags

A closing tag finishes the innermost open element of its name, and with it everything that was
opened inside that element; one that names no open element does nothing. Which elements are open
has no say in what is recognised next. So closing tags decide how deep a node stands and never
which nodes there are, or their order.
-/
namespace LiveTemplate
open Text

namespace OpenElement

/-- An element finished around nodes that come last in it. -/
def around (ns : List Node) (e : OpenElement) : Node := .element e.tag e.attrs (e.children ++ ns)

/-- Elements that are finished together, from the innermost outwards, each within the next. -/
def nested (ns : List Node) (inner : List OpenElement) : List Node :=
  inner.foldl (fun ns e => [e.around ns]) ns

end OpenElement

namespace Draft

variable {d e : Draft} {hasNext : Bool} {cs : List Char}

/-- An element is closed with all that is open inside it. -/
theorem close_nested {nodes ns : List Node} {inner outer : List OpenElement} {o : OpenElement}
    {mode : Mode} :
    ((⟨nodes, inner ++ o :: outer, mode⟩ : Draft).addAll ns).close (inner.length + 1) =
      (⟨nodes, outer, mode⟩ : Draft).add (o.around (OpenElement.nested ns inner)) := by
  induction inner generalizing ns with
  | nil => rfl
  | cons i inner ih => exact @ih [i.around ns]

/-- A closing tag finishes the innermost open element of its name. -/
theorem closeNamed_found {name : String} {inner outer : List OpenElement} {o : OpenElement}
    (hopened : d.opened = inner ++ o :: outer)
    (hinner : ∀ i ∈ inner, sameIgnoringCase i.tag name = false)
    (ho : sameIgnoringCase o.tag name = true) :
    d.closeNamed name =
      ({ d with opened := outer } : Draft).add (o.around (OpenElement.nested [] inner)) := by
  obtain ⟨nodes, opened, mode⟩ := d
  obtain rfl : opened = inner ++ o :: outer := hopened
  have hfind : (inner ++ o :: outer).findIdx? (fun e => sameIgnoringCase e.tag name) =
      some inner.length := by
    have hnone : inner.findIdx? (fun e => sameIgnoringCase e.tag name) = none :=
      List.findIdx?_eq_none_iff.2 hinner
    simp [List.findIdx?_append, hnone, List.findIdx?_cons, ho]
  rw [closeNamed, hfind]
  exact @close_nested nodes [] inner outer o mode ▸ by rw [addAll_nil]

/-- A closing tag that names no open element does nothing. -/
theorem closeNamed_absent {name : String}
    (h : ∀ i ∈ d.opened, sameIgnoringCase i.tag name = false) : d.closeNamed name = d := by
  rw [closeNamed, List.findIdx?_eq_none_iff.2 h]

/-! ### What is open has no say -/

/-- Where a step or a hole leads to, apart from the nodes. -/
def exit {α : Type} (r : Draft × α) : Mode × α := (r.1.mode, r.2)

theorem takeContent_mode {token : Token.Content} (h : d.mode = e.mode) :
    (d.takeContent token).mode = (e.takeContent token).mode := by
  cases token with
  | doctype => exact h
  | commentStart => rfl
  | closeTag name => exact (closeNamed_mode _).trans (h.trans (closeNamed_mode _).symm)
  | openTag name => rfl
  | text run =>
    simp only [takeContent]
    split
    · exact h
    · exact (addAll_mode _).trans (h.trans (addAll_mode _).symm)

theorem stepValue_mode (element : OpenElement) (name : String) :
    (stepValue hasNext element name d cs).map exit =
      (stepValue hasNext element name e cs).map exit := by
  unfold stepValue
  split
  · rfl
  · rfl
  · split <;> rfl
  · split
    · simp [exit, endTag_mode]
    · rfl

theorem stepName_mode (element : OpenElement) (pending : Option Pending) :
    (stepName hasNext element pending d cs).map exit =
      (stepName hasNext element pending e cs).map exit := by
  unfold stepName
  split
  · simp [exit, endTag_mode]
  · split <;> rfl
  · split <;> rfl
  · rfl
  · rfl

/-- A step leads on by the mode alone. -/
theorem step_mode (h : d.mode = e.mode) (hasNext : Bool) (cs : List Char) :
    (d.step hasNext cs).map exit = (e.step hasNext cs).map exit := by
  simp only [step, ← h]
  split
  · split
    · rfl
    · simp [exit, h]
  · simp only [stepTag]
    split
    · simp [exit, h]
    · split
      · exact stepValue_mode _ _
      · exact stepName_mode _ _
  · simp [exit, takeContent_mode h]

theorem takeHole_mode (h : d.mode = e.mode) (index : Nat) :
    (d.takeHole index).map exit = (e.takeHole index).map exit := by
  simp only [takeHole, ← h]
  split
  · simp [exit, h]
  · simp [exit, add_eq_addAll, h]
  · rfl
  · rfl
  · rfl

theorem seenStep_congr (h : d.mode = e.mode) (seen : Transcript) :
    d.seenStep cs seen = e.seenStep cs seen := by
  simp only [seenStep, h]

theorem readRun_stuck (hcs : cs ≠ []) (h : d.step hasNext cs = none) :
    d.readRun hasNext cs = .error cs := by
  rw [readRun, dif_neg hcs]
  split
  next => rfl
  next heq => simp [h] at heq

/-- From drafts in one mode a run is read to one mode, or gets stuck at one place. -/
theorem readRun_mode (h : d.mode = e.mode) (hasNext : Bool) (cs : List Char) :
    (d.readRun hasNext cs).map mode = (e.readRun hasNext cs).map mode := by
  fun_induction readRun hasNext d cs generalizing e with
  | case1 =>
    rw [readRun_nil]
    exact congrArg Except.ok h
  | case2 d cs hcs hstep =>
    have hexit := step_mode h hasNext cs
    rw [hstep] at hexit
    rw [readRun_stuck hcs (Option.map_eq_none_iff.1 hexit.symm)]
  | case3 d cs hcs d₁ rest hstep ih =>
    have hexit := step_mode h hasNext cs
    rw [hstep] at hexit
    obtain ⟨⟨e₁, rest'⟩, hstep', hsame⟩ := Option.map_eq_some_iff.1 hexit.symm
    obtain ⟨hmode, rfl⟩ := Prod.mk.inj hsame
    rw [readRun_step hcs hstep']
    exact ih hmode.symm

/-- From drafts in one mode the same is recognised in a run. -/
theorem seenRun_congr (h : d.mode = e.mode) (seen : Transcript) :
    d.seenRun hasNext cs seen = e.seenRun hasNext cs seen := by
  fun_induction seenRun hasNext d cs seen generalizing e with
  | case1 => rw [seenRun, dif_pos rfl]
  | case2 d cs seen hcs hstep =>
    have hexit := step_mode h hasNext cs
    rw [hstep] at hexit
    rw [seenRun_stuck hcs (Option.map_eq_none_iff.1 hexit.symm)]
  | case3 d cs seen hcs d₁ rest hstep ih =>
    have hexit := step_mode h hasNext cs
    rw [hstep] at hexit
    obtain ⟨⟨e₁, rest'⟩, hstep', hsame⟩ := Option.map_eq_some_iff.1 hexit.symm
    obtain ⟨hmode, rfl⟩ := Prod.mk.inj hsame
    rw [seenRun_step hcs hstep', ← seenStep_congr h]
    exact ih hmode.symm

end Draft

namespace Skeleton
open Draft

/-- What is recognised from a fragment on depends on the mode alone, and not on the elements
that are open there or the nodes that are finished. -/
theorem seenFragments_congr {d e : Draft} (h : d.mode = e.mode) (index : Nat)
    (awaited : Option (Nat × Char)) (seen : Transcript) (fragments : List String) :
    seenFragments index awaited d seen fragments =
      seenFragments index awaited e seen fragments := by
  induction fragments generalizing d e index awaited seen with
  | nil => simp only [seenFragments, seenEnd, h]
  | cons fragment rest ih =>
    simp only [seenFragments]
    split
    · rfl
    next run hrun =>
      have hread := readRun_mode h (!rest.isEmpty) run
      rw [seenRun_congr h]
      cases hd : d.readRun (!rest.isEmpty) run with
      | error unread =>
        cases he : e.readRun (!rest.isEmpty) run with
        | error => rfl
        | ok => simp [hd, he, Except.map] at hread
      | ok d₁ =>
        cases he : e.readRun (!rest.isEmpty) run with
        | error => simp [hd, he, Except.map] at hread
        | ok e₁ =>
          have hmode : d₁.mode = e₁.mode := by simpa [hd, he, Except.map] using hread
          have hhole := takeHole_mode hmode index
          simp only
          split
          · simp only [seenEnd, hmode]
          · cases hd' : d₁.takeHole index with
            | none =>
              rw [hd'] at hhole
              rw [Option.map_eq_none_iff.1 hhole.symm]
            | some r =>
              obtain ⟨d₂, quote⟩ := r
              rw [hd'] at hhole
              obtain ⟨⟨e₂, quote'⟩, he', hsame⟩ := Option.map_eq_some_iff.1 hhole.symm
              obtain ⟨hmode', rfl⟩ := Prod.mk.inj hsame
              simp only [he', seenHole, hmode]
              exact ih hmode'.symm ..

/-- A skeleton that is read has what was recognised, in the order of the source, and closing tags
decide about depth alone: what is recognised does not depend on what is open, a closing tag that
names no open element does nothing, and any other finishes the innermost element of its name,
around all that was opened inside it. -/
theorem parse_in_source_order :
    (∀ fragments s, parse fragments = .ok s → Node.inOrder s.nodes = (transcript fragments).nodes) ∧
    (∀ d e : Draft, d.mode = e.mode → ∀ index awaited seen fragments,
      seenFragments index awaited d seen fragments = seenFragments index awaited e seen fragments) ∧
    ∀ (hasNext : Bool) (d : Draft) (cs rest name : List Char), d.mode = .content →
      Token.Content.scan cs = (.closeTag name, rest) →
      ((∀ i ∈ d.opened, sameIgnoringCase i.tag (String.ofList name) = false) →
        d.step hasNext cs = some (d, rest)) ∧
      ∀ inner o outer, d.opened = inner ++ o :: outer →
        (∀ i ∈ inner, sameIgnoringCase i.tag (String.ofList name) = false) →
        sameIgnoringCase o.tag (String.ofList name) = true →
        d.step hasNext cs =
          some (({ d with opened := outer } : Draft).add (o.around (OpenElement.nested [] inner)),
            rest) := by
  refine ⟨?_, ?_, ?_⟩
  · intro fragments s h
    exact (parse_told h).1.symm
  · intro d e h index awaited seen fragments
    exact seenFragments_congr h index awaited seen fragments
  · intro hasNext d cs rest name hmode hscan
    rw [step_content hmode hscan, takeContent]
    constructor
    · intro habsent
      rw [closeNamed_absent habsent]
    · intro inner o outer hopened hinner ho
      rw [closeNamed_found hopened hinner ho]

/-- Tags that close too much, too little, nothing or themselves, and holes between them. -/
def tangled : List String :=
  ["<Ul a>one</x><li><br/>", "<i/>two<b>\nthree</LI><!-- ", " --></ul></ul>four<p>", ""]

/-- A draft in which a list item is open, and in it a bold text. -/
def halfway : Draft where
  opened := [⟨"b", [], [.text "three"]⟩, ⟨"li", [], [.text "two"]⟩, ⟨"Ul", [], []⟩]

theorem tangled_in_source_order :
    (∃ s, parse tangled = .ok s ∧ Node.inOrder s.nodes =
      [.element "Ul" [("a", .literal "")] [], .text "one", .element "li" [] [],
        .element "br" [] [], .hole 0, .element "i" [] [], .text "two", .element "b" [] [],
        .text "three", .text "four", .element "p" [] [], .hole 2]) ∧
    seenFragments 2 none halfway [] ["four"] = seenFragments 2 none {} [] ["four"] ∧
    halfway.step false "</p>four".toList = some (halfway, "four".toList) ∧
    halfway.step false "</LI>four".toList =
      some (⟨[], [⟨"Ul", [], [.element "li" [] [.text "two", .element "b" [] [.text "three"]]]⟩],
        .content⟩, "four".toList) := by
  obtain ⟨order, same, closing⟩ := parse_in_source_order
  refine ⟨?_, ?_, ?_, ?_⟩
  · cases hs : parse tangled with
    | error e =>
      have read : (parse tangled).isOk = true := by decide +kernel
      simp [hs, Except.isOk, Except.toBool] at read
    | ok s => exact ⟨s, rfl, (order _ s hs).trans (by decide +kernel)⟩
  · exact same halfway {} rfl 2 none [] ["four"]
  · exact (closing false halfway _ _ "p".toList rfl (by decide +kernel)).1 (by decide +kernel)
  · exact (closing false halfway _ _ "LI".toList rfl (by decide +kernel)).2
      [⟨"b", [], [.text "three"]⟩] ⟨"li", [], [.text "two"]⟩ [⟨"Ul", [], []⟩] rfl
      (by decide +kernel) (by decide +kernel)

end Skeleton

end LiveTemplate
