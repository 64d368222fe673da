import LiveTemplate.Proofs.Canonical
import LiveTemplate.Proofs.Fates
import LiveTemplate.Proofs.FirstShowing

/-!
# Precedence among attributes

Several attributes of a template may name one attribute of the document, which does not tell cases
apart, and a mapping that is spread may name it again. A document has what is applied to it last:
literals come first, and then holes by their numbers. A start tag has all of them in the order in which
they stand, and of those with a name who reads it keeps the last. The two agree unless one that stands
last is not applied last.
-/
namespace LiveTemplate
open Document Subtree Live

/-! ### What is applied last -/

section
variable {α β : Type}

/-- The last that a partial function gives for a list is what it gives for the last of its domain. -/
theorem getLast?_filterMap_eq (f : α → Option β) (l : List α) :
    (l.filterMap f).getLast? = (l.filter fun a => (f a).isSome).getLast?.bind f := by
  induction l with
  | nil => rfl
  | cons a rest ih =>
    cases hf : f a with
    | none => simp [hf, ih]
    | some b =>
      rw [List.filterMap_cons_some hf, List.filter_cons_of_pos (by simp [hf]), List.getLast?_cons,
        List.getLast?_cons, ih]
      cases hl : (rest.filter fun a => (f a).isSome).getLast? with
      | none => simp [hf]
      | some c =>
        have hc : (f c).isSome = true := (List.mem_filter.1 (List.mem_of_getLast? hl)).2
        obtain ⟨d, hd⟩ := Option.isSome_iff_exists.1 hc
        simp [hd]

theorem lastNamed_flatMap (n : String) (f : α → List (String × β)) (l : List α) :
    lastNamed n (l.flatMap f) = (l.filterMap fun a => lastNamed n (f a)).getLast? := by
  induction l with
  | nil => rfl
  | cons a rest ih =>
    rw [List.flatMap_cons, lastNamed_append, ih]
    cases hf : lastNamed n (f a) with
    | none => simp [hf]
    | some b => simp [hf, List.getLast?_cons]

end

section
variable {n : String} {shown : Nat → Value} {attrs : Attributes}

/-- What an attribute of a template writes is what becomes of it last. -/
theorem attrWrite_eq_last (a : String × AttrValue) :
    (holeWrite (.attribute n) shown a).or (literalWrite (.attribute n) a) =
      (lastNamed n (attrOutcome shown a)).map fun e => AttrOutput.reading e.2 := by
  obtain ⟨name, value⟩ := a
  cases hb : Binding.ofName? name with
  | none => cases value <;> simp [holeWrite, literalWrite, attrOutcome, hb, lastNamed]
  | some b =>
    cases value with
    | literal s =>
      simp only [holeWrite, literalWrite, attrOutcome, hb, Option.bind_some, Option.none_or]
      exact wrote_eq_last (fun _ => rfl) b (.text s)
    | hole i =>
      simp only [holeWrite, literalWrite, attrOutcome, hb, Option.bind_some, Option.or_none]
      exact written_eq_last (fun _ => rfl) (shown i) b

/-- Where literals stand in front of all holes, what stands last is what counts. -/
theorem look_sorted {x : Target} (sorted : attrs.Pairwise fun a b => a.2.turn ≤ b.2.turn) :
    look x shown attrs =
      (attrs.filterMap fun a => (holeWrite x shown a).or (literalWrite x a)).getLast?.getD [] := by
  suffices (attrs.filterMap (holeWrite x shown)).getLast?.or
      (attrs.filterMap (literalWrite x)).getLast? =
        (attrs.filterMap fun a => (holeWrite x shown a).or (literalWrite x a)).getLast? by
    rw [look, lookLiteral, ← this]
    cases (attrs.filterMap (holeWrite x shown)).getLast? <;> rfl
  induction attrs with
  | nil => rfl
  | cons a rest ih =>
    obtain ⟨first, sortedRest⟩ := List.pairwise_cons.1 sorted
    obtain ⟨name, value⟩ := a
    cases value with
    | literal s =>
      have hhole : holeWrite x shown (name, .literal s) = none := rfl
      rw [List.filterMap_cons_none hhole]
      cases hl : literalWrite x (name, .literal s) with
      | none => simpa [List.filterMap_cons, hhole, hl] using ih sortedRest
      | some r =>
        simp only [List.filterMap_cons, hhole, hl, Option.none_or, List.getLast?_cons,
          ← ih sortedRest]
        cases (rest.filterMap (holeWrite x shown)).getLast? <;>
          cases (rest.filterMap (literalWrite x)).getLast? <;> rfl
    | hole i =>
      -- no literal stands behind a hole
      have literals : ∀ a ∈ (name, AttrValue.hole i) :: rest, literalWrite x a = none := by
        rintro ⟨m, value⟩ hm
        cases value with
        | hole j => rfl
        | literal s =>
          rcases List.mem_cons.1 hm with h | h
          · cases h
          · exact absurd (first _ h) (Nat.not_succ_le_zero i)
      rw [List.filterMap_eq_nil_iff.2 literals, List.getLast?_nil, Option.or_none]
      congr 1
      exact List.filterMap_congr fun a ha => by rw [literals a ha, Option.or_none]

/-- What an element should have for an attribute is what becomes of it last, when all attributes of
the template are applied. -/
theorem look_applied_eq_last :
    look (.attribute n) shown (applied attrs) =
      ((lastNamed n (attrOutcomes shown (applied attrs))).map
        fun e => AttrOutput.reading e.2).getD [] := by
  have flat : attrOutcomes shown (applied attrs) = (applied attrs).flatMap (attrOutcome shown) := rfl
  rw [look_sorted (applied_sorted attrs), flat, lastNamed_flatMap, ← List.getLast?_map,
    List.map_filterMap]
  congr 2
  exact List.filterMap_congr fun a _ => attrWrite_eq_last a

/-- Of the attributes of a template that name an attribute, the one that stands last is applied
last. -/
def LastInTurn (n : String) (shown : Nat → Value) (attrs : Attributes) : Prop :=
  (attrs.filter fun a => (lastNamed n (attrOutcome shown a)).isSome).getLast? =
    ((applied attrs).filter fun a => (lastNamed n (attrOutcome shown a)).isSome).getLast?

instance : Decidable (LastInTurn n shown attrs) := inferInstanceAs (Decidable (_ = _))

theorem LastInTurn.lastNamed_eq (h : LastInTurn n shown attrs) :
    lastNamed n (attrOutcomes shown (applied attrs)) = lastNamed n (attrOutcomes shown attrs) := by
  have flat : ∀ as, attrOutcomes shown as = as.flatMap (attrOutcome shown) := fun _ => rfl
  rw [flat, flat, lastNamed_flatMap, lastNamed_flatMap, getLast?_filterMap_eq, getLast?_filterMap_eq,
    ← h]

end

/-! ### What is written last -/

section
variable {α : Type} {n : String} {es : List (String × α)} {e : String × α}

theorem lastNamed_split (h : lastNamed n es = some e) : ∃ before behind,
    es = before ++ e :: behind ∧ Text.lower e.1 = n ∧ ∀ a ∈ behind, Text.lower a.1 ≠ n := by
  rw [lastNamed, List.getLast?_eq_head?_reverse, ← List.filter_reverse, List.head?_filter,
    List.find?_eq_some_iff_append] at h
  obtain ⟨hn, as, bs, heq, apart⟩ := h
  refine ⟨bs.reverse, as.reverse, ?_, by simpa using hn, fun a ha => ?_⟩
  · have hrev := congrArg List.reverse heq
    simpa using hrev
  · simpa using apart a (List.mem_reverse.1 ha)

theorem lastNamed_of_split {before behind : List (String × α)} (hn : Text.lower e.1 = n)
    (apart : ∀ a ∈ behind, Text.lower a.1 ≠ n) :
    lastNamed n (before ++ e :: behind) = some e := by
  have hbehind : (behind.filter fun a => Text.lower a.1 = n) = [] :=
    List.filter_eq_nil_iff.2 fun a ha => by simpa using apart a ha
  rw [lastNamed, List.filter_append, List.filter_cons_of_pos (by simpa using hn), hbehind,
    List.getLast?_concat]

/-- An attribute that is not taken away is written. -/
theorem lastNamed_kept {es : List (String × Option AttrOutput)} {name : String} {o : AttrOutput}
    (h : lastNamed n es = some (name, some o)) : lastNamed n (kept es) = some (name, o) := by
  obtain ⟨before, behind, rfl, hn, apart⟩ := lastNamed_split h
  have hkept : kept (before ++ (name, some o) :: behind) = kept before ++ (name, o) :: kept behind :=
    kept_append before ((name, some o) :: behind)
  rw [hkept]
  refine lastNamed_of_split hn fun a ha => ?_
  obtain ⟨b, hb, hab⟩ := List.mem_filterMap.1 ha
  obtain ⟨p, -, rfl⟩ := Option.map_eq_some_iff.1 hab
  exact apart b hb

end

/-! ### Start tags -/

/-- A start tag with these attributes. -/
def printStartTag (options : MarkupOptions) (tag : String) (attrs : List (String × AttrOutput))
    (selfClosing : Bool) : String :=
  "<" ++ tag ++ printAttrs options attrs ++ if selfClosing then "/>" else ">"

/-- The markup of an element begins with its start tag. -/
theorem Markup.node_startTag (options : MarkupOptions) (values : List Value)
    (contentAt : Nat → String) (tag : String) (attrs : Attributes) (children : List Node) :
    ∃ selfClosing rest, node options values contentAt (.element tag attrs children) =
      printStartTag options tag (attrOutputs (valueAt values) attrs) selfClosing ++ rest := by
  have plain (inner : String) : ∃ selfClosing rest,
      "<" ++ tag ++ attributes options values attrs ++ (">" ++ inner ++ closingTag tag) =
        printStartTag options tag (attrOutputs (valueAt values) attrs) selfClosing ++ rest :=
    ⟨false, inner ++ closingTag tag, by
      simp [printStartTag, attributes_eq_print, String.append_assoc]⟩
  rw [node]
  split
  next => exact plain _
  next =>
    split
    · rw [emptyEnd]
      split
      · split
        · exact ⟨true, "", by simp [printStartTag, attributes_eq_print]⟩
        · exact ⟨false, "", by simp [printStartTag, attributes_eq_print]⟩
      · simpa using plain ""
    · exact plain _

/-- Under options that leave values as they are, they are written as literals. -/
def AttrOutput.under (options : MarkupOptions) : AttrOutput → AttrOutput
  | .dynamic s => if options.escapeDynamic then .dynamic s else .literal s
  | o => o

theorem printAttrs_under (options : MarkupOptions) (attrs : List (String × AttrOutput)) :
    printAttrs options attrs =
      printAttrs { options with escapeDynamic := true }
        (attrs.map fun a => (a.1, a.2.under options)) := by
  rw [printAttrs, printAttrs, List.map_map]
  congr 1
  refine List.map_congr_left fun a _ => ?_
  obtain ⟨name, o⟩ := a
  cases o with
  | dynamic s => by_cases h : options.escapeDynamic = true <;> simp [AttrOutput.print, AttrOutput.under, h]
  | literal s => rfl
  | present => rfl

namespace Skeleton
variable {options : MarkupOptions} {tag : String} {attrs : List (String × AttrOutput)}

/-- A start tag is read with the attributes that are written in it. -/
theorem parse_printStartTag (named : IsTagName tag.toList)
    (confined : ∀ a ∈ attrs, IsAttrName a.1.toList ∧ (a.2.under options).Confined)
    (selfClosing : Bool) :
    parse [printStartTag options tag attrs selfClosing] =
      .ok ⟨[.element tag (writtenAttrs (attrs.map fun a => (a.1, a.2.under options))) []], 0⟩ := by
  let written := attrs.map fun a => (a.1, a.2.under options)
  let escaping : MarkupOptions := { options with escapeDynamic := true }
  have hconfined : ConfinedAttrs written := by
    intro b hb
    obtain ⟨a, ha, rfl⟩ := List.mem_map.1 hb
    exact confined a ha
  let d : Draft := ({} : Draft).endTag { tag := tag, attrs := writtenAttrs written } selfClosing
  have hrun : (printStartTag options tag attrs selfClosing).toList =
      '<' :: (tag.toList ++ ((printAttrs escaping written).toList ++
        (Token.Tag.ending selfClosing ++ []))) := by
    rw [printStartTag, printAttrs_under]
    cases selfClosing <;> simp [Token.Tag.ending, written, escaping]
  have reads : ({} : Draft).readRun false (printStartTag options tag attrs selfClosing).toList =
      .ok d := by
    rw [hrun, Draft.readRun_bracket rfl (Token.Content.markup?_openTag named
        (printAttrs_stops escaping written selfClosing [])),
      Draft.readRun_startTag rfl tag hconfined selfClosing, Draft.readRun_nil]
  have hread : readFragments 0 none {} [printStartTag options tag attrs selfClosing] = .ok d := by
    simp [readFragments, behindQuote, reads, Except.mapError, bind, Except.bind]
  have finished : d.finish = [.element tag (writtenAttrs written) []] := by
    simp only [d, Draft.endTag]
    split <;> rfl
  simp [parse, hread, finished, bind, Except.bind, pure, Except.pure, written]

/-- Of the attributes with a name it keeps the one that is written last. -/
theorem get?_writtenAttrs {n name : String} {o : AttrOutput}
    (last : lastNamed n attrs = some (name, o)) :
    Entries.get? name (writtenAttrs (attrs.map fun a => (a.1, a.2.under options))) =
      some (.literal (o.under options).written) := by
  obtain ⟨before, behind, rfl, hn, apart⟩ := lastNamed_split last
  rw [writtenAttrs, List.map_map, List.map_append, List.map_cons]
  refine get?_ofList_written fun hmem => ?_
  rw [Entries.names, List.map_map] at hmem
  obtain ⟨a, ha, rfl⟩ := List.mem_map.1 hmem
  exact apart a ha hn

end Skeleton

/-! ### The same attribute takes precedence -/

/-- Which attribute takes precedence on an element and in its start tag. -/
structure Precedence (tag : String) (attrs : Attributes) (values : List Value)
    (reading : Target → List Value) : Prop where
  /-- The element has what is applied last. -/
  shows : ∀ n, reading (.attribute n) =
    ((lastNamed n (attrOutcomes (Markup.valueAt values) (applied attrs))).map
      fun e => AttrOutput.reading e.2).getD []
  /-- What it has is written last, if what stands last is applied last. -/
  agrees : ∀ n, LastInTurn n (Markup.valueAt values) attrs → ∀ v ∈ reading (.attribute n),
    ∃ name o, lastNamed n (attrOutputs (Markup.valueAt values) attrs) = some (name, o) ∧
      v = .text o.value
  starts : ∀ options contentAt children, ∃ selfClosing rest,
    Markup.node options values contentAt (.element tag attrs children) =
      printStartTag options tag (attrOutputs (Markup.valueAt values) attrs) selfClosing ++ rest
  /-- What is written last is what is kept when the start tag is read. -/
  keeps : ∀ n name o, lastNamed n (attrOutputs (Markup.valueAt values) attrs) = some (name, o) →
    ∀ options, (∀ a ∈ attrOutputs (Markup.valueAt values) attrs,
      IsAttrName a.1.toList ∧ (a.2.under options).Confined) → ∀ selfClosing, ∃ entries,
        Skeleton.parse [printStartTag options tag (attrOutputs (Markup.valueAt values) attrs)
          selfClosing] = .ok ⟨[.element tag entries []], 0⟩ ∧
        Entries.get? name entries = some (.literal (o.under options).written)

theorem precedence_sound : Sighting.Sound Precedence := by
  intro tag attrs values reading named look
  refine ⟨fun n => (look n).trans look_applied_eq_last, fun n inTurn v hv => ?_,
    fun options contentAt children => Markup.node_startTag options values contentAt tag attrs children,
    fun n name o last options confined selfClosing => ?_⟩
  · rw [look n, look_applied_eq_last, inTurn.lastNamed_eq] at hv
    cases hlast : lastNamed n (attrOutcomes (Markup.valueAt values) attrs) with
    | none => simp [hlast] at hv
    | some e =>
      obtain ⟨name, o⟩ := e
      cases o with
      | none => simp [hlast, AttrOutput.reading] at hv
      | some o =>
        have heq : v = .text o.value := by simpa [hlast, AttrOutput.reading] using hv
        exact ⟨name, o, lastNamed_kept hlast, heq⟩
  · exact ⟨_, Skeleton.parse_printStartTag named confined selfClosing,
      Skeleton.get?_writtenAttrs last⟩

namespace Value

/-- On every element of a template that is rendered into a new document, and in every start tag that
is written for one, the last of the attributes with a name takes precedence: in the document the one
that is applied last, in the start tag the one that stands last. -/
theorem renderAlone_precedence {v : Value} (built : v.Built)
    (succeeds : v.renderAlone.failure = none) :
    let d := v.renderAlone.host.document
    v.DepictedAlone Precedence (d.appearance Target.isAttribute (d.children body)) :=
  v.renderAlone_depicted precedence_sound built succeeds

/-- A paragraph that spreads a mapping beside what else it has. -/
def spreadBeside (attrs : Attributes) (entries : List (String × Value)) : Value :=
  .template 0 ⟨.parsed 0, ⟨[.element "p" attrs []], 1⟩⟩ [.attributes 1 entries]

/-- A literal in front of a mapping gives way to an entry of its name in the document as well as in the
start tag. -/
theorem renderAlone_precedence_literal_first :
    let attrs : Attributes := [("a", .literal "x"), (Binding.spreadName, .hole 0)]
    let v := spreadBeside attrs [("A", .text "y")]
    let d := v.renderAlone.host.document
    v.Built ∧ v.renderAlone.failure = none ∧ LastInTurn "a" (Markup.valueAt v.parts.2) attrs ∧
      (∃ reading kids,
        d.appearance Target.isAttribute (d.children body) = [.element "p" reading kids] ∧
        reading (.attribute "a") = [.text "y"]) ∧
      Markup.content {} v = "<p a=\"x\" A=\"y\"></p>" ∧
      ∃ entries, Skeleton.parse ["<p a=\"x\" A=\"y\">"] = .ok ⟨[.element "p" entries []], 0⟩ ∧
        Entries.get? "A" entries = some (.literal "y") := by
  intro attrs v d
  have built : v.Built := by
    refine ⟨.inr ⟨["<p a=x ...", "></p>"], by decide +kernel⟩, rfl, ⟨by decide, ?_⟩, trivial⟩
    simp [BuiltEntries, Built]
  have succeeds : v.renderAlone.failure = none := by decide +kernel
  have inTurn : LastInTurn "a" (Markup.valueAt v.parts.2) attrs := by decide +kernel
  obtain ⟨f, g, ⟨reading, kids, rfl, precedence, -⟩, rfl, happearance⟩ :=
    renderAlone_precedence built succeeds
  have outputs : attrOutputs (Markup.valueAt v.parts.2) attrs =
      [("a", .literal "x"), ("A", .dynamic "y")] := by decide +kernel
  have last : lastNamed "a" (attrOutputs (Markup.valueAt v.parts.2) attrs) =
      some ("A", .dynamic "y") := by decide +kernel
  have shows : reading (.attribute "a") = [.text "y"] :=
    (precedence.shows "a").trans (by decide +kernel)
  have confined : ∀ a ∈ attrOutputs (Markup.valueAt v.parts.2) attrs,
      IsAttrName a.1.toList ∧ (a.2.under {}).Confined := by
    have lower : IsBareName "a".toList := by decide
    have upper : IsBareName "A".toList := by decide
    have unquoted : '"' ∉ "x".toList := by decide
    rw [outputs, List.forall_mem_cons, List.forall_mem_cons]
    exact ⟨⟨lower.isAttrName, unquoted⟩, ⟨upper.isAttrName, trivial⟩, by simp⟩
  obtain ⟨entries, parsed, kept⟩ := precedence.keeps "a" "A" _ last {} confined false
  refine ⟨built, succeeds, inTurn, ⟨reading, kids, happearance.trans ?_, shows⟩, by decide +kernel,
    entries, ?_, kept.trans (by decide +kernel)⟩
  · rfl
  · rw [outputs] at parsed
    exact parsed

/-- A literal behind a mapping gives way to an entry of its name in the document, but not in the start
tag, and reading the start tag keeps the literal. -/
theorem literal_behind_entry_is_lost :
    let attrs : Attributes := [(Binding.spreadName, .hole 0), ("a", .literal "x")]
    let v := spreadBeside attrs [("a", .text "y")]
    let d := v.renderAlone.host.document
    v.Built ∧ v.renderAlone.failure = none ∧ d.attribute? 1 "a" = some "y" ∧
      d.innerMarkup body = "<p a=\"y\"></p>" ∧
      Markup.content {} v = "<p a=\"y\" a=\"x\"></p>" ∧
      lastNamed "a" (attrOutputs (Markup.valueAt v.parts.2) attrs) = some ("a", .literal "x") ∧
      Skeleton.parse ["<p a=\"y\" a=\"x\">"] =
        .ok ⟨[.element "p" [("a", .literal "x")] []], 0⟩ := by
  refine ⟨⟨.inr ⟨["<p ...", " a=x></p>"], by decide +kernel⟩, rfl, ⟨by decide, ?_⟩, trivial⟩, ?_, ?_,
    ?_, ?_, ?_, ?_⟩
  · simp [BuiltEntries, Built]
  all_goals decide +kernel

end Value

end LiveTemplate
