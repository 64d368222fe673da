import LiveTemplate.Proofs.Agreement
import LiveTemplate.Proofs.Canonical
import LiveTemplate.Proofs.Confinement

/-!
# Names that mappings bring

The names in a template are those of the grammar, but a mapping that is spread names what it
likes. A document refuses a name that could not stand in a start tag; in markup every name is
written as it is. So the start tag of an element with a spread is read back as it was written
exactly if all names in it are names of the grammar. One direction needs that the reader binds
no other name to a literal: the dots of a spread are read only where a hole follows, and it is
the hole that is bound to them.
-/
namespace LiveTemplate
open Text

/-! ### What a draft holds of its elements -/

namespace Node

variable {P : List (String × AttrValue) → Prop} {Q : String → Prop} {C : Nat → Prop}

theorem everyAll_append {ns ms : List Node} :
    EveryAll P Q C (ns ++ ms) ↔ EveryAll P Q C ns ∧ EveryAll P Q C ms := by
  induction ns with
  | nil => simp [EveryAll]
  | cons n rest ih => simp [EveryAll, ih, and_assoc]

end Node

namespace Draft

variable {P : List (String × AttrValue) → Prop} {Q : String → Prop} {C : Nat → Prop}
  {d d' : Draft} {hasNext : Bool} {rest : List Char}

/-- Something holds of every finished and every open element, of every text and of every hole
among content. The start tag that is being read is left out. -/
structure Every (P : List (String × AttrValue) → Prop) (Q : String → Prop) (C : Nat → Prop)
    (d : Draft) : Prop where
  nodes : Node.EveryAll P Q C d.nodes
  opened : ∀ e ∈ d.opened, e.toNode.Every P Q C

theorem Every.add (h : d.Every P Q C) {n : Node} (hn : n.Every P Q C) : (d.add n).Every P Q C := by
  obtain ⟨nodes, opened, mode⟩ := d
  cases opened with
  | nil => exact ⟨Node.everyAll_append.2 ⟨h.nodes, hn, trivial⟩, by simp [Draft.add]⟩
  | cons e outer =>
    have he := h.opened e (List.mem_cons_self ..)
    refine ⟨h.nodes, ?_⟩
    rintro o (_ | ⟨_, ho⟩)
    · exact ⟨he.1, Node.everyAll_append.2 ⟨he.2, hn, trivial⟩⟩
    · exact h.opened o (List.mem_cons_of_mem _ ho)

theorem Every.close (h : d.Every P Q C) (count : Nat) : (d.close count).Every P Q C := by
  induction count generalizing d with
  | zero => exact h
  | succ count ih =>
    refine ih ?_
    obtain ⟨nodes, opened, mode⟩ := d
    cases opened with
    | nil => exact h
    | cons e outer =>
      have inner : Draft.Every P Q C ⟨nodes, outer, mode⟩ :=
        ⟨h.nodes, fun o ho => h.opened o (List.mem_cons_of_mem _ ho)⟩
      exact inner.add (h.opened e (List.mem_cons_self ..))

theorem Every.closeNamed (h : d.Every P Q C) (name : String) : (d.closeNamed name).Every P Q C := by
  unfold Draft.closeNamed
  split
  · exact h
  · exact h.close _

theorem Every.endTag (h : d.Every P Q C) {e : OpenElement} (he : e.toNode.Every P Q C)
    (selfClosing : Bool) : (d.endTag e selfClosing).Every P Q C := by
  have content : Draft.Every P Q C { d with mode := .content } := ⟨h.nodes, h.opened⟩
  unfold Draft.endTag
  split
  · exact content.add he
  · refine ⟨h.nodes, ?_⟩
    rintro o (_ | ⟨_, ho⟩)
    · exact he
    · exact h.opened o ho

end Draft

/-! ### Only holes are spread -/

/-- Every attribute that is bound to a literal has a name of the grammar. -/
def LiteralsNamed (attrs : List (String × AttrValue)) : Prop :=
  ∀ name s, (name, AttrValue.literal s) ∈ attrs → IsAttrName name.toList

theorem LiteralsNamed.put {attrs : List (String × AttrValue)} (h : LiteralsNamed attrs) {name : String}
    {value : AttrValue} (hname : ∀ s, value = .literal s → IsAttrName name.toList) :
    LiteralsNamed (Entries.put name value attrs) := by
  intro m s hm
  rcases Entries.mem_put hm with hm | hm
  · obtain ⟨rfl, rfl⟩ := Prod.mk.injEq .. ▸ hm
    exact hname s rfl
  · exact h m s hm

/-- No literal is spread, in a node or below it. -/
abbrev Node.Named (n : Node) : Prop := n.Every LiteralsNamed (fun _ => True) fun _ => True

abbrev Node.NamedAll (ns : List Node) : Prop := EveryAll LiteralsNamed (fun _ => True) (fun _ => True) ns

namespace Draft

variable {d d' : Draft} {e : OpenElement} {hasNext : Bool} {cs rest : List Char} {p : Pending}

theorem bind_named (he : e.toNode.Named) {name : String} {value : AttrValue}
    (hname : ∀ s, value = .literal s → IsAttrName name.toList) : (e.bind name value).toNode.Named :=
  ⟨he.1.put hname, he.2⟩

/-- A name without a value is one of the grammar, or stands for the dots of a spread. Behind
these comes a hole, with at most blanks before it. -/
def PendingNamed (hasNext : Bool) (rest : List Char) (p : Pending) : Prop :=
  IsAttrName p.name.toList ∨ p.stage = .valueDue ∧ hasNext = true ∧ dropBlanks rest = []

/-- What has been read of a draft before the rest of a fragment. -/
structure Named (hasNext : Bool) (rest : List Char) (d : Draft) : Prop where
  every : d.Every LiteralsNamed (fun _ => True) fun _ => True
  tag : ∀ e pending, d.mode = .tag e pending →
    e.toNode.Named ∧ ∀ p ∈ pending, PendingNamed hasNext rest p

theorem settle_named (he : e.toNode.Named) {pending : Option Pending}
    (hp : ∀ p ∈ pending, PendingNamed hasNext rest p) : (settle e pending).toNode.Named := by
  unfold settle
  split
  next name =>
    rcases hp _ rfl with h | ⟨h, -⟩
    · exact bind_named he fun _ _ => h
    · simp at h
  next => exact he

theorem inTag_named (every : d.Every LiteralsNamed (fun _ => True) fun _ => True)
    (he : e.toNode.Named) {pending : Option Pending}
    (hp : ∀ p ∈ pending, PendingNamed hasNext rest p) : (d.inTag e pending).Named hasNext rest := by
  refine ⟨⟨every.nodes, every.opened⟩, fun e' pending' h => ?_⟩
  obtain ⟨rfl, rfl⟩ := Mode.tag.inj h
  exact ⟨he, hp⟩

theorem endTag_named (every : d.Every LiteralsNamed (fun _ => True) fun _ => True)
    (he : e.toNode.Named) (selfClosing : Bool) : (d.endTag e selfClosing).Named hasNext rest := by
  refine ⟨every.endTag he selfClosing, fun e' pending' h => ?_⟩
  simp [endTag_mode] at h

theorem stepValue_named (every : d.Every LiteralsNamed (fun _ => True) fun _ => True)
    (he : e.toNode.Named) {name : String} (hname : IsAttrName name.toList)
    (h : stepValue hasNext e name d cs = some (d', rest)) : d'.Named hasNext rest := by
  have bound : ∀ text, (d.inTag (e.bind name (.literal text)) none).Named hasNext rest := fun text =>
    inTag_named every (bind_named he fun _ _ => hname) (by simp)
  unfold stepValue at h
  split at h
  next =>
    obtain ⟨rfl, rfl⟩ := Prod.mk.injEq .. ▸ Option.some.inj h
    exact bound _
  next =>
    obtain ⟨rfl, rfl⟩ := Prod.mk.injEq .. ▸ Option.some.inj h
    exact bound _
  next =>
    split at h <;> try contradiction
    obtain ⟨rfl, rfl⟩ := Prod.mk.injEq .. ▸ Option.some.inj h
    refine inTag_named every he ?_
    rintro _ ⟨⟩
    exact .inl hname
  next =>
    split at h <;> try contradiction
    obtain ⟨rfl, rfl⟩ := Prod.mk.injEq .. ▸ Option.some.inj h
    exact endTag_named every (bind_named he fun _ _ => hname) _

theorem stepName_named (every : d.Every LiteralsNamed (fun _ => True) fun _ => True)
    (he : e.toNode.Named) {pending : Option Pending} {before : List Char}
    (hp : ∀ p ∈ pending, PendingNamed hasNext before p)
    (h : stepName hasNext e pending d cs = some (d', rest)) : d'.Named hasNext rest := by
  have settled := settle_named he hp
  unfold stepName at h
  split at h <;> try contradiction
  next =>
    obtain ⟨rfl, rfl⟩ := Prod.mk.injEq .. ▸ Option.some.inj h
    exact endTag_named every settled _
  next =>
    split at h <;> try contradiction
    next name =>
      obtain ⟨rfl, rfl⟩ := Prod.mk.injEq .. ▸ Option.some.inj h
      refine inTag_named every he ?_
      rintro _ ⟨⟩
      rcases hp _ rfl with hname | ⟨hstage, -⟩
      · exact .inl hname
      · simp at hstage
  next =>
    split at h <;> try contradiction
    next hdots =>
      obtain ⟨rfl, rfl⟩ := Prod.mk.injEq .. ▸ Option.some.inj h
      refine inTag_named every settled ?_
      rintro _ ⟨⟩
      exact .inr ⟨rfl, by simpa using hdots⟩
  next hscan =>
    obtain ⟨rfl, rfl⟩ := Prod.mk.injEq .. ▸ Option.some.inj h
    refine inTag_named every settled ?_
    rintro _ ⟨⟩
    exact .inl (by simpa using Token.Tag.scan?_name hscan)

theorem takeContent_named (h : d.Named hasNext cs) (hmode : d.mode = .content)
    (token : Token.Content) : (d.takeContent token).Named hasNext rest := by
  have same : ∀ d' : Draft, d'.Every LiteralsNamed (fun _ => True) (fun _ => True) →
      d'.mode = .content → d'.Named hasNext rest := fun d' every hmode =>
    ⟨every, fun e pending h => by simp [hmode] at h⟩
  cases token with
  | doctype => exact same d h.every hmode
  | commentStart => exact ⟨⟨h.every.nodes, h.every.opened⟩, fun e pending h => by simp [takeContent] at h⟩
  | closeTag name => exact same _ (h.every.closeNamed _) ((closeNamed_mode _).trans hmode)
  | openTag name =>
    refine inTag_named h.every (e := { tag := String.ofList name }) ?_ (by simp)
    exact ⟨by simp [LiteralsNamed], trivial⟩
  | text run =>
    simp only [takeContent]
    split
    · exact same d h.every hmode
    · exact same _ (h.every.add trivial) (by rw [add_eq_addAll, addAll_mode, hmode])

/-- A token that is read binds no literal to anything but a name. -/
theorem step_named (h : d.Named hasNext cs) (hs : step hasNext d cs = some (d', rest)) :
    d'.Named hasNext rest := by
  unfold step at hs
  split at hs
  next hmode =>
    split at hs <;> obtain ⟨rfl, rfl⟩ := Prod.mk.injEq .. ▸ Option.some.inj hs
    · exact ⟨⟨h.every.nodes, h.every.opened⟩, fun e pending h => by simp at h⟩
    · exact ⟨h.every, fun e pending h => by simp [hmode] at h⟩
  next e pending hmode =>
    obtain ⟨he, hp⟩ := h.tag e pending hmode
    simp only [stepTag] at hs
    split at hs
    next hblank =>
      obtain ⟨rfl, rfl⟩ := Prod.mk.injEq .. ▸ Option.some.inj hs
      refine ⟨h.every, fun e' pending' h' => ?_⟩
      obtain ⟨rfl, rfl⟩ := Mode.tag.inj (hmode.symm.trans h')
      exact ⟨he, fun p hmem => (hp p hmem).imp id fun due => ⟨due.1, due.2.1, rfl⟩⟩
    next hinput =>
      split at hs
      next name =>
        -- more than blanks follows, so what is due is not the hole of a spread
        rcases hp _ rfl with hname | ⟨-, -, hblank⟩
        · exact stepValue_named h.every he hname hs
        · exact absurd hblank hinput
      next => exact stepName_named h.every he hp hs
  next hmode =>
    obtain ⟨rfl, rfl⟩ := Prod.mk.injEq .. ▸ Option.some.inj hs
    exact takeContent_named h hmode _

theorem readRun_named (h : d.Named hasNext cs) (hr : readRun hasNext d cs = .ok d') :
    d'.Named hasNext [] := by
  fun_induction readRun hasNext d cs with
  | case1 => exact (by injection hr with hr; exact hr ▸ h)
  | case2 => contradiction
  | case3 d cs hcs d₁ rest hstep ih => exact ih (step_named h hstep) hr

/-- Behind a hole no value is due, so what was due does not matter any more. -/
theorem takeHole_named (h : d.Named hasNext cs) {index : Nat} {quote : Option Char}
    (ht : d.takeHole index = some (d', quote)) (hasNext' : Bool) (rest : List Char) :
    d'.Named hasNext' rest := by
  unfold takeHole at ht
  split at ht <;> simp only [Option.some.injEq, Prod.mk.injEq, reduceCtorEq] at ht <;>
    obtain ⟨rfl, -⟩ := ht
  next hmode => exact ⟨h.every, fun e pending h => by simp [hmode] at h⟩
  next hmode =>
    refine ⟨h.every.add trivial, fun e pending h => ?_⟩
    rw [add_eq_addAll, addAll_mode, hmode] at h
    simp at h
  next hmode => exact inTag_named h.every (bind_named (h.tag _ _ hmode).1 (by simp)) (by simp)
  next hmode => exact inTag_named h.every (bind_named (h.tag _ _ hmode).1 (by simp)) (by simp)

theorem finish_named (h : d.Named hasNext cs) : Node.NamedAll d.finish := by
  unfold finish
  split
  next e pending hmode =>
    obtain ⟨he, hp⟩ := h.tag e pending hmode
    refine (Every.close (d := { d with opened := settle e pending :: d.opened, mode := .content })
      ⟨h.every.nodes, ?_⟩ _).nodes
    rintro o (_ | ⟨_, ho⟩)
    · exact settle_named he hp
    · exact h.every.opened o ho
  next => exact (h.every.close _).nodes

end Draft

namespace Skeleton

theorem readFragments_named {fragments : List String} {index : Nat} {awaited : Option (Nat × Char)}
    {d d' : Draft} (h : ∀ hasNext rest, d.Named hasNext rest)
    (hr : readFragments index awaited d fragments = .ok d') : ∃ hasNext, d'.Named hasNext [] := by
  induction fragments generalizing index awaited d with
  | nil =>
    injection hr with hr
    exact ⟨false, hr ▸ h false []⟩
  | cons fragment rest ih =>
    obtain ⟨run, d₁, -, hread, hrest⟩ := readFragments_cons hr
    have named := Draft.readRun_named (h _ run) hread
    rcases hrest with ⟨-, rfl⟩ | ⟨-, d₂, quote, htake, hnext⟩
    · exact ⟨_, named⟩
    · exact ih (Draft.takeHole_named named htake) hnext

/-- Every attribute of a tree that is read has a name of the grammar if it is bound to a
literal. -/
theorem parse_named {fragments : List String} {s : Skeleton} (h : parse fragments = .ok s) :
    Node.NamedAll s.nodes := by
  obtain ⟨d, hr, rfl⟩ := parse_ok h
  have start : ∀ hasNext rest, Draft.Named hasNext rest {} := fun hasNext rest =>
    ⟨⟨trivial, by simp⟩, by simp⟩
  obtain ⟨hasNext, named⟩ := readFragments_named start hr
  exact Draft.finish_named named

end Skeleton

/-! ### Start tags with a spread -/

theorem IsAttrName.isValidAttributeName {name : String} (h : IsAttrName name.toList) :
    isValidAttributeName name = true := by
  have nonempty : name ≠ "" := fun h' => h.ne_nil (by simp [h'])
  obtain ⟨sigil, bare, hname, -, hsigil, -, hbare⟩ := h
  have sign : ∀ c, Token.isSigil c = true → endsAttributeName c = false := by
    intro c hc
    simp only [Token.isSigil, Bool.or_eq_true, beq_iff_eq] at hc
    rcases hc with (rfl | rfl) | rfl <;> decide
  have inName : ∀ c, Token.isAttrNameChar c = true → endsAttributeName c = false := by
    intro c hc
    have hne : c ∉ ['"', '\x27', '>', '/', '=', '<'] := by
      intro hmem
      simp only [List.mem_cons, List.not_mem_nil, or_false] at hmem
      rcases hmem with rfl | rfl | rfl | rfl | rfl | rfl <;> simp [Token.isAttrNameChar] at hc
    simp [endsAttributeName, Token.isBlank_of_isAttrNameChar hc, hne]
  simp only [LiveTemplate.isValidAttributeName, bne_iff_ne, ne_eq, nonempty, not_false_eq_true,
    hname, Bool.and_eq_true, List.all_append, List.all_eq_true, Bool.not_eq_true', true_and]
  exact ⟨fun c hc => sign c (hsigil c hc), fun c hc => inName c (hbare c hc)⟩

variable {b : Binding} {v : Value}

/-- What a value writes is no literal. -/
theorem Binding.outcome_dynamic : ∀ a ∈ kept (b.outcome .dynamic v), a.2.Confined := by
  rcases b with name | name | name | event | _ | _ | _
  · by_cases hv : v.isNull <;> simp [outcome, kept, hv, AttrOutput.Confined]
  · by_cases hv : v.isNull <;> by_cases ht : v.isTruthy <;>
      simp [outcome, kept, hv, ht, AttrOutput.Confined]
  all_goals simp [outcome, kept]

/-- A value can be written where the name that it is written under is valid. -/
theorem Binding.accepts_iff :
    b.Accepts v ↔ ∀ a ∈ kept (b.outcome .dynamic v), isValidAttributeName a.1 = true := by
  rcases b with name | name | name | event | _ | _ | _
  · by_cases hv : v = .null <;> simp [Accepts, outcome, kept, Value.isNull, hv]
  · by_cases hv : v = .null
    · simp [Accepts, outcome, kept, Value.isNull, hv, Value.isTruthy]
    · by_cases ht : v.isTruthy <;> simp [Accepts, outcome, kept, Value.isNull, hv, ht]
  all_goals simp [Accepts, outcome, kept]

mutual
theorem outcomes_dynamic : (v : Value) → (b : Binding) →
    ∀ a ∈ kept (outcomes .dynamic b v), a.2.Confined
  | .attributes handle entries, b => by
      rw [outcomes]
      split
      · exact entryOutcomes_dynamic entries
      · exact Binding.outcome_dynamic
  | .null, _ => Binding.outcome_dynamic
  | .bool _, _ => Binding.outcome_dynamic
  | .number _, _ => Binding.outcome_dynamic
  | .text _, _ => Binding.outcome_dynamic
  | .template .., _ => Binding.outcome_dynamic
  | .list .., _ => Binding.outcome_dynamic
  | .callback _, _ => Binding.outcome_dynamic
  | .cell _, _ => Binding.outcome_dynamic
  | .payload _, _ => Binding.outcome_dynamic
termination_by structural v => v

theorem entryOutcomes_dynamic : (entries : List (String × Value)) →
    ∀ a ∈ kept (entryOutcomes .dynamic entries), a.2.Confined
  | [] => by simp [entryOutcomes, kept]
  | (name, v) :: rest => by
      rw [entryOutcomes, kept_append, List.forall_mem_append]
      refine ⟨?_, entryOutcomes_dynamic rest⟩
      cases Binding.ofEntryName? name with
      | none => simp [kept]
      | some c => exact outcomes_dynamic v c
termination_by structural es => es
end

mutual
theorem writable_iff : (v : Value) → (b : Binding) →
    (Writable b v ↔ ∀ a ∈ kept (outcomes .dynamic b v), isValidAttributeName a.1 = true)
  | .attributes handle entries, b => by
      rw [outcomes, Writable]
      split
      · exact writableEntries_iff entries
      · exact Binding.accepts_iff
  | .null, _ => Binding.accepts_iff
  | .bool _, _ => Binding.accepts_iff
  | .number _, _ => Binding.accepts_iff
  | .text _, _ => Binding.accepts_iff
  | .template .., _ => Binding.accepts_iff
  | .list .., _ => Binding.accepts_iff
  | .callback _, _ => Binding.accepts_iff
  | .cell _, _ => Binding.accepts_iff
  | .payload _, _ => Binding.accepts_iff
termination_by structural v => v

/-- A mapping can be spread over an element of a document where every name that is written is
valid. -/
theorem writableEntries_iff : (entries : List (String × Value)) →
    (WritableEntries entries ↔
      ∀ a ∈ kept (entryOutcomes .dynamic entries), isValidAttributeName a.1 = true)
  | [] => by simp [WritableEntries, entryOutcomes, kept]
  | (name, v) :: rest => by
      rw [entryOutcomes, kept_append, List.forall_mem_append, WritableEntries,
        writableEntries_iff rest]
      cases Binding.ofEntryName? name with
      | none => simp [kept]
      | some c => simp [writable_iff v c]
termination_by structural es => es
end

theorem exists_mem_writtenAttrs {attrs : List (String × AttrOutput)} {a : String × AttrOutput}
    (h : a ∈ attrs) : ∃ s, (a.1, AttrValue.literal s) ∈ writtenAttrs attrs := by
  have hname : a.1 ∈ Entries.names (writtenAttrs attrs) :=
    Entries.mem_names_ofList (List.mem_map.2 ⟨_, List.mem_map_of_mem h, rfl⟩)
  obtain ⟨⟨n, value⟩, hmem, rfl⟩ := List.mem_map.1 hname
  obtain ⟨b, -, heq⟩ := List.mem_map.1 (Entries.mem_ofList hmem)
  obtain rfl : AttrValue.literal b.2.written = value := congrArg Prod.snd heq
  exact ⟨_, hmem⟩

section
variable {options : MarkupOptions} {attrs : List (String × AttrOutput)}

/-- An element without children is read back with its attributes exactly if every name that
is written is a name of the grammar. -/
theorem Skeleton.parse_emptyElement (escaped : options.escapeDynamic = true)
    (confined : ∀ a ∈ attrs, a.2.Confined) :
    parse ["<div" ++ printAttrs options attrs ++ "></div>"] =
        .ok ⟨[.element "div" (writtenAttrs attrs) []], 0⟩ ↔
      ∀ a ∈ attrs, IsAttrName a.1.toList := by
  constructor
  · intro h a ha
    obtain ⟨s, hs⟩ := exists_mem_writtenAttrs ha
    exact (parse_named h).1.1 a.1 s hs
  · intro named
    have tag : IsTagName "div".toList := by decide
    have hrun : ("<div" ++ printAttrs options attrs ++ "></div>").toList =
        '<' :: ("div".toList ++ ((printAttrs options attrs).toList ++
          (Token.Tag.ending false ++ ((Markup.closingTag "div").toList ++ [])))) := by
      simp [Markup.closingTag, Token.Tag.ending]
    have hend : ({} : Draft).endTag { tag := "div", attrs := writtenAttrs attrs } false =
        ⟨[], [⟨"div", writtenAttrs attrs, []⟩], .content⟩ := by
      have void : isVoidTag "div" = false := by decide
      rw [Draft.endTag, if_neg (by simp [void])]
    have reads : Draft.readRun false {} ("<div" ++ printAttrs options attrs ++ "></div>").toList =
        .ok ⟨[.element "div" (writtenAttrs attrs) []], [], .content⟩ := by
      rw [hrun, Draft.readRun_bracket rfl (Token.Content.markup?_openTag tag
          (printAttrs_stops options attrs false _)),
        Draft.readRun_startTag escaped "div" fun a ha => ⟨named a ha, confined a ha⟩, hend]
      exact (Draft.readRun_closingTag (e := ⟨"div", writtenAttrs attrs, []⟩) tag).trans
        (by simp [Draft.add, OpenElement.toNode])
    have hread : readFragments 0 none {} ["<div" ++ printAttrs options attrs ++ "></div>"] =
        .ok ⟨[.element "div" (writtenAttrs attrs) []], [], .content⟩ := by
      simp only [readFragments, behindQuote, bind, Except.bind, List.isEmpty_nil, Bool.not_true,
        reads, Except.mapError, if_true]
    simp [parse, hread, Draft.finish, Draft.close, bind, Except.bind, pure, Except.pure]

end

/-- An element that spreads a mapping and has nothing else. -/
def Skeleton.spreadDiv : Skeleton := ⟨[.element "div" [(Binding.spreadName, .hole 0)] []], 1⟩

theorem Skeleton.parse_spreadDiv : parse ["<div ...", "></div>"] = .ok spreadDiv := by
  decide +kernel

namespace Value

/-- A mapping spread over an element that has nothing else. The element has been read as the
skeleton of that number, and mapping and template are made under these handles. -/
def spreadOver (number handle handle' : Nat) (entries : List (String × Value)) : Value :=
  .template handle' ⟨.parsed number, .spreadDiv⟩ [.attributes handle entries]

variable {options : MarkupOptions} {number handle handle' : Nat} {entries : List (String × Value)}

theorem attributes_spreadOver (values : List Value) :
    Markup.attributes options (.attributes handle entries :: values) [(Binding.spreadName, .hole 0)] =
      printAttrs options (kept (entryOutcomes .dynamic entries)) := by
  have hname : Binding.ofName? Binding.spreadName = some .spread := by decide
  simp [attributes_eq_print, attrOutputs, attrOutcomes, hname, Markup.valueAt, outcomes]

theorem content_spreadOver :
    Markup.content options (spreadOver number handle handle' entries) =
      "<div" ++ printAttrs options (kept (entryOutcomes .dynamic entries)) ++ "></div>" := by
  have hinner : Markup.inner? [.attributes handle entries] [(Binding.spreadName, .hole 0)] = none := by
    simp [Markup.inner?, markupSource?, Entries.get?, Binding.spreadName, Binding.markupName]
  have hend : Markup.emptyEnd options "div" = "></div>" := by
    rw [Markup.emptyEnd, if_neg (by decide)]
    rfl
  simp [spreadOver, Markup.content, Skeleton.spreadDiv, SharedSkeleton.nodes, Markup.nodes,
    Markup.node, hinner, hend, attributes_spreadOver, String.append_assoc]

/-- A mapping is spread over an element of a document if and only if every name that is
written is valid. -/
theorem renderAlone_spreadOver (built : (spreadOver number handle handle' entries).Built) :
    (spreadOver number handle handle' entries).renderAlone.failure = none ↔
      ∀ a ∈ kept (entryOutcomes .dynamic entries), isValidAttributeName a.1 = true := by
  have hname : Binding.ofName? Binding.spreadName = some .spread := by decide
  have mountable : Node.MountableAll ShowableMarkup Skeleton.spreadDiv.nodes := by
    have htag : isValidTag "div" = true := by decide
    simp [Skeleton.spreadDiv, Node.MountableAll, Node.Mountable, Node.LiteralsAccepted, htag]
  have hseats : Node.seatsAll Skeleton.spreadDiv.nodes =
      [(0, .attribute .spread [(Binding.spreadName, .hole 0)])] := by decide
  have applicable : Applicable .spread (.attributes handle entries) ↔ WritableEntries entries := by
    simp [Applicable, Writable]
  have fills : FillsRenderably ⟨.parsed number, .spreadDiv⟩ [.attributes handle entries] ↔
      WritableEntries entries := by
    rw [FillsRenderably, SharedSkeleton.nodes, hseats, ← applicable]
    simp [mountable, Markup.valueAt]
  rw [renderAlone_failure built, ← writableEntries_iff]
  exact fills

/-- The markup of an element that spreads a mapping is read back as that element, with the
attributes that are written and nothing else, if and only if every name that is written is a
name of the grammar. A document takes these, and all others that could stand in a start tag. -/
theorem parse_spreadOver (escaped : options.escapeDynamic = true)
    (built : (spreadOver number handle handle' entries).Built) :
    let v := spreadOver number handle handle' entries
    let printed := kept (entryOutcomes .dynamic entries)
    (Skeleton.parse [Markup.content options v] =
        .ok ⟨[.element "div" (writtenAttrs printed) []], 0⟩ ↔
      ∀ a ∈ printed, IsAttrName a.1.toList) ∧
    (v.renderAlone.failure = none ↔ ∀ a ∈ printed, isValidAttributeName a.1 = true) ∧
    ((∀ a ∈ printed, IsAttrName a.1.toList) → v.renderAlone.failure = none) := by
  intro v printed
  have valid := renderAlone_spreadOver built
  refine ⟨?_, valid, fun named => valid.2 fun a ha => (named a ha).isValidAttributeName⟩
  rw [content_spreadOver]
  exact Skeleton.parse_emptyElement escaped (entryOutcomes_dynamic entries)

/-- A text that tries to be more than that, and an attribute that is only present. -/
theorem parse_spreadOver_title :
    let v := spreadOver 0 0 1 [("title", .text "\"><b>"), ("?open", .bool true)]
    v.Built ∧
      Skeleton.parse [Markup.content {} v] =
        .ok ⟨[.element "div" [("title", .literal "&quot;><b>"), ("open", .literal "")] []], 0⟩ ∧
      v.renderAlone.failure = none := by
  intro v
  have built : v.Built := by
    refine ⟨.inr ⟨_, Skeleton.parse_spreadDiv⟩, rfl, ⟨by decide, ?_⟩, trivial⟩
    simp [BuiltEntries, Built]
  obtain ⟨reads, -, accepted⟩ := @parse_spreadOver {} 0 0 1
    [("title", .text "\"><b>"), ("?open", .bool true)] rfl built
  have named : ∀ a ∈ kept (entryOutcomes .dynamic [("title", .text "\"><b>"), ("?open", .bool true)]),
      IsAttrName a.1.toList := by
    have hprinted : kept (entryOutcomes .dynamic [("title", .text "\"><b>"), ("?open", .bool true)]) =
        [("title", .dynamic "\"><b>"), ("open", .present)] := by decide
    have title : IsBareName "title".toList := by decide
    have opened : IsBareName "open".toList := by decide
    rw [hprinted]
    simpa only [List.forall_mem_cons, List.not_mem_nil, false_implies, implies_true, and_true] using
      And.intro title.isAttrName opened.isAttrName
  exact ⟨built, (reads.2 named).trans (by decide +kernel), accepted named⟩

/-- A name that holds the end of the start tag. A document refuses it; in markup it makes an
element inside the one that it is spread over. -/
theorem spread_name_makes_element :
    let v := spreadOver 0 0 1 [("?a><b", .bool true)]
    v.Built ∧ v.renderAlone.failure = some (.invalidAttributeName "a><b") ∧
      Markup.content {} v = "<div a><b></div>" ∧
      Skeleton.parse [Markup.content {} v] =
        .ok ⟨[.element "div" [("a", .literal "")] [.element "b" [] []]], 0⟩ := by
  refine ⟨⟨.inr ⟨_, Skeleton.parse_spreadDiv⟩, rfl, ⟨by decide, ?_⟩, trivial⟩, ?_, ?_, ?_⟩
  · simp [BuiltEntries, Built]
  all_goals decide +kernel

end Value

end LiveTemplate
