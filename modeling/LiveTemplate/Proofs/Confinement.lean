import LiveTemplate.Proofs.Readback

/-!
# Escaping confines what comes from values

The markup of a value whose dynamic texts are escaped is read back as the elements that
its templates and its values name, whatever these texts are. The templates have to keep
to it as well: no literal text of theirs begins a tag, no literal attribute ends its
quotes, and there is no markup taken as it is. Mappings that are spread have to name what
a template could name.
-/
namespace LiveTemplate
open Text

/-! ### Names that are printed -/

theorem Binding.ofName?_eq_spread {name : String} (h : ofName? name = some .spread) :
    name = spreadName := by
  unfold ofName? at h
  split at h <;> try contradiction
  split at h
  next hn => exact hn
  next =>
    split at h <;> try contradiction
    split at h <;> try contradiction
    unfold ofPlainName at h
    split at h <;> simp at h

/-- The name an attribute is printed under has no sigil, and is not empty. -/
theorem IsBindingName.bare {name n : String} (h : IsBindingName name) {b : Binding}
    (hb : Binding.ofName? name = some b) (hn : b = .attribute n ∨ b = .presence n) :
    IsBareName n.toList := by
  have hplain : name ≠ Binding.spreadName ∧ b = Binding.ofPlainName name := by
    unfold Binding.ofName? at hb
    repeat' split at hb
    all_goals rcases hn with rfl | rfl <;> simp_all
  obtain ⟨hspread, rfl⟩ := hplain
  obtain ⟨sigil, bare, heq, hlen, hsigil, hne, hall⟩ := h.resolve_left hspread
  unfold Binding.ofPlainName at hn
  split at hn
  next rest hlist =>
    -- the question mark is the sigil
    obtain rfl : n = String.ofList rest := by simpa [eq_comm] using hn
    rw [hlist] at heq
    rcases sigil with _ | ⟨c, _ | _⟩
    · obtain ⟨c, cs, rfl⟩ := List.exists_cons_of_ne_nil hne
      obtain rfl : '?' = c := by simpa using congrArg List.head? heq
      simpa [Token.isAttrNameChar] using hall '?' (List.mem_cons_self ..)
    · obtain ⟨-, rfl⟩ := List.cons.inj heq
      simpa using ⟨hne, hall⟩
    · simp at hlen
  next => simp at hn
  next => simp at hn
  next hquestion hdot hat =>
    obtain rfl : n = name := by simpa [eq_comm] using hn
    rcases sigil with _ | ⟨c, _ | _⟩
    · rw [heq]
      exact ⟨hne, hall⟩
    · have hc := hsigil c (List.mem_cons_self ..)
      simp only [Token.isSigil, Bool.or_eq_true, beq_iff_eq] at hc
      rcases hc with (rfl | rfl) | rfl
      · exact absurd heq (hquestion bare)
      · exact absurd heq (hdot bare)
      · exact absurd heq (hat bare)
    · simp at hlen

namespace Value

mutual
/-- Where a mapping is spread, it uses names of the grammar, and so do the mappings that
are spread from it. -/
def SpreadsNames : Value → Prop
  | .attributes _ entries => EntriesSpreadNames entries
  | _ => True
termination_by structural v => v

def EntriesSpreadNames : List (String × Value) → Prop
  | [] => True
  | (name, v) :: rest =>
      IsBindingName name ∧ (name = Binding.spreadName → v.SpreadsNames) ∧ EntriesSpreadNames rest
termination_by structural es => es
end

end Value

/-! ### Attributes -/

/-- The attributes of an element take nothing as markup, and no literal and no name among
them ends the place where it is printed. -/
structure Harmless (attrs : List (String × AttrValue)) (shown : Nat → Value) : Prop where
  unmarked : Unmarked attrs
  literals : ∀ name s, (name, AttrValue.literal s) ∈ attrs → '"' ∉ s.toList
  spreads : ∀ index, (Binding.spreadName, AttrValue.hole index) ∈ attrs → (shown index).SpreadsNames

theorem confinedAttrs_kept {es : List (String × Option AttrOutput)} :
    ConfinedAttrs (kept es) ↔
      ∀ n o, (n, some o) ∈ es → IsAttrName n.toList ∧ AttrOutput.Confined o := by
  simp only [ConfinedAttrs, kept, List.mem_filterMap, Option.map_eq_some_iff]
  constructor
  · exact fun h n o ho => h (n, o) ⟨(n, some o), ho, o, rfl, rfl⟩
  · rintro h _ ⟨⟨n, _⟩, hmem, o, rfl, rfl⟩
    exact h n o hmem

theorem confinedAttrs_append {es fs : List (String × Option AttrOutput)} :
    ConfinedAttrs (kept (es ++ fs)) ↔ ConfinedAttrs (kept es) ∧ ConfinedAttrs (kept fs) := by
  simp only [kept_append, ConfinedAttrs, List.forall_mem_append]

/-- What a binding prints is confined if its name is and what it prints is. -/
theorem Binding.outcome_confined {b : Binding} {wrap : String → AttrOutput} {v : Value}
    (bare : ∀ n, b = .attribute n ∨ b = .presence n → IsAttrName n.toList)
    (hwrap : (wrap v.toText).Confined) : ConfinedAttrs (kept (b.outcome wrap v)) := by
  rw [confinedAttrs_kept]
  intro n o h
  rcases b with name | name | name | event | _ | _ | _
  · simp only [outcome] at h
    split at h
    · contradiction
    · simp only [List.mem_singleton, Prod.mk.injEq, Option.some.injEq] at h
      obtain ⟨rfl, rfl⟩ := h
      exact ⟨bare n (.inl rfl), hwrap⟩
  · simp only [outcome] at h
    split at h
    · contradiction
    · split at h
      · simp only [List.mem_singleton, Prod.mk.injEq, Option.some.injEq] at h
        obtain ⟨rfl, rfl⟩ := h
        exact ⟨bare n (.inr rfl), trivial⟩
      · simp at h
  all_goals simp [outcome] at h

mutual
/-- What comes from a value is escaped, so only the names matter. -/
theorem outcomes_confined : (v : Value) → (b : Binding) →
    (∀ n, b = .attribute n ∨ b = .presence n → IsAttrName n.toList) →
    (b = .spread → v.SpreadsNames) → ConfinedAttrs (kept (outcomes .dynamic b v))
  | .attributes handle entries, b, bare, spreads => by
      rw [outcomes]
      split
      next hb => exact entryOutcomes_confined entries (spreads hb)
      next => exact Binding.outcome_confined bare trivial
  | .null, _, bare, _ => Binding.outcome_confined bare trivial
  | .bool _, _, bare, _ => Binding.outcome_confined bare trivial
  | .number _, _, bare, _ => Binding.outcome_confined bare trivial
  | .text _, _, bare, _ => Binding.outcome_confined bare trivial
  | .template .., _, bare, _ => Binding.outcome_confined bare trivial
  | .list .., _, bare, _ => Binding.outcome_confined bare trivial
  | .callback _, _, bare, _ => Binding.outcome_confined bare trivial
  | .cell _, _, bare, _ => Binding.outcome_confined bare trivial
  | .payload _, _, bare, _ => Binding.outcome_confined bare trivial
termination_by structural v => v

theorem entryOutcomes_confined : (entries : List (String × Value)) →
    Value.EntriesSpreadNames entries → ConfinedAttrs (kept (entryOutcomes .dynamic entries))
  | [], _ => by simp [entryOutcomes, kept, ConfinedAttrs]
  | (name, v) :: rest, ⟨named, spreads, others⟩ => by
      rw [entryOutcomes, confinedAttrs_append]
      refine ⟨?_, entryOutcomes_confined rest others⟩
      cases hc : Binding.ofEntryName? name with
      | none => simp [kept, ConfinedAttrs]
      | some c =>
        have hname : Binding.ofName? name = some c := (Option.filter_eq_some_iff.1 hc).1
        refine outcomes_confined v c (fun n hn => (named.bare hname hn).isAttrName) ?_
        rintro rfl
        exact spreads (Binding.ofName?_eq_spread hname)
termination_by structural es => es
end

theorem attrOutputs_confined {attrs : List (String × AttrValue)} {shown : Nat → Value}
    (named : ∀ name ∈ Entries.names attrs, IsBindingName name) (harmless : Harmless attrs shown) :
    ConfinedAttrs (attrOutputs shown attrs) := by
  rw [attrOutputs, confinedAttrs_kept, attrOutcomes]
  intro n o h
  obtain ⟨⟨name, value⟩, hmem, h⟩ := List.mem_flatMap.1 h
  have hname := named name (List.mem_map_of_mem (f := Prod.fst) hmem)
  cases hb : Binding.ofName? name with
  | none => simp [hb] at h
  | some b =>
    have bare : ∀ n, b = .attribute n ∨ b = .presence n → IsAttrName n.toList :=
      fun n hn => (hname.bare hb hn).isAttrName
    simp only [hb] at h
    cases value with
    | literal s =>
      exact confinedAttrs_kept.1 (@Binding.outcome_confined b .literal (.text s) bare
        (harmless.literals name s hmem)) n o h
    | hole index =>
      refine confinedAttrs_kept.1 (outcomes_confined (shown index) b bare ?_) n o h
      rintro rfl
      obtain rfl := Binding.ofName?_eq_spread hb
      exact harmless.spreads index hmem

/-! ### Forests -/

namespace Node

variable {shown : Nat → Value} {contentAt : Nat → List Output}
  {P : List (String × AttrValue) → Prop} {C : Nat → Prop}

mutual
theorem outputs_confined (harmless : ∀ attrs, P attrs → Harmless attrs shown)
    (contents : ∀ i, C i → Output.ConfinedAll (contentAt i)) : (n : Node) → n.Proper →
    n.Every P (fun data => '<' ∉ data.toList) C → Output.ConfinedAll (n.outputs shown contentAt)
  | .text _, _, every => ⟨every, trivial⟩
  | .hole index, _, every => contents index every
  | .element tag attrs children, ⟨hname, _, named, void, proper⟩, ⟨here, every⟩ => by
      refine ⟨⟨hname, attrOutputs_confined named (harmless attrs here), fun hv => ?_,
        outputsAll_confined harmless contents children proper every⟩, trivial⟩
      rw [void hv]
      rfl
termination_by structural n => n

theorem outputsAll_confined (harmless : ∀ attrs, P attrs → Harmless attrs shown)
    (contents : ∀ i, C i → Output.ConfinedAll (contentAt i)) : (ns : List Node) → ProperAll ns →
    EveryAll P (fun data => '<' ∉ data.toList) C ns →
    Output.ConfinedAll (outputsAll shown contentAt ns)
  | [], _, _ => trivial
  | n :: rest, proper, every => Output.confinedAll_append.2
      ⟨outputs_confined harmless contents n proper.1 every.1,
        outputsAll_confined harmless contents rest proper.2 every.2⟩
termination_by structural ns => ns
end

end Node

namespace Value

mutual
theorem outputs_confined : (v : Value) → v.Built →
    v.Every Harmless (fun data => '<' ∉ data.toList) → Output.ConfinedAll v.outputs
  | .template _ shared values, ⟨made, _, built⟩, every =>
      Node.outputsAll_confined (fun _ h => h) (outputsAt_confined values built) shared.nodes
        made.wellFormed.proper every
  | .list _ items, built, every => outputsAll_confined items built every
  | .bool _, _, _ => ⟨trivial, trivial⟩
  | .number _, _, _ => ⟨trivial, trivial⟩
  | .text _, _, _ => ⟨trivial, trivial⟩
  | .null, _, _ => trivial
  | .attributes .., _, _ => trivial
  | .callback _, _, _ => trivial
  | .cell _, _, _ => trivial
  | .payload _, _, _ => trivial
termination_by structural v => v

theorem outputsAll_confined : (vs : List Value) → BuiltAll vs →
    EveryAll Harmless (fun data => '<' ∉ data.toList) vs → Output.ConfinedAll (outputsAll vs)
  | [], _, _ => trivial
  | v :: rest, built, every => Output.confinedAll_append.2
      ⟨outputs_confined v built.1 every.1, outputsAll_confined rest built.2 every.2⟩
termination_by structural vs => vs

theorem outputsAt_confined : (vs : List Value) → BuiltAll vs → (i : Nat) →
    EveryAt Harmless (fun data => '<' ∉ data.toList) vs i → Output.ConfinedAll (outputsAt vs i)
  | [], _, _, _ => trivial
  | v :: _, built, 0, every => outputs_confined v built.1 every
  | _ :: rest, built, i + 1, every => outputsAt_confined rest built.2 i every
termination_by structural vs => vs
end

/-- The markup of a value can be read, and what is read has the elements of the value: in
their order and nesting, each with the attributes that its template and the mappings
spread over it write. Texts from values make no element and no attribute. -/
theorem content_confined {options : MarkupOptions} (escaped : options.escapeDynamic = true) {v : Value}
    (built : v.Built) (harmless : v.Every Harmless fun data => '<' ∉ data.toList) :
    ∃ s, Skeleton.parse [Markup.content options v] = .ok s ∧
      Node.bonesAll s.nodes = Output.bonesAll v.outputs := by
  rw [content_eq_print options (fun _ _ h => h.unmarked) v built harmless]
  exact Output.parse_printAll escaped (outputs_confined v built harmless)

/-- A title and a text that try to be more than that. -/
theorem content_confined_paragraph :
    let v := Value.template 0 .paragraph [.text "\" onclick=\"x", .text "</p><script>"]
    v.Built ∧ (v.Every Harmless fun data => '<' ∉ data.toList) ∧
      ∃ s, Skeleton.parse [Markup.content {} v] = .ok s ∧
        Node.bonesAll s.nodes = [.element "p" [("title", .literal "&quot; onclick=&quot;x")] []] := by
  intro v
  have built : v.Built := by simp [v, Built, BuiltAll]
  have harmless : v.Every Harmless fun data => '<' ∉ data.toList := by
    have here : ∀ shown, Harmless [("title", .hole 0)] shown := by
      refine fun shown => ⟨rfl, by simp, ?_⟩
      intro index h
      simp [Binding.spreadName] at h
    simp [v, Every, EveryAt, SharedSkeleton.paragraph, SharedSkeleton.nodes, Node.EveryAll,
      Node.Every, here]
  refine ⟨built, harmless, ?_⟩
  obtain ⟨s, hs, hbones⟩ := @content_confined {} rfl v built harmless
  exact ⟨s, hs, hbones.trans (by decide +kernel)⟩

end Value

end LiveTemplate
