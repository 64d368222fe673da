import LiveTemplate.Proofs.Incremental
import LiveTemplate.Proofs.Outputs

/-!
# Documents and markup agree

A value that is rendered on its own shows the elements and texts of its output, and its
markup is the same output printed. An attribute that a template names twice would be the
last one in the document and both in the markup, so no name may occur twice in an
element, however its letters are written. A presence that is not true takes an attribute
away in the document, so its name counts as well.
-/
namespace LiveTemplate
open Document Subtree Live

/-! ### Outputs as they are seen -/

def Target.isAttribute : Target → Bool
  | .attribute _ => true
  | _ => false

/-- What an attribute is worth in a document. -/
def AttrOutput.value : AttrOutput → String
  | .literal s => s
  | .dynamic s => s
  | .present => ""

/-- Attributes as a map from names in lower case. -/
def readAttrs (attrs : List (String × AttrOutput)) : Target → List Value
  | .attribute n => ((attrs.find? fun a => Text.lower a.1 = n).map fun a => Value.text a.2.value).toList
  | _ => []

namespace Output

mutual
/-- An output as it is seen in a document. -/
def shape : Output → Shape
  | .element tag attrs children => .element (Text.lower tag) (readAttrs attrs) (shapes children)
  | .literal s => .text s
  | .dynamic s => .text s
termination_by structural o => o

def shapes : List Output → List Shape
  | [] => []
  | o :: rest => o.shape :: shapes rest
termination_by structural os => os
end

@[simp] theorem shapes_append (os ps : List Output) : shapes (os ++ ps) = shapes os ++ shapes ps := by
  induction os with
  | nil => rfl
  | cons o rest ih => simp [shapes, ih]

end Output

namespace Shape

mutual
/-- Without the markers. In place of one stands what is below it, which is nothing. -/
def bare : Shape → List Shape
  | .node .marker children => bareAll children
  | .node kind children => [.node kind (bareAll children)]
termination_by structural s => s

def bareAll : List Shape → List Shape
  | [] => []
  | s :: rest => s.bare ++ bareAll rest
termination_by structural ss => ss
end

@[simp] theorem bareAll_append (ss ts : List Shape) : bareAll (ss ++ ts) = bareAll ss ++ bareAll ts := by
  induction ss with
  | nil => rfl
  | cons s rest ih => simp [bareAll, ih]

mutual
def textContent : Shape → String
  | .node (.text s) _ => s
  | .node _ children => textContentAll children
termination_by structural s => s

/-- All texts in order. -/
def textContentAll : List Shape → String
  | [] => ""
  | s :: rest => s.textContent ++ textContentAll rest
termination_by structural ss => ss
end

@[simp] theorem textContentAll_append (ss ts : List Shape) :
    textContentAll (ss ++ ts) = textContentAll ss ++ textContentAll ts := by
  induction ss with
  | nil => simp [textContentAll]
  | cons s rest ih => simp [textContentAll, ih, String.append_assoc]

mutual
theorem textContentAll_bare : (s : Shape) → textContentAll s.bare = s.textContent
  | .node (.element ..) children => by
      simp [bare, textContent, textContentAll, textContentAll_bareAll children]
  | .node (.text _) children => by simp [bare, textContent, textContentAll]
  | .node .marker children => by simp [bare, textContent, textContentAll_bareAll children]
  | .node .fragment children => by
      simp [bare, textContent, textContentAll, textContentAll_bareAll children]
termination_by structural s => s

theorem textContentAll_bareAll : (ss : List Shape) → textContentAll (bareAll ss) = textContentAll ss
  | [] => rfl
  | s :: rest => by
      simp [bareAll, textContentAll, textContentAll_bare s, textContentAll_bareAll rest]
termination_by structural ss => ss
end

end Shape

mutual
theorem Output.textContent_shape : (o : Output) → o.shape.textContent = o.text
  | .element _ _ children => Output.textContentAll_shapes children
  | .literal _ => rfl
  | .dynamic _ => rfl
termination_by structural o => o

theorem Output.textContentAll_shapes : (os : List Output) →
    Shape.textContentAll (Output.shapes os) = Output.textAll os
  | [] => rfl
  | o :: rest => by
      rw [Output.shapes, Shape.textContentAll, Output.textAll, Output.textContent_shape o,
        Output.textContentAll_shapes rest]
termination_by structural os => os
end

mutual
theorem Subtree.textContent_shape (looked : Target → Bool) : (t : Subtree) →
    (t.shape looked).textContent = t.text
  | .node _ (.element _) children => Subtree.textContentAll_shapes looked children
  | .node _ (.text _) _ => rfl
  | .node _ .marker children => Subtree.textContentAll_shapes looked children
  | .node _ .fragment children => Subtree.textContentAll_shapes looked children
termination_by structural t => t

/-- The text of a part of a document can be read off its shape. -/
theorem Subtree.textContentAll_shapes (looked : Target → Bool) : (ts : List Subtree) →
    Shape.textContentAll (shapes looked ts) = textAll ts
  | [] => rfl
  | t :: rest => by
      rw [shapes_cons, Shape.textContentAll, Subtree.textAll, Subtree.textContent_shape looked t,
        Subtree.textContentAll_shapes looked rest]
termination_by structural ts => ts
end

/-! ### Attributes of an element -/

/-- What becomes of an attribute, known by its name in lower case. -/
def outcomeFor (n : String) (es : List (String × Option AttrOutput)) : Option (Option AttrOutput) :=
  (es.find? fun e => Text.lower e.1 = n).map Prod.snd

/-- No two of the names are the same in lower case. -/
def NamesDiffer (es : List (String × Option AttrOutput)) : Prop :=
  (es.map fun e => Text.lower e.1).Nodup

def AttrOutput.reading : Option AttrOutput → List Value
  | some o => [.text o.value]
  | none => []

variable {n : String} {es fs : List (String × Option AttrOutput)}

theorem outcomeFor_append : outcomeFor n (es ++ fs) = (outcomeFor n es).or (outcomeFor n fs) := by
  rw [outcomeFor, List.find?_append, outcomeFor, outcomeFor]
  cases es.find? fun e => Text.lower e.1 = n <;> rfl

theorem outcomeFor_eq_none : outcomeFor n es = none ↔ n ∉ es.map fun e => Text.lower e.1 := by
  simp [outcomeFor, List.find?_eq_none]

theorem NamesDiffer.append (h : NamesDiffer (es ++ fs)) :
    NamesDiffer es ∧ NamesDiffer fs ∧
      ∀ n, outcomeFor n es ≠ none → outcomeFor n fs = none := by
  rw [NamesDiffer, List.map_append, List.nodup_append] at h
  refine ⟨h.1, h.2.1, fun n hn => ?_⟩
  rw [outcomeFor_eq_none]
  rw [Ne, outcomeFor_eq_none, not_not] at hn
  exact fun hm => h.2.2 n hn n hm rfl

/-- Attributes of which none is taken away, as a map. -/
theorem readAttrs_kept (h : NamesDiffer es) :
    readAttrs (kept es) (.attribute n) = ((outcomeFor n es).map AttrOutput.reading).getD [] := by
  induction es with
  | nil => rfl
  | cons e rest ih =>
    obtain ⟨m, o⟩ := e
    obtain ⟨-, hrest, apart⟩ := @NamesDiffer.append [(m, o)] rest h
    have ih := ih hrest
    by_cases hm : Text.lower m = n
    · have hnone := apart n (by simp [outcomeFor, hm])
      rw [hnone] at ih
      cases o with
      | none => simpa [kept, outcomeFor, hm, AttrOutput.reading] using ih
      | some o => simp [kept, outcomeFor, hm, readAttrs, AttrOutput.reading]
    · cases o with
      | none => simpa [kept, outcomeFor, hm] using ih
      | some o => simpa [kept, outcomeFor, hm, readAttrs] using ih

variable {wrap : String → AttrOutput}

/-- What a value that is not spread writes to an attribute is what becomes of it. -/
theorem wrote_eq_outcome (hwrap : ∀ s, (wrap s).value = s) (b : Binding) (v : Value) :
    wrote (.attribute n) b v [] = (outcomeFor n (b.outcome wrap v)).map AttrOutput.reading := by
  rcases b with name | name | name | event | _ | _ | _
  · by_cases hv : v = .null
    · simp [wrote, Binding.effect, Binding.outcome, outcomeFor, hv, Value.isNull]
    · by_cases hn : Text.lower name = n <;>
        simp [wrote, Binding.effect, Binding.outcome, outcomeFor, hv, Value.isNull, hn,
          AttrOutput.reading, hwrap]
  · by_cases hv : v = .null
    · simp [wrote, Binding.effect, Binding.outcome, outcomeFor, hv, Value.isNull]
    · by_cases hn : Text.lower name = n <;> by_cases ht : v.isTruthy = true <;>
        simp [wrote, Binding.effect, Binding.outcome, outcomeFor, hv, Value.isNull, hn, ht,
          AttrOutput.reading, AttrOutput.value]
  · cases hs : v.settled? <;> simp [wrote, Binding.effect, Binding.outcome, outcomeFor, hs]
  · cases v <;> simp [wrote, Binding.effect, Binding.outcome, outcomeFor]
  all_goals rfl

/-- Of the pairs whose name in lower case is this one, the last. -/
def lastNamed {α : Type} (n : String) (es : List (String × α)) : Option (String × α) :=
  (es.filter fun e => Text.lower e.1 = n).getLast?

theorem lastNamed_append {α : Type} (es fs : List (String × α)) :
    lastNamed n (es ++ fs) = (lastNamed n fs).or (lastNamed n es) := by
  rw [lastNamed, List.filter_append, List.getLast?_append]
  rfl

/-- Where names differ, the first with a name is the last. -/
theorem NamesDiffer.outcomeFor_eq_last (h : NamesDiffer es) :
    outcomeFor n es = (lastNamed n es).map Prod.snd := by
  induction es with
  | nil => rfl
  | cons e rest ih =>
    obtain ⟨-, hrest, apart⟩ := @NamesDiffer.append [e] rest h
    have hcons : e :: rest = [e] ++ rest := rfl
    rw [hcons, outcomeFor_append, lastNamed_append, ih hrest]
    by_cases hn : Text.lower e.1 = n
    · have hnone := apart n (by simp [outcomeFor, hn])
      rw [ih hrest, Option.map_eq_none_iff] at hnone
      rw [hnone]
      simp [outcomeFor, lastNamed, hn]
    · simp [outcomeFor, lastNamed, hn]

theorem Binding.outcome_namesDiffer (b : Binding) (v : Value) : NamesDiffer (b.outcome wrap v) := by
  rcases b with name | name | name | event | _ | _ | _ <;>
    simp only [Binding.outcome] <;> (try split) <;> simp [NamesDiffer]

theorem wrote_eq_last (hwrap : ∀ s, (wrap s).value = s) (b : Binding) (v : Value) :
    wrote (.attribute n) b v [] =
      (lastNamed n (b.outcome wrap v)).map fun e => AttrOutput.reading e.2 := by
  rw [wrote_eq_outcome hwrap, (b.outcome_namesDiffer v).outcomeFor_eq_last, Option.map_map]
  rfl

mutual
/-- What a value writes to an attribute is what becomes of it last. -/
theorem written_eq_last (hwrap : ∀ s, (wrap s).value = s) : (v : Value) → (b : Binding) →
    written (.attribute n) b v =
      (lastNamed n (outcomes wrap b v)).map fun e => AttrOutput.reading e.2
  | .attributes handle entries, b => by
      rw [outcomes, written]
      split
      next => exact writtenIn_eq_last hwrap entries
      next => exact wrote_eq_last hwrap b (.attributes handle entries)
  | .null, b => wrote_eq_last hwrap b .null
  | .bool _, b => wrote_eq_last hwrap b _
  | .number _, b => wrote_eq_last hwrap b _
  | .text _, b => wrote_eq_last hwrap b _
  | .template .., b => wrote_eq_last hwrap b _
  | .list .., b => wrote_eq_last hwrap b _
  | .callback _, b => wrote_eq_last hwrap b _
  | .cell _, b => wrote_eq_last hwrap b _
  | .payload _, b => wrote_eq_last hwrap b _
termination_by structural v => v

theorem writtenIn_eq_last (hwrap : ∀ s, (wrap s).value = s) : (entries : List (String × Value)) →
    writtenIn (.attribute n) entries =
      (lastNamed n (entryOutcomes wrap entries)).map fun e => AttrOutput.reading e.2
  | [] => rfl
  | (name, v) :: rest => by
      rw [writtenIn, entryOutcomes, writtenIn_eq_last hwrap rest, lastNamed_append]
      cases hc : Binding.ofEntryName? name with
      | none => cases lastNamed n (entryOutcomes wrap rest) <;> rfl
      | some c =>
        dsimp only [Option.bind_some]
        rw [written_eq_last hwrap v c]
        cases lastNamed n (entryOutcomes wrap rest) <;> rfl
termination_by structural es => es
end

theorem written_eq_outcomes (hwrap : ∀ s, (wrap s).value = s) (v : Value) (b : Binding)
    (h : NamesDiffer (outcomes wrap b v)) :
    written (.attribute n) b v = (outcomeFor n (outcomes wrap b v)).map AttrOutput.reading := by
  rw [written_eq_last hwrap, h.outcomeFor_eq_last, Option.map_map]
  rfl

theorem writtenIn_eq_outcomes (hwrap : ∀ s, (wrap s).value = s) (entries : List (String × Value))
    (h : NamesDiffer (entryOutcomes wrap entries)) :
    writtenIn (.attribute n) entries =
      (outcomeFor n (entryOutcomes wrap entries)).map AttrOutput.reading := by
  rw [writtenIn_eq_last hwrap, h.outcomeFor_eq_last, Option.map_map]
  rfl

/-- What becomes of the names of one attribute of an element. -/
def attrOutcome (shown : Nat → Value) (a : String × AttrValue) : List (String × Option AttrOutput) :=
  match Binding.ofName? a.1, a.2 with
  | none, _ => []
  | some b, .literal s => outcomes .literal b (.text s)
  | some b, .hole index => outcomes .dynamic b (shown index)

variable {shown : Nat → Value} {attrs : Attributes}

theorem attrOutcomes_cons (a : String × AttrValue) :
    attrOutcomes shown (a :: attrs) = attrOutcome shown a ++ attrOutcomes shown attrs := rfl

/-- What an attribute of an element writes, through a hole or as a literal. -/
theorem attrOutcome_writes (a : String × AttrValue) (h : NamesDiffer (attrOutcome shown a)) :
    (holeWrite (.attribute n) shown a).toList ++ (literalWrite (.attribute n) a).toList =
      ((outcomeFor n (attrOutcome shown a)).map AttrOutput.reading).toList := by
  obtain ⟨name, value⟩ := a
  cases hb : Binding.ofName? name with
  | none => cases value <;> simp [holeWrite, literalWrite, attrOutcome, hb, outcomeFor]
  | some b =>
    cases value with
    | literal s =>
      simp only [holeWrite, literalWrite, attrOutcome, hb, Option.bind_some, Option.toList_none,
        List.nil_append]
      rw [@wrote_eq_outcome _ .literal (fun _ => rfl)]
      rfl
    | hole i =>
      simp only [attrOutcome, hb] at h
      simp only [holeWrite, literalWrite, attrOutcome, hb, Option.bind_some, Option.toList_none,
        List.append_nil]
      rw [written_eq_outcomes (fun _ => rfl) _ b h]

/-- At most one attribute of an element writes to a target whose names differ. -/
theorem attrOutcomes_writes (h : NamesDiffer (attrOutcomes shown attrs)) :
    attrs.filterMap (holeWrite (.attribute n) shown) ++
        attrs.filterMap (literalWrite (.attribute n)) =
      ((outcomeFor n (attrOutcomes shown attrs)).map AttrOutput.reading).toList := by
  induction attrs with
  | nil => rfl
  | cons a rest ih =>
    rw [attrOutcomes_cons] at h ⊢
    obtain ⟨hfirst, hrest, apart⟩ := h.append
    have ih := ih hrest
    have first := attrOutcome_writes (n := n) a hfirst
    rw [outcomeFor_append, List.filterMap_cons, List.filterMap_cons]
    cases ho : outcomeFor n (attrOutcome shown a) with
    | none =>
      rw [ho] at first
      simp only [Option.map_none, Option.toList_none, List.append_eq_nil_iff,
        Option.toList_eq_nil_iff] at first
      simpa [first.1, first.2] using ih
    | some o =>
      rw [apart n (by simp [ho])] at ih
      simp only [Option.map_none, Option.toList_none, List.append_eq_nil_iff] at ih
      rw [ho] at first
      rw [ih.1, ih.2]
      cases hh : holeWrite (.attribute n) shown a <;> cases hl : literalWrite (.attribute n) a <;>
        simp_all

/-- An element shows the attributes of its output. -/
theorem look_eq_readAttrs (h : NamesDiffer (attrOutcomes shown attrs)) :
    look (.attribute n) shown attrs = readAttrs (attrOutputs shown attrs) (.attribute n) := by
  have writes := attrOutcomes_writes (n := n) h
  rw [attrOutputs, readAttrs_kept h, look, lookLiteral]
  cases ho : outcomeFor n (attrOutcomes shown attrs) with
  | none =>
    rw [ho] at writes
    simp only [Option.map_none, Option.toList_none, List.append_eq_nil_iff] at writes
    rw [writes.1, writes.2]
    rfl
  | some o =>
    rw [ho] at writes
    simp only [Option.map_some, Option.toList_some, List.append_eq_singleton_iff] at writes
    rcases writes with ⟨h1, h2⟩ | ⟨h1, h2⟩ <;> rw [h1, h2] <;> rfl

/-! ### No attribute is written twice -/

theorem path_nil {x : Target} {b : Binding} {v : Value} {ks : List String}
    (h : b ≠ .spread ∨ v.entries = []) (hw : wrote x b v ks ≠ none) : ks = [] := by
  cases ks with
  | nil => rfl
  | cons k ks =>
    rcases h with hb | hv
    · exact absurd (wrote_direct hb v (by simp)) hw
    · simp [wrote, hv, Entries.get?] at hw

mutual
/-- Where names differ a value writes to an attribute along one path. -/
theorem wrote_unique (hwrap : ∀ s, (wrap s).value = s) : (v : Value) → v.Built → (b : Binding) →
    NamesDiffer (outcomes wrap b v) → {ks ks' : List String} →
    wrote (.attribute n) b v ks ≠ none → wrote (.attribute n) b v ks' ≠ none → ks = ks'
  | .attributes handle entries, built, b, h, ks, ks', hw, hw' => by
      by_cases hb : b = .spread
      · subst hb
        rw [outcomes, if_pos rfl] at h
        cases ks with
        | nil => exact absurd (wrote_spread_nil ..) hw
        | cons k ks =>
          cases ks' with
          | nil => exact absurd (wrote_spread_nil ..) hw'
          | cons k' ks' =>
            obtain ⟨rfl, rfl⟩ := wroteIn_unique hwrap entries built.1 built.2 h
              (by simpa [wrote, wroteIn, Value.entries] using hw)
              (by simpa [wrote, wroteIn, Value.entries] using hw')
            rfl
      · rw [path_nil (.inl hb) hw, path_nil (.inl hb) hw']
  | .null, _, _, _, _, _, hw, _ => by simp at hw
  | .bool _, _, _, _, _, _, hw, hw' => by rw [path_nil (.inr rfl) hw, path_nil (.inr rfl) hw']
  | .number _, _, _, _, _, _, hw, hw' => by rw [path_nil (.inr rfl) hw, path_nil (.inr rfl) hw']
  | .text _, _, _, _, _, _, hw, hw' => by rw [path_nil (.inr rfl) hw, path_nil (.inr rfl) hw']
  | .template .., _, _, _, _, _, hw, hw' => by rw [path_nil (.inr rfl) hw, path_nil (.inr rfl) hw']
  | .list .., _, _, _, _, _, hw, hw' => by rw [path_nil (.inr rfl) hw, path_nil (.inr rfl) hw']
  | .callback _, _, _, _, _, _, hw, hw' => by rw [path_nil (.inr rfl) hw, path_nil (.inr rfl) hw']
  | .cell _, _, _, _, _, _, hw, hw' => by rw [path_nil (.inr rfl) hw, path_nil (.inr rfl) hw']
  | .payload _, _, _, _, _, _, hw, hw' => by rw [path_nil (.inr rfl) hw, path_nil (.inr rfl) hw']
termination_by structural v => v

theorem wroteIn_unique (hwrap : ∀ s, (wrap s).value = s) : (entries : List (String × Value)) →
    (Entries.names entries).Nodup → Value.BuiltEntries entries →
    NamesDiffer (entryOutcomes wrap entries) → {k k' : String} → {ks ks' : List String} →
    wroteIn (.attribute n) entries k ks ≠ none → wroteIn (.attribute n) entries k' ks' ≠ none →
    k = k' ∧ ks = ks'
  | [], _, _, _, _, _, _, _, hw, _ => by simp [wroteIn, Entries.get?] at hw
  | (name, v) :: rest, nodup, built, h, k, k', ks, ks', hw, hw' => by
      rw [entryOutcomes] at h
      obtain ⟨hfirst, hrest, apart⟩ := h.append
      -- the first entry and the others do not both write
      have first : ∀ {ks : List String}, wroteIn (.attribute n) ((name, v) :: rest) name ks ≠ none →
          ∀ {k ks}, wroteIn (.attribute n) rest k ks = none := by
        intro ks hw k ks₁
        cases hc : Binding.ofEntryName? name with
        | none => exact absurd (wroteIn_of_name hc) hw
        | some c =>
          simp only [hc] at hfirst apart
          rw [wroteIn_head hc] at hw
          have hv := written_ne_none _ v c ks hw
          rw [written_eq_outcomes hwrap v c hfirst, ne_eq, Option.map_eq_none_iff] at hv
          by_contra hne
          refine writtenIn_ne_none _ rest k ks₁ hne ?_
          rw [writtenIn_eq_outcomes hwrap rest hrest, apart n hv, Option.map_none]
      by_cases hk : name = k <;> by_cases hk' : name = k'
      · subst hk hk'
        cases hc : Binding.ofEntryName? name with
        | none => exact absurd (wroteIn_of_name hc) hw
        | some c =>
          rw [wroteIn_head hc] at hw hw'
          simp only [hc] at hfirst
          exact ⟨rfl, wrote_unique hwrap v built.1 c hfirst hw hw'⟩
      · subst hk
        rw [wroteIn_tail hk'] at hw'
        exact absurd (first hw) hw'
      · subst hk'
        rw [wroteIn_tail hk] at hw
        exact absurd (first hw') hw
      · rw [wroteIn_tail hk] at hw
        rw [wroteIn_tail hk'] at hw'
        exact wroteIn_unique hwrap rest (List.nodup_cons.1 nodup).2 built.2 hrest hw hw'
termination_by structural es => es
end

/-- No children are given as markup, and no two names of attributes are the same in lower
case, whether what they name is written or taken away. -/
def WellNamed (attrs : Attributes) (shown : Nat → Value) : Prop :=
  Unmarked attrs ∧ NamesDiffer (attrOutcomes shown attrs)

/-- Different attributes of an element do not name the same one. -/
theorem attr_unique (h : NamesDiffer (attrOutcomes shown attrs)) {a a' : String × AttrValue}
    (ha : a ∈ attrs) (ha' : a' ∈ attrs) (hn : outcomeFor n (attrOutcome shown a) ≠ none)
    (hn' : outcomeFor n (attrOutcome shown a') ≠ none) : a = a' := by
  induction attrs with
  | nil => simp at ha
  | cons b rest ih =>
    rw [attrOutcomes_cons] at h
    obtain ⟨-, hrest, apart⟩ := h.append
    have none_of_mem : ∀ {c}, c ∈ rest → outcomeFor n (attrOutcomes shown rest) = none →
        outcomeFor n (attrOutcome shown c) = none := by
      intro c hc hnone
      rw [outcomeFor_eq_none] at hnone ⊢
      refine fun hmem => hnone ?_
      obtain ⟨e, he, heq⟩ := List.mem_map.1 hmem
      exact List.mem_map.2 ⟨e, List.mem_flatMap.2 ⟨c, hc, he⟩, heq⟩
    rcases List.mem_cons.1 ha with heq | hmem <;> rcases List.mem_cons.1 ha' with heq' | hmem'
    · rw [heq, heq']
    · rw [heq] at hn
      exact absurd (none_of_mem hmem' (apart n hn)) hn'
    · rw [heq'] at hn'
      exact absurd (none_of_mem hmem (apart n hn')) hn
    · exact ih hrest hmem hmem'

theorem NamesDiffer.of_mem (h : NamesDiffer (attrOutcomes shown attrs)) {a : String × AttrValue}
    (ha : a ∈ attrs) : NamesDiffer (attrOutcome shown a) := by
  induction attrs with
  | nil => simp at ha
  | cons b rest ih =>
    rw [attrOutcomes_cons] at h
    obtain ⟨hfirst, hrest, -⟩ := h.append
    rcases List.mem_cons.1 ha with rfl | ha
    · exact hfirst
    · exact ih hrest ha

/-- What writes to an attribute is an attribute of the template that names it. -/
theorem Writes.exists_attr (h : NamesDiffer (attrOutcomes shown attrs)) {r : Route}
    (w : Writes attrs shown (.attribute n) r) :
    ∃ a ∈ attrs, outcomeFor n (attrOutcome shown a) ≠ none ∧
      ((∃ name text, a = (name, .literal text) ∧ r = .literal name) ∨
        ∃ name i b ks, a = (name, .hole i) ∧ Binding.ofName? name = some b ∧ r = .hole i ks ∧
          NamesDiffer (outcomes .dynamic b (shown i)) ∧
          wrote (.attribute n) b (shown i) ks ≠ none) := by
  cases w with
  | @literal name text b c i mem bound writes beside =>
    refine ⟨_, mem, ?_, .inl ⟨name, text, rfl, rfl⟩⟩
    rw [@wrote_eq_outcome _ .literal (fun _ => rfl), ne_eq, Option.map_eq_none_iff] at writes
    simp only [attrOutcome, bound]
    exact writes
  | @hole i b ks bound writes =>
    obtain ⟨name, mem, hb⟩ := bound
    have differ := h.of_mem mem
    simp only [attrOutcome, hb] at differ
    refine ⟨_, mem, ?_, .inr ⟨name, i, b, ks, rfl, hb, rfl, differ, writes⟩⟩
    have hw := written_ne_none _ _ b ks writes
    rw [written_eq_outcomes (fun _ => rfl) _ b differ, ne_eq, Option.map_eq_none_iff] at hw
    simpa only [attrOutcome, hb] using hw

/-- One route is taken to each attribute of an element whose names differ. -/
theorem WellNamed.writes_unique (h : WellNamed attrs shown) (built : ∀ i, (shown i).Built)
    {r r' : Route} (w : Writes attrs shown (.attribute n) r)
    (w' : Writes attrs shown (.attribute n) r') : r = r' := by
  obtain ⟨a, ha, hn, cases₁⟩ := w.exists_attr h.2
  obtain ⟨a', ha', hn', cases₂⟩ := w'.exists_attr h.2
  obtain rfl := attr_unique h.2 ha ha' hn hn'
  rcases cases₁ with ⟨name, text, rfl, rfl⟩ | ⟨name, i, b, ks, rfl, hb, rfl, differ, hw⟩ <;>
    rcases cases₂ with ⟨name', text', heq, rfl⟩ | ⟨name', i', b', ks', heq, hb', rfl, -, hw'⟩
  · cases heq
    rfl
  · cases heq
  · cases heq
  · cases heq
    obtain rfl := Option.some.inj (hb.symm.trans hb')
    rw [wrote_unique (fun _ => rfl) _ (built i) b differ hw hw']

theorem Value.writtenOnce {v : Value} (built : v.Built) (every : v.Every WellNamed fun _ => True) :
    WrittenOnce Target.isAttribute v.parts.1 v.parts.2 := by
  intro attrs shown holds x hx r r' w w'
  obtain ⟨named, builtAll⟩ := holds.valueHolds.every built every
  rcases x with n | n | n
  · exact named.writes_unique builtAll w w'
  · cases hx
  · cases hx

/-! ### The picture of a value is its output -/

/-- What is read off an element is what its output has. -/
theorem WellNamed.reading (h : WellNamed attrs shown) :
    (fun x => if Target.isAttribute x then look x shown attrs else []) =
      readAttrs (attrOutputs shown attrs) := by
  funext x
  rcases x with n | n | n
  · exact look_eq_readAttrs h.2
  · rfl
  · rfl

section
variable {markup : String → List Shape} {contentAt : Nat → List Shape}
  {outputsAt : Nat → List Output} {p : Attributes → Prop} {Q : String → Prop} {C : Nat → Prop}

mutual
theorem Node.bare_shapes (named : ∀ attrs, p attrs → WellNamed attrs shown)
    (contents : ∀ i, C i → Shape.bareAll (contentAt i) = Output.shapes (outputsAt i)) :
    (n : Node) → n.Every p Q C →
    Shape.bareAll (n.shapes Target.isAttribute markup shown contentAt) =
      Output.shapes (n.outputs shown outputsAt)
  | .element tag attrs children, every => by
      have here := named attrs every.1
      have hsource : markupSource? attrs = none := here.1
      simp only [Node.shapes, Node.outputs, Shape.bareAll, Shape.bare, Output.shapes, Output.shape,
        here.reading, hsource, Option.isSome_none, Bool.false_eq_true, if_false, List.append_nil,
        Node.bareAll_shapesAll named contents children every.2]
  | .text data, _ => rfl
  | .hole index, every => by
      simp only [Node.shapes, Node.outputs, Shape.bareAll_append, contents index every, Shape.bareAll,
        Shape.bare, List.append_nil]
termination_by structural n => n

theorem Node.bareAll_shapesAll (named : ∀ attrs, p attrs → WellNamed attrs shown)
    (contents : ∀ i, C i → Shape.bareAll (contentAt i) = Output.shapes (outputsAt i)) :
    (ns : List Node) → Node.EveryAll p Q C ns →
    Shape.bareAll (Node.shapesAll Target.isAttribute markup shown contentAt ns) =
      Output.shapes (Node.outputsAll shown outputsAt ns)
  | [], _ => rfl
  | n :: rest, every => by
      rw [Node.shapesAll, Node.outputsAll, Shape.bareAll_append, Output.shapes_append,
        Node.bare_shapes named contents n every.1, Node.bareAll_shapesAll named contents rest every.2]
termination_by structural ns => ns
end

end

namespace Value
variable {Q : String → Prop}

mutual
theorem bareAll_shapes : (v : Value) → v.Every WellNamed Q →
    Shape.bareAll (v.shapes Target.isAttribute) = Output.shapes v.outputs
  | .template _ shared values, every => by
      simp only [shapes, outputs, Shape.bareAll, Shape.bare, Shape.bareAll_append, List.nil_append,
        List.append_nil]
      exact Node.bareAll_shapesAll (fun _ h => h) (bareAll_shapesAt values) _ every
  | .list _ items, every => bareAll_shapesAll items every
  | .null, _ => rfl
  | .bool _, _ => rfl
  | .number _, _ => rfl
  | .text _, _ => rfl
  | .attributes .., _ => rfl
  | .callback _, _ => rfl
  | .cell _, _ => rfl
  | .payload _, _ => rfl
termination_by structural v => v

theorem bareAll_shapesAll : (vs : List Value) → EveryAll WellNamed Q vs →
    Shape.bareAll (shapesAll Target.isAttribute vs) = Output.shapes (outputsAll vs)
  | [], _ => rfl
  | v :: rest, every => by
      rw [shapesAll, outputsAll, Shape.bareAll_append, Output.shapes_append, bareAll_shapes v every.1,
        bareAll_shapesAll rest every.2]
termination_by structural vs => vs

theorem bareAll_shapesAt : (vs : List Value) → (i : Nat) → EveryAt WellNamed Q vs i →
    Shape.bareAll (shapesAt Target.isAttribute vs i) = Output.shapes (outputsAt vs i)
  | [], _, _ => rfl
  | v :: _, 0, every => bareAll_shapes v every
  | _ :: rest, i + 1, every => bareAll_shapesAt rest i every
termination_by structural vs => vs
end

/-- Rendered on its own a value is not framed, and a value that is no template stands in
front of a marker. Neither counts. -/
theorem bareAll_picture {v : Value} (every : v.Every WellNamed Q) :
    Shape.bareAll (v.picture Target.isAttribute) = Output.shapes v.outputs := by
  have bare : Shape.bareAll (Node.shapesAll Target.isAttribute (shownMarkup Target.isAttribute)
      (Markup.valueAt [v]) (shapesAt Target.isAttribute [v]) SharedSkeleton.bare.nodes) =
        Output.shapes v.outputs := by
    rw [← bareAll_shapes v every]
    simp [SharedSkeleton.bare, SharedSkeleton.nodes, Node.shapesAll, Node.shapes, shapesAt,
      Shape.bareAll, Shape.bare]
  cases v with
  | template handle shared values =>
    exact Node.bareAll_shapesAll (fun _ h => h) (bareAll_shapesAt values) _ every
  | _ => exact bare

/-- The markup of a value is its output printed, and the document that the value is
rendered into, without its markers, is its output as it is seen. The text of the document
is that of the output. -/
theorem markup_and_document_agree {v : Value} (built : v.Built)
    (every : v.Every WellNamed fun _ => True) (succeeds : v.renderAlone.failure = none) :
    let d := v.renderAlone.host.document
    (∀ options, Markup.content options v = Output.printAll options v.outputs) ∧
      Shape.bareAll (d.appearance Target.isAttribute (d.children body)) = Output.shapes v.outputs ∧
      d.textContent body = Output.textAll v.outputs := by
  have fills := (Value.renderAlone_failure built).1 succeeds
  obtain ⟨forest, b, hshapes⟩ := v.renderAlone_shows built fills (Value.writtenOnce built every)
  have hchildren : v.renderAlone.host.document.children body = roots forest := by
    simpa using b.children_eq
  have hbare := bareAll_picture every
  refine ⟨fun options => content_eq_print options (fun _ _ h => h.1) v built every, ?_, ?_⟩
  · rw [hchildren, b.appearance, hshapes, hbare]
  · rw [b.textContent, ← textContentAll_shapes Target.isAttribute, hshapes,
      ← Shape.textContentAll_bareAll, hbare, Output.textContentAll_shapes]

/-- Two paragraphs, one in a list behind a text that is escaped, with entries that are spread, an
attribute that is there or not, and a line break, which has no end tag. -/
theorem markup_and_document_agree_paragraph :
    let shared : SharedSkeleton := ⟨.parsed 1,
      ⟨[.element "P" [("...", .hole 0), ("?hidden", .hole 1), ("title", .literal "x")]
        [.text "Hi ", .element "br" [] [], .hole 2]], 3⟩⟩
    let v := Value.template 5 shared
      [.attributes 0 [("Data-a", .text "1 & 2"), ("?open", .bool false)], .bool true, .list 1
        [.text "<b>", .null, .template 4 shared
          [.attributes 2 [("...", .attributes 3 [("lang", .text "en")])], .bool false, .text "z"]]]
    let d := v.renderAlone.host.document
    v.renderAlone.failure = none ∧
      Markup.content {} v = "<P Data-a=\"1 &amp; 2\" hidden title=\"x\">Hi <br>&lt;b&gt;" ++
        "<P lang=\"en\" title=\"x\">Hi <br>z</P></P>" ∧
      d.innerMarkup body = "<p title=\"x\" data-a=\"1 &amp; 2\" hidden=\"\">Hi <br>&lt;b&gt;<!---->" ++
        "<p title=\"x\" lang=\"en\">Hi <br>z<!----></p><!----><!----></p>" ∧
      d.textContent body = "Hi <b>Hi z" ∧
      (∀ options, Markup.content options v = Output.printAll options v.outputs) ∧
      Shape.bareAll (d.appearance Target.isAttribute (d.children body)) = Output.shapes v.outputs ∧
      d.textContent body = Output.textAll v.outputs := by
  intro shared v d
  have made : shared.Made :=
    .inr ⟨["<P ...", " ?hidden=", " title=x>Hi <br>", "</P>"], by decide +kernel⟩
  have built : v.Built := by
    simp [v, Built, BuiltAll, BuiltEntries, made]
    decide
  have every : v.Every WellNamed fun _ => True := by
    have inner : Every WellNamed (fun _ => True) (.template 4 shared
        [.attributes 2 [("...", .attributes 3 [("lang", .text "en")])], .bool false, .text "z"]) := by
      refine ⟨⟨⟨rfl, ?_⟩, trivial, ⟨⟨rfl, List.nodup_nil⟩, trivial⟩, trivial, trivial⟩, trivial⟩
      unfold NamesDiffer
      decide +kernel
    refine ⟨⟨⟨rfl, ?_⟩, trivial, ⟨⟨rfl, List.nodup_nil⟩, trivial⟩, ⟨trivial, trivial, inner, trivial⟩,
      trivial⟩, trivial⟩
    unfold NamesDiffer
    decide +kernel
  have succeeds : v.renderAlone.failure = none := by decide +kernel
  exact ⟨succeeds, by decide +kernel, by decide +kernel, by decide +kernel,
    markup_and_document_agree built every succeeds⟩

/-- An absent attribute takes away, in the document only, what a literal of the same name has given:
so a name may not occur twice, even where nothing is written. -/
example :
    let shared : SharedSkeleton := ⟨.parsed 1,
      ⟨[.element "p" [("a", .literal "x"), ("?a", .hole 0)] []], 1⟩⟩
    let v := Value.template 0 shared [.bool false]
    v.renderAlone.host.document.innerMarkup body = "<p></p>" ∧
      Markup.content {} v = "<p a=\"x\"></p>" := by
  decide +kernel

end Value

end LiveTemplate
