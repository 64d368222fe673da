import LiveTemplate.Proofs.Editing
import LiveTemplate.Proofs.Making
import LiveTemplate.Proofs.Steps

/-!
# Writing to elements

What an element has for a target is an attribute, a property or the listeners of an
event. A value writes to targets along paths of names: the empty path is the value
itself, and a longer one leads through mappings that are spread. When a value gives way
to another, a target that both reach along one path at most has afterwards what the new
value writes there, and a target that neither reaches has what it had.
-/
namespace LiveTemplate

/-- What can be written to an element. An attribute has its name in lower case. -/
inductive Target where
  | attribute (name : String)
  | property (name : String)
  | listener (event : String)
deriving DecidableEq, Repr

/-- A value as it stands in a property: an absent one is none, and the two zeros are one. -/
def Value.settled? : Value → Option Value
  | .null => none
  | .number n => some (.number (if n.isZero then .zero false else n))
  | v => some v

/-- What an element has for a target; nothing is the empty list. -/
def ElementData.reading (data : ElementData) : Target → List Value
  | .attribute name => ((Entries.get? name data.attributes).map Value.text).toList
  | .property name => ((Entries.get? name data.properties).bind Value.settled?).toList
  | .listener event =>
      (data.listeners.filter fun l => l.1 = event).map fun l => Value.callback l.2

namespace Binding

/-- The target that a value is written to, and what the target has then. -/
def effect : Binding → Value → Option (Target × List Value)
  | .attribute name, v =>
      if v = .null then none else some (.attribute (Text.lower name), [.text v.toText])
  | .presence name, v =>
      if v = .null then none
      else some (.attribute (Text.lower name), if v.isTruthy then [.text ""] else [])
  | .property name, v => v.settled?.map fun w => (.property name, [w])
  | .listener event, .callback callback => some (.listener event, [.callback callback])
  | _, _ => none

/-- The target that is cleared when a value gives way to an absent one. -/
def drops : Binding → Value → Option Target
  | .attribute name, _ => some (.attribute (Text.lower name))
  | .presence name, _ => some (.attribute (Text.lower name))
  | .property name, _ => some (.property name)
  | .listener event, .callback _ => some (.listener event)
  | _, _ => none

end Binding

/-- What a value writes to a target along a path of names. -/
def wrote (x : Target) : Binding → Value → List String → Option (List Value)
  | b, v, [] => (b.effect v).bind fun e => if e.1 = x then some e.2 else none
  | b, v, k :: ks =>
      if b = .spread then
        (Entries.get? k v.entries).bind fun w =>
          (Binding.ofEntryName? k).bind fun c => wrote x c w ks
      else none

/-- Whether a value that gives way clears a target along a path of names. -/
def Touches (x : Target) : Binding → Value → List String → Prop
  | b, v, [] => b.drops v = some x
  | b, v, k :: ks =>
      b = .spread ∧ ∃ w c, Entries.get? k v.entries = some w ∧
        Binding.ofEntryName? k = some c ∧ Touches x c w ks

/-! ### Values that are the same write the same -/

namespace Value
variable {a b : Value}

theorem same_cases (h : a.same b = true) :
    a = b ∨ ∃ m n, a = .number m ∧ b = .number n ∧ m.isZero = true ∧ n.isZero = true := by
  cases a <;> cases b <;> simp_all [same, Number.same]
  tauto

theorem toText_of_same (h : a.same b = true) : a.toText = b.toText := by
  rcases same_cases h with rfl | ⟨m, n, rfl, rfl, hm, hn⟩
  · rfl
  · have zero : ∀ n : Number, n.isZero = true → (Value.number n).toText = "0" := by
      intro n hn
      cases n with
      | finite negative significand exponent =>
        obtain rfl : significand = 0 := by simpa [Number.isZero] using hn
        cases negative <;> rfl
      | _ => simp [Number.isZero] at hn
    rw [zero m hm, zero n hn]

theorem isTruthy_of_same (h : a.same b = true) : a.isTruthy = b.isTruthy := by
  rcases same_cases h with rfl | ⟨m, n, rfl, rfl, hm, hn⟩
  · rfl
  · simp [isTruthy, Number.isTruthy, hm, hn]

theorem settled?_of_same (h : a.same b = true) : a.settled? = b.settled? := by
  rcases same_cases h with rfl | ⟨m, n, rfl, rfl, hm, hn⟩
  · rfl
  · simp [settled?, hm, hn]

theorem entries_of_same (h : a.same b = true) : a.entries = b.entries := by
  rcases same_cases h with rfl | ⟨m, n, rfl, rfl, -, -⟩ <;> rfl

end Value

theorem Binding.effect_of_same {a b : Value} (h : a.same b = true) (c : Binding) :
    c.effect a = c.effect b := by
  rcases Value.same_cases h with rfl | ⟨m, n, rfl, rfl, hm, hn⟩
  · rfl
  · cases c <;> simp [effect, Value.toText_of_same h, Value.isTruthy_of_same h,
      Value.settled?_of_same h]

theorem wrote_of_same {a b : Value} (h : a.same b = true) (x : Target) (c : Binding)
    (ks : List String) : wrote x c a ks = wrote x c b ks := by
  cases ks with
  | nil => simp only [wrote, Binding.effect_of_same h]
  | cons k ks => simp only [wrote, Value.entries_of_same h]

@[simp] theorem wrote_null (x : Target) (b : Binding) (ks : List String) :
    wrote x b .null ks = none := by
  cases ks with
  | nil => cases b <;> simp [wrote, Binding.effect, Value.settled?]
  | cons k ks => simp [wrote, Value.entries, Entries.get?]

/-- A value clears what it writes. -/
theorem Binding.drops_of_effect {b : Binding} {v : Value} {e : Target × List Value}
    (h : b.effect v = some e) : b.drops v = some e.1 := by
  cases b <;> cases v <;> simp_all [effect, drops, Value.settled?] <;> (subst h; rfl)

theorem Binding.eq_of_drops_listener {event : String} {v : Value} {x : Target}
    (h : (Binding.listener event).drops v = some x) : x = .listener event := by
  cases v <;> simp_all [drops]

theorem touches_of_wrote {x : Target} {b : Binding} {v : Value} {ks : List String}
    (h : wrote x b v ks ≠ none) : Touches x b v ks := by
  induction ks generalizing b v with
  | nil =>
    cases he : b.effect v with
    | none => simp [wrote, he] at h
    | some e =>
      simp only [wrote, he, Option.bind_some, ne_eq, ite_eq_right_iff, reduceCtorEq, imp_false,
        not_not] at h
      exact h ▸ Binding.drops_of_effect he
  | cons k ks ih =>
    rw [wrote] at h
    split at h
    next hb =>
      cases hw : Entries.get? k v.entries with
      | none => simp [hw] at h
      | some w =>
        cases hc : Binding.ofEntryName? k with
        | none => simp [hw, hc] at h
        | some c =>
          simp only [hw, hc, Option.bind_some] at h
          exact ⟨hb, w, c, hw, hc, ih h⟩
    next => simp at h

/-! ### Steps on the data of one element -/

namespace Document
variable {d : Document} {node : NodeId} {data data' : ElementData}

/-- The document with other data for an element. -/
def withElement (node : NodeId) (data : ElementData) (d : Document) : Document :=
  d.update node fun r => { r with kind := .element data }

theorem ext_record {d d' : Document} (h : ∀ n, d.record? n = d'.record? n) : d = d' := by
  obtain ⟨nodes⟩ := d
  obtain ⟨nodes'⟩ := d'
  congr
  exact Array.ext_getElem? h

theorem element?_eq_some :
    d.element? node = some data ↔ ∃ r, d.record? node = some r ∧ r.kind = .element data := by
  unfold element? kind?
  cases d.record? node with
  | none => simp
  | some r =>
    obtain ⟨kind, _, _⟩ := r
    cases kind <;> simp

theorem isContainer_of_element? (h : (d.element? node).isSome = true) :
    d.isContainer node = true := by
  obtain ⟨data, hdata⟩ := Option.isSome_iff_exists.1 h
  obtain ⟨r, hr, hk⟩ := element?_eq_some.1 hdata
  simp [isContainer, kind?, hr, hk]

theorem withElement_self (h : d.element? node = some data) : d.withElement node data = d := by
  obtain ⟨r, hr, hk⟩ := element?_eq_some.1 h
  refine ext_record fun n => ?_
  rw [withElement, record?_update]
  split
  next hn => rw [hn, hr, Option.map_some, ← hk]
  next => rfl

theorem withElement_withElement :
    (d.withElement node data).withElement node data' = d.withElement node data' := by
  refine ext_record fun n => ?_
  simp only [withElement, record?_update]
  split
  · cases d.record? n <;> rfl
  · rfl

theorem element?_withElement (h : d.element? node = some data) :
    (d.withElement node data').element? node = some data' := by
  obtain ⟨r, hr, -⟩ := element?_eq_some.1 h
  refine element?_eq_some.2 ⟨{ r with kind := .element data' }, ?_, rfl⟩
  rw [withElement, record?_update, if_pos rfl, hr]
  rfl

theorem updateElement_eq (f : ElementData → ElementData) (h : d.element? node = some data) :
    d.updateElement node f = .ok (d.withElement node (f data)) := by
  obtain ⟨r, hr, hk⟩ := element?_eq_some.1 h
  simp [updateElement, kind?, hr, hk, withElement]

end Document

namespace Live

/-- A step that changes nothing in the document but the data of one element. -/
def Edits (node : NodeId) (m : HostM Unit) (good bad : ElementData → ElementData → Prop) : Prop :=
  ∀ h data, h.document.element? node = some data →
    Runs m h
      (fun _ h' => ∃ data', h'.document = h.document.withElement node data' ∧ good data data')
      (fun h' => ∃ data', h'.document = h.document.withElement node data' ∧ bad data data')

namespace Edits
variable {node : NodeId} {m m' : HostM Unit} {good bad good' bad' : ElementData → ElementData → Prop}

theorem mono (e : Edits node m good bad) (hgood : ∀ a b, good a b → good' a b)
    (hbad : ∀ a b, bad a b → bad' a b) : Edits node m good' bad' := fun _ data hd =>
  (e _ data hd).mono (fun _ _ ⟨data', hdoc, hg⟩ => ⟨data', hdoc, hgood _ _ hg⟩)
    fun _ ⟨data', hdoc, hb⟩ => ⟨data', hdoc, hbad _ _ hb⟩

theorem pure (hgood : ∀ a, good a a) : Edits node (pure ()) good bad := fun _ data hd =>
  ⟨data, (Document.withElement_self hd).symm, hgood data⟩

/-- One step after the other. -/
theorem andThen (e : Edits node m good bad) (e' : Edits node m' good' bad') :
    Edits node (do m; m') (fun a c => ∃ b, good a b ∧ good' b c)
      (fun a c => bad a c ∨ ∃ b, good a b ∧ bad' b c) := by
  intro h data hd
  rw [Runs.bind]
  refine (e h data hd).mono ?_ fun _ ⟨b, hdoc, hb⟩ => ⟨b, hdoc, .inl hb⟩
  rintro _ h₁ ⟨b, hdoc, hg⟩
  have hd₁ : h₁.document.element? node = some b := by
    rw [hdoc]
    exact Document.element?_withElement hd
  refine (e' h₁ b hd₁).mono ?_ ?_
  · rintro _ h₂ ⟨c, hdoc₂, hc⟩
    exact ⟨c, by rw [hdoc₂, hdoc, Document.withElement_withElement], b, hg, hc⟩
  · rintro h₂ ⟨c, hdoc₂, hc⟩
    exact ⟨c, by rw [hdoc₂, hdoc, Document.withElement_withElement], .inr ⟨b, hg, hc⟩⟩

theorem update {f : ElementData → ElementData} (hgood : ∀ a, good a (f a)) :
    Edits node (Host.edit (Document.updateElement node f)) good bad := fun _ data hd =>
  Runs.edit_ok (Document.updateElement_eq f hd) ⟨f data, rfl, hgood data⟩

end Edits

end Live

/-! ### What the edits of an element do to a target -/

namespace Entries
variable {κ α : Type} [DecidableEq κ]

theorem get?_erase (a b : κ) (entries : List (κ × α)) :
    get? a (erase b entries) = if a = b then none else get? a entries := by
  induction entries with
  | nil => simp [erase, get?]
  | cons e rest ih =>
    obtain ⟨n, v⟩ := e
    simp only [erase, ne_eq, decide_not, List.filter_cons] at ih ⊢
    by_cases hn : n = b
    · by_cases ha : a = b
      · simp_all
      · simp_all [get?, Ne.symm ha]
    · by_cases ha : n = a
      · subst ha
        simp [hn, get?]
      · simp [hn, get?, ha, ih]

end Entries

namespace ElementData
variable (data : ElementData) (x : Target)

theorem reading_setAttribute (name text : String) :
    ({ data with attributes := Entries.put name text data.attributes } : ElementData).reading x =
      if x = .attribute name then [.text text] else data.reading x := by
  rcases x with n | n | n
  · simp only [reading, Entries.get?_put, Target.attribute.injEq]
    split <;> rfl
  · simp [reading]
  · simp [reading]

theorem reading_removeAttribute (name : String) :
    ({ data with attributes := Entries.erase name data.attributes } : ElementData).reading x =
      if x = .attribute name then [] else data.reading x := by
  rcases x with n | n | n
  · simp only [reading, Entries.get?_erase, Target.attribute.injEq]
    split <;> rfl
  · simp [reading]
  · simp [reading]

theorem reading_setProperty (name : String) (v : Value) :
    ({ data with properties := Entries.put name v data.properties } : ElementData).reading x =
      if x = .property name then v.settled?.toList else data.reading x := by
  rcases x with n | n | n
  · simp [reading]
  · simp only [reading, Entries.get?_put, Target.property.injEq]
    split <;> rfl
  · simp [reading]

/-- The element with one listener less. -/
def withoutListener (event callback : String) : ElementData :=
  { data with listeners := data.listeners.filter (· ≠ (event, callback)) }

theorem reading_withoutListener (event callback : String) :
    (data.withoutListener event callback).reading x =
      if x = .listener event then (data.reading x).filter (· ≠ .callback callback)
      else data.reading x := by
  rcases x with n | n | n
  · simp [reading, withoutListener]
  · simp [reading, withoutListener]
  · simp only [reading, withoutListener, Target.listener.injEq, List.filter_map,
      List.filter_filter]
    split
    next hn =>
      subst hn
      congr 1
      refine List.filter_congr fun l _ => ?_
      obtain ⟨e, c⟩ := l
      by_cases he : e = n <;> simp [he]
    next hn =>
      congr 1
      refine List.filter_congr fun l _ => ?_
      obtain ⟨e, c⟩ := l
      by_cases he : e = n
      · simp [he, hn]
      · simp [he]

/-- The element with one listener more, unless it is there already. -/
def withListener (event callback : String) : ElementData :=
  if data.listeners.contains (event, callback) then data
  else { data with listeners := data.listeners ++ [(event, callback)] }

theorem reading_withListener (event callback : String) :
    (data.withListener event callback).reading x =
      if x = .listener event ∧ .callback callback ∉ data.reading x then
        data.reading x ++ [.callback callback]
      else data.reading x := by
  have hmem : (event, callback) ∈ data.listeners ↔
      .callback callback ∈ data.reading (.listener event) := by
    simp [reading]
  unfold withListener
  by_cases hm : (event, callback) ∈ data.listeners
  · rw [if_pos (by simpa using hm), if_neg]
    rintro ⟨rfl, h⟩
    exact h (hmem.1 hm)
  · rw [if_neg (by simpa using hm)]
    rcases x with n | n | n
    · simp [reading]
    · simp [reading]
    · by_cases hn : n = event
      · subst hn
        rw [if_pos ⟨rfl, fun h => hm (hmem.2 h)⟩]
        simp [reading]
      · rw [if_neg fun h => hn (by simpa using h.1)]
        simp [reading, Ne.symm hn]

end ElementData

/-! ### One value gives way to another -/

/-- The data of an element before and after a value has given way to another through a
binding. -/
structure Turns (b : Binding) (prev next : Value) (data data' : ElementData) : Prop where
  tag : data'.tag = data.tag
  kept : ∀ x, (∀ ks, ¬Touches x b prev ks) → (∀ ks, wrote x b next ks = none) →
    data'.reading x = data.reading x
  routed : ∀ x keys, (∀ ks, Touches x b prev ks → ks = keys) →
    (∀ ks, wrote x b next ks ≠ none → ks = keys) →
    data.reading x = (wrote x b prev keys).getD [] →
    data'.reading x = (wrote x b next keys).getD []

/-- Whether a value can be written. Only a name that is no attribute name prevents it. -/
def Binding.Accepts : Binding → Value → Prop
  | .attribute name, v => v ≠ .null → isValidAttributeName name = true
  | .presence name, v => v.isTruthy = true → isValidAttributeName name = true
  | _, _ => True

mutual
/-- Whether a value can be written through a binding, with all the entries of a mapping
that is spread. -/
def Writable (b : Binding) : Value → Prop
  | .attributes handle entries =>
      if b = .spread then WritableEntries entries else b.Accepts (.attributes handle entries)
  | v => b.Accepts v
termination_by structural v => v

def WritableEntries : List (String × Value) → Prop
  | [] => True
  | (name, v) :: rest =>
      (∀ b, Binding.ofEntryName? name = some b → Writable b v) ∧ WritableEntries rest
termination_by structural es => es
end

theorem writable_spread (v : Value) : Writable .spread v ↔ WritableEntries v.entries := by
  cases v <;> simp [Writable, WritableEntries, Value.entries, Binding.Accepts]

theorem writable_direct {b : Binding} (hb : b ≠ .spread) (v : Value) :
    Writable b v ↔ b.Accepts v := by
  cases v <;> simp [Writable, hb]

theorem WritableEntries.get? {entries : List (String × Value)} {name : String} {b : Binding}
    (h : WritableEntries entries) (hb : Binding.ofEntryName? name = some b) :
    Writable b ((Entries.get? name entries).getD .null) := by
  induction entries with
  | nil => cases b <;> simp [Entries.get?, Writable, Binding.Accepts, Value.isTruthy]
  | cons e rest ih =>
    obtain ⟨n, v⟩ := e
    rw [Entries.get?]
    split
    next hn => exact h.1 b (hn ▸ hb)
    next => exact ih h.2

theorem Value.isNull_iff {v : Value} : v.isNull = true ↔ v = .null := by simp [isNull]

theorem wrote_direct {x : Target} {b : Binding} (hb : b ≠ .spread) (v : Value) {ks : List String}
    (hks : ks ≠ []) : wrote x b v ks = none := by
  cases ks with
  | nil => contradiction
  | cons k ks => simp [wrote, hb]

/-- A target that is set whatever was there before. -/
structure Sets (y : Target) (r : List Value) (data data' : ElementData) : Prop where
  tag : data'.tag = data.tag
  reading : ∀ x, data'.reading x = if x = y then r else data.reading x

namespace Turns
variable {b : Binding} {prev next : Value} {data data' : ElementData}

/-- Through a binding that spreads nothing only the empty path counts. -/
theorem direct (hb : b ≠ .spread) (tag : data'.tag = data.tag)
    (kept : ∀ x, b.drops prev ≠ some x → wrote x b next [] = none →
      data'.reading x = data.reading x)
    (routed : ∀ x, data.reading x = (wrote x b prev []).getD [] →
      data'.reading x = (wrote x b next []).getD []) : Turns b prev next data data' where
  tag := tag
  kept x hp hn := kept x (hp []) (hn [])
  routed x keys hp hn hr := by
    cases keys with
    | nil => exact routed x hr
    | cons k ks =>
      rw [wrote_direct hb _ (by simp)] at hr ⊢
      rw [kept x (fun h => by simpa using hp [] h) ?_, hr]
      by_contra h
      simpa using hn [] h

theorem ofSets (hb : b ≠ .spread) {y : Target} {r : List Value} (s : Sets y r data data')
    (drops : b.drops prev = some y) (only : ∀ x v, x ≠ y → wrote x b v [] = none)
    (written : (wrote y b next []).getD [] = r) : Turns b prev next data data' := by
  refine direct hb s.tag (fun x hp _ => ?_) fun x hr => ?_
  · rw [s.reading, if_neg]
    exact fun h => hp (drops.trans (congrArg some h.symm))
  · rw [s.reading]
    split
    next hx => rw [hx, written]
    next hx => rw [hr, only x prev hx, only x next hx]

end Turns

namespace Live
open Document

variable (node : NodeId) (prev next : Value)

/-- What an attribute has after a value was written. -/
def attributeText (v : Value) : List Value := if v = .null then [] else [.text v.toText]

def presenceText (v : Value) : List Value := if v.isTruthy then [.text ""] else []

theorem writeAttribute_sets (name : String) :
    Edits node (writeDirect node (.attribute name) prev next)
      (fun data data' => Sets (.attribute (Text.lower name)) (attributeText next) data data' ∧
        Binding.Accepts (.attribute name) next)
      (fun data data' => data' = data ∧ ¬Binding.Accepts (.attribute name) next) := by
  simp only [writeDirect, Value.isNull_iff]
  split
  next hnull =>
    refine Edits.update fun data => ⟨⟨rfl, fun x => ?_⟩, fun h => absurd hnull h⟩
    rw [data.reading_removeAttribute x (Text.lower name), attributeText, if_pos hnull]
  next hnull =>
    by_cases hv : isValidAttributeName name = true
    · have he : setAttribute node name next.toText = updateElement node fun data =>
          { data with attributes := Entries.put (Text.lower name) next.toText data.attributes } := by
        funext d
        simp [setAttribute, hv]
      rw [he]
      refine Edits.update fun data => ⟨⟨rfl, fun x => ?_⟩, fun _ => hv⟩
      rw [data.reading_setAttribute x (Text.lower name) next.toText, attributeText, if_neg hnull]
    · intro h data hd
      rw [Runs.edit]
      simp only [setAttribute, hv]
      exact ⟨trivial, data, (withElement_self hd).symm, rfl, fun ha => hv (ha hnull)⟩

theorem writePresence_sets (name : String) :
    Edits node (writeDirect node (.presence name) prev next)
      (fun data data' => Sets (.attribute (Text.lower name)) (presenceText next) data data' ∧
        Binding.Accepts (.presence name) next)
      (fun data data' => data' = data ∧ ¬Binding.Accepts (.presence name) next) := by
  simp only [writeDirect]
  split
  next htrue =>
    by_cases hv : isValidAttributeName name = true
    · have he : setAttribute node name "" = updateElement node fun data =>
          { data with attributes := Entries.put (Text.lower name) "" data.attributes } := by
        funext d
        simp [setAttribute, hv]
      rw [he]
      refine Edits.update fun data => ⟨⟨rfl, fun x => ?_⟩, fun _ => hv⟩
      rw [data.reading_setAttribute x (Text.lower name) "", presenceText, if_pos htrue]
    · intro h data hd
      rw [Runs.edit]
      simp only [setAttribute, hv]
      exact ⟨trivial, data, (withElement_self hd).symm, rfl, fun ha => hv (ha htrue)⟩
  next hfalse =>
    refine Edits.update fun data => ⟨⟨rfl, fun x => ?_⟩, fun h => absurd h hfalse⟩
    rw [data.reading_removeAttribute x (Text.lower name), presenceText, if_neg hfalse]

theorem writeProperty_sets (name : String) :
    Edits node (writeDirect node (.property name) prev next)
      (Sets (.property name) next.settled?.toList) fun _ _ => False :=
  Edits.update fun data => ⟨rfl, (data.reading_setProperty · name next)⟩

section
variable {x : Target} {v : Value} {name : String}

theorem wrote_attribute : wrote x (.attribute name) v [] =
    if v ≠ .null ∧ x = .attribute (Text.lower name) then some (attributeText v) else none := by
  by_cases hv : v = .null <;> simp [wrote, Binding.effect, attributeText, hv, @eq_comm _ x]

theorem wrote_presence : wrote x (.presence name) v [] =
    if v ≠ .null ∧ x = .attribute (Text.lower name) then some (presenceText v) else none := by
  by_cases hv : v = .null <;> simp [wrote, Binding.effect, presenceText, hv, @eq_comm _ x]

theorem wrote_property : wrote x (.property name) v [] =
    if v ≠ .null ∧ x = .property name then some v.settled?.toList else none := by
  cases v <;> simp [wrote, Binding.effect, Value.settled?, @eq_comm _ x]

end

/-- What a listener leaves when its value gives way, and what the next one adds. -/
def listenerGone (event : String) (data : ElementData) : Value → ElementData
  | .callback callback => data.withoutListener event callback
  | _ => data

def listenerCome (event : String) (data : ElementData) : Value → ElementData
  | .callback callback => data.withListener event callback
  | _ => data

theorem reading_listenerGone (event : String) (data : ElementData) (x : Target) :
    (listenerGone event data prev).reading x =
      if (Binding.listener event).drops prev = some x then (data.reading x).filter (· ≠ prev)
      else data.reading x := by
  cases prev <;> simp [listenerGone, Binding.drops, ElementData.reading_withoutListener, eq_comm]

theorem reading_listenerCome (event : String) (data : ElementData) (x : Target) :
    (listenerCome event data next).reading x =
      if (Binding.listener event).drops next = some x ∧ next ∉ data.reading x then
        data.reading x ++ [next]
      else data.reading x := by
  cases next <;> simp [listenerCome, Binding.drops, ElementData.reading_withListener, eq_comm]

theorem wrote_listener (event : String) (v : Value) (x : Target) :
    wrote x (.listener event) v [] =
      if (Binding.listener event).drops v = some x then some [v] else none := by
  cases v <;> simp [wrote, Binding.effect, Binding.drops]

theorem listener_turns (event : String) (data : ElementData) :
    Turns (.listener event) prev next data
      (listenerCome event (listenerGone event data prev) next) := by
  have tag : (listenerCome event (listenerGone event data prev) next).tag = data.tag := by
    cases prev <;> cases next <;>
      simp [listenerCome, listenerGone, ElementData.withoutListener, ElementData.withListener,
        apply_ite ElementData.tag]
  refine Turns.direct (by simp) tag (fun x hp hn => ?_) fun x hr => ?_
  · rw [wrote_listener, ite_eq_right_iff] at hn
    rw [reading_listenerCome, if_neg fun h => by simpa using hn h.1, reading_listenerGone, if_neg hp]
  · have hgone : (listenerGone event data prev).reading x = [] := by
      rw [reading_listenerGone, hr, wrote_listener]
      split <;> simp
    rw [reading_listenerCome, hgone, wrote_listener]
    split <;> simp_all

theorem removePrev_edits (event : String) : Edits node (match prev with
    | .callback callback => Host.edit (removeListener node event callback)
    | _ => pure ()) (fun a b => b = listenerGone event a prev) fun _ _ => False := by
  cases prev <;> first | exact Edits.pure fun _ => rfl | exact Edits.update fun _ => rfl

theorem addNext_edits (event : String) : Edits node (match next with
    | .callback callback => Host.edit (addListener node event callback)
    | _ => pure ()) (fun a b => b = listenerCome event a next) fun _ _ => False := by
  cases next <;> first | exact Edits.pure fun _ => rfl | exact Edits.update fun _ => rfl

theorem writeListener_turns (event : String) :
    Edits node (writeDirect node (.listener event) prev next)
      (Turns (.listener event) prev next) fun _ _ => False := by
  have heq : writeDirect node (.listener event) prev next = (do
      (match prev with
        | .callback callback => Host.edit (removeListener node event callback)
        | _ => pure ())
      (match next with
        | .callback callback => Host.edit (addListener node event callback)
        | _ => pure ())) := by
    cases prev <;> rfl
  rw [heq]
  refine ((removePrev_edits node prev event).andThen (addNext_edits node next event)).mono ?_ ?_
  · rintro data _ ⟨_, rfl, rfl⟩
    exact listener_turns prev next event data
  · rintro data data' (h | ⟨_, _, h⟩) <;> exact h

theorem writeDirect_turns {b : Binding} (hs : b ≠ .spread) :
    Edits node (writeDirect node b prev next)
      (fun data data' => Turns b prev next data data' ∧ b.Accepts next)
      (fun data data' => data' = data ∧ ¬b.Accepts next) := by
  have still : ∀ data, b.drops prev = none → (∀ x, wrote x b prev [] = none) →
      (∀ x, wrote x b next [] = none) → Turns b prev next data data := by
    intro data hd hp hn
    refine Turns.direct hs rfl (fun _ _ _ => rfl) fun x hx => ?_
    rw [hn, hx, hp]
  rcases b with name | name | name | event | _ | _ | _
  · refine (writeAttribute_sets node prev next name).mono (fun _ _ ⟨s, h⟩ => ⟨.ofSets hs s rfl ?_ ?_, h⟩)
      fun _ _ h => h
    · exact fun x v hx => by simp [wrote_attribute, hx]
    · by_cases hn : next = .null <;> simp [wrote_attribute, attributeText, hn]
  · refine (writePresence_sets node prev next name).mono (fun _ _ ⟨s, h⟩ => ⟨.ofSets hs s rfl ?_ ?_, h⟩)
      fun _ _ h => h
    · exact fun x v hx => by simp [wrote_presence, hx]
    · by_cases hn : next = .null <;> simp [wrote_presence, presenceText, hn, Value.isTruthy]
  · refine (writeProperty_sets node prev next name).mono
      (fun _ _ s => ⟨.ofSets hs s rfl ?_ ?_, trivial⟩) (by simp)
    · exact fun x v hx => by simp [wrote_property, hx]
    · by_cases hn : next = .null <;> simp [wrote_property, hn, Value.settled?]
  · exact (writeListener_turns node prev next event).mono (fun _ _ t => ⟨t, trivial⟩) (by simp)
  · intro h data hd
    have t := still data rfl (fun _ => rfl) fun _ => rfl
    cases next <;>
      exact ⟨data, (withElement_self hd).symm, t, trivial⟩
  · contradiction
  · exact Edits.pure fun data => ⟨still data rfl (fun _ => rfl) fun _ => rfl, trivial⟩

/-- A literal is written whatever the element had before. -/
theorem writeLiteral_reads (b : Binding) (text : String) :
    Edits node (writeDirect node b .null (.text text))
      (fun data data' => (data'.tag = data.tag ∧
        ∀ x, data'.reading x = (wrote x b (.text text) []).getD (data.reading x)) ∧
        b.Accepts (.text text))
      (fun data data' => data' = data ∧ ¬b.Accepts (.text text)) := by
  have ofSets : ∀ {y : Target} {r : List Value} {data data' : ElementData}, Sets y r data data' →
      (∀ x, wrote x b (.text text) [] = if x = y then some r else none) →
      data'.tag = data.tag ∧
        ∀ x, data'.reading x = (wrote x b (.text text) []).getD (data.reading x) := by
    intro y r data data' s h
    refine ⟨s.tag, fun x => ?_⟩
    rw [s.reading, h]
    split <;> rfl
  have still : ∀ data : ElementData, (∀ x, wrote x b (.text text) [] = none) →
      data.tag = data.tag ∧
        ∀ x, data.reading x = (wrote x b (.text text) []).getD (data.reading x) :=
    fun data h => ⟨rfl, fun x => by rw [h]; rfl⟩
  rcases b with name | name | name | event | _ | _ | _
  · exact (writeAttribute_sets node .null _ name).mono
      (fun _ _ ⟨s, h⟩ => ⟨ofSets s fun x => by simp [wrote_attribute], h⟩) fun _ _ h => h
  · exact (writePresence_sets node .null _ name).mono
      (fun _ _ ⟨s, h⟩ => ⟨ofSets s fun x => by simp [wrote_presence], h⟩) fun _ _ h => h
  · exact (writeProperty_sets node .null _ name).mono
      (fun _ _ s => ⟨ofSets s fun x => by simp [wrote_property], trivial⟩) (by simp)
  · exact Edits.pure fun data => ⟨still data fun x => by simp [wrote, Binding.effect], trivial⟩
  · exact Edits.pure fun data => ⟨still data fun x => by simp [wrote, Binding.effect], trivial⟩
  · exact Edits.pure fun data => ⟨still data fun x => by simp [wrote, Binding.effect], trivial⟩
  · exact Edits.pure fun data => ⟨still data fun x => by simp [wrote, Binding.effect], trivial⟩

end Live

/-! ### The entries of a mapping that is spread -/

/-- What an entry writes, and whether it clears, along the rest of a path. -/
def wroteIn (x : Target) (entries : List (String × Value)) (k : String) (ks : List String) :
    Option (List Value) :=
  (Entries.get? k entries).bind fun w => (Binding.ofEntryName? k).bind fun c => wrote x c w ks

def TouchesIn (x : Target) (entries : List (String × Value)) (k : String) (ks : List String) :
    Prop :=
  ∃ w c, Entries.get? k entries = some w ∧ Binding.ofEntryName? k = some c ∧ Touches x c w ks

/-- The data of an element before and after the entries of a mapping have been retracted,
those with a kept name excepted. -/
structure EntriesGone (kept : List String) (entries : List (String × Value))
    (data data' : ElementData) : Prop where
  tag : data'.tag = data.tag
  untouched : ∀ x, (∀ k ks, k ∉ kept → ¬TouchesIn x entries k ks) →
    data'.reading x = data.reading x
  routed : ∀ x k ks, k ∉ kept → (∀ k' ks', TouchesIn x entries k' ks' → k' = k ∧ ks' = ks) →
    data.reading x = (wroteIn x entries k ks).getD [] → data'.reading x = []

section
variable {x : Target} {name k : String} {old : Value} {ks : List String} {c : Binding}
  {rest entries : List (String × Value)}

theorem touchesIn_head (hc : Binding.ofEntryName? name = some c) (h : Touches x c old ks) :
    TouchesIn x ((name, old) :: rest) name ks := ⟨old, c, by simp [Entries.get?], hc, h⟩

theorem get?_tail (hn : name ∉ Entries.names rest) {w : Value}
    (h : Entries.get? k rest = some w) :
    name ≠ k ∧ Entries.get? k ((name, old) :: rest) = some w := by
  have hk : name ≠ k := by
    rintro rfl
    simp [Entries.get?_eq_none_iff.2 hn] at h
  exact ⟨hk, by rw [Entries.get?, if_neg hk, h]⟩

theorem TouchesIn.tail (hn : name ∉ Entries.names rest) (h : TouchesIn x rest k ks) :
    name ≠ k ∧ TouchesIn x ((name, old) :: rest) k ks := by
  obtain ⟨w, c, hw, hc, ht⟩ := h
  obtain ⟨hk, hw⟩ := get?_tail hn hw
  exact ⟨hk, w, c, hw, hc, ht⟩

theorem wroteIn_head (hc : Binding.ofEntryName? name = some c) :
    wroteIn x ((name, old) :: rest) name ks = wrote x c old ks := by
  simp [wroteIn, Entries.get?, hc]

theorem wroteIn_tail (hk : name ≠ k) :
    wroteIn x ((name, old) :: rest) k ks = wroteIn x rest k ks := by
  rw [wroteIn, Entries.get?, if_neg hk, wroteIn]

theorem wroteIn_of_name (hc : Binding.ofEntryName? name = none) :
    wroteIn x entries name ks = none := by
  simp [wroteIn, hc]

theorem wroteIn_of_notMem (h : k ∉ Entries.names entries) : wroteIn x entries k ks = none := by
  simp [wroteIn, Entries.get?_eq_none_iff.2 h]

end

/-- The first entry retracted, and then the others. -/
theorem EntriesGone.cons {kept : List String} {name : String} {old : Value}
    {rest : List (String × Value)} {data data₁ data' : ElementData}
    (hn : name ∉ Entries.names rest)
    (first : ∀ c, name ∉ kept → Binding.ofEntryName? name = some c → Turns c old .null data data₁)
    (still : name ∈ kept ∨ Binding.ofEntryName? name = none → data₁ = data)
    (others : EntriesGone kept rest data₁ data') :
    EntriesGone kept ((name, old) :: rest) data data' := by
  have tail : ∀ x k ks, TouchesIn x rest k ks →
      name ≠ k ∧ TouchesIn x ((name, old) :: rest) k ks := fun _ _ _ h => h.tail hn
  have head : ∀ x, (name ∉ kept → ∀ ks, ¬TouchesIn x ((name, old) :: rest) name ks) →
      data₁.reading x = data.reading x := by
    intro x hx
    by_cases hk : name ∈ kept
    · rw [still (.inl hk)]
    · cases hc : Binding.ofEntryName? name with
      | none => rw [still (.inr hc)]
      | some c =>
        exact (first c hk hc).kept x (fun ks h => hx hk ks (touchesIn_head hc h)) (by simp)
  refine ⟨?_, fun x hx => ?_, fun x k ks hk hx hr => ?_⟩
  · rw [others.tag]
    by_cases hk : name ∈ kept
    · rw [still (.inl hk)]
    · cases hc : Binding.ofEntryName? name with
      | none => rw [still (.inr hc)]
      | some c => exact (first c hk hc).tag
  · rw [others.untouched x fun k ks hk h => hx k ks hk (tail x k ks h).2, head x fun hk ks => hx name ks hk]
  · by_cases hname : name = k
    · subst hname
      rw [others.untouched x fun k' ks' _ h =>
        (tail x k' ks' h).1 (hx k' ks' (tail x k' ks' h).2).1.symm]
      cases hc : Binding.ofEntryName? name with
      | none => rw [still (.inr hc), hr, wroteIn_of_name hc, Option.getD_none]
      | some c =>
        rw [wroteIn_head hc] at hr
        have := (first c hk hc).routed x ks (fun ks' h => (hx name ks' (touchesIn_head hc h)).2)
          (by simp) hr
        simpa using this
    · refine others.routed x k ks hk (fun k' ks' h => hx k' ks' (tail x k' ks' h).2) ?_
      rw [head x fun _ ks' h => hname (hx name ks' h).1, hr, wroteIn_tail hname]

/-- All entries are gone when nothing that has entries takes their place. -/
theorem EntriesGone.turns {prev next : Value} {data data' : ElementData}
    (h : EntriesGone [] prev.entries data data') (hn : next.entries = []) :
    Turns .spread prev next data data' where
  tag := h.tag
  kept x hp _ := h.untouched x fun k ks _ ht => hp (k :: ks) ⟨rfl, ht⟩
  routed x keys hp _ hr := by
    cases keys with
    | nil =>
      rw [h.untouched x fun k ks _ ht => by simpa using hp (k :: ks) ⟨rfl, ht⟩, hr]
      simp [wrote, Binding.effect]
    | cons k ks =>
      have : wrote x .spread next (k :: ks) = none := by simp [wrote, hn, Entries.get?]
      rw [this, Option.getD_none]
      refine h.routed x k ks (by simp) (fun k' ks' ht => ?_) hr
      simpa using hp (k' :: ks') ⟨rfl, ht⟩

/-- What holds of the data of an element when a value could not be written to its end. -/
structure Spoils (b : Binding) (prev next : Value) (data data' : ElementData) : Prop where
  tag : data'.tag = data.tag
  untouched : ∀ x, (prev ≠ .null → ∀ ks, ¬Touches x b prev ks) →
    (∀ ks, wrote x b next ks = none) → data'.reading x = data.reading x

/-- An absent value could clear only what any other value writes. -/
theorem touches_null {x : Target} {b : Binding} {ks : List String} (h : Touches x b .null ks) :
    ks = [] ∧ ∀ v, v ≠ .null → wrote x b v [] ≠ none := by
  cases ks with
  | cons k ks =>
    obtain ⟨-, w, c, hw, -⟩ := h
    simp [Value.entries, Entries.get?] at hw
  | nil =>
    refine ⟨rfl, fun v hv => ?_⟩
    have h : b.drops .null = some x := h
    have hw : v.settled? ≠ none := by cases v <;> simp_all [Value.settled?]
    cases b <;> simp_all [Binding.drops, wrote, Binding.effect]
    cases hsv : v.settled? <;> simp_all

namespace Turns
variable {b : Binding} {prev next : Value} {data data' : ElementData}

/-- Where the value has changed, an absent one before need not be considered. -/
theorem kept_of_changed (t : Turns b prev next data data') (changed : prev.same next = false)
    (x : Target) (hp : prev ≠ .null → ∀ ks, ¬Touches x b prev ks)
    (hn : ∀ ks, wrote x b next ks = none) : data'.reading x = data.reading x := by
  refine t.kept x (fun ks ht => ?_) hn
  by_cases hnull : prev = .null
  · subst hnull
    have hnext : next ≠ .null := by
      rintro rfl
      simp [Value.same] at changed
    exact (touches_null ht).2 next hnext (hn [])
  · exact hp hnull ks ht

theorem routed_of_changed (t : Turns b prev next data data') (changed : prev.same next = false)
    (x : Target) (keys : List String) (hp : prev ≠ .null → ∀ ks, Touches x b prev ks → ks = keys)
    (hn : ∀ ks, wrote x b next ks ≠ none → ks = keys)
    (hr : data.reading x = (wrote x b prev keys).getD []) :
    data'.reading x = (wrote x b next keys).getD [] := by
  refine t.routed x keys (fun ks ht => ?_) hn hr
  by_cases hnull : prev = .null
  · subst hnull
    have hnext : next ≠ .null := by
      rintro rfl
      simp [Value.same] at changed
    obtain ⟨rfl, hw⟩ := touches_null ht
    exact hn [] (hw next hnext)
  · exact hp hnull ks ht

end Turns

/-- The data of an element before and after the entries of a mapping have been applied
where others stood before. -/
structure EntriesTurn (prev entries : List (String × Value)) (data data' : ElementData) :
    Prop where
  tag : data'.tag = data.tag
  untouched : ∀ x, (∀ k ∈ Entries.names entries, ∀ ks, ¬TouchesIn x prev k ks) →
    (∀ k ks, wroteIn x entries k ks = none) → data'.reading x = data.reading x
  routed : ∀ x k ks, k ∈ Entries.names entries →
    (∀ k' ks', TouchesIn x prev k' ks' → k' = k ∧ ks' = ks) →
    (∀ k' ks', wroteIn x entries k' ks' ≠ none → k' = k ∧ ks' = ks) →
    data.reading x = (wroteIn x prev k ks).getD [] →
    data'.reading x = (wroteIn x entries k ks).getD []

structure EntriesSpoil (prev entries : List (String × Value)) (data data' : ElementData) :
    Prop where
  tag : data'.tag = data.tag
  untouched : ∀ x, (∀ k ∈ Entries.names entries, ∀ ks, ¬TouchesIn x prev k ks) →
    (∀ k ks, wroteIn x entries k ks = none) → data'.reading x = data.reading x

/-- The entry of a name, absent where there is none. -/
def entryOf (entries : List (String × Value)) (name : String) : Value :=
  (Entries.get? name entries).getD .null

section
variable {x : Target} {name : String} {ks : List String} {c : Binding}
  {entries : List (String × Value)}

theorem touchesIn_of_entryOf (hc : Binding.ofEntryName? name = some c)
    (hnull : entryOf entries name ≠ .null) (h : Touches x c (entryOf entries name) ks) :
    TouchesIn x entries name ks := by
  unfold entryOf at hnull h
  cases hw : Entries.get? name entries with
  | none => simp [hw] at hnull
  | some w =>
    rw [hw] at h
    exact ⟨w, c, hw, hc, h⟩

theorem wroteIn_eq_entryOf (hc : Binding.ofEntryName? name = some c) :
    wroteIn x entries name ks = wrote x c (entryOf entries name) ks := by
  unfold wroteIn entryOf
  cases Entries.get? name entries <;> simp [hc]

end

/-- What the entry of a name does, when it has changed and the name binds to something. -/
structure EntryTurns (prev : List (String × Value)) (name : String) (next : Value)
    (data data' : ElementData) : Prop where
  turns : ∀ c, Binding.ofEntryName? name = some c → (entryOf prev name).same next = false →
    Turns c (entryOf prev name) next data data'
  still : Binding.ofEntryName? name = none ∨ (entryOf prev name).same next = true → data' = data

namespace EntryTurns
variable {prev rest : List (String × Value)} {name : String} {next : Value}
  {data data' : ElementData}

theorem tag (e : EntryTurns prev name next data data') : data'.tag = data.tag := by
  cases hc : Binding.ofEntryName? name with
  | none => rw [e.still (.inl hc)]
  | some c =>
    cases hs : (entryOf prev name).same next with
    | true => rw [e.still (.inr hs)]
    | false => exact (e.turns c hc hs).tag

theorem untouched (e : EntryTurns prev name next data data') {x : Target}
    (rest : List (String × Value)) (hp : ∀ ks, ¬TouchesIn x prev name ks)
    (hn : ∀ ks, wroteIn x ((name, next) :: rest) name ks = none) :
    data'.reading x = data.reading x := by
  cases hc : Binding.ofEntryName? name with
  | none => rw [e.still (.inl hc)]
  | some c =>
    cases hs : (entryOf prev name).same next with
    | true => rw [e.still (.inr hs)]
    | false =>
      refine (e.turns c hc hs).kept_of_changed hs x (fun hnull ks ht => ?_) fun ks => ?_
      · exact hp ks (touchesIn_of_entryOf hc hnull ht)
      · rw [← hn ks, wroteIn_head hc]

theorem routed (e : EntryTurns prev name next data data') {x : Target} {ks : List String}
    (hp : ∀ ks', TouchesIn x prev name ks' → ks' = ks)
    (hn : ∀ ks', wroteIn x ((name, next) :: rest) name ks' ≠ none → ks' = ks)
    (hr : data.reading x = (wroteIn x prev name ks).getD []) :
    data'.reading x = (wroteIn x ((name, next) :: rest) name ks).getD [] := by
  cases hc : Binding.ofEntryName? name with
  | none => rw [e.still (.inl hc), hr, wroteIn_of_name hc, wroteIn_of_name hc]
  | some c =>
    rw [wroteIn_eq_entryOf hc] at hr
    rw [wroteIn_head hc]
    cases hs : (entryOf prev name).same next with
    | true => rw [e.still (.inr hs), hr, wrote_of_same hs]
    | false =>
      refine (e.turns c hc hs).routed_of_changed hs x ks (fun hnull ks' ht => ?_)
        (fun ks' h => ?_) hr
      · exact hp ks' (touchesIn_of_entryOf hc hnull ht)
      · exact hn ks' (by rwa [wroteIn_head hc])

end EntryTurns

section
variable {prev rest : List (String × Value)} {name : String} {next : Value}
  {data data₁ data' : ElementData}

/-- The entries behind the first write nothing under its name. -/
theorem wroteIn_rest {x : Target} (hn : name ∉ Entries.names rest) (next : Value) (k : String)
    (ks : List String) (h : wroteIn x rest k ks ≠ none) :
    name ≠ k ∧ wroteIn x ((name, next) :: rest) k ks ≠ none := by
  have hk : name ≠ k := by
    rintro rfl
    exact h (wroteIn_of_notMem hn)
  exact ⟨hk, by rwa [wroteIn_tail hk]⟩

theorem wroteIn_rest_none {x : Target} (hn : name ∉ Entries.names rest)
    (h : ∀ k ks, wroteIn x ((name, next) :: rest) k ks = none) (k : String) (ks : List String) :
    wroteIn x rest k ks = none := by
  by_contra hne
  exact (wroteIn_rest hn next k ks hne).2 (h k ks)

/-- The first entry applied, and then the others. -/
theorem EntriesTurn.cons (hn : name ∉ Entries.names rest)
    (first : EntryTurns prev name next data data₁) (others : EntriesTurn prev rest data₁ data') :
    EntriesTurn prev ((name, next) :: rest) data data' where
  tag := by rw [others.tag, first.tag]
  untouched x hp hw := by
    rw [others.untouched x (fun k hk => hp k (List.mem_cons_of_mem _ hk)) (wroteIn_rest_none hn hw),
      first.untouched rest (hp name (by simp [Entries.names])) (hw name)]
  routed x k ks hk hp hw hr := by
    by_cases hname : name = k
    · subst hname
      have hrest : ∀ k ks, wroteIn x rest k ks = none := by
        intro k ks'
        by_contra hne
        obtain ⟨h1, h2⟩ := wroteIn_rest hn next k ks' hne
        exact h1 (hw k ks' h2).1.symm
      rw [others.untouched x (fun k hk ks' ht => hn ((hp k ks' ht).1 ▸ hk)) hrest]
      exact first.routed (fun ks' h => (hp name ks' h).2) (fun ks' h => (hw name ks' h).2) hr
    · have hk' : k ∈ Entries.names rest := by
        simpa [Entries.names, Ne.symm hname] using hk
      rw [wroteIn_tail hname]
      refine others.routed x k ks hk' hp (fun k' ks' h => ?_) ?_
      · exact hw k' ks' (wroteIn_rest hn _ k' ks' h).2
      · rw [first.untouched rest (fun ks' ht => hname (hp name ks' ht).1) fun ks' => ?_, hr]
        by_contra hne
        exact hname (hw name ks' hne).1

theorem EntriesSpoil.cons (hn : name ∉ Entries.names rest)
    (first : EntryTurns prev name next data data₁) (others : EntriesSpoil prev rest data₁ data') :
    EntriesSpoil prev ((name, next) :: rest) data data' where
  tag := by rw [others.tag, first.tag]
  untouched x hp hw := by
    rw [others.untouched x (fun k hk => hp k (List.mem_cons_of_mem _ hk)) (wroteIn_rest_none hn hw),
      first.untouched rest (hp name (by simp [Entries.names])) (hw name)]

theorem EntriesSpoil.head {c : Binding} (hc : Binding.ofEntryName? name = some c)
    (h : Spoils c (entryOf prev name) next data data') :
    EntriesSpoil prev ((name, next) :: rest) data data' where
  tag := h.tag
  untouched x hp hw := by
    refine h.untouched x (fun hnull ks ht => ?_) fun ks => ?_
    · exact hp name (by simp [Entries.names]) ks (touchesIn_of_entryOf hc hnull ht)
    · rw [← hw name ks, wroteIn_head hc]

end

namespace Live

theorem retractEntries_cons (node : NodeId) (kept : List String) (name : String) (old : Value)
    (rest : List (String × Value)) :
    retractEntries node kept ((name, old) :: rest) = (do
      (if kept.contains name then pure ()
        else
          match Binding.ofEntryName? name with
          | some c => retract node c old
          | none => pure ())
      retractEntries node kept rest) := by
  rw [retractEntries]
  cases kept.contains name
  · cases Binding.ofEntryName? name <;> rfl
  · rfl

theorem ofEntryName?_ne_markup {name : String} {c : Binding}
    (h : Binding.ofEntryName? name = some c) : c ≠ .markup := by
  rintro rfl
  simp [Binding.ofEntryName?, Option.filter_eq_some_iff] at h

/-- A value that is no mapping, or not spread, has itself to give way only. -/
theorem applySingle_turns (node : NodeId) {b : Binding} (hb : b ≠ .markup) {prev next : Value}
    (hp : b = .spread → prev.entries = []) (hn : b = .spread → next.entries = []) :
    Edits node (applySingle node b prev next)
      (fun data data' => Turns b prev next data data' ∧ Writable b next)
      (fun data data' => data' = data ∧ ¬Writable b next) := by
  have heq : applySingle node b prev next = writeDirect node b prev next := by
    cases b <;> first | rfl | contradiction
  rw [heq]
  by_cases hs : b = .spread
  · have hprev := hp hs
    have hnext := hn hs
    subst hs
    refine Edits.pure fun data => ⟨⟨rfl, fun _ _ _ => rfl, fun x keys _ _ hr => ?_⟩, ?_⟩
    · rw [hr]
      cases keys with
      | nil => simp [wrote, Binding.effect]
      | cons k ks => simp [wrote, hprev, hnext]
    · rw [writable_spread, hnext]
      trivial
  · simp only [writable_direct hs]
    exact writeDirect_turns node prev next hs

theorem applySingle_null_turns (node : NodeId) {b : Binding} (hb : b ≠ .markup) {v : Value}
    (hv : b = .spread → v.entries = []) :
    Edits node (applySingle node b v .null) (Turns b v .null) fun _ _ => False := by
  refine (applySingle_turns node hb hv fun _ => rfl).mono (fun _ _ h => h.1) fun _ _ h => h.2 ?_
  cases b <;> simp [Writable, Binding.Accepts, Value.isTruthy]

mutual
theorem retract_turns (node : NodeId) : (v : Value) → v.Built → (b : Binding) → b ≠ .markup →
    Edits node (retract node b v) (Turns b v .null) fun _ _ => False
  | .attributes handle entries, built, b, hb => by
      by_cases hs : b = .spread
      · subst hs
        have h := retractEntries_gone node entries built.1 built.2 []
        exact h.mono (fun _ _ (h : EntriesGone _ (Value.attributes handle entries).entries _ _) =>
          h.turns rfl) fun _ _ h => h
      · have heq : retract node b (.attributes handle entries) =
            applySingle node b (.attributes handle entries) .null := by
          cases b <;> first | rfl | contradiction
        rw [heq]
        exact applySingle_null_turns node hb fun h => absurd h hs
  | .null, _, _, hb => applySingle_null_turns node hb fun _ => rfl
  | .bool _, _, _, hb => applySingle_null_turns node hb fun _ => rfl
  | .number _, _, _, hb => applySingle_null_turns node hb fun _ => rfl
  | .text _, _, _, hb => applySingle_null_turns node hb fun _ => rfl
  | .template .., _, _, hb => applySingle_null_turns node hb fun _ => rfl
  | .list .., _, _, hb => applySingle_null_turns node hb fun _ => rfl
  | .callback _, _, _, hb => applySingle_null_turns node hb fun _ => rfl
  | .cell _, _, _, hb => applySingle_null_turns node hb fun _ => rfl
  | .payload _, _, _, hb => applySingle_null_turns node hb fun _ => rfl
termination_by structural v => v

theorem retractEntries_gone (node : NodeId) : (entries : List (String × Value)) →
    (Entries.names entries).Nodup → Value.BuiltEntries entries → (kept : List String) →
    Edits node (retractEntries node kept entries) (EntriesGone kept entries) fun _ _ => False
  | [], _, _, kept => Edits.pure fun _ =>
      ⟨rfl, fun _ _ => rfl, fun x k ks _ _ hr => by simpa [wroteIn, Entries.get?] using hr⟩
  | (name, old) :: rest, nodup, built, kept => by
      obtain ⟨hn, nodup⟩ := List.nodup_cons.1 nodup
      have others := retractEntries_gone node rest nodup built.2 kept
      have first : Edits node (if kept.contains name then pure ()
          else match Binding.ofEntryName? name with
            | some c => retract node c old
            | none => pure ())
          (fun a b => (∀ c, name ∉ kept → Binding.ofEntryName? name = some c →
              Turns c old .null a b) ∧
            (name ∈ kept ∨ Binding.ofEntryName? name = none → b = a)) fun _ _ => False := by
        split
        next hk =>
          have hk : name ∈ kept := by simpa using hk
          exact Edits.pure fun _ => ⟨fun _ h => absurd hk h, fun _ => rfl⟩
        next hk =>
          have hk : name ∉ kept := by simpa using hk
          split
          next c hc =>
            refine (retract_turns node old built.1 c (ofEntryName?_ne_markup hc)).mono
              (fun a b t => ⟨fun c' _ hc' => ?_, fun h => ?_⟩) fun _ _ h => h
            · obtain rfl : c = c' := Option.some.inj (hc.symm.trans hc')
              exact t
            · rcases h with h | h
              · exact absurd h hk
              · simp [hc] at h
          next hc =>
            exact Edits.pure fun _ => ⟨fun c _ h => by simp [hc] at h, fun _ => rfl⟩
      rw [retractEntries_cons]
      refine (first.andThen others).mono ?_ ?_
      · rintro a b ⟨a₁, ⟨hfirst, hstill⟩, hothers⟩
        exact EntriesGone.cons hn hfirst hstill hothers
      · rintro a b (h | ⟨_, _, h⟩) <;> exact h
termination_by structural es => es
end

theorem applyEntries_cons (node : NodeId) (prev : List (String × Value)) (name : String)
    (next : Value) (rest : List (String × Value)) :
    applyEntries node prev ((name, next) :: rest) = (do
      (if (entryOf prev name).same next then pure ()
        else
          match Binding.ofEntryName? name with
          | some c => apply node c (entryOf prev name) next
          | none => pure ())
      applyEntries node prev rest) := by
  rw [applyEntries]
  simp only [entryOf]
  by_cases hs : ((Entries.get? name prev).getD .null).same next = true
  · simp only [hs]
    rfl
  · simp only [hs]
    cases Binding.ofEntryName? name <;> rfl

theorem writable_of_same {c : Binding} {a b : Value} (h : a.same b = true)
    (w : Writable c a) : Writable c b := by
  rcases Value.same_cases h with rfl | ⟨m, n, rfl, rfl, hm, hn⟩
  · exact w
  · cases c <;> simp_all [Writable, Binding.Accepts, Value.isTruthy, Number.isTruthy]

/-- The whole of a spread: the entries that are there, and then those that are gone. -/
theorem spread_turns {prev : Value} {handle : Nat} {entries : List (String × Value)}
    {data data₁ data₂ : ElementData} (first : EntriesTurn prev.entries entries data data₁)
    (last : EntriesGone (Entries.names entries) prev.entries data₁ data₂) :
    Turns .spread prev (.attributes handle entries) data data₂ where
  tag := by rw [last.tag, first.tag]
  kept x hp hw := by
    have hp' : ∀ k ks, ¬TouchesIn x prev.entries k ks := fun k ks ht => hp (k :: ks) ⟨rfl, ht⟩
    rw [last.untouched x fun k ks _ => hp' k ks, first.untouched x (fun k _ => hp' k)]
    exact fun k ks => by simpa [wrote, wroteIn, Value.entries] using hw (k :: ks)
  routed x keys hp hw hr := by
    have hp' : ∀ k ks, TouchesIn x prev.entries k ks → k :: ks = keys := fun k ks ht =>
      hp (k :: ks) ⟨rfl, ht⟩
    have hw' : ∀ k ks, wroteIn x entries k ks ≠ none → k :: ks = keys := fun k ks h =>
      hw (k :: ks) (by simpa [wrote, wroteIn, Value.entries] using h)
    cases keys with
    | nil =>
      have hnone : ∀ k ks, wroteIn x entries k ks = none := fun k ks => by
        by_contra h
        simpa using hw' k ks h
      rw [last.untouched x fun k ks _ ht => by simpa using hp' k ks ht,
        first.untouched x (fun k _ ks ht => by simpa using hp' k ks ht) hnone, hr]
      simp [wrote, Binding.effect]
    | cons k ks =>
      simp only [List.cons.injEq] at hp' hw'
      have hr' : data.reading x = (wroteIn x prev.entries k ks).getD [] := by
        simpa [wrote, wroteIn] using hr
      have heq : wrote x .spread (.attributes handle entries) (k :: ks) = wroteIn x entries k ks := by
        simp [wrote, wroteIn, Value.entries]
      rw [heq]
      by_cases hk : k ∈ Entries.names entries
      · rw [last.untouched x fun k' ks' hk' ht => hk' ((hp' k' ks' ht).1 ▸ hk)]
        exact first.routed x k ks hk hp' hw' hr'
      · have hnone : ∀ k' ks', wroteIn x entries k' ks' = none := fun k' ks' => by
          by_contra h
          rw [(hw' k' ks' h).1, wroteIn_of_notMem hk] at h
          exact h rfl
        rw [hnone, Option.getD_none]
        refine last.routed x k ks hk hp' ?_
        rw [first.untouched x (fun k' hk' ks' ht => hk ((hp' k' ks' ht).1 ▸ hk')) hnone, hr']

theorem applySingle_apply (node : NodeId) {b : Binding} (hb : b ≠ .markup) {prev next : Value}
    (hp : b = .spread → prev.entries = []) (hn : b = .spread → next.entries = []) :
    Edits node (applySingle node b prev next)
      (fun data data' => Turns b prev next data data' ∧ Writable b next)
      (fun data data' => Spoils b prev next data data' ∧ ¬Writable b next) :=
  (applySingle_turns node hb hp hn).mono (fun _ _ h => h) fun _ _ ⟨h, hw⟩ =>
    ⟨⟨by rw [h], fun _ _ _ => by rw [h]⟩, hw⟩

/-- A value that is no mapping, applied where another was. -/
theorem apply_other (node : NodeId) {b : Binding} (hb : b ≠ .markup) {prev next : Value}
    (built : prev.Built) (other : ∀ handle entries, next ≠ .attributes handle entries) :
    Edits node (apply node b prev next)
      (fun data data' => Turns b prev next data data' ∧ Writable b next)
      (fun data data' => Spoils b prev next data data' ∧ ¬Writable b next) := by
  have hn : next.entries = [] := by cases next <;> first | rfl | exact absurd rfl (other _ _)
  by_cases hs : b = .spread
  · subst hs
    have heq : apply node .spread prev next = retractEntries node [] prev.entries := by
      cases next <;> first | rfl | exact absurd rfl (other _ _)
    obtain ⟨nodup, entries⟩ := built.entries
    rw [heq]
    refine (retractEntries_gone node prev.entries nodup entries []).mono
      (fun _ _ h => ⟨h.turns hn, ?_⟩) fun _ _ h => h.elim
    rw [writable_spread, hn]
    trivial
  · have heq : apply node b prev next = applySingle node b prev next := by
      cases next <;> first | exact absurd rfl (other _ _) | (cases b <;> first | rfl | contradiction)
    rw [heq]
    exact applySingle_apply node hb (fun h => absurd h hs) fun h => absurd h hs

mutual
/-- A value that is applied where another was takes its place, unless it cannot be
written. -/
theorem apply_turns (node : NodeId) : (next : Value) → next.Built → (b : Binding) →
    b ≠ .markup → (prev : Value) → prev.Built → Writable b prev →
    Edits node (apply node b prev next)
      (fun data data' => Turns b prev next data data' ∧ Writable b next)
      (fun data data' => Spoils b prev next data data' ∧ ¬Writable b next)
  | .attributes handle entries, built, b, hb, prev, builtPrev, writable => by
      by_cases hs : b = .spread
      · subst hs
        obtain ⟨nodupPrev, entriesPrev⟩ := builtPrev.entries
        have first := applyEntries_turns node entries built.1 built.2 prev.entries entriesPrev
          ((writable_spread prev).1 writable)
        have last := retractEntries_gone node prev.entries nodupPrev entriesPrev
          (Entries.names entries)
        refine (first.andThen last).mono ?_ ?_
        · rintro a b ⟨a₁, ⟨hfirst, hw⟩, hlast⟩
          exact ⟨spread_turns hfirst hlast, (writable_spread _).2 hw⟩
        · rintro a b (⟨h, hw⟩ | ⟨_, _, h⟩)
          · refine ⟨⟨h.tag, fun x hp hn => h.untouched x (fun k _ ks ht => ?_) fun k ks => ?_⟩,
              fun h => hw ((writable_spread _).1 h)⟩
            · refine hp ?_ (k :: ks) ⟨rfl, ht⟩
              rintro rfl
              obtain ⟨w, c, hg, -⟩ := ht
              simp [Value.entries, Entries.get?] at hg
            · simpa [wrote, wroteIn, Value.entries] using hn (k :: ks)
          · exact h.elim
      · have heq : apply node b prev (.attributes handle entries) =
            applySingle node b prev (.attributes handle entries) := by
          cases b <;> first | rfl | contradiction
        rw [heq]
        exact applySingle_apply node hb (fun h => absurd h hs) fun h => absurd h hs
  | .null, _, _, hb, prev, builtPrev, _ => apply_other node hb builtPrev (by simp)
  | .bool _, _, _, hb, prev, builtPrev, _ => apply_other node hb builtPrev (by simp)
  | .number _, _, _, hb, prev, builtPrev, _ => apply_other node hb builtPrev (by simp)
  | .text _, _, _, hb, prev, builtPrev, _ => apply_other node hb builtPrev (by simp)
  | .template .., _, _, hb, prev, builtPrev, _ => apply_other node hb builtPrev (by simp)
  | .list .., _, _, hb, prev, builtPrev, _ => apply_other node hb builtPrev (by simp)
  | .callback _, _, _, hb, prev, builtPrev, _ => apply_other node hb builtPrev (by simp)
  | .cell _, _, _, hb, prev, builtPrev, _ => apply_other node hb builtPrev (by simp)
  | .payload _, _, _, hb, prev, builtPrev, _ => apply_other node hb builtPrev (by simp)
termination_by structural v => v

theorem applyEntries_turns (node : NodeId) : (entries : List (String × Value)) →
    (Entries.names entries).Nodup → Value.BuiltEntries entries → (prev : List (String × Value)) →
    Value.BuiltEntries prev → WritableEntries prev →
    Edits node (applyEntries node prev entries)
      (fun data data' => EntriesTurn prev entries data data' ∧ WritableEntries entries)
      (fun data data' => EntriesSpoil prev entries data data' ∧ ¬WritableEntries entries)
  | [], _, _, prev, _, _ => Edits.pure fun _ =>
      ⟨⟨rfl, fun _ _ _ => rfl, fun x k ks hk => by simp [Entries.names] at hk⟩, trivial⟩
  | (name, next) :: rest, nodup, built, prev, builtPrev, writable => by
      obtain ⟨hn, nodup⟩ := List.nodup_cons.1 nodup
      have others := applyEntries_turns node rest nodup built.2 prev builtPrev writable
      have first : Edits node (if (entryOf prev name).same next then pure ()
          else match Binding.ofEntryName? name with
            | some c => apply node c (entryOf prev name) next
            | none => pure ())
          (fun a b => EntryTurns prev name next a b ∧
            ∀ c, Binding.ofEntryName? name = some c → Writable c next)
          (fun a b => EntriesSpoil prev ((name, next) :: rest) a b ∧
            ¬∀ c, Binding.ofEntryName? name = some c → Writable c next) := by
        split
        next hs =>
          refine Edits.pure fun _ => ⟨⟨fun c _ h => by simp [hs] at h, fun _ => rfl⟩, fun c hc => ?_⟩
          exact writable_of_same hs (writable.get? hc)
        next hs =>
          split
          next c hc =>
            have hinj : ∀ {c'}, Binding.ofEntryName? name = some c' → c = c' := fun hc' =>
              Option.some.inj (hc.symm.trans hc')
            have h := apply_turns node next built.1 c (ofEntryName?_ne_markup hc)
              (entryOf prev name) (builtPrev.get? name) (writable.get? hc)
            refine h.mono (fun a b ⟨t, hw⟩ => ⟨⟨fun c' hc' _ => hinj hc' ▸ t, fun h => ?_⟩,
              fun c' hc' => hinj hc' ▸ hw⟩) fun a b ⟨hsp, hw⟩ => ⟨.head hc hsp, fun h => hw (h c hc)⟩
            rcases h with h | h
            · simp [hc] at h
            · exact absurd h hs
          next hc =>
            exact Edits.pure fun _ => ⟨⟨fun c h => by simp [hc] at h, fun _ => rfl⟩,
              fun c h => by simp [hc] at h⟩
      rw [applyEntries_cons]
      refine (first.andThen others).mono ?_ ?_
      · rintro a b ⟨a₁, ⟨hfirst, hw⟩, hothers, hws⟩
        exact ⟨EntriesTurn.cons hn hfirst hothers, hw, hws⟩
      · rintro a b (⟨h, hw⟩ | ⟨a₁, ⟨hfirst, _⟩, hothers, hws⟩)
        · exact ⟨h, fun h => hw h.1⟩
        · exact ⟨EntriesSpoil.cons hn hfirst hothers, fun h => hws h.2⟩
termination_by structural es => es
end

end Live

end LiveTemplate
