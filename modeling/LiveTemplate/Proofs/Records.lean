import LiveTemplate.Proofs.Rendering

/-!
# What is recorded

A record is what is remembered of a value that was shown: the kind of content that it
has, and at each place of a table a value from which the one of the hole need not be told
apart. A render that succeeds leaves a record of its value. Nothing of this depends on
what the document looks like, so it holds for containers of any kind.
-/
namespace LiveTemplate
open Live

namespace Value
variable {a b c : Value}

theorem Alike.same_trans (h : a.Alike b) (h' : b.same c = true) : a.same c = true := by
  rcases h with rfl | h
  · exact h'
  · rcases same_cases h with rfl | ⟨m, n, rfl, rfl, hm, hn⟩
    · exact h'
    · rcases same_cases h' with rfl | ⟨-, k, -, rfl, -, hk⟩
      · exact h
      · simp [same, Number.same, hm, hk]

end Value

/-! ### What a step yields -/

namespace Live
variable {α β : Type} {P : α → Prop} {Q : β → Prop}

/-- What holds of the result of a step on whatever host, if it succeeds. -/
def Yields (m : HostM α) (P : α → Prop) : Prop := ∀ h a h', m h = .ok a h' → P a

namespace Yields

theorem of_true (m : HostM α) : Yields m fun _ => True := fun _ _ _ _ => trivial

theorem pure {a : α} (ha : P a) : Yields (Pure.pure a) P := by
  rintro h _ _ ⟨⟩
  exact ha

theorem bind {m : HostM α} {f : α → HostM β} (hm : Yields m P)
    (hf : ∀ a, P a → Yields (f a) Q) : Yields (m >>= f) Q := by
  intro h b h' hb
  simp only [Bind.bind, EStateM.bind] at hb
  cases ha : m h with
  | ok a h₁ =>
      rw [ha] at hb
      exact hf a (hm h a h₁ ha) h₁ b h' hb
  | error e h₁ => simp [ha] at hb

theorem mono {P' : α → Prop} {m : HostM α} (hm : Yields m P) (hP : ∀ a, P a → P' a) :
    Yields m P' :=
  fun h a h' ha => hP a (hm h a h' ha)

theorem next {m : HostM α} {f : α → HostM β} (hf : ∀ a, Yields (f a) Q) : Yields (m >>= f) Q :=
  (of_true m).bind fun a _ => hf a

end Yields

/-- What holds of the state behind a patch that succeeds. -/
def Patched.Yields (r : Patched α) (P : α → Prop) : Prop := r.failure = none → P r.state

namespace Patched.Yields

theorem mono {P' : α → Prop} {r : Patched α} (hr : r.Yields P) (hP : ∀ a, P a → P' a) :
    r.Yields P' :=
  fun hf => hP _ (hr hf)

theorem done {a : α} {h : Host} (ha : P a) : Patched.Yields ⟨a, h, none⟩ P := fun _ => ha

theorem map {r : Patched α} {f : α → β} (hr : r.Yields fun a => Q (f a)) : (r.map f).Yields Q := hr

theorem andThen {r : Patched α} {next : α → Host → Patched β} {kept : α → β} (hr : r.Yields P)
    (hnext : ∀ a h, P a → (next a h).Yields Q) : (r.andThen next kept).Yields Q := by
  intro hf
  cases h : r.failure with
  | none =>
      simp only [Patched.andThen, h] at hf ⊢
      exact hnext _ _ (hr h) hf
  | some e => simp [Patched.andThen, h] at hf

theorem attempt {m : HostM α} {done : α → β} {kept : β} {h : Host}
    (hm : Live.Yields m fun a => Q (done a)) : (Patched.attempt m done kept h).Yields Q := by
  intro hf
  cases hr : m h with
  | ok a h' =>
      simp only [Patched.attempt, EStateM.run, hr]
      exact hm h a h' hr
  | error e h' => simp [Patched.attempt, EStateM.run, hr] at hf

theorem toStep {patch : Host → Patched α} (hp : ∀ h, (patch h).Yields P) :
    Live.Yields (fun h => (patch h).toStep) P := by
  intro h a h' ha
  cases hf : (patch h).failure with
  | none =>
      simp only [Patched.toStep, hf, EStateM.Result.ok.injEq] at ha
      rw [← ha.1]
      exact hp h hf
  | some e => simp [Patched.toStep, hf] at ha

end Patched.Yields

end Live

/-! ### Where the places of a table are -/

/-- A place is of the kind of a seat with its index. -/
def Place.SeatedIn (seats : List (Nat × Seat)) (i : Nat) : Place → Prop
  | .vacant => True
  | .attribute _ b _ => ∃ attrs, (i, Seat.attribute b attrs) ∈ seats
  | .content .. => (i, Seat.content) ∈ seats

namespace Place.SeatedIn
variable {seats seats' : List (Nat × Seat)} {i : Nat} {p p' : Place}

theorem mono (h : p.SeatedIn seats i) (sub : seats ⊆ seats') : p.SeatedIn seats' i := by
  rcases p with _ | ⟨n, b, v⟩ | ⟨marker, item⟩
  · trivial
  · obtain ⟨attrs, hmem⟩ := h
    exact ⟨attrs, sub hmem⟩
  · exact sub h

theorem congr (h : p.SeatedIn seats i) (hp : p'.bare = p.bare) : p'.SeatedIn seats i := by
  rcases p with _ | ⟨n, b, v⟩ | ⟨marker, item⟩ <;>
    rcases p' with _ | ⟨n', b', v'⟩ | ⟨marker', item'⟩ <;> simp [Place.bare] at hp
  · trivial
  · obtain ⟨rfl, rfl⟩ := hp
    exact h
  · exact h

end Place.SeatedIn

/-- The places are new and of the kinds of these seats. -/
def BareIn (seats : List (Nat × Seat)) (bound : List (Nat × Place)) : Prop :=
  ∀ x ∈ bound, x.2.bare = x.2 ∧ x.2.SeatedIn seats x.1

theorem BareIn.append {seats seats' : List (Nat × Seat)} {bound bound' : List (Nat × Place)}
    (h : BareIn seats bound) (h' : BareIn seats' bound') :
    BareIn (seats ++ seats') (bound ++ bound') := by
  intro x hx
  cases List.mem_append.1 hx with
  | inl hx => exact ⟨(h x hx).1, (h x hx).2.mono (List.subset_append_left ..)⟩
  | inr hx => exact ⟨(h' x hx).1, (h' x hx).2.mono (List.subset_append_right ..)⟩

namespace Live
variable {fill : NodeId → String → HostM Unit}

theorem mountAttributes_yields (node : NodeId) (attrs : Attributes) {whole : Attributes}
    (sub : attrs ⊆ whole) :
    Yields (mountAttributes fill node attrs) (BareIn (attrSeats whole)) := by
  induction attrs with
  | nil => exact .pure (by simp [BareIn])
  | cons a rest ih =>
      obtain ⟨name, value⟩ := a
      have ih := ih fun x hx => sub (List.mem_cons_of_mem _ hx)
      unfold mountAttributes
      split
      · exact ih
      · exact .next fun _ => ih
      · exact .next fun _ => ih
      next b index hb =>
        refine ih.bind fun bound hbound => .pure ?_
        intro x hx
        cases List.mem_cons.1 hx with
        | inl hx =>
            subst hx
            exact ⟨rfl, whole, Stem.mem_attrSeats.2 ⟨b, ⟨name, sub (List.mem_cons_self ..), hb⟩, rfl⟩⟩
        | inr hx => exact hbound x hx

mutual
theorem mountNode_yields (fill : NodeId → String → HostM Unit) (parent : NodeId) :
    (n : Node) → Yields (mountNode fill parent n) fun r => BareIn n.seats r.2
  | .element tag attrs children => by
      unfold mountNode Node.seats
      refine .next fun node => .next fun _ => ?_
      refine (mountAttributes_yields node attrs (List.Subset.refl _)).bind fun bound hbound => ?_
      split
      · exact .pure (by simpa using hbound)
      · exact (mountNodes_yields fill node children).bind fun r hr => .pure (hbound.append hr)
  | .text data => by
      unfold mountNode
      exact .next fun node => .next fun _ => .pure (by simp [BareIn])
  | .hole index => by
      unfold mountNode
      refine .next fun node => .next fun _ => .pure ?_
      simp [BareIn, Place.bare, Place.SeatedIn, Node.seats]

theorem mountNodes_yields (fill : NodeId → String → HostM Unit) (parent : NodeId) :
    (ns : List Node) → Yields (mountNodes fill parent ns) fun r => BareIn (Node.seatsAll ns) r.2
  | [] => .pure (by simp [BareIn])
  | n :: rest => by
      unfold mountNodes Node.seatsAll
      refine (mountNode_yields fill parent n).bind fun r hr => ?_
      exact (mountNodes_yields fill parent rest).bind fun r' hr' => .pure (hr.append hr')
end

end Live

theorem Places.getElem?_put {index i : Nat} {place p : Place} {places : List Place}
    (h : (put index place places)[i]? = some p) :
    i = index ∧ p = place ∨ places[i]? = some p ∨ p = .vacant := by
  unfold put at h
  split at h
  · rw [List.getElem?_set] at h
    split at h
    next hi => exact .inl ⟨hi.symm, by simpa [eq_comm] using h⟩
    · exact .inr (.inl h)
  next hlen =>
    rcases Nat.lt_trichotomy i index with hi | rfl | hi
    · right
      rw [List.getElem?_append_left (by simp; omega)] at h
      by_cases hl : i < places.length
      · rw [List.getElem?_append_left hl] at h
        exact .inl h
      · rw [List.getElem?_append_right (by omega), List.getElem?_replicate] at h
        split at h
        · exact .inr (Option.some.inj h).symm
        · contradiction
    · left
      rw [List.getElem?_append_right (by simp; omega)] at h
      have : i - (places ++ List.replicate (i - places.length) Place.vacant).length = 0 := by
        simp
        omega
      rw [this] at h
      exact ⟨rfl, (Option.some.inj h).symm⟩
    · rw [List.getElem?_eq_none (by simp; omega)] at h
      contradiction

theorem Places.getElem?_ofBound {holes i : Nat} {bound : List (Nat × Place)} {p : Place}
    (h : (ofBound holes bound)[i]? = some p) : (i, p) ∈ bound ∨ p = .vacant := by
  have key : ∀ (bound : List (Nat × Place)) (places : List Place),
      (bound.foldl (fun places b => put b.1 b.2 places) places)[i]? = some p →
      (i, p) ∈ bound ∨ p = .vacant ∨ places[i]? = some p := by
    intro bound
    induction bound with
    | nil => exact fun places h => .inr (.inr h)
    | cons b rest ih =>
        intro places h
        rcases ih (put b.1 b.2 places) h with hmem | hvacant | hput
        · exact .inl (List.mem_cons_of_mem _ hmem)
        · exact .inr (.inl hvacant)
        · rcases getElem?_put hput with ⟨hi, hp⟩ | hplaces | hvacant
          · exact .inl (by simp [hi, hp])
          · exact .inr (.inr hplaces)
          · exact .inr (.inl hvacant)
  rcases key _ _ h with hmem | hvacant | hinitial
  · exact .inl hmem
  · exact .inr hvacant
  · rw [List.getElem?_replicate] at hinitial
    split at hinitial
    · exact .inr (Option.some.inj hinitial).symm
    · contradiction

/-- The table of a new skeleton has places of the right kinds, which show nothing. -/
theorem Live.mount_yields (skeleton : Skeleton) (parent : NodeId) :
    Yields (mount skeleton parent) fun r => ∀ (i : Nat) (p : Place), r.2[i]? = some p →
      p.bare = p ∧ p.SeatedIn (Node.seatsAll skeleton.nodes) i := by
  unfold mount
  refine (mountNodes_yields showMarkup parent skeleton.nodes).bind fun r hr => .pure ?_
  intro i p hp
  cases Places.getElem?_ofBound hp with
  | inl hmem => exact hr _ hmem
  | inr hvacant =>
      rw [hvacant]
      exact ⟨rfl, trivial⟩

/-! ### Records -/

/-- A content is a record of a value. The value that an item or a place shows is recorded
by its own content. -/
inductive Records : Content → Value → Prop
  | empty {v : Value} (blank : v.Blank) : Records .empty v
  | text {n : NodeId} {v : Value} (scalar : v.Scalar) : Records (.text n) v
  | nested {shared : SharedSkeleton} {start stop : NodeId} {places : List Place} {handle : Nat}
      {values : List Value}
      (seated : ∀ (i : Nat) (p : Place), places[i]? = some p →
        p.SeatedIn (Node.seatsAll shared.nodes) i)
      (same : Places.Match places values)
      (contents : ∀ marker item, Place.content marker item ∈ places →
        Records item.content item.shown) :
      Records (.nested shared start stop places) (.template handle shared values)
  | list {items : List Item} {handle : Nat} {values : List Value}
      (same : List.Forall₂ Value.Alike (items.map Item.shown) values)
      (contents : ∀ item ∈ items, Records item.content item.shown) :
      Records (.list items) (.list handle values)

/-- The content of an item is a record of what it shows. -/
def Item.Recorded (item : Item) : Prop := Records item.content item.shown

/-- The content of a place, if it has one, is a record of what it shows. -/
def Place.Recorded (p : Place) : Prop := ∀ marker item, p = .content marker item → item.Recorded

theorem Item.recorded_absent : Item.absent.Recorded := .empty trivial

/-- A table is a record of the values of a skeleton. -/
structure TableRecords (shared : SharedSkeleton) (places : List Place) (values : List Value) :
    Prop where
  seated : ∀ (i : Nat) (p : Place), places[i]? = some p →
    p.SeatedIn (Node.seatsAll shared.nodes) i
  same : Places.Match places values
  recorded : ∀ p ∈ places, p.Recorded

/-- A new table is a record of no values. -/
theorem TableRecords.of_bare {shared : SharedSkeleton} {places : List Place}
    (bare : ∀ (i : Nat) (p : Place), places[i]? = some p →
      p.bare = p ∧ p.SeatedIn (Node.seatsAll shared.nodes) i) :
    TableRecords shared places [] where
  seated i p hp := (bare i p hp).2
  same i p hp v hv := by
    rw [← (bare i p hp).1] at hv
    rcases p with _ | ⟨n, b, w⟩ | ⟨marker, item⟩ <;>
      simp [Place.bare, Place.shown?, Item.absent, Item.shown] at hv
    · exact .inl hv.symm
    · exact .inl hv.symm
  recorded := by
    rintro p hmem marker item rfl
    obtain ⟨i, hi, hget⟩ := List.getElem_of_mem hmem
    have hbare := (bare i _ (hget ▸ List.getElem?_eq_getElem hi)).1
    simp only [Place.bare, Place.content.injEq, true_and] at hbare
    rw [← hbare]
    exact Item.recorded_absent

theorem Records.of_table {shared : SharedSkeleton} {places : List Place} {values : List Value}
    (t : TableRecords shared places values) (start stop : NodeId) (handle : Nat) :
    Records (.nested shared start stop places) (.template handle shared values) :=
  .nested t.seated t.same fun marker item hmem => t.recorded _ hmem marker item rfl

theorem Records.table {shared : SharedSkeleton} {start stop : NodeId} {places : List Place}
    {v : Value} (r : Records (.nested shared start stop places) v) :
    ∃ handle values, v = .template handle shared values ∧ TableRecords shared places values := by
  cases r with
  | nested seated same contents =>
      refine ⟨_, _, rfl, seated, same, ?_⟩
      rintro _ hmem marker item rfl
      exact contents marker item hmem

theorem Records.template {c : Content} {shared : SharedSkeleton} {handle : Nat}
    {values : List Value} (r : Records c (.template handle shared values)) :
    ∃ start stop places, c = .nested shared start stop places ∧
      TableRecords shared places values := by
  cases c with
  | empty =>
      cases r with
      | empty blank => exact blank.elim
  | text n =>
      cases r with
      | text scalar => exact scalar.elim
  | list items => cases r
  | nested shared' start stop places =>
      obtain ⟨_, _, heq, table⟩ := r.table
      obtain ⟨-, rfl, rfl⟩ := Value.template.inj heq
      exact ⟨start, stop, places, rfl, table⟩

theorem Records.items {c : Content} {handle : Nat} {values : List Value}
    (r : Records c (.list handle values)) :
    ∃ items, c = .list items ∧ List.Forall₂ Value.Alike (items.map Item.shown) values ∧
      ∀ item ∈ items, item.Recorded := by
  cases r with
  | empty blank => exact blank.elim
  | text scalar => exact scalar.elim
  | list same contents => exact ⟨_, rfl, same, contents⟩

/-! ### What patching yields -/

/-- The item shows the value, or one that need not be told apart. -/
def Item.Turned (next : Value) (item : Item) : Prop := item.shown.Alike next ∧ item.Recorded

/-- A place of the same kind that shows the value. -/
def Place.Turned (p : Place) (next : Value) (p' : Place) : Prop :=
  p'.bare = p.bare ∧ (∀ v, p'.shown? = some v → v.Alike next) ∧ p'.Recorded

theorem Place.turned_vacant (next : Value) : Place.vacant.Turned next .vacant :=
  ⟨rfl, by simp [Place.shown?], by simp [Place.Recorded]⟩

theorem Place.turned_attribute {n : NodeId} {b : Binding} {v w next : Value}
    (h : w.Alike next) : (Place.attribute n b v).Turned next (.attribute n b w) := by
  refine ⟨rfl, ?_, by simp [Place.Recorded]⟩
  rintro _ ⟨⟩
  exact h

theorem Place.turned_content {marker : NodeId} {item item' : Item} {next : Value}
    (h : item'.Turned next) : (Place.content marker item).Turned next (.content marker item') := by
  refine ⟨rfl, ?_, ?_⟩
  · rintro _ ⟨⟩
    exact h.1
  · rintro _ _ ⟨⟩
    exact h.2

/-- The items show the values, in order. -/
def ItemsTurned (values : List Value) (items : List Item) : Prop :=
  List.Forall₂ (fun v item => Item.Turned v item) values items

theorem ItemsTurned.records {values : List Value} {items : List Item}
    (t : ItemsTurned values items) (handle : Nat) :
    Records (.list items) (.list handle values) := by
  refine .list ?_ ?_
  · induction t with
    | nil => exact .nil
    | cons head _ ih => exact .cons head.1 ih
  · induction t with
    | nil => simp
    | cons head _ ih =>
        intro item hmem
        cases List.mem_cons.1 hmem with
        | inl h => exact h ▸ head.2
        | inr h => exact ih item h

namespace Live
variable {h : Host} {next : Value}

/-- A record of some value becomes one of the next value. -/
def Recording (patch : Content → Host → Patched Content) (next : Value) : Prop :=
  ∀ (c : Content) (h : Host), (∃ v, Records c v) → (patch c h).Yields fun c' => Records c' next

theorem updateItem_yields {patch : Content → Host → Patched Content}
    (hp : Recording patch next) {item : Item} (r : item.Recorded) :
    (updateItem patch item next h).Yields (Item.Turned next) := by
  unfold updateItem
  split
  next same => exact .done ⟨.inr same, r⟩
  · exact (hp item.content h ⟨_, r⟩).andThen fun c' h' hc' => .done ⟨.inl rfl, hc'⟩

theorem updatePlace_yields {patch : NodeId → Content → Host → Patched Content}
    (hp : ∀ marker, Recording (patch marker) next) {p : Place} (r : p.Recorded) :
    (updatePlace patch p next h).Yields (Place.Turned p next) := by
  rcases p with _ | ⟨n, b, v⟩ | ⟨marker, item⟩
  · exact .done (Place.turned_vacant next)
  · simp only [updatePlace]
    split
    next same => exact .done (Place.turned_attribute (.inr same))
    · exact .attempt ((Yields.of_true _).mono fun _ _ => Place.turned_attribute (.inl rfl))
  · refine .map ((updateItem_yields (hp marker) (r marker item rfl)).mono fun item' ht => ?_)
    exact Place.turned_content ht

theorem withdraw_yields {p : Place} (r : p.Recorded) :
    (withdraw p h).Yields (Place.Turned p .null) := by
  rcases p with _ | ⟨n, b, v⟩ | ⟨marker, ⟨v, c⟩⟩
  · exact .done (Place.turned_vacant .null)
  · simp only [withdraw]
    split
    next same => exact .done (Place.turned_attribute (.inr same))
    · exact .attempt ((Yields.of_true _).mono fun _ _ => Place.turned_attribute (.inl rfl))
  · simp only [withdraw]
    split
    next same => exact .done (Place.turned_content ⟨.inr same, r marker _ rfl⟩)
    · refine .attempt ((Yields.of_true _).mono fun _ _ => Place.turned_content ?_)
      exact ⟨.inl rfl, Item.recorded_absent⟩

/-- What a table becomes that is patched with values. -/
def PlacesTurned (places : List Place) (values : List Value) (places' : List Place) : Prop :=
  ∀ (i : Nat) (p' : Place), places'[i]? = some p' →
    ∃ p, places[i]? = some p ∧ p.Turned (Markup.valueAt values i) p'

theorem PlacesTurned.cons {p p' : Place} {places places' : List Place} {values : List Value}
    (head : p.Turned (Markup.valueAt values 0) p') (tail : PlacesTurned places values.tail places') :
    PlacesTurned (p :: places) values (p' :: places') := by
  intro i q hq
  cases i with
  | zero =>
      obtain rfl := Option.some.inj hq
      exact ⟨p, rfl, head⟩
  | succ i =>
      obtain ⟨p₀, hp₀, ht⟩ := tail i q hq
      cases values <;> exact ⟨p₀, hp₀, ht⟩

theorem PlacesTurned.table {shared : SharedSkeleton} {places places' : List Place}
    {values values' : List Value} (t : PlacesTurned places values' places')
    (r : TableRecords shared places values) : TableRecords shared places' values' where
  seated i p' hp' := by
    obtain ⟨p, hp, hbare, -⟩ := t i p' hp'
    exact (r.seated i p hp).congr hbare
  same i p' hp' v hv := by
    obtain ⟨p, -, -, hs, -⟩ := t i p' hp'
    exact hs v hv
  recorded p' hp' := by
    obtain ⟨i, hi, rfl⟩ := List.getElem_of_mem hp'
    obtain ⟨p, -, -, -, hr⟩ := t i _ (List.getElem?_eq_getElem hi)
    exact hr

theorem withdrawAll_yields {places : List Place} (r : ∀ p ∈ places, p.Recorded) :
    (withdrawAll places h).Yields (PlacesTurned places []) := by
  induction places generalizing h with
  | nil => exact .done fun i p' hp' => by simp at hp'
  | cons p rest ih =>
      rw [List.forall_mem_cons] at r
      refine (withdraw_yields r.1).andThen fun p' h' hp' => .map ?_
      exact (ih r.2).mono fun places' ht => .cons hp' ht

theorem patchText_yields {text : String} {anchor : NodeId} {c : Content} (scalar : next.Scalar) :
    (patchText anchor c text h).Yields fun c' => Records c' next := by
  unfold patchText
  split
  · exact .attempt ((Yields.of_true _).mono fun _ _ => .text scalar)
  · exact .attempt ((Yields.of_true _).mono fun _ _ => .text scalar)

theorem clear_yields {c : Content} (blank : next.Blank) :
    (Patched.attempt (clear c) (fun _ => Content.empty) .empty h).Yields fun c' => Records c' next :=
  .attempt ((Yields.of_true _).mono fun _ _ => .empty blank)

section
variable {shared : SharedSkeleton} {values : List Value} {anchor : NodeId} {handle : Nat}
  {patch : List Place → Host → Patched (List Place)}

/-- A new content is a record, as its table was patched with the values. -/
theorem instantiate_yields
    (hp : ∀ places h, (∀ p ∈ places, p.Recorded) →
      (patch places h).Yields (PlacesTurned places values)) :
    Yields (instantiate shared patch anchor) fun c =>
      Records c (.template handle shared values) := by
  unfold instantiate
  refine .next fun start => .next fun stop => .next fun fragment => ?_
  refine (mount_yields shared.skeleton fragment).bind fun r hr => ?_
  have table : TableRecords shared r.2 [] := .of_bare hr
  refine Yields.bind (Patched.Yields.toStep fun h => hp r.2 h table.recorded) fun places ht => ?_
  refine .next fun _ => .next fun _ => .next fun _ => .pure ?_
  exact .of_table (ht.table table) start stop handle

theorem patchTemplate_yields
    (hp : ∀ places h, (∀ p ∈ places, p.Recorded) →
      (patch places h).Yields (PlacesTurned places values)) :
    Recording (patchTemplate anchor shared patch) (.template handle shared values) := by
  rintro c h ⟨v, r⟩
  have replace : (Patched.attempt (do clear c; instantiate shared patch anchor) id Content.empty h).Yields
      fun c' => Records c' (.template handle shared values) :=
    .attempt (.next fun _ => instantiate_yields hp)
  unfold patchTemplate
  split
  next shared' start stop places =>
    split
    next hs =>
      obtain ⟨handle', values', -, table⟩ := r.table
      subst hs
      refine .map ((hp places h table.recorded).mono fun places' ht => ?_)
      exact .of_table (ht.table table) start stop handle
    · exact replace
  · exact replace

end

section
variable {patch : List Item → Host → Patched (List Item)} {values : List Value} {handle : Nat}

theorem patchList_yields
    (hp : ∀ items h, (∀ item ∈ items, item.Recorded) →
      (patch items h).Yields (ItemsTurned values)) :
    Recording (patchList patch) (.list handle values) := by
  rintro c h ⟨v, r⟩
  have taken : (takeItems c h).Yields fun c' =>
      ∃ items, c' = .list items ∧ ∀ item ∈ items, item.Recorded := by
    unfold takeItems
    split
    next items =>
      cases r with
      | list same contents => exact .done ⟨items, rfl, contents⟩
    · exact .attempt ((Yields.of_true _).mono fun _ _ => ⟨[], rfl, by simp⟩)
  unfold patchList
  refine taken.andThen fun c' h' hc' => ?_
  obtain ⟨items, rfl, hitems⟩ := hc'
  exact .map ((hp items h' hitems).mono fun items' ht => ht.records handle)

end

theorem clearItems_yields {old : List Item} :
    (Patched.attempt (clearItems old) (fun _ => []) [] h).Yields (ItemsTurned []) :=
  .attempt ((Yields.of_true _).mono fun _ _ => .nil)

mutual
/-- A content patched with a value is a record of it. -/
theorem patchContent_yields : (v : Value) → (anchor : NodeId) →
    Recording (fun c h => patchContent anchor c v h) v
  | .null, _ => fun _ _ _ => clear_yields trivial
  | .attributes .., _ => fun _ _ _ => clear_yields trivial
  | .callback _, _ => fun _ _ _ => clear_yields trivial
  | .cell _, _ => fun _ _ _ => clear_yields trivial
  | .payload _, _ => fun _ _ _ => clear_yields trivial
  | .bool _, _ => fun _ _ _ => patchText_yields trivial
  | .number _, _ => fun _ _ _ => patchText_yields trivial
  | .text _, _ => fun _ _ _ => patchText_yields trivial
  | .template _ shared values, anchor =>
      patchTemplate_yields fun places h r => patchPlaces_yields values places h r
  | .list _ items, anchor => by
      intro c h r
      simp only [patchContent]
      split
      · exact patchList_yields (fun old h r => patchKeyed_yields items _ _ anchor old h r) c h r
      · exact patchList_yields (fun old h r => patchItems_yields items anchor old h r) c h r
termination_by structural v => v

theorem patchItems_yields : (vs : List Value) → (anchor : NodeId) → (old : List Item) →
    (h : Host) → (∀ item ∈ old, item.Recorded) →
    (patchItems anchor old vs h).Yields (ItemsTurned vs)
  | [], _, _, _, _ => clearItems_yields
  | next :: vs, anchor, [], h, r => by
      refine (updateItem_yields (patchContent_yields next anchor)
        Item.recorded_absent).andThen fun item h' ht => .map ?_
      exact (patchItems_yields vs anchor [] h' r).mono fun items hts => .cons ht hts
  | next :: vs, anchor, item :: rest, h, r => by
      rw [List.forall_mem_cons] at r
      refine (updateItem_yields (patchContent_yields next _) r.1).andThen fun item h' ht => .map ?_
      exact (patchItems_yields vs anchor rest h' r.2).mono fun items hts => .cons ht hts
termination_by structural vs => vs

theorem patchKeyed_yields : (vs : List Value) → (prevKeys nextKeys : List Value) →
    (anchor : NodeId) → (old : List Item) → (h : Host) → (∀ item ∈ old, item.Recorded) →
    (patchKeyed anchor prevKeys nextKeys old vs h).Yields (ItemsTurned vs)
  | [], _, _, _, _, _, _ => clearItems_yields
  | next :: vs, prevKeys, nextKeys, anchor, old, h, r => by
      have split := keyedStep_split (isStale nextKeys) (isFresh prevKeys next) old
      simp only [patchKeyed]
      generalize keyedStep (isStale nextKeys) (isFresh prevKeys next) old = step at split
      have reused : (step.reused.getD .absent).Recorded := by
        cases hs : step.reused with
        | none => exact Item.recorded_absent
        | some item => exact r item (by rw [← split]; simp [hs])
      have rest : ∀ item ∈ step.rest, item.Recorded := fun item hmem =>
        r item (by rw [← split]; simp [hmem])
      refine Patched.Yields.andThen (P := fun _ => True)
        (.attempt ((Yields.of_true _).mono fun _ _ => trivial)) fun _ h' _ => ?_
      refine (updateItem_yields (patchContent_yields next _) reused).andThen
        fun item h'' ht => .map ?_
      exact (patchKeyed_yields vs prevKeys nextKeys anchor step.rest h'' rest).mono
        fun items hts => .cons ht hts
termination_by structural vs => vs

theorem patchPlaces_yields : (vs : List Value) → (places : List Place) → (h : Host) →
    (∀ p ∈ places, p.Recorded) → (patchPlaces places vs h).Yields (PlacesTurned places vs)
  | [], _, _, r => withdrawAll_yields r
  | next :: vs, [], h, _ => .done fun i p' hp' => by simp at hp'
  | next :: vs, p :: rest, h, r => by
      rw [List.forall_mem_cons] at r
      refine (updatePlace_yields (fun marker => patchContent_yields next marker) r.1).andThen
        fun p' h' ht => .map ?_
      exact (patchPlaces_yields vs rest h' r.2).mono fun places' hts => .cons ht hts
termination_by structural vs => vs
end

end Live

/-! ### What rendering yields -/

/-- What is mounted is a record of these values. -/
def Mounted.Records (m : Mounted) (values : List Value) : Prop :=
  TableRecords m.shared m.places values

namespace Renderer
open Patched
variable {r : Renderer} {container : NodeId} {v : Value} {h : Host}

/-- All that is mounted elsewhere stays as it is. -/
def KeepsOthers (container : NodeId) (r r' : Renderer) : Prop :=
  ∀ q, q ≠ container → r'.mounted? q = r.mounted? q

/-- What is mounted in the container, if anything, has the skeleton and is a record. -/
def Roomy (shared : SharedSkeleton) (container : NodeId) (r : Renderer) : Prop :=
  ∀ m, r.mounted? container = some m → m.shared = shared ∧ ∃ values, m.Records values

theorem unmount_yields : (r.unmount container h).Yields fun r' =>
    r'.1.mounted? container = none ∧ KeepsOthers container r r'.1 := by
  unfold unmount
  split
  next hm => exact .done ⟨hm, fun _ _ => rfl⟩
  · exact .attempt ((Yields.of_true _).mono fun _ _ =>
      ⟨mounted?_forget, fun q hq => mounted?_forget_of_ne hq r⟩)

theorem makeRoom_yields {shared : SharedSkeleton}
    (recorded : ∀ m, r.mounted? container = some m → ∃ values, m.Records values) :
    (r.makeRoom shared container h).Yields fun r' =>
      Roomy shared container r' ∧ KeepsOthers container r r' := by
  unfold makeRoom
  split
  next hm => exact .done ⟨fun m hm' => by simp [hm] at hm', fun _ _ => rfl⟩
  next m hm =>
    split
    next hs =>
      refine .done ⟨fun m' hm' => ?_, fun _ _ => rfl⟩
      obtain rfl := Option.some.inj (hm.symm.trans hm')
      exact ⟨hs, recorded m hm⟩
    · refine .map (unmount_yields.mono fun r' hr' => ⟨fun m' hm' => ?_, hr'.2⟩)
      simp [hr'.1] at hm'

theorem settle_yields {shared : SharedSkeleton} (roomy : Roomy shared container r) :
    (r.settle shared container h).Yields fun r' =>
      (∃ m values, r'.mounted? container = some m ∧ m.shared = shared ∧ m.Records values) ∧
        KeepsOthers container r r' := by
  unfold settle
  split
  next m hm =>
    obtain ⟨hs, values, hr⟩ := roomy m hm
    exact .done ⟨⟨m, values, hm, hs, hr⟩, fun _ _ => rfl⟩
  · refine .attempt ((mount_yields shared.skeleton container).mono fun t ht => ?_)
    refine ⟨⟨_, [], mounted?_put _, rfl, ?_⟩, fun q hq => mounted?_put_of_ne hq r⟩
    exact .of_bare ht

/-- A render that succeeds leaves a record of its value. -/
theorem render_yields
    (recorded : ∀ m, r.mounted? container = some m → ∃ values, m.Records values) :
    (r.render v container h).Yields fun r' =>
      (∃ m, r'.mounted? container = some m ∧ m.shared = v.parts.1 ∧ m.Records v.parts.2) ∧
        KeepsOthers container r r' := by
  rw [render_eq]
  refine (makeRoom_yields recorded).andThen fun r₁ h₁ hr₁ => ?_
  refine (settle_yields hr₁.1).andThen fun r₂ h₂ hr₂ => ?_
  obtain ⟨⟨m, values, hm, hs, hrec⟩, others⟩ := hr₂
  rw [patchMounted, hm]
  refine .map ((patchPlaces_yields v.parts.2 m.places h₂ hrec.recorded).mono fun places ht => ?_)
  refine ⟨⟨_, mounted?_put _, hs, ht.table hrec⟩, fun q hq => ?_⟩
  rw [mounted?_put_of_ne hq, others q hq, hr₁.2 q hq]

end Renderer

end LiveTemplate
