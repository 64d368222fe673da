import LiveTemplate.Proofs.Holding
import LiveTemplate.Proofs.Outputs

/-!
# Elements of values and of documents

The elements with holes that a value shows can be read off the value, and those that a
faithful content has put into the document off the content. Each corresponds to one of
the other kind that has the same attributes, and whose holes show values that need not be
told apart. So the same routes are taken to both. A node is one element only.
-/
namespace LiveTemplate
open Document Subtree Live

mutual
/-- An element with a hole among its attributes, with the values of the holes of its
template. -/
inductive PartsHold (attrs : Attributes) (shown : Nat → Value) :
    SharedSkeleton → List Value → Prop
  | here {shared : SharedSkeleton} {values : List Value} {i : Nat} {b : Binding}
      (seat : (i, Seat.attribute b attrs) ∈ Node.seatsAll shared.nodes)
      (shows : shown = Markup.valueAt values) : PartsHold attrs shown shared values
  | inside {shared : SharedSkeleton} {values : List Value} {i : Nat}
      (seat : (i, Seat.content) ∈ Node.seatsAll shared.nodes)
      (holds : ValueHolds attrs shown (Markup.valueAt values i)) :
      PartsHold attrs shown shared values

inductive ValueHolds (attrs : Attributes) (shown : Nat → Value) : Value → Prop
  | template {handle : Nat} {shared : SharedSkeleton} {values : List Value}
      (holds : PartsHold attrs shown shared values) :
      ValueHolds attrs shown (.template handle shared values)
  | item {handle : Nat} {items : List Value} {v : Value} (mem : v ∈ items)
      (holds : ValueHolds attrs shown v) : ValueHolds attrs shown (.list handle items)
end

/-- The holes of an element show values that need not be told apart. -/
def AlikeAt (attrs : Attributes) (shown shown' : Nat → Value) : Prop :=
  ∀ i b, BoundTo attrs i b → (shown i).Alike (shown' i)

variable {attrs attrs' : Attributes} {shown shown' : Nat → Value} {x : Target} {r : Route}

theorem Value.Alike.symm {a b : Value} (h : a.Alike b) : b.Alike a :=
  h.imp Eq.symm fun h => by rwa [Value.same_comm]

theorem Value.Alike.holds {a b : Value} (h : a.Alike b) (ha : ValueHolds attrs shown a) :
    ValueHolds attrs shown b := by
  rcases h.cases with rfl | ⟨m, n, rfl, rfl, -, -⟩
  · exact ha
  · cases ha

theorem AlikeAt.writes (h : AlikeAt attrs shown shown') (w : Writes attrs shown x r) :
    Writes attrs shown' x r := by
  cases w with
  | literal mem bound writes beside => exact .literal mem bound writes beside
  | hole bound writes => exact .hole bound ((h _ _ bound).wrote x _ _ ▸ writes)

theorem Value.Alike.touches {a b : Value} (h : a.Alike b) (x : Target) (c : Binding)
    (ks : List String) : Touches x c a ks ↔ Touches x c b ks := by
  rcases h.cases with rfl | ⟨m, n, rfl, rfl, -, -⟩
  · rfl
  · cases ks <;> cases c <;> simp [Touches, Binding.drops, Value.entries, Entries.get?]

theorem AlikeAt.claims (h : AlikeAt attrs shown shown') (c : Claims attrs shown x r) :
    Claims attrs shown' x r := by
  cases c with
  | writes writes => exact .writes (h.writes writes)
  | clears bound ne_null touches =>
    exact .clears bound (mt (h _ _ bound).null_iff.2 ne_null) (((h _ _ bound).touches _ _ _).1 touches)

/-- Without literals, every route leads through a hole. -/
theorem Claims.throughHole (none : ∀ a ∈ attrs, ∀ text, a.2 ≠ .literal text)
    (c : Claims attrs shown x r) :
    ∃ i b keys, r = .hole i keys ∧ BoundTo attrs i b ∧ Touches x b (shown i) keys := by
  cases c with
  | writes writes =>
    cases writes with
    | literal mem => exact absurd rfl (none _ mem _)
    | hole bound writes => exact ⟨_, _, _, rfl, bound, touches_of_wrote writes⟩
  | clears bound _ touches => exact ⟨_, _, _, rfl, bound, touches⟩

/-! ### What holds of every element of a value -/

section
variable {P : Attributes → (Nat → Value) → Prop} {Q : String → Prop}

namespace Node
variable {p : Attributes → Prop} {C : Nat → Prop} {i : Nat} {s : Seat}

mutual
theorem Every.seat : (n : Node) → n.Every p Q C → (i, s) ∈ n.seats →
    match s with
    | .attribute _ attrs => p attrs
    | .content => C i
  | .element tag attrs children, every, h => by
      rcases List.mem_append.1 h with h | h
      · obtain ⟨b, -, rfl⟩ := Stem.mem_attrSeats.1 h
        exact every.1
      · split at h
        · simp at h
        · exact EveryAll.seat children every.2 h
  | .text _, _, h => by simp [seats] at h
  | .hole index, every, h => by
      obtain ⟨rfl, rfl⟩ := Prod.mk.inj (List.mem_singleton.1 h)
      exact every
termination_by structural n => n

/-- What holds of every element and content holds where a hole stands. -/
theorem EveryAll.seat : (ns : List Node) → EveryAll p Q C ns → (i, s) ∈ seatsAll ns →
    match s with
    | .attribute _ attrs => p attrs
    | .content => C i
  | [], _, h => by simp [seatsAll] at h
  | n :: rest, every, h => by
      rcases List.mem_append.1 h with h | h
      · exact Every.seat n every.1 h
      · exact EveryAll.seat rest every.2 h
termination_by structural ns => ns
end

end Node

theorem every_of_mem {items : List Value} (every : Value.EveryAll P Q items) {v : Value}
    (hv : v ∈ items) : v.Every P Q := by
  induction items with
  | nil => simp at hv
  | cons w rest ih =>
    rcases List.mem_cons.1 hv with rfl | hv
    · exact every.1
    · exact ih every.2 hv

mutual
theorem PartsHold.every : {shared : SharedSkeleton} → {values : List Value} →
    PartsHold attrs shown shared values → Value.BuiltAll values →
    Node.EveryAll (fun attrs => P attrs (Markup.valueAt values)) Q (Value.EveryAt P Q values)
      shared.nodes → P attrs shown ∧ ∀ i, (shown i).Built
  | _, _, .here seat shows, built, every => by
      rw [shows]
      exact ⟨Node.EveryAll.seat _ every seat, built_valueAt built⟩
  | _, values, .inside (i := i) seat holds, built, every =>
      holds.every (built_valueAt built i)
        ((Value.everyAt_iff values i).1 (Node.EveryAll.seat _ every seat))

/-- What holds of every element of a value holds of one with a hole. -/
theorem ValueHolds.every : {v : Value} → ValueHolds attrs shown v → v.Built → v.Every P Q →
    P attrs shown ∧ ∀ i, (shown i).Built
  | _, .template holds, built, every => holds.every built.2.2 every
  | _, .item mem holds, built, every =>
      holds.every (Value.builtAll_iff.1 built _ mem) (every_of_mem every mem)
end

/-- The parts of a value hold the elements that the value holds. -/
theorem PartsHold.valueHolds {v : Value} (h : PartsHold attrs shown v.parts.1 v.parts.2) :
    ValueHolds attrs shown v := by
  have bare : PartsHold attrs shown .bare [v] → ValueHolds attrs shown v := by
    intro h
    cases h with
    | here seat shows => simp [SharedSkeleton.bare, SharedSkeleton.nodes, Node.seatsAll, Node.seats] at seat
    | @inside _ _ i seat holds =>
      obtain rfl : i = 0 := by
        simpa [SharedSkeleton.bare, SharedSkeleton.nodes, Node.seatsAll, Node.seats] using seat
      exact holds
  cases v <;> first | exact .template h | exact bare h

end

/-! ### Routes to an element -/

/-- One route at most is taken to each target that is looked at, at every element. -/
def WrittenOnce (looked : Target → Bool) (shared : SharedSkeleton) (values : List Value) : Prop :=
  ∀ attrs shown, PartsHold attrs shown shared values → ∀ x, looked x = true →
    ∀ r r', Writes attrs shown x r → Writes attrs shown x r' → r = r'

variable {ω : Watch} {faithful : Prop} {clean : Nat → Prop} {kept : NodeId → Target → Prop}
  {shared : SharedSkeleton} {ss : List Stem} {data : NodeId → ElementData}
  {fill : NodeId → List Subtree} {places : List Place} {values : List Value} {n : NodeId}

namespace Seated

/-! ### From values to contents -/

/-- An element of the skeleton, or of what one of its contents shows, is an element of
the document. -/
theorem exists_mounts (s : Seated shared ss places) (same : Places.Match places values)
    (contents : ∀ (i : Nat) (marker : NodeId) (item : Item),
      places[i]? = some (.content marker item) → ValueHolds attrs shown item.shown →
      ∃ n shown', Mounts n attrs shown' item.content ∧ AlikeAt attrs shown' shown)
    (h : PartsHold attrs shown shared values) :
    ∃ n shown', TableMounts n attrs shown' shared places ∧ AlikeAt attrs shown' shown := by
  have seats := fun {i t} => Stem.mem_seatsAll (i := i) ss s.proper (t := t)
  rw [s.nodes] at seats
  cases h with
  | here seat shows =>
    subst shows
    rcases seats.1 seat with ⟨e, he, b, hb, heq⟩ | ⟨m, -, -, heq⟩
    · simp only [Seat.attribute.injEq] at heq
      obtain ⟨-, rfl⟩ := heq
      exact ⟨e.1, _, s.mounts he hb, fun i b hb => s.alike same he hb⟩
    · simp at heq
  | inside seat holds =>
    rcases seats.1 seat with ⟨e, -, b, -, heq⟩ | ⟨m, hm, rfl, -⟩
    · simp at heq
    · obtain ⟨item, hi⟩ := s.place_of_marker hm
      have alike : item.shown.Alike _ := same _ _ hi _ rfl
      obtain ⟨n, shown', hm, ha⟩ := contents _ _ _ hi (alike.symm.holds holds)
      exact ⟨n, shown', .inside hi hm, ha⟩

/-! ### From contents to values -/

theorem partsHold (s : Seated shared ss places) (same : Places.Match places values)
    (contents : ∀ (i : Nat) (marker : NodeId) (item : Item),
      places[i]? = some (.content marker item) → Mounts n attrs shown item.content →
      ∃ shown', ValueHolds attrs shown' item.shown ∧ AlikeAt attrs shown shown')
    (h : TableMounts n attrs shown shared places) :
    ∃ shown', PartsHold attrs shown' shared values ∧ AlikeAt attrs shown shown' := by
  have seats := fun {i t} => Stem.mem_seatsAll (i := i) ss s.proper (t := t)
  rw [s.nodes] at seats
  cases h with
  | here place seat shows =>
    subst shows
    rcases seats.1 seat with ⟨e, he, b, hb, heq⟩ | ⟨m, -, -, heq⟩
    · simp only [Seat.attribute.injEq] at heq
      obtain ⟨-, rfl⟩ := heq
      exact ⟨_, .here seat rfl, fun i b hb => s.alike same he hb⟩
    · simp at heq
  | inside place mounts =>
    obtain ⟨shown', hold, ha⟩ := contents _ _ _ place mounts
    have alike : Value.Alike _ _ := same _ _ place _ rfl
    exact ⟨shown', .inside (seats.2 (.inr ⟨_, s.marker_of place, rfl, rfl⟩)) (alike.holds hold), ha⟩

/-! ### A node is one element -/

/-- An attribute place of the skeleton and the attributes of its element. -/
theorem element_at (s : Seated shared ss places) {i : Nat} {b c : Binding} {v : Value}
    (place : places[i]? = some (.attribute n b v))
    (seat : (i, Seat.attribute c attrs) ∈ Node.seatsAll shared.nodes) :
    ∃ tag, (n, tag, attrs) ∈ Stem.elementsAll ss := by
  rw [← s.nodes] at seat
  rcases (Stem.mem_seatsAll ss s.proper).1 seat with ⟨⟨m, tag, attrs'⟩, he, d, hd, heq⟩ | ⟨m, -, -, heq⟩
  · simp only [Seat.attribute.injEq] at heq
    obtain ⟨-, rfl⟩ := heq
    obtain ⟨w, hw⟩ := s.place_of_element he hd
    have hplace := Option.some.inj (place.symm.trans hw)
    injection hplace with hn
    exact ⟨tag, hn ▸ he⟩
  · simp at heq

theorem mounts_unique (s : Seated shared ss places)
    (nodup : (idsAll (Stem.assembleAll data fill ss)).Nodup)
    (contents : ∀ (i : Nat) (marker : NodeId) (item : Item),
      places[i]? = some (.content marker item) → ∀ {n attrs shown},
      Mounts n attrs shown item.content → n ∈ idsAll (fill marker) ∧
        ∀ {attrs' shown'}, Mounts n attrs' shown' item.content → attrs' = attrs ∧ shown' = shown)
    (h : TableMounts n attrs shown shared places) :
    n ∈ idsAll (Stem.assembleAll data fill ss) ∧
      ∀ {attrs' shown'}, TableMounts n attrs' shown' shared places →
        attrs' = attrs ∧ shown' = shown := by
  have distinct := Stem.distinctAll ss nodup
  cases h with
  | here place seat shows =>
    obtain ⟨tag, he⟩ := s.element_at place seat
    refine ⟨(Stem.mem_idsAll data fill ss).1 _ he, fun {attrs' shown'} h' => ?_⟩
    cases h' with
    | here place' seat' shows' =>
      obtain ⟨tag', he'⟩ := s.element_at place' seat'
      exact ⟨congrArg (·.2.2) (distinct.element_eq _ he' _ he rfl), shows'.trans shows.symm⟩
    | inside place' mounts' =>
      exact absurd (contents _ _ _ place' mounts').1 (distinct.fill_apart _ he _ (s.marker_of place'))
  | inside place mounts =>
    obtain ⟨hn, unique⟩ := contents _ _ _ place mounts
    refine ⟨Stem.fillAll_subset data fill ss _ (s.marker_of place) hn, fun {attrs' shown'} h' => ?_⟩
    cases h' with
    | here place' seat' shows' =>
      obtain ⟨tag', he'⟩ := s.element_at place' seat'
      exact absurd hn (distinct.fill_apart _ he' _ (s.marker_of place))
    | inside place' mounts' =>
      have heq := distinct.fill_eq _ (s.marker_of place) _ (s.marker_of place') n hn
        (contents _ _ _ place' mounts').1
      simp only [Prod.mk.injEq] at heq
      obtain ⟨-, rfl⟩ := heq
      have hplace := Option.some.inj (place.symm.trans place')
      injection hplace with _ hitem
      exact unique (hitem ▸ mounts')

end Seated

mutual
theorem Fits.exists_mounts (hf : faithful) : {v : Value} → {c : Content} → {f : List Subtree} →
    Fits ω faithful v c f → ValueHolds attrs shown v →
    ∃ n shown', Mounts n attrs shown' c ∧ AlikeAt attrs shown' shown
  | _, _, _, .empty shows, h => by
      obtain ⟨-, hv⟩ := shows hf
      cases h <;> exact hv.elim
  | _, _, _, .text _ _ shows, h => by
      obtain ⟨-, -, hv, -⟩ := shows hf
      cases h <;> exact hv.elim
  | _, _, _, .nested _ _ table contents shows, h => by
      obtain ⟨-, -, handle, values, rfl, same⟩ := shows hf
      cases h with
      | template holds =>
        obtain ⟨n, shown', hm, ha⟩ := table.seated.exists_mounts same
          (fun i marker item hi h => (contents i marker item hi).exists_mounts hf h) holds
        exact ⟨n, shown', .nested hm, ha⟩
  | _, _, _, .list fits shows, h => by
      obtain ⟨handle, vs, rfl, same⟩ := shows hf
      cases h with
      | item mem holds =>
        obtain ⟨item, hi, n, shown', hm, ha⟩ := fits.exists_mounts hf same mem holds
        exact ⟨n, shown', .item hi hm, ha⟩

theorem FitsItems.exists_mounts (hf : faithful) : {items : List Item} → {f : List Subtree} →
    FitsItems ω faithful items f → ∀ {vs : List Value},
    List.Forall₂ Value.Alike (items.map Item.shown) vs → ∀ {v : Value}, v ∈ vs →
    ValueHolds attrs shown v →
    ∃ item ∈ items, ∃ n shown', Mounts n attrs shown' item.content ∧ AlikeAt attrs shown' shown
  | _, _, .nil _, _, same, v, hv, _ => by
      cases same
      simp at hv
  | _, _, @FitsItems.cons _ _ item _ _ _ _ _ head tail, _, .cons alike same, v, hv, h => by
      rcases List.mem_cons.1 hv with rfl | hv
      · exact ⟨item, List.mem_cons_self .., head.exists_mounts hf (alike.symm.holds h)⟩
      · obtain ⟨item', hi, hm⟩ := tail.exists_mounts hf same hv h
        exact ⟨item', List.mem_cons_of_mem _ hi, hm⟩
end

mutual
theorem Fits.valueHolds (hf : faithful) : {v : Value} → {c : Content} → {f : List Subtree} →
    Fits ω faithful v c f → Mounts n attrs shown c →
    ∃ shown', ValueHolds attrs shown' v ∧ AlikeAt attrs shown shown'
  | _, _, _, .empty _, h => by cases h
  | _, _, _, .text _ _ _, h => by cases h
  | _, _, _, .nested _ _ table contents shows, h => by
      obtain ⟨-, -, handle, values, rfl, same⟩ := shows hf
      cases h with
      | nested mounts =>
        obtain ⟨shown', hold, ha⟩ := table.seated.partsHold same
          (fun i marker item hi h => (contents i marker item hi).valueHolds hf h) mounts
        exact ⟨shown', .template hold, ha⟩
  | _, _, _, .list fits shows, h => by
      obtain ⟨handle, vs, rfl, same⟩ := shows hf
      cases h with
      | item mem mounts =>
        obtain ⟨v, hv, shown', hold, ha⟩ := fits.valueHolds hf same mem mounts
        exact ⟨shown', .item hv hold, ha⟩

theorem FitsItems.valueHolds (hf : faithful) : {items : List Item} → {f : List Subtree} →
    FitsItems ω faithful items f → ∀ {vs : List Value},
    List.Forall₂ Value.Alike (items.map Item.shown) vs → ∀ {item : Item}, item ∈ items →
    Mounts n attrs shown item.content →
    ∃ v ∈ vs, ∃ shown', ValueHolds attrs shown' v ∧ AlikeAt attrs shown shown'
  | _, _, .nil _, _, _, item, hi, _ => by simp at hi
  | _, _, .cons _ _ head tail, _, .cons alike same, item, hi, h => by
      rcases List.mem_cons.1 hi with heq | hi
      · rw [heq] at h
        obtain ⟨shown', hold, ha⟩ := head.valueHolds hf h
        exact ⟨_, List.mem_cons_self .., shown', alike.holds hold, ha⟩
      · obtain ⟨v, hv, hold⟩ := tail.valueHolds hf same hi h
        exact ⟨v, List.mem_cons_of_mem _ hv, hold⟩
end

mutual
theorem Fits.mounts_unique : {v : Value} → {c : Content} → {f : List Subtree} →
    Fits ω faithful v c f → (idsAll f).Nodup → ∀ {n attrs shown}, Mounts n attrs shown c →
    n ∈ idsAll f ∧
      ∀ {attrs' shown'}, Mounts n attrs' shown' c → attrs' = attrs ∧ shown' = shown
  | _, _, _, .empty _, _, _, _, _, h => by cases h
  | _, _, _, .text _ _ _, _, _, _, _, h => by cases h
  | _, _, _, .nested _ _ table contents _, nodup, n, attrs, shown, .nested mounts => by
      simp only [idsAll_append, idsAll_cons, List.nodup_append, ids_node, idsAll_nil] at nodup
      have inner := nodup.1.2.1.1.2.1
      obtain ⟨hn, unique⟩ := table.seated.mounts_unique inner (fun i marker item hi _ _ _ h =>
        (contents i marker item hi).mounts_unique ((Stem.distinctAll _ inner).fill_nodup _
          (table.seated.marker_of hi)) h) mounts
      refine ⟨by simp [hn], fun h' => ?_⟩
      cases h' with
      | nested mounts' => exact unique mounts'
  | _, .list _, _, .list fits _, nodup, _, _, _, .item mem mounts => by
      obtain ⟨hn, unique⟩ := fits.mounts_unique nodup mem mounts
      refine ⟨hn, fun h' => ?_⟩
      cases h' with
      | item mem' mounts' => exact unique mem' mounts'

theorem FitsItems.mounts_unique : {items : List Item} → {f : List Subtree} →
    FitsItems ω faithful items f → (idsAll f).Nodup → ∀ {item : Item}, item ∈ items →
    ∀ {n attrs shown}, Mounts n attrs shown item.content →
    n ∈ idsAll f ∧ ∀ {item' : Item}, item' ∈ items → ∀ {attrs' shown'},
      Mounts n attrs' shown' item'.content → attrs' = attrs ∧ shown' = shown
  | _, _, .nil _, _, item, hi, _, _, _, _ => by simp at hi
  | _, _, .cons _ _ head tail, nodup, item, hi, n, attrs, shown, h => by
      rw [idsAll_append, List.nodup_append] at nodup
      obtain ⟨hf, hg, disjoint⟩ := nodup
      rw [idsAll_append, List.mem_append]
      rcases List.mem_cons.1 hi with heq | hi
      · rw [heq] at h
        obtain ⟨hn, unique⟩ := head.mounts_unique hf h
        refine ⟨.inl hn, fun {item'} hi' {attrs' shown'} h' => ?_⟩
        rcases List.mem_cons.1 hi' with heq' | hi'
        · rw [heq'] at h'
          exact unique h'
        · exact absurd rfl (disjoint n hn n (tail.mounts_unique hg hi' h').1)
      · obtain ⟨hn, unique⟩ := tail.mounts_unique hg hi h
        refine ⟨.inr hn, fun {item'} hi' {attrs' shown'} h' => ?_⟩
        rcases List.mem_cons.1 hi' with heq' | hi'
        · rw [heq'] at h'
          exact absurd rfl (disjoint n (head.mounts_unique hf h').1 n hn)
        · exact unique hi' h'
end

end LiveTemplate
