import LiveTemplate.Proofs.Clearing

/-!
# Changes at one place

What becomes of a table that fits when one of its places changes: the data of an element,
the markup in a host, or the content in front of a marker. All other places go on fitting
as they did, and the elements go on having what they should have.
-/
namespace LiveTemplate
open Document Subtree Live

variable {ω : Watch} {clean : Nat → Prop} {kept : NodeId → Target → Prop}
  {shared : SharedSkeleton} {ss : List Stem} {data : NodeId → ElementData}
  {fill : NodeId → List Subtree} {places : List Place} {j : Nat} {p p' : Place}
  {prev next : Value} {n : NodeId} {b : Binding}

theorem Places.shownAt_set (h : places[j]? = some p) (hv : p'.shown? = some next) :
    Places.shownAt (places.set j p') = Function.update (Places.shownAt places) j next := by
  have hj : j < places.length := (List.getElem?_eq_some_iff.1 h).1
  funext i
  by_cases hi : i = j
  · subst hi
    simp [Places.shownAt, Places.previous?, hj, hv]
  · simp [Places.shownAt, Places.previous?, Function.update_of_ne hi, List.getElem?_set_ne (Ne.symm hi)]

theorem getElem?_set_cases {i : Nat} {q : Place} (h : places[j]? = some p)
    (hq : (places.set j p')[i]? = some q) : i = j ∧ q = p' ∨ i ≠ j ∧ places[i]? = some q := by
  have hj : j < places.length := (List.getElem?_eq_some_iff.1 h).1
  by_cases hi : i = j
  · subst hi
    exact .inl ⟨rfl, by simpa [hj, eq_comm] using hq⟩
  · exact .inr ⟨hi, by rwa [List.getElem?_set_ne (Ne.symm hi)] at hq⟩

theorem Seated.set (s : Seated shared ss places) (h : places[j]? = some p)
    (hp : p'.bare = p.bare) : Seated shared ss (places.set j p') := by
  refine s.congr (List.ext_getElem? fun i => ?_)
  simp only [List.getElem?_map]
  by_cases hi : i = j
  · subst hi
    have hj : i < places.length := (List.getElem?_eq_some_iff.1 h).1
    rw [List.getElem?_set_self hj, h, Option.map_some, Option.map_some, hp]
  · rw [List.getElem?_set_ne (Ne.symm hi)]

theorem writes_congr {attrs : Attributes} {shown shown' : Nat → Value}
    {x : Target} (same : ∀ i c, BoundTo attrs i c → shown i = shown' i ∨ c = .markup) {r : Route}
    (h : Writes attrs shown x r) : Writes attrs shown' x r := by
  cases h with
  | literal mem bound writes beside => exact .literal mem bound writes beside
  | hole bound writes =>
    rcases same _ _ bound with h | rfl
    · exact .hole bound (h ▸ writes)
    · exact absurd (wrote_markup ..) writes

namespace TableFits

theorem sound_set (t : TableFits ω clean kept shared ss data fill places) (h : places[j]? = some p)
    (sound : ∀ v, p'.shown? = some v → v.Built ∧ p'.Takes v) :
    ∀ (i : Nat) (q : Place), (places.set j p')[i]? = some q →
      ∀ v, q.shown? = some v → v.Built ∧ q.Takes v := by
  intro i q hq
  rcases getElem?_set_cases h hq with ⟨-, rfl⟩ | ⟨-, hq⟩
  · exact sound
  · exact t.sound i q hq

theorem built (t : TableFits ω clean kept shared ss data fill places) (i : Nat) :
    (Places.shownAt places i).Built := by
  cases hp : places[i]? with
  | none => simp [Places.shownAt, Places.previous?, hp, Value.Built]
  | some p =>
    cases hv : p.shown? with
    | none => simp [Places.shownAt, Places.previous?, hp, hv, Value.Built]
    | some v =>
      rw [Places.shownAt_of_get hp hv]
      exact (t.sound i p hp v hv).1

/-- The place of another element or of a marker is not the place of a hole of this one. -/
theorem bound_ne (t : TableFits ω clean kept shared ss data fill places)
    {e : NodeId × String × Attributes} (he : e ∈ Stem.elementsAll ss) {i : Nat} {c : Binding}
    (hb : BoundTo e.2.2 i c) (h : places[j]? = some p) (hp : ∀ v, p ≠ .attribute e.1 c v) :
    i ≠ j := by
  rintro rfl
  obtain ⟨v, hv⟩ := t.seated.place_of_element he hb
  exact hp v (Option.some.inj (h.symm.trans hv))

/-- The elements whose holes show what they showed have what they had. -/
theorem reading_congr (t : TableFits ω clean kept shared ss data fill places)
    {e : NodeId × String × Attributes} (he : e ∈ Stem.elementsAll ss) {x : Target}
    (hx : ω.looked x = true) (hk : kept e.1 x) {shown : Nat → Value}
    (same : ∀ i c, BoundTo e.2.2 i c → Places.shownAt places i = shown i ∨ c = .markup)
    (taken : ∀ r, Writes e.2.2 shown x r → ω.taken e.1 x r) :
    (data e.1).reading x = look x shown e.2.2 := by
  rw [t.reading e he x hx hk fun r hr => taken r (writes_congr same hr)]
  refine look_congr fun i c hi => ?_
  rcases same i c hi with h | rfl
  · rw [h]
  · simp [written_direct, wrote_markup]

theorem host_congr (t : TableFits ω clean kept shared ss data fill places)
    {e : NodeId × Attributes} (he : e ∈ Stem.hostsAll ss)
    (hc : ∀ i, markupSource? e.2 = some (.hole i) → clean i) {shown : Nat → Value}
    (same : ∀ i, markupSource? e.2 = some (.hole i) → Places.shownAt places i = shown i) :
    shapes ω.looked (fill e.1) = markupShapes (shownMarkup ω.looked) shown e.2 := by
  rw [t.host e he hc]
  exact markupShapes_congr fun i hi => .inl (same i hi)

/-- The skeleton can be filled with the values that its table shows. -/
theorem fillsRenderably {values : List Value}
    (t : TableFits ω clean kept shared ss data fill places) (same : Places.Match places values) :
    FillsRenderably shared values := by
  refine (t.seated.fillsRenderably_iff values).2 fun i p hp => ?_
  rcases p with _ | ⟨n, b, v⟩ | ⟨m, item⟩
  · trivial
  · exact ((same i _ hp v rfl).applicable b).1 (t.sound i _ hp v rfl).2
  · exact (same i _ hp _ rfl).renderable.1 (t.sound i _ hp _ rfl).2

/-! ### The data of an element -/

variable {data' : ElementData}

/-- The value of an attribute gives way to another one. -/
theorem turn (t : TableFits ω clean kept shared ss data fill places)
    (nodup : (idsAll (Stem.assembleAll data fill ss)).Nodup)
    (h : places[j]? = some (.attribute n b prev)) (hb : b ≠ .markup) (built : next.Built)
    (applicable : Applicable b next) (changed : prev.same next = false)
    (cleared : prev ≠ .null → ∀ x ks, ω.looked x = true → Touches x b prev ks →
      ω.taken n x (.hole j ks)) (turns : Turns b prev next (data n) data') :
    TableFits ω clean kept shared ss (Function.update data n data') fill
      (places.set j (.attribute n b next)) := by
  obtain ⟨tag₀, attrs₀, he₀, hb₀⟩ := t.seated.element_of h
  have distinct := Stem.distinctAll ss nodup
  have hprev : Places.shownAt places j = prev := Places.shownAt_of_get h rfl
  have hshown := @Places.shownAt_set _ _ _ (.attribute n b next) _ h rfl
  refine ⟨t.seated.set h rfl, t.sound_set h ?_, fun e he => ?_, fun e he x hx hk taken => ?_,
    fun e he hc => ?_⟩
  · rintro v ⟨⟩
    exact ⟨built, applicable⟩
  · by_cases hn : e.1 = n
    · rw [hn, Function.update_self, turns.tag, ← hn, t.tag e he]
    · rw [Function.update_of_ne hn, t.tag e he]
  · rw [hshown] at taken ⊢
    by_cases hn : e.1 = n
    · obtain rfl := distinct.element_eq e he _ he₀ hn
      rw [Function.update_self]
      refine look_update t.built built (t.seated.attrs_proper he₀).2 hb₀ (ω.unique n x hx)
        (fun hnull ks ht => ?_) (hprev.symm ▸ changed) (hprev.symm ▸ turns)
        (t.reading _ he₀ x hx hk) taken
      rw [hprev] at hnull ht
      exact cleared hnull x ks hx ht
    · rw [Function.update_of_ne hn]
      refine t.reading_congr he hx hk (fun i c hi => .inl ?_) taken
      rw [Function.update_of_ne (t.bound_ne he hi h fun v heq => hn ?_)]
      injection heq with heq
      exact heq.symm
  · rw [hshown]
    refine t.host_congr he hc fun i hi => ?_
    obtain ⟨tag, he⟩ := Stem.elementAll_of_host ss e he
    have hi := (boundTo_markup (t.seated.attrs_proper he).1).2 hi
    rw [Function.update_of_ne (t.bound_ne he hi h fun v heq => hb ?_)]
    injection heq

end TableFits

/-- The targets of elements that a place does not write to or clear when it is to show
another value. -/
def Place.Spares (p : Place) (next : Value) (m : NodeId) (x : Target) : Prop :=
  match p with
  | .attribute n b prev =>
      m = n → (prev ≠ .null → ∀ ks, ¬Touches x b prev ks) ∧ ∀ ks, wrote x b next ks = none
  | _ => True

namespace TableFits
variable {data' : ElementData}

/-- A value could not be written to its end. -/
theorem spoil (t : TableFits ω clean kept shared ss data fill places)
    (spoils : Spoils b prev next (data n) data') {clean' : Nat → Prop}
    (hc : ∀ i, clean' i → clean i) :
    TableFits ω clean' (fun m x => kept m x ∧ (Place.attribute n b prev).Spares next m x) shared ss
      (Function.update data n data') fill places := by
  refine ⟨t.seated, t.sound, fun e he => ?_, fun e he x hx ⟨hk, hs⟩ taken => ?_,
    fun e he h => t.host e he fun i hi => hc i (h i hi)⟩
  · by_cases hn : e.1 = n
    · rw [hn, Function.update_self, spoils.tag, ← hn, t.tag e he]
    · rw [Function.update_of_ne hn, t.tag e he]
  · by_cases hn : e.1 = n
    · obtain ⟨h1, h2⟩ := hs hn
      rw [hn, Function.update_self, spoils.untouched x h1 h2, ← hn, t.reading e he x hx hk taken]
    · rw [Function.update_of_ne hn, t.reading e he x hx hk taken]

/-! ### The markup in a host -/

theorem host_of_bound (t : TableFits ω clean kept shared ss data fill places)
    (h : places[j]? = some (.attribute n .markup prev)) :
    ∃ attrs, (n, attrs) ∈ Stem.hostsAll ss ∧ markupSource? attrs = some (.hole j) := by
  obtain ⟨tag, attrs, he, hb⟩ := t.seated.element_of h
  have hs := (boundTo_markup (t.seated.attrs_proper he).1).1 hb
  exact ⟨attrs, Stem.hostAll_of_element ss t.seated.proper _ he (by simp [hs]), hs⟩

theorem remark (t : TableFits ω clean kept shared ss data fill places)
    (nodup : (idsAll (Stem.assembleAll data fill ss)).Nodup)
    (h : places[j]? = some (.attribute n .markup prev)) (built : next.Built)
    (applicable : Applicable .markup next) {kids : List Subtree}
    (hkids : shapes ω.looked kids =
      if next = .null then [] else shownMarkup ω.looked next.toText) :
    TableFits ω clean kept shared ss data (Function.update fill n kids)
      (places.set j (.attribute n .markup next)) := by
  obtain ⟨attrs₀, he₀, hs₀⟩ := t.host_of_bound h
  obtain ⟨tag₀, ht₀⟩ := Stem.elementAll_of_host ss _ he₀
  have distinct := Stem.distinctAll ss nodup
  have hshown := @Places.shownAt_set _ _ _ (.attribute n .markup next) _ h rfl
  refine ⟨t.seated.set h rfl, t.sound_set h ?_, t.tag, fun e he x hx hk taken => ?_,
    fun e he hc => ?_⟩
  · rintro v ⟨⟩
    exact ⟨built, applicable⟩
  · rw [hshown] at taken ⊢
    refine t.reading_congr he hx hk (fun i c hi => ?_) taken
    by_cases hm : c = .markup
    · exact .inr hm
    · refine .inl ?_
      rw [Function.update_of_ne (t.bound_ne he hi h fun v heq => hm ?_)]
      injection heq with _ heq
      exact heq.symm
  · rw [hshown]
    obtain ⟨tag, ht⟩ := Stem.elementAll_of_host ss e he
    by_cases hn : e.1 = n
    · have heq : attrs₀ = e.2 := congrArg (·.2.2) (distinct.element_eq _ ht₀ _ ht hn.symm)
      rw [hn, Function.update_self, hkids, markupShapes, ← heq, hs₀]
      simp
    · rw [Function.update_of_ne hn]
      refine t.host_congr he hc fun i hi => ?_
      have hi := (boundTo_markup (t.seated.attrs_proper ht).1).2 hi
      rw [Function.update_of_ne (t.bound_ne ht hi h fun v heq => hn ?_)]
      injection heq with heq
      exact heq.symm

/-- Markup could not be shown to its end. -/
theorem unmark (t : TableFits ω clean kept shared ss data fill places)
    (nodup : (idsAll (Stem.assembleAll data fill ss)).Nodup)
    (h : places[j]? = some (.attribute n .markup prev)) (kids : List Subtree) :
    TableFits ω (fun i => clean i ∧ i ≠ j) kept shared ss data (Function.update fill n kids)
      places := by
  obtain ⟨attrs₀, he₀, hs₀⟩ := t.host_of_bound h
  obtain ⟨tag₀, ht₀⟩ := Stem.elementAll_of_host ss _ he₀
  have distinct := Stem.distinctAll ss nodup
  refine ⟨t.seated, t.sound, t.tag, t.reading, fun e he hc => ?_⟩
  obtain ⟨tag, ht⟩ := Stem.elementAll_of_host ss e he
  by_cases hn : e.1 = n
  · have heq : attrs₀ = e.2 := congrArg (·.2.2) (distinct.element_eq _ ht₀ _ ht hn.symm)
    exact absurd rfl (hc j (heq ▸ hs₀)).2
  · rw [Function.update_of_ne hn]
    exact t.host e he fun i hi => (hc i hi).1

/-! ### The content in front of a marker -/

theorem refill (t : TableFits ω clean kept shared ss data fill places)
    (nodup : (idsAll (Stem.assembleAll data fill ss)).Nodup) {marker : NodeId} {item item' : Item}
    (h : places[j]? = some (.content marker item)) (built : item'.shown.Built)
    (renderable : item'.shown.Renderable) (f : List Subtree) :
    TableFits ω clean kept shared ss data (Function.update fill marker f)
      (places.set j (.content marker item')) := by
  have distinct := Stem.distinctAll ss nodup
  have hm := t.seated.marker_of h
  have hshown := @Places.shownAt_set _ _ _ (.content marker item') _ h rfl
  have hne : ∀ e ∈ Stem.elementsAll ss, ∀ i c, BoundTo e.2.2 i c →
      Places.shownAt places i = Function.update (Places.shownAt places) j item'.shown i := by
    intro e he i c hi
    rw [Function.update_of_ne (t.bound_ne he hi h fun v heq => by simp at heq)]
  refine ⟨t.seated.set h rfl, t.sound_set h ?_, t.tag, fun e he x hx hk taken => ?_,
    fun e he hc => ?_⟩
  · rintro v ⟨⟩
    exact ⟨built, renderable⟩
  · rw [hshown] at taken ⊢
    exact t.reading_congr he hx hk (fun i c hi => .inl (hne e he i c hi)) taken
  · obtain ⟨tag, ht⟩ := Stem.elementAll_of_host ss e he
    rw [hshown, Function.update_of_ne (distinct.apart _ ht _ hm)]
    refine t.host_congr he hc fun i hi => hne _ ht i .markup ?_
    exact (boundTo_markup (t.seated.attrs_proper ht).1).2 hi

end TableFits

/-! ### The contents of all places -/

namespace PlacesFit

theorem congr {clean' : Nat → Prop} {fill' : NodeId → List Subtree}
    (h : PlacesFit ω clean fill places) (hc : ∀ i, clean' i ↔ clean i)
    (hf : ∀ (i : Nat) (marker : NodeId) (item : Item), places[i]? = some (.content marker item) →
      fill' marker = fill marker) : PlacesFit ω clean' fill' places := by
  intro i marker item hi
  rw [hf i marker item hi, propext (hc i)]
  exact h i marker item hi

/-- A place that is no content does not matter. -/
theorem set (h : PlacesFit ω clean fill places) (hp : places[j]? = some p)
    (hp' : ∀ marker item, p' ≠ .content marker item) :
    PlacesFit ω clean fill (places.set j p') := by
  intro i marker item hi
  rcases getElem?_set_cases hp hi with ⟨-, heq⟩ | ⟨-, hi⟩
  · exact absurd heq.symm (hp' marker item)
  · exact h i marker item hi

theorem drop (h : PlacesFit ω clean fill places) (j : Nat) :
    PlacesFit ω (fun i => clean i ∧ i ≠ j) fill places := by
  intro i marker item hi
  by_cases hij : i = j
  · simpa using (h i marker item hi).weaken (fun hc => hc.2 hij) item.shown [] []
  · have heq : (clean i ∧ i ≠ j) = clean i := propext (and_iff_left hij)
    show Fits ω (clean i ∧ i ≠ j) item.shown item.content (fill marker)
    rw [heq]
    exact h i marker item hi

/-- Another item at one place, in front of its marker. -/
theorem refill (h : PlacesFit ω clean fill places) (s : Seated shared ss places)
    (nodup : (idsAll (Stem.assembleAll data fill ss)).Nodup) {marker : NodeId} {item item' : Item}
    (hp : places[j]? = some (.content marker item)) {f : List Subtree}
    (fits : Fits ω (clean j) item'.shown item'.content f) :
    PlacesFit ω clean (Function.update fill marker f)
      (places.set j (.content marker item')) := by
  intro i m k hi
  rcases getElem?_set_cases hp hi with ⟨rfl, heq⟩ | ⟨hne, hold⟩
  · injection heq with h1 h2
    subst h1 h2
    rwa [Function.update_self]
  · have hm : m ≠ marker := by
      rintro rfl
      have := (Stem.distinctAll ss nodup).marker_eq _ (s.marker_of hold) _ (s.marker_of hp) rfl
      exact hne (congrArg Prod.snd this)
    rw [Function.update_of_ne hm]
    exact h i m k hold

end PlacesFit

/-- What stands in a host is in front of no marker. -/
theorem TableFits.contents_host (t : TableFits ω clean kept shared ss data fill places)
    (contents : PlacesFit ω clean fill places)
    (nodup : (idsAll (Stem.assembleAll data fill ss)).Nodup)
    (h : places[j]? = some (.attribute n b prev)) (kids : List Subtree) :
    PlacesFit ω clean (Function.update fill n kids) places := by
  obtain ⟨tag, attrs, he, -⟩ := t.seated.element_of h
  refine contents.congr (fun _ => Iff.rfl) fun i marker item hi => ?_
  exact Function.update_of_ne
    ((Stem.distinctAll ss nodup).apart _ he _ (t.seated.marker_of hi)).symm _ _

end LiveTemplate
