import LiveTemplate.Proofs.Sessions

/-!
# Incremental rendering

What a container shows after a render does not depend on what was rendered into it
before: it is what the value shows when it is rendered on its own into a new document.
This holds of tags, texts, markers and their nesting in any case, and of the attributes,
properties and listeners that were written to by one route only.
-/
namespace LiveTemplate
open Document Subtree Live Patched

variable {ω : Watch} {container : NodeId} {initial : List NodeId} {debris : List Subtree}
  {tried : List (List Value)} {m : Mounted} {h : Host} {values : List Value} {v : Value}
  {looked : Target → Bool}

namespace Mounted

/-- A table at which all is clean shows its values. -/
theorem Stands.shows (s : m.Stands ω container initial debris tried h)
    (clean : ∀ i, Clean m.places tried i) (same : Places.Match m.places values)
    (admits : ∀ n attrs shown, TableMounts n attrs shown m.shared m.places → ω.Admits n attrs shown) :
    ∃ forest, Block h.document container initial (debris ++ forest) [] ∧
      shapes ω.looked forest = Node.shapesAll ω.looked (shownMarkup ω.looked)
        (Markup.valueAt values) (Value.shapesAt ω.looked values) m.shared.nodes := by
  obtain ⟨ss, data, fill, b, -, t, contents⟩ := s
  refine ⟨_, b, t.shows clean (fun n x hx => ⟨hx, fun i _ _ => clean i⟩) same admits
    fun i marker item hi => ?_⟩
  exact (contents i marker item hi).shapes (clean i) fun n attrs shown hm =>
    admits n attrs shown (.inside hi hm)

/-- Where one route is taken to each target of the elements that stand, one is taken in
the values. -/
theorem Stands.writtenOnce (s : m.Stands ω container initial debris tried h)
    (clean : ∀ i, Clean m.places tried i) (same : Places.Match m.places values)
    (admits : ∀ n attrs shown, TableMounts n attrs shown m.shared m.places → ω.Admits n attrs shown) :
    WrittenOnce ω.looked m.shared values := by
  obtain ⟨ss, data, fill, -, -, t, contents⟩ := s
  intro attrs shown holds x hx r r' hr hr'
  obtain ⟨n, shown', hm, alike⟩ := t.seated.exists_mounts same
    (fun i marker item hi h => (contents i marker item hi).exists_mounts (clean i) h) holds
  have back : AlikeAt attrs shown shown' := fun i b hb => (alike i b hb).symm
  exact ω.unique n x hx r r' (admits n attrs shown' hm x hx r (back.writes hr))
    (admits n attrs shown' hm x hx r' (back.writes hr'))

/-- Where one route is taken to each target in the values, one is taken at each element
that stands. -/
theorem Stands.unique (s : m.Stands ω container initial debris tried h)
    (clean : ∀ i, Clean m.places tried i) (same : Places.Match m.places values)
    (once : WrittenOnce looked m.shared values) {n : NodeId} {x : Target} (hx : looked x = true)
    {r r' : Route}
    (hr : ∃ attrs shown, TableMounts n attrs shown m.shared m.places ∧ Writes attrs shown x r)
    (hr' : ∃ attrs shown, TableMounts n attrs shown m.shared m.places ∧ Writes attrs shown x r') :
    r = r' := by
  obtain ⟨ss, data, fill, b, -, t, contents⟩ := s
  obtain ⟨attrs, shown, hm, hw⟩ := hr
  obtain ⟨attrs', shown', hm', hw'⟩ := hr'
  have nodup : (idsAll (Stem.assembleAll data fill ss)).Nodup := by
    have h := b.nodup
    rw [idsAll_append, List.nodup_append] at h
    exact h.2.1
  obtain ⟨-, unique⟩ := t.seated.mounts_unique nodup (fun i marker item hi _ _ _ h =>
    (contents i marker item hi).mounts_unique
      ((Stem.distinctAll ss nodup).fill_nodup _ (t.seated.marker_of hi)) h) hm
  obtain ⟨rfl, rfl⟩ := unique hm'
  obtain ⟨shown₀, holds, alike⟩ := t.seated.partsHold same
    (fun i marker item hi h => (contents i marker item hi).valueHolds (clean i) h) hm
  exact once _ _ holds x hx r r' (alike.writes hw) (alike.writes hw')

end Mounted

namespace Session

/-- Nothing has been rendered yet. -/
structure New (s : Session) : Prop where
  renderer : s.renderer = {}
  tried : s.tried = []

variable {s : Session}

theorem New.mounted? (new : s.New) : s.renderer.mounted? container = none := by
  rw [new.renderer]
  rfl

theorem New.stands (new : s.New) (ω : Watch) (edited : Edited s.host.document)
    (isContainer : s.host.document.isContainer container = true) :
    Stands ω container (s.host.document.children container) [] s := by
  rw [Stands, Renderer.Stands, new.mounted?]
  exact edited.closed.block isContainer

theorem New.clean (new : s.New) : s.renderer.AllClean container s.tried := by
  intro m hm
  simp [new.mounted?] at hm

end Session

/-- A value rendered on its own into the body of a new document. -/
def Value.renderAlone (v : Value) : Patched Renderer := Renderer.render v body {} {}

theorem Value.renderAlone_ends (built : v.Built) (ω : Watch) :
    v.renderAlone.Ends
      (Renderer.Succeeded ω body [] v [v.parts.2] fun debris m =>
        debris = [] ∧ ∀ i, Clean m.places [v.parts.2] i)
      (Renderer.Failed ω body [] v [v.parts.2]) := by
  have new : Session.New {} := ⟨rfl, rfl⟩
  have stands : Renderer.Stands ω body [] [] [] {} {} := new.stands ω .empty rfl
  have first : Renderer.AllClean body [] {} := new.clean
  refine (Renderer.render_ends built stands fun m hm => ?_).mono ?_ fun _ _ failed => failed
  · simp [Renderer.mounted?, Entries.get?] at hm
  · rintro r h ⟨fills, debris, m, hm, shared, same, stands, hdebris, clean⟩
    exact ⟨fills, debris, m, hm, shared, same, stands, hdebris first,
      clean fun m hm _ => first m hm⟩

/-- A value is rendered on its own if and only if its parts can be shown. -/
theorem Value.renderAlone_failure (built : v.Built) :
    v.renderAlone.failure = none ↔ FillsRenderably v.parts.1 v.parts.2 := by
  have ends := Value.renderAlone_ends built ⟨fun _ => false, fun _ _ _ => False, by simp⟩
  by_cases hf : v.renderAlone.failure = none
  · exact ⟨fun _ => (ends.of_none hf).1, fun _ => hf⟩
  · exact ⟨fun h => absurd h hf, fun fills => absurd fills (ends.of_some hf).1⟩

/-- A value that can be shown shows its picture when it is rendered on its own, as far
as one route is taken to what is looked at. -/
theorem Value.renderAlone_shows (built : v.Built) (fills : FillsRenderably v.parts.1 v.parts.2)
    (once : WrittenOnce looked v.parts.1 v.parts.2) :
    ∃ forest, Block v.renderAlone.host.document body [] forest [] ∧
      Subtree.shapes looked forest = v.picture looked := by
  have succeeds := (Value.renderAlone_failure built).2 fills
  have ends := fun ω : Watch => (Value.renderAlone_ends built ω).of_none succeeds
  -- which routes are taken is known only when the value has been rendered
  obtain ⟨-, debris₀, m, hm, shared, same, stands₀, -, clean⟩ :=
    ends ⟨fun _ => false, fun _ _ _ => False, by simp⟩
  have clean : ∀ i, Clean m.places [v.parts.2] i := clean
  let ω : Watch := ⟨looked, fun n x r => ∃ attrs shown,
    TableMounts n attrs shown m.shared m.places ∧ Writes attrs shown x r,
    fun n x hx r r' => stands₀.unique clean same (shared.symm ▸ once) hx⟩
  obtain ⟨-, debris, m', hm', -, -, stands, hdebris, -⟩ := ends ω
  obtain rfl : m = m' := Option.some.inj (hm.symm.trans hm')
  obtain rfl := hdebris
  obtain ⟨forest, b, hshapes⟩ := stands.shows clean same
    fun n attrs shown hmounts x _ r hw => ⟨attrs, shown, hmounts, hw⟩
  exact ⟨forest, b, by rw [hshapes, shared]; rfl⟩

theorem Value.renderAlone_appearance (built : v.Built)
    (fills : FillsRenderably v.parts.1 v.parts.2) (once : WrittenOnce looked v.parts.1 v.parts.2) :
    v.renderAlone.failure = none ∧
      v.renderAlone.host.document.appearance looked (v.renderAlone.host.document.children body) =
        v.picture looked := by
  obtain ⟨forest, b, hshapes⟩ := v.renderAlone_shows built fills once
  have hchildren : v.renderAlone.host.document.children body = roots forest := by
    simpa using b.children_eq
  refine ⟨(Value.renderAlone_failure built).2 fills, ?_⟩
  rw [hchildren, b.appearance looked, hshapes]

namespace Session

variable {s : Session}

/-! ### Routes of the values that are rendered -/

/-- What is mounted shows one of the values, and all that was tried are values of its skeleton. -/
def ComesFrom (rendered : Value → Prop) (container : NodeId) (s : Session) : Prop :=
  ∀ m, s.renderer.mounted? container = some m →
    (∃ v, rendered v ∧ v.parts.1 = m.shared ∧ Places.Match m.places v.parts.2) ∧
      ∀ values ∈ s.tried, ∃ v, rendered v ∧ v.parts = (m.shared, values)

variable {rendered : Value → Prop} {a : Action}

theorem act_comesFrom (built : a.Built) (stands : Stands ω container initial debris s)
    (before : Admitted ω container s) (clean : s.renderer.AllClean container s.tried)
    (succeeds : (s.act container a).2 = none) (origin : ComesFrom rendered container s)
    (next : ∀ v, a = .render v → rendered v) : ComesFrom rendered container (s.act container a).1 := by
  cases a with
  | render v =>
    intro m' hm'
    obtain ⟨m, hm, shared, same, -⟩ := render_mounted built stands before clean succeeds
    obtain rfl : m = m' := Option.some.inj (hm.symm.trans hm')
    have last : rendered v := next v rfl
    refine ⟨⟨v, last, shared.symm, same⟩, ?_⟩
    show ∀ values ∈ s.renderer.triedWith container v s.tried, _
    have alone : ∀ values ∈ [v.parts.2], ∃ w, rendered w ∧ w.parts = (m.shared, values) := by
      intro values hv
      exact ⟨v, last, Prod.ext shared.symm (List.mem_singleton.1 hv).symm⟩
    rw [Renderer.triedWith]
    split
    next m₀ hm₀ =>
      split
      next kept =>
        intro values hv
        rcases List.mem_cons.1 hv with rfl | hv
        · exact alone _ (List.mem_singleton_self _)
        · rw [shared, ← kept]
          exact (origin m₀ hm₀).2 values hv
      next => exact alone
    next => exact alone
  | unmount =>
    intro m hm
    obtain ⟨none, -⟩ := (unmount_ends stands).of_none succeeds
    exact absurd (none.symm.trans hm) (by simp)
  | clearCache => exact origin

theorem visits_comesFrom (actions : List Action) (built : ∀ a ∈ actions, a.Built)
    (stands : Stands ω container initial debris s)
    (admitted : ∀ t ∈ visits container actions s, Admitted ω container t)
    (clean : s.renderer.AllClean container s.tried) (succeeds : Succeeds container actions s)
    (origin : ComesFrom rendered container s)
    (all : ∀ v, .render v ∈ actions → rendered v) :
    ∀ t ∈ visits container actions s, Stands ω container initial debris t ∧
      t.renderer.AllClean container t.tried ∧ ComesFrom rendered container t := by
  induction actions generalizing s with
  | nil =>
    intro t ht
    rw [List.mem_singleton.1 ht]
    exact ⟨stands, clean, origin⟩
  | cons a rest ih =>
    rintro t (_ | ⟨_, ht⟩)
    · exact ⟨stands, clean, origin⟩
    · have first := admitted _ (self_mem_visits ..)
      have builtFirst := built a (List.mem_cons_self ..)
      obtain ⟨next, clean'⟩ := act_clean builtFirst stands first clean succeeds.1
      have origin' := act_comesFrom builtFirst stands first clean succeeds.1 origin
        fun v hv => all v (hv ▸ List.mem_cons_self ..)
      exact ih (fun b hb => built b (List.mem_cons_of_mem _ hb)) next
        (fun u hu => admitted u (List.mem_cons_of_mem _ hu)) clean' succeeds.2 origin'
        (fun v hv => all v (List.mem_cons_of_mem _ hv)) t ht

/-- What reaches an element that stands does so in one of the values. -/
theorem ComesFrom.claims (origin : ComesFrom rendered container s)
    (stands : Stands ω container initial debris s) (clean : s.renderer.AllClean container s.tried)
    (hm : s.renderer.mounted? container = some m) {n : NodeId} {x : Target} {r : Route}
    (reaches : m.Reaches s.tried n x r) :
    ∃ v attrs shown, rendered v ∧ PartsHold attrs shown v.parts.1 v.parts.2 ∧
      Claims attrs shown x r := by
  rw [Stands, Renderer.Stands, hm] at stands
  obtain ⟨ss, data, fill, -, -, t, contents⟩ := stands
  obtain ⟨⟨v, hv, shared, same⟩, tried⟩ := origin m hm
  cases reaches with
  | claims mounts claims =>
    obtain ⟨shown', holds, alike⟩ := t.seated.partsHold same (fun i marker item hi h =>
      (contents i marker item hi).valueHolds (clean m hm i) h) mounts
    exact ⟨v, _, shown', hv, shared.symm ▸ holds, alike.claims claims⟩
  | tries place mem writes =>
    obtain ⟨w, hw, parts⟩ := tried _ mem
    obtain ⟨tag, attrs, he, hb⟩ := t.seated.element_of place
    have seat := (Stem.mem_seatsAll ss t.seated.proper).2 (.inl ⟨_, he, _, hb, rfl⟩)
    rw [t.seated.nodes] at seat
    refine ⟨w, attrs, _, hw, ?_, .writes (.hole hb writes)⟩
    rw [parts]
    exact .here seat rfl

/-- Where each target has one route only, whichever element of the values that are rendered claims
it, each is reached by one route only at every element. -/
theorem oneRoute_of_values {start : Session} (new : start.New)
    (edited : Edited start.host.document)
    (isContainer : start.host.document.isContainer container = true) (actions : List Action)
    (built : ∀ a ∈ actions, a.Built) (succeeds : Succeeds container actions start)
    (route : Target → Route) (only : ∀ v, .render v ∈ actions →
      v.Every (fun attrs shown => ∀ x r, Claims attrs shown x r → r = route x) fun _ => True) :
    OneRoute looked container (visits container actions start) := by
  -- nothing is looked at, so every route may be taken
  have none : OneRoute (fun _ => false) container (visits container actions start) :=
    fun _ _ h => by simp at h
  have known := visits_comesFrom actions built (new.stands (watch none) edited isContainer)
    (fun t ht => admitted_of_mem none ht) new.clean succeeds
    (fun m hm => absurd (new.mounted?.symm.trans hm) (by simp)) fun v hv => hv
  have one : ∀ n x r, Reaches container (visits container actions start) n x r → r = route x := by
    rintro n x r ⟨t, ht, m, hm, reaches⟩
    obtain ⟨stands, clean, origin⟩ := known t ht
    obtain ⟨v, attrs, shown, hv, holds, claims⟩ := origin.claims stands clean hm reaches
    exact (holds.valueHolds.every (built _ hv) (only v hv)).1 x r claims
  intro n x _ r r' hr hr'
  exact (one n x r hr).trans (one n x r' hr').symm

/-! ### Renders that succeed -/

/-- A render that succeeds shows the picture of its value, unless a value of the same
skeleton has been tried in vain. -/
theorem render_shows (built : v.Built) (stands : Stands ω container initial debris s)
    (before : Admitted ω container s) (after : Admitted ω container (s.act container (.render v)).1)
    (succeeds : (s.act container (.render v)).2 = none)
    (unspoiled : s.renderer.Unspoiled container v s.tried) :
    FillsRenderably v.parts.1 v.parts.2 ∧ WrittenOnce ω.looked v.parts.1 v.parts.2 ∧
      ∃ debris' forest,
        Block (s.act container (.render v)).1.host.document container initial
          (debris' ++ forest) [] ∧
        shapes ω.looked forest = v.picture ω.looked ∧
        (s.renderer.AllClean container s.tried → debris' = debris) := by
  obtain ⟨fills, debris', m, hm, shared, same, hs, hdebris, hclean⟩ :=
    (render_ends built stands before).of_none succeeds
  have hm : (s.act container (.render v)).1.renderer.mounted? container = some m := hm
  have clean := hclean unspoiled
  have admits := after.writes hm
  have once := hs.writtenOnce clean same admits
  obtain ⟨forest, b, hshapes⟩ := hs.shows clean same admits
  rw [shared] at once hshapes
  exact ⟨fills, once, debris', forest, b, hshapes, hdebris⟩

/-- A value rendered after any actions that all succeeded shows, behind the children that
the container had at first, what it shows when it is rendered on its own: the same tree
of tags, texts and markers, and the same attributes, properties and listeners as far as
each was written to by one route only. A route by which it was only cleared counts as well. -/
theorem run_render_eq_alone {start : Session} (new : start.New) (edited : Edited start.host.document)
    (isContainer : start.host.document.isContainer container = true) (actions : List Action)
    (built : ∀ a ∈ actions ++ [.render v], a.Built)
    (succeeds : Succeeds container (actions ++ [.render v]) start) :
    let final := run container (actions ++ [.render v]) start
    let alone := v.renderAlone
    alone.failure = none ∧ ∃ shown,
      final.host.document.children container = start.host.document.children container ++ shown ∧
      final.host.document.outline shown =
        alone.host.document.outline (alone.host.document.children body) ∧
      ∀ looked : Target → Bool,
        OneRoute looked container (visits container (actions ++ [.render v]) start) →
        final.host.document.appearance looked shown =
          alone.host.document.appearance looked (alone.host.document.children body) := by
  obtain ⟨succeeds₁, succeeds₂, -⟩ := succeeds_append.1 succeeds
  have builtValue : v.Built := built (.render v) (by simp)
  have main : ∀ looked : Target → Bool,
      OneRoute looked container (visits container (actions ++ [.render v]) start) →
      v.renderAlone.failure = none ∧ ∃ shown,
        (run container (actions ++ [.render v]) start).host.document.children container =
          start.host.document.children container ++ shown ∧
        (run container (actions ++ [.render v]) start).host.document.appearance looked shown =
          v.renderAlone.host.document.appearance looked (v.renderAlone.host.document.children body) := by
    intro looked one
    have admitted : ∀ t ∈ visits container (actions ++ [.render v]) start,
        Admitted (watch one) container t := fun t ht => admitted_of_mem one ht
    have before := admitted _ (visits_prefix_subset _ _ (run_mem_visits container actions start))
    have after := admitted _ (run_mem_visits ..)
    obtain ⟨stands, clean⟩ := run_clean actions (fun a ha => built a (by simp [ha]))
      (new.stands (watch one) edited isContainer)
      (fun t ht => admitted t (visits_prefix_subset _ _ ht)) new.clean succeeds₁
    rw [run_snoc] at after ⊢
    obtain ⟨fills, once, debris, forest, b, hshapes, hdebris⟩ :=
      render_shows builtValue stands before after succeeds₂ fun m hm _ => clean m hm
    obtain rfl := hdebris clean
    obtain ⟨alone, happearance⟩ := v.renderAlone_appearance builtValue fills once
    exact ⟨alone, roots forest, by simpa using b.children_eq,
      (b.appearance looked).trans (hshapes.trans happearance.symm)⟩
  obtain ⟨alone, shown, hchildren, houtline⟩ := main (fun _ => false) fun _ _ h => by simp at h
  refine ⟨alone, shown, hchildren, houtline, fun looked one => ?_⟩
  obtain ⟨-, shown', hchildren', happearance⟩ := main looked one
  obtain rfl := List.append_cancel_left (hchildren.symm.trans hchildren')
  exact happearance

/-- A list gives way to a nested paragraph, after the paragraph was taken down once. The titles and
the listeners of all paragraphs are written through the same attribute. -/
theorem run_render_eq_alone_paragraph :
    let shared : SharedSkeleton := ⟨.parsed 1,
      ⟨[.element "p" [("title", .hole 0), ("@click", .hole 1)] [.text "Hi ", .hole 2]], 3⟩⟩
    let shown := Value.template 3 shared
      [.text "c", .null, .template 2 shared [.text "d", .callback "h", .text "x"]]
    let earlier : List Action :=
      [.render (.template 0 shared [.text "a", .callback "f", .text "b"]), .unmount, .clearCache,
        .render (.template 4 shared [.null, .callback "g", .list 1 [.text "y", .null, .bool true]])]
    let all : Target → Bool := fun _ => true
    let final := run body (earlier ++ [.render shown]) {}
    Succeeds body (earlier ++ [.render shown]) {} ∧
      OneRoute all body (visits body (earlier ++ [.render shown]) {}) ∧
      final.host.document.innerMarkup body =
        "<p title=\"c\">Hi <!----><p title=\"d\">Hi x<!----></p><!----><!----></p>" ∧
      ∃ nodes, final.host.document.children body = nodes ∧
        final.host.document.outline nodes =
          shown.renderAlone.host.document.outline (shown.renderAlone.host.document.children body) ∧
        final.host.document.appearance all nodes =
          shown.renderAlone.host.document.appearance all
            (shown.renderAlone.host.document.children body) := by
  intro shared shown earlier all final
  let route : Target → Route := fun | .listener _ => .hole 1 [] | _ => .hole 0 []
  have only : ∀ values x r, Claims [("title", .hole 0), ("@click", .hole 1)] values x r →
      r = route x := by
    intro values x r claims
    obtain ⟨i, b, keys, rfl, ⟨name, mem, named⟩, touches⟩ := claims.throughHole (by simp)
    rcases List.mem_pair.1 mem with heq | heq
    · obtain ⟨rfl, rfl⟩ : name = "title" ∧ i = 0 := by simpa using heq
      obtain rfl : Binding.attribute "title" = b := Option.some.inj named
      rcases keys with _ | ⟨k, keys⟩
      · obtain rfl := Option.some.inj touches
        rfl
      · exact absurd touches.1 (by simp)
    · obtain ⟨rfl, rfl⟩ : name = "@click" ∧ i = 1 := by simpa using heq
      obtain rfl : Binding.listener "click" = b := Option.some.inj named
      rcases keys with _ | ⟨k, keys⟩
      · obtain rfl := Binding.eq_of_drops_listener touches
        rfl
      · exact absurd touches.1 (by simp)
  have made : shared.Made := .inr ⟨["<p title=", " @click=", ">Hi ", "</p>"], by decide +kernel⟩
  have built : ∀ a ∈ earlier ++ [.render shown], a.Built := by
    simp [earlier, shown, Action.Built, Value.Built, Value.BuiltAll, made]
    decide
  have succeeds : Succeeds body (earlier ++ [.render shown]) {} := by
    refine ⟨?_, ?_, ?_, ?_, ?_, trivial⟩ <;> decide +kernel
  have one : OneRoute all body (visits body (earlier ++ [.render shown]) {}) := by
    refine oneRoute_of_values ⟨rfl, rfl⟩ .empty rfl _ built succeeds route fun v hv => ?_
    simp only [earlier, List.mem_append, List.mem_cons, Action.render.injEq, reduceCtorEq,
      List.not_mem_nil, or_false, false_or] at hv
    rcases hv with (rfl | rfl) | rfl
    · exact ⟨⟨only _, trivial, trivial, trivial⟩, trivial⟩
    · exact ⟨⟨only _, trivial, ⟨trivial, trivial, trivial, trivial⟩, trivial⟩, trivial⟩
    · exact ⟨⟨only _, trivial, ⟨⟨only _, trivial, trivial, trivial⟩, trivial⟩, trivial⟩, trivial⟩
  obtain ⟨-, nodes, hchildren, houtline, happearance⟩ :=
    run_render_eq_alone ⟨rfl, rfl⟩ .empty (by rfl : Document.empty.isContainer body = true) earlier
      built succeeds
  exact ⟨succeeds, one, by decide +kernel, nodes, hchildren, houtline, happearance all one⟩

/-- A route by which nothing is left is a route as well. Here a spread entry gives an attribute that
an absent one behind it has cleared before, and that it clears again when both are written anew. -/
example :
    let shared : SharedSkeleton := ⟨.parsed 1,
      ⟨[.element "p" [("...", .hole 0), ("?a", .hole 1)] []], 2⟩⟩
    let v := fun handle entries => Value.template handle shared
      [.attributes (handle + 1) entries, .bool false]
    let actions : List Action := [.render (v 0 []), .render (v 2 [("a", .text "y")])]
    (run body actions {}).host.document.innerMarkup body = "<p a=\"y\"></p>" ∧
      (v 2 [("a", .text "y")]).renderAlone.host.document.innerMarkup body = "<p></p>" := by
  decide +kernel

end Session

end LiveTemplate
