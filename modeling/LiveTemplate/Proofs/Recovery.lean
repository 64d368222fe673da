import LiveTemplate.Proofs.Incremental

/-!
# What is recorded and what is live

A render may fail at any point, and then leaves what it did. Whatever was rendered
before, a hole at which no value was tried in vain shows what the value recorded for it
shows from scratch: as content, in the attributes, properties and listeners of its
element, and as markup. At other holes the record may be wrong. So the next value is
shown right, unless one of the same skeleton was tried in vain and the skeleton has stood
there ever since.
-/
namespace LiveTemplate
open Document Subtree Live Patched

variable {ω : Watch} {container : NodeId} {initial : List NodeId} {debris : List Subtree}
  {tried : List (List Value)} {m : Mounted} {h : Host} {v : Value} {looked : Target → Bool}
  {b : Binding}

/-! ### From scratch at one hole -/

/-- A value applied to a new element, the second node of a new document. -/
def Live.applyAlone (b : Binding) (v : Value) : EStateM.Result DocumentError Host Unit :=
  apply 1 b .null v { document := (Document.empty.create (.element { tag := "div" })).2 }

/-- A value rendered on its own at a hole for content. -/
def Value.contentAlone (v : Value) : Patched Renderer := (Value.template 0 .bare [v]).renderAlone

theorem applyAlone_block :
    Block (Document.empty.create (.element { tag := "div" })).2 1 [] [] [] :=
  (Edited.create _ .empty).closed.block rfl

/-- What a value that can be written gives a new element along one path. -/
theorem applyAlone_reads (hb : b ≠ .markup) (built : v.Built) (writable : Writable b v) :
    ∃ h data, applyAlone b v = .ok () h ∧ h.document.element? 1 = some data ∧
      ∀ x keys, (∀ ks, wrote x b v ks ≠ none → ks = keys) →
        data.reading x = (wrote x b v keys).getD [] := by
  have null : Writable b .null := by
    cases b <;> simp [Writable, Binding.Accepts, Value.isTruthy]
  have runs := apply_turns 1 v built b hb .null trivial null
    { document := (Document.empty.create (.element { tag := "div" })).2 } { tag := "div" } rfl
  unfold Runs at runs
  split at runs
  next u h heq =>
    obtain ⟨data, hdoc, turns, -⟩ := runs
    refine ⟨h, data, heq, hdoc ▸ element?_withElement rfl, fun x keys only => ?_⟩
    have nothing : ({ tag := "div" } : ElementData).reading x = [] := by
      cases x <;> rfl
    by_cases hv : v = .null
    · subst hv
      have hr := turns.routed x [] (fun ks ht => (touches_null ht).1) (by simp) (by simp [nothing])
      simpa using hr
    · have changed : Value.null.same v = false := by
        cases v <;> first | rfl | exact absurd rfl hv
      exact turns.routed_of_changed changed x keys (fun h => absurd rfl h) only (by simp [nothing])
  next e h heq =>
    obtain ⟨-, data, -, -, no⟩ := runs
    exact absurd writable no

theorem applyAlone_markup (looked : Target → Bool) (applicable : Applicable .markup v) :
    ∃ h, applyAlone .markup v = .ok () h ∧
      h.document.appearance looked (h.document.children 1) =
        if v = .null then [] else shownMarkup looked v.toText := by
  have happly : ∀ h, applyAlone .markup v = h ↔ replaceMarkup 1 v
      { document := (Document.empty.create (.element { tag := "div" })).2 } = h := by
    cases v <;> exact fun _ => Iff.rfl
  have runs := @replaceMarkup_runs
    { document := (Document.empty.create (.element { tag := "div" })).2 } v looked _ _ applyAlone_block
  unfold Runs at runs
  split at runs
  next u h heq =>
    obtain ⟨kids, w, hshapes, -⟩ := runs
    have b := w.block applyAlone_block
    have hchildren : h.document.children 1 = roots kids := by simpa using b.children_eq
    exact ⟨h, (happly _).2 heq, by rw [hchildren, b.appearance looked, hshapes]⟩
  next e h heq =>
    obtain ⟨-, kids, -, no⟩ := runs
    exact absurd applicable no

/-- Nothing stands in the bare skeleton but its hole. -/
theorem seats_bare : Node.seatsAll SharedSkeleton.bare.nodes = [(0, .content)] := rfl

theorem Value.contentAlone_shows (built : v.Built) (renderable : v.Renderable)
    (once : ∀ attrs shown, ValueHolds attrs shown v → ∀ x, looked x = true → ∀ r r',
      Writes attrs shown x r → Writes attrs shown x r' → r = r') :
    v.contentAlone.failure = none ∧
      v.contentAlone.host.document.appearance looked (v.contentAlone.host.document.children body) =
        v.shapes looked ++ [.marker] := by
  have fills : FillsRenderably .bare [v] := by
    refine ⟨⟨trivial, trivial⟩, fun s hs => ?_⟩
    obtain rfl : s = (0, .content) := by simpa [seats_bare] using hs
    exact renderable
  have hpicture : (Value.template 0 .bare [v]).picture looked = v.shapes looked ++ [.marker] :=
    List.append_nil _
  rw [← hpicture]
  refine Value.renderAlone_appearance (v := .template 0 .bare [v]) ⟨.inl rfl, rfl, built, trivial⟩ fills ?_
  intro attrs shown holds x hx r r' hr hr'
  cases holds with
  | here seat _ => simp [Value.parts, seats_bare] at seat
  | inside seat holds =>
    obtain rfl : _ = 0 := by simpa [Value.parts, seats_bare] using seat
    exact once attrs shown holds x hx r r' hr hr'

/-! ### Live at one hole -/

/-- The skeleton of a table as it stands in the container, behind some siblings: with the
data of its elements, and what fills the spots of its holes. -/
structure Mounted.Laid (m : Mounted) (d : Document) (container : NodeId) (before : List NodeId)
    (ss : List Stem) (data : NodeId → ElementData) (fill : NodeId → List Subtree) : Prop where
  block : Block d container before (Stem.assembleAll data fill ss) []
  nodes : m.nodes = ss.map Stem.top
  seated : Seated m.shared ss m.places

/-- Each clean hole shows what its recorded value shows from scratch. At an element, that
is said of the targets that were written to through this hole only. -/
structure Mounted.ShowsRecorded (m : Mounted) (tried : List (List Value)) (looked : Target → Bool)
    (reached : NodeId → Target → Route → Prop) (data : NodeId → ElementData)
    (fill : NodeId → List Subtree) : Prop where
  contents : ∀ (i : Nat) (marker : NodeId) (item : Item),
    m.places[i]? = some (.content marker item) → Clean m.places tried i →
    item.shown.contentAlone.failure = none ∧
      shapes looked (fill marker ++ [.node marker .marker []]) =
        item.shown.contentAlone.host.document.appearance looked
          (item.shown.contentAlone.host.document.children body)
  readings : ∀ (i : Nat) (n : NodeId) (b : Binding) (prev : Value),
    m.places[i]? = some (.attribute n b prev) → b ≠ .markup → Clean m.places tried i →
    ∃ h alone, applyAlone b prev = .ok () h ∧ h.document.element? 1 = some alone ∧
      ∀ x, looked x = true → (∀ r, reached n x r → ∃ ks, r = .hole i ks) →
        (data n).reading x = alone.reading x
  hosts : ∀ (i : Nat) (n : NodeId) (prev : Value),
    m.places[i]? = some (.attribute n .markup prev) → Clean m.places tried i →
    ∃ h, applyAlone .markup prev = .ok () h ∧
      shapes looked (fill n) = h.document.appearance looked (h.document.children 1)

namespace TableFits

variable {clean : Nat → Prop} {kept : NodeId → Target → Prop} {shared : SharedSkeleton}
  {ss : List Stem} {data : NodeId → ElementData} {fill : NodeId → List Subtree}
  {places : List Place}

/-- What an element has for a target that is written to through one hole only. -/
theorem reading_of_only (t : TableFits ω clean kept shared ss data fill places) {i : Nat}
    {n : NodeId} {prev : Value} (place : places[i]? = some (.attribute n b prev)) {x : Target}
    (hx : ω.looked x = true) (hk : kept n x)
    (admits : ∀ attrs shown, TableMounts n attrs shown shared places → ω.Admits n attrs shown)
    (only : ∀ r, ω.taken n x r → ∃ ks, r = .hole i ks) :
    ∃ keys, (∀ ks, wrote x b prev ks ≠ none → ks = keys) ∧
      (data n).reading x = (wrote x b prev keys).getD [] := by
  obtain ⟨tag, attrs, he, hb⟩ := t.seated.element_of place
  have hshown : Places.shownAt places i = prev := Places.shownAt_of_get place rfl
  have taken : ∀ r, Writes attrs (Places.shownAt places) x r → ω.taken n x r :=
    admits _ _ (t.seated.mounts he hb) x hx
  have nodup := (t.seated.attrs_proper he).2
  have hread := t.reading _ he x hx hk taken
  have one : ∀ ks ks', ω.taken n x (.hole i ks) → ω.taken n x (.hole i ks') → ks = ks' :=
    fun ks ks' h h' => by simpa using ω.unique n x hx _ _ h h'
  have through : ∀ ks, wrote x b prev ks ≠ none → ω.taken n x (.hole i ks) := fun ks hw =>
    taken _ (.hole hb (hshown.symm ▸ hw))
  by_cases hw : ∃ ks, wrote x b prev ks ≠ none
  · obtain ⟨keys, hw⟩ := hw
    refine ⟨keys, fun ks h => one ks keys (through ks h) (through keys hw), ?_⟩
    rw [hread, look_of_only t.built nodup hb fun r hr => ?_, hshown]
    obtain ⟨ks, rfl⟩ := only r (taken r hr)
    rw [one ks keys (taken _ hr) (through keys hw)]
  · simp only [not_exists, not_not] at hw
    refine ⟨[], fun ks h => absurd (hw ks) h, ?_⟩
    rw [hread, hw, look_eq_nil t.built hb fun r hr => ?_]
    · rfl
    · obtain ⟨ks, rfl⟩ := only r (taken r hr)
      cases hr with
      | hole bound writes =>
        rw [← hb.unique nodup bound, hshown] at writes
        exact writes (hw ks)

end TableFits

/-- What is mounted shows at every clean hole what is recorded for it. -/
theorem Mounted.Stands.showsRecorded (s : m.Stands ω container initial debris tried h)
    (admits : ∀ n attrs shown, TableMounts n attrs shown m.shared m.places → ω.Admits n attrs shown) :
    ∃ ss data fill, m.Laid h.document container (initial ++ roots debris) ss data fill ∧
      m.ShowsRecorded tried ω.looked ω.taken data fill := by
  obtain ⟨ss, data, fill, b, nodes, t, contents⟩ := s
  have b₀ : Block h.document container initial (debris ++ Stem.assembleAll data fill ss ++ []) [] := by
    simpa using b
  refine ⟨ss, data, fill, ⟨b₀.part, nodes, t.seated⟩, ?_, ?_, ?_⟩
  · intro i marker item place clean
    obtain ⟨built, renderable⟩ := t.sound i _ place _ rfl
    have fits := contents i marker item place
    have admits : ∀ n attrs shown, Mounts n attrs shown item.content → ω.Admits n attrs shown :=
      fun n attrs shown hm => admits n attrs shown (.inside place hm)
    obtain ⟨succeeds, happearance⟩ := @Value.contentAlone_shows _ ω.looked built renderable
      fun attrs shown holds x hx r r' hr hr' => by
        obtain ⟨n, shown', hm, alike⟩ := fits.exists_mounts clean holds
        have back : AlikeAt attrs shown shown' := fun i b hb => (alike i b hb).symm
        exact ω.unique n x hx r r' (admits n attrs shown' hm x hx r (back.writes hr))
          (admits n attrs shown' hm x hx r' (back.writes hr'))
    refine ⟨succeeds, ?_⟩
    rw [happearance, shapes_append, fits.shapes clean admits]
    rfl
  · intro i n c prev place hc clean
    obtain ⟨built, applicable⟩ := t.sound i _ place _ rfl
    have writable : Writable c prev := by
      have h : Applicable c prev := applicable
      rwa [Applicable, if_neg hc] at h
    obtain ⟨h', alone, happly, helement, hreads⟩ := applyAlone_reads hc built writable
    refine ⟨h', alone, happly, helement, fun x hx only => ?_⟩
    have kept : Kept ω m.places tried n x := by
      refine ⟨hx, fun j ks ht => ?_⟩
      obtain ⟨ks', heq⟩ := only _ ht
      simp only [Route.hole.injEq] at heq
      exact heq.1 ▸ clean
    obtain ⟨keys, honly, hread⟩ := t.reading_of_only place hx kept (admits n) only
    rw [hread, hreads x keys honly]
  · intro i n prev place clean
    obtain ⟨-, applicable⟩ := t.sound i _ place _ rfl
    obtain ⟨h', happly, happearance⟩ := applyAlone_markup ω.looked applicable
    obtain ⟨attrs, hhost, hsource⟩ := t.host_of_bound place
    refine ⟨h', happly, ?_⟩
    have hshown : Places.shownAt m.places i = prev := Places.shownAt_of_get place rfl
    rw [happearance, t.host _ hhost fun j hj => ?_, markupShapes, hsource]
    · simp only [hshown]
    · obtain rfl : i = j := by simpa [hsource] using hj
      exact clean

namespace Session

variable {s : Session}

/-- After any actions, failed ones included, every clean hole of what is mounted shows
what is recorded for it. A value rendered then shows, behind what failures have left in
the container, what it shows when it is rendered on its own, unless a value of the same
skeleton was tried in vain since the skeleton was mounted. -/
theorem run_shows_recorded {start : Session} (new : start.New) (edited : Edited start.host.document)
    (isContainer : start.host.document.isContainer container = true) (actions : List Action)
    (built : ∀ a ∈ actions, a.Built) (looked : Target → Bool)
    (one : OneRoute looked container (visits container actions start)) :
    let final := run container actions start
    (∀ m, final.renderer.mounted? container = some m → ∃ left ss data fill,
      m.Laid final.host.document container (start.host.document.children container ++ left)
        ss data fill ∧
      m.ShowsRecorded final.tried looked (Reaches container (visits container actions start))
        data fill) ∧
    ∀ v : Value, v.Built → (final.act container (.render v)).2 = none →
      final.renderer.Unspoiled container v final.tried →
      OneRoute looked container (visits container (actions ++ [.render v]) start) →
      let next := (final.act container (.render v)).1
      let alone := v.renderAlone
      alone.failure = none ∧ ∃ left shown,
        next.host.document.children container =
          start.host.document.children container ++ left ++ shown ∧
        next.host.document.appearance looked shown =
          alone.host.document.appearance looked (alone.host.document.children body) := by
  constructor
  · intro m hm
    have admitted : ∀ t ∈ visits container actions start, Admitted (watch one) container t :=
      fun t ht => admitted_of_mem one ht
    obtain ⟨debris, stands⟩ := run_stands actions built
      (new.stands (watch one) edited isContainer) admitted
    rw [Stands, Renderer.Stands, hm] at stands
    obtain ⟨ss, data, fill, laid, shows⟩ :=
      stands.showsRecorded ((admitted _ (run_mem_visits ..)).writes hm)
    exact ⟨_, ss, data, fill, laid, shows⟩
  · intro v builtValue succeeds unspoiled one'
    have admitted : ∀ t ∈ visits container (actions ++ [.render v]) start,
        Admitted (watch one') container t := fun t ht => admitted_of_mem one' ht
    obtain ⟨debris, stands⟩ := run_stands actions built
      (new.stands (watch one') edited isContainer)
      fun t ht => admitted t (visits_prefix_subset _ _ ht)
    have before := admitted _ (visits_prefix_subset _ _ (run_mem_visits container actions start))
    have after := admitted _ (run_mem_visits ..)
    rw [run_snoc] at after
    obtain ⟨fills, once, debris', forest, b, hshapes, -⟩ :=
      render_shows builtValue stands before after succeeds unspoiled
    obtain ⟨alone, happearance⟩ := v.renderAlone_appearance builtValue fills once
    exact ⟨alone, roots debris', roots forest, by simpa using b.children_eq,
      (b.appearance_right looked).trans (hshapes.trans happearance.symm)⟩

/-- After an element that cannot be shown in place of a text, another skeleton is shown
as it should be. -/
theorem run_shows_recorded_paragraph :
    let earlier : List Action := [.render (.template 0 .paragraph [.text "a", .text "b"]),
      .render (.template 1 .paragraph [.text "a", .template 2 .misnamed []])]
    let v := Value.list 3 [.text "c", .null, .bool false]
    ((run body earlier {}).act body (.render v)).2 = none ∧
      ∃ shown, ((run body earlier {}).act body (.render v)).1.host.document.outline shown =
        v.renderAlone.host.document.outline (v.renderAlone.host.document.children body) := by
  intro earlier v
  have built : ∀ a ∈ earlier, a.Built := by
    simp [earlier, Action.Built, Value.Built, Value.BuiltAll]
  have one : ∀ visited, OneRoute (fun _ => false) body visited := fun _ _ _ h => by simp at h
  have succeeds : ((run body earlier {}).act body (.render v)).2 = none := by decide +kernel
  have unspoiled : (run body earlier {}).renderer.Unspoiled body v (run body earlier {}).tried := by
    intro m hm shared
    have other : ((run body earlier {}).renderer.mounted? body).map (·.shared) = some .paragraph := by
      decide +kernel
    rw [hm, Option.map_some, shared] at other
    exact absurd other (by decide)
  have new : New {} := ⟨rfl, rfl⟩
  obtain ⟨-, shows⟩ := run_shows_recorded new .empty rfl earlier built _ (one _)
  obtain ⟨-, -, shown, -, houtline⟩ := shows v (by simp [v, Value.Built, Value.BuiltAll]) succeeds
    unspoiled (one _)
  exact ⟨succeeds, shown, houtline⟩

/-- What was recorded before a failure may be gone. The text that was shown first is taken
for shown when it is rendered again, but it has been removed in between. -/
theorem recorded_text_lost :
    let v := Value.template 0 .paragraph [.null, .text "x"]
    let failed := (run body [.render v] {}).act body
      (.render (.template 1 .paragraph [.null, .template 2 .misnamed []]))
    let again := failed.1.act body (.render v)
    failed.2 = some (.invalidTagName "1b") ∧ again.2 = none ∧
      again.1.host.document.innerMarkup body = "<p>Hi <!----></p>" ∧
      v.renderAlone.host.document.innerMarkup body = "<p>Hi x<!----></p>" := by
  intro v failed again
  refine ⟨?_, ?_, ?_, ?_⟩
  · decide +kernel
  · decide +kernel
  · decide +kernel
  · decide +kernel

end Session

end LiveTemplate
