import LiveTemplate.Proofs.Dismounting

/-!
# Rendering into a container

What a renderer has mounted stands behind the children that the container had, and
behind what failures have left there. A render shows its value, or fails because the
value cannot be shown. A hole is clean as long as every value tried at it since its
skeleton was mounted could be shown there, and at clean holes the table is right even
after a failure.
-/
namespace LiveTemplate
open Document Subtree Live Patched

/-- Every value that has been tried at the place of the hole can be shown there. -/
def Clean (places : List Place) (tried : List (List Value)) (i : Nat) : Prop :=
  ∀ p, places[i]? = some p → ∀ values ∈ tried, p.Takes (Markup.valueAt values i)

/-- A target that is looked at and written to through clean holes only. -/
def Kept (ω : Watch) (places : List Place) (tried : List (List Value)) (n : NodeId) (x : Target) :
    Prop :=
  ω.looked x = true ∧ ∀ i ks, ω.taken n x (.hole i ks) → Clean places tried i

/-- The routes that values tried at the places of a table take to what they write. -/
def AdmitsAttempt (ω : Watch) (places : List Place) (values : List Value) : Prop :=
  ∀ (i : Nat) (n : NodeId) (b : Binding) (v : Value), places[i]? = some (.attribute n b v) →
    ∀ x ks, ω.looked x = true → wrote x b (Markup.valueAt values i) ks ≠ none →
      ω.taken n x (.hole i ks)

/-- What is mounted stands at the end of the container. -/
def Mounted.Stands (ω : Watch) (container : NodeId) (initial : List NodeId)
    (debris : List Subtree) (tried : List (List Value)) (m : Mounted) (h : Host) : Prop :=
  ∃ ss data fill,
    Block h.document container initial (debris ++ Stem.assembleAll data fill ss) [] ∧
    m.nodes = ss.map Stem.top ∧
    TableFits ω (Clean m.places tried) (Kept ω m.places tried) m.shared ss data fill m.places ∧
    PlacesFit ω (Clean m.places tried) fill m.places

/-- The same skeleton has the same kind of place for a hole, whatever it shows. -/
theorem Seated.bare_eq {shared : SharedSkeleton} {ss : List Stem} {places places' : List Place}
    (s : Seated shared ss places) (s' : Seated shared ss places') :
    places'.map Place.bare = places.map Place.bare := by
  have vacant : ∀ {l l' : List Place} (i : Nat), Seated shared ss l → Seated shared ss l' →
      (l.map Place.bare)[i]? = some .vacant → (l'.map Place.bare)[i]? = some .vacant := by
    intro l l' i s s' h
    have hlen : i < (l'.map Place.bare).length := by
      have hi := (List.getElem?_eq_some_iff.1 h).1
      rwa [List.length_map, s'.length, ← s.length, ← List.length_map Place.bare]
    rw [List.getElem?_eq_getElem hlen]
    by_contra hne
    have hp : (l'.map Place.bare)[i] ≠ .vacant := fun heq => hne (by rw [heq])
    have hl := (s.seat i _ hp).2 ((s'.seat i _ hp).1 (List.getElem?_eq_getElem hlen))
    exact hp (Option.some.inj (hl.symm.trans h))
  refine List.ext_getElem? fun i => Option.ext fun p => ?_
  by_cases hp : p = .vacant
  · subst hp
    exact ⟨vacant i s' s, vacant i s s'⟩
  · rw [s.seat i p hp, s'.seat i p hp]

theorem Clean.congr {places places' : List Place} {tried : List (List Value)} {i : Nat}
    (same : places'.map Place.bare = places.map Place.bare) (h : Clean places tried i) :
    Clean places' tried i := by
  intro p hp values hv
  have hbare : (places.map Place.bare)[i]? = some p.bare := by
    rw [← same, List.getElem?_map, hp, Option.map_some]
  rw [List.getElem?_map, Option.map_eq_some_iff] at hbare
  obtain ⟨q, hq, heq⟩ := hbare
  rw [← p.takes_bare, ← heq, q.takes_bare]
  exact h q hq values hv

theorem Clean.of_cons {places : List Place} {tried : List (List Value)} {values : List Value}
    {i : Nat} (h : Clean places (values :: tried) i) : Clean places tried i :=
  fun p hp vs hv => h p hp vs (List.mem_cons_of_mem _ hv)

/-- Values that fill the skeleton can be shown at all places. -/
theorem Clean.cons {shared : SharedSkeleton} {ss : List Stem} {places : List Place}
    {tried : List (List Value)} {values : List Value} {i : Nat} (h : Clean places tried i)
    (s : Seated shared ss places) (fills : FillsRenderably shared values) :
    Clean places (values :: tried) i := by
  intro p hp vs hv
  rcases List.mem_cons.1 hv with rfl | hv
  · exact (s.fillsRenderably_iff vs).1 fills i p hp
  · exact h p hp vs hv

namespace Renderer

/-- What the renderer has mounted into the container, if anything, stands there. -/
def Stands (ω : Watch) (container : NodeId) (initial : List NodeId) (debris : List Subtree)
    (tried : List (List Value)) (r : Renderer) (h : Host) : Prop :=
  match r.mounted? container with
  | none => Block h.document container initial debris []
  | some m => m.Stands ω container initial debris tried h

/-- The values that have been tried since the skeleton was mounted, once another value
is rendered. -/
def triedWith (container : NodeId) (v : Value) (r : Renderer) (tried : List (List Value)) :
    List (List Value) :=
  match r.mounted? container with
  | some m => if m.shared = v.parts.1 then v.parts.2 :: tried else [v.parts.2]
  | none => [v.parts.2]

variable {ω : Watch} {container : NodeId} {initial : List NodeId} {debris : List Subtree}
  {tried : List (List Value)} {r : Renderer} {h : Host} {m : Mounted} {v : Value}

theorem mounted?_put (m : Mounted) : (r.put container m).mounted? container = some m := by
  rw [mounted?, put, Entries.get?_put, if_pos rfl]

theorem mounted?_forget : (r.forget container).mounted? container = none := by
  rw [mounted?, forget, Entries.get?_erase, if_pos rfl]

theorem mounted?_put_of_ne {q : NodeId} (hq : q ≠ container) (r : Renderer) :
    (r.put container m).mounted? q = r.mounted? q := by
  rw [mounted?, put, Entries.get?_put, if_neg hq]
  rfl

theorem mounted?_forget_of_ne {q : NodeId} (hq : q ≠ container) (r : Renderer) :
    (r.forget container).mounted? q = r.mounted? q := by
  rw [mounted?, forget, Entries.get?_erase, if_neg hq]
  rfl

/-- Nothing has been tried in vain at what is mounted. -/
def AllClean (container : NodeId) (tried : List (List Value)) (r : Renderer) : Prop :=
  ∀ m, r.mounted? container = some m → ∀ i, Clean m.places tried i

/-- No value of the skeleton of this one has been tried in vain where it is to be shown. -/
def Unspoiled (container : NodeId) (v : Value) (tried : List (List Value)) (r : Renderer) : Prop :=
  ∀ m, r.mounted? container = some m → m.shared = v.parts.1 → ∀ i, Clean m.places tried i

/-- What is mounted is taken down, and nothing of it is left if all holes are clean. -/
theorem unmount_ends (hm : r.mounted? container = some m)
    (s : m.Stands ω container initial debris tried h) :
    (r.unmount container h).Ends
      (fun r' h' => r'.1 = r.forget container ∧ ∃ debris',
        Block h'.document container initial debris' [] ∧
        ((∀ i, Clean m.places tried i) → debris' = debris))
      (fun _ _ => False) := by
  obtain ⟨ss, data, fill, b, hnodes, t, contents⟩ := s
  rw [unmount, hm, ends_attempt]
  have b : Block h.document container initial (debris ++ Stem.assembleAll data fill ss ++ []) [] := by
    simpa using b
  refine dismount_runs hnodes t.seated b contents fun h' g w hg => ⟨rfl, _, w.block b, fun all => ?_⟩
  rw [hg all, List.append_nil, List.append_nil]

/-- The skeleton of a value and the values in it are what they should be. -/
theorem parts_built (built : v.Built) :
    v.parts.1.Made ∧ v.parts.2.length = v.parts.1.holes ∧ Value.BuiltAll v.parts.2 := by
  cases v <;> first | exact built | exact ⟨.inl rfl, rfl, built, trivial⟩

variable {values : List Value}

/-- A mounted table shows the values, or one of them cannot be shown at its place. -/
theorem patchMounted_ends (hm : r.mounted? container = some m)
    (s : m.Stands ω container initial debris tried h) (built : Value.BuiltAll values)
    (length : values.length = m.shared.holes)
    (within : ∀ (i : Nat) (p : Place), m.places[i]? = some p → PlaceWithin ω i p) :
    (r.patchMounted values container h).Ends
      (fun r' h' => FillsRenderably m.shared values ∧ ∃ m', r'.mounted? container = some m' ∧
        m'.shared = m.shared ∧ Places.Match m'.places values ∧
        m'.Stands ω container initial debris (values :: tried) h' ∧
        ((∀ i, Clean m.places tried i) → ∀ i, Clean m'.places (values :: tried) i))
      (fun r' h' => ¬FillsRenderably m.shared values ∧ ∃ m', r'.mounted? container = some m' ∧
        m'.shared = m.shared ∧ (AdmitsAttempt ω m'.places values →
          m'.Stands ω container initial debris (values :: tried) h')) := by
  obtain ⟨ss, data, fill, b, hnodes, t, contents⟩ := s
  have b₀ : Block h.document container initial (debris ++ Stem.assembleAll data fill ss ++ []) [] := by
    simpa using b
  rw [patchMounted, hm]
  dsimp only
  rw [ends_map]
  refine (PatchesPlaces.table (patchPlaces_ends ω m.shared values built) length b₀.part t contents
    within).mono ?_ ?_
  · rintro places' h' ⟨⟨data', fill', w, t', contents', -⟩, same⟩
    have b' : Block h'.document container initial (debris ++ Stem.assembleAll data' fill' ss) [] := by
      simpa using (w.part b₀).block b₀
    have hc : ∀ i, Clean places' (values :: tried) i → Clean m.places tried i := fun i hi =>
      hi.of_cons.congr (t'.seated.bare_eq t.seated)
    have fills := t'.fillsRenderably same
    refine ⟨fills, _, mounted?_put _, rfl, same, ⟨ss, data', fill', b', hnodes,
      t'.mono hc fun n x hk => ⟨hk.1, fun i ks ht => hc i (hk.2 i ks ht)⟩, contents'.mono hc⟩,
      fun all i => ?_⟩
    exact ((all i).congr (t.seated.bare_eq t'.seated)).cons t'.seated fills
  · rintro places' h' ⟨k, p, hk, no, data', fill', w, t', contents', -⟩
    refine ⟨fun hf => no ((t.seated.fillsRenderably_iff values).1 hf k p hk), _, mounted?_put _,
      rfl, fun attempt => ?_⟩
    have b' : Block h'.document container initial (debris ++ Stem.assembleAll data' fill' ss) [] := by
      simpa using (w.part b₀).block b₀
    have hbare : m.places.map Place.bare = places'.map Place.bare := t'.seated.bare_eq t.seated
    have hcl : ∀ i, Clean places' (values :: tried) i → Clean m.places tried i ∧ i ≠ k := by
      refine fun i hi => ⟨hi.of_cons.congr hbare, ?_⟩
      rintro rfl
      exact no (hi.congr hbare p hk values (List.mem_cons_self ..))
    refine ⟨ss, data', fill', b', hnodes, t'.mono hcl fun n x hkept => ⟨⟨hkept.1, fun i ks ht =>
      (hcl i (hkept.2 i ks ht)).1⟩, ?_⟩, contents'.mono hcl⟩
    -- through the place that failed, nothing that is kept may have been written to
    have untaken : ∀ ks, ¬ω.taken n x (.hole k ks) := fun ks ht => (hcl k (hkept.2 k ks ht)).2 rfl
    rcases p with _ | ⟨n', c, prev⟩ | ⟨marker, item⟩
    · trivial
    · rintro rfl
      refine ⟨fun hnull ks ht => untaken ks (within k _ hk hnull x ks hkept.1 ht), fun ks => ?_⟩
      by_contra hw
      have hplace : (places'.map Place.bare)[k]? = some (.attribute n c .null) := by
        rw [← hbare, List.getElem?_map, hk]
        rfl
      rw [List.getElem?_map, Option.map_eq_some_iff] at hplace
      obtain ⟨q, hq, heq⟩ := hplace
      cases q <;> simp [Place.bare] at heq
      obtain ⟨rfl, rfl⟩ := heq
      exact untaken ks (attempt k _ _ _ hq x ks hkept.1 hw)
    · trivial

/-- The value is shown, and of the debris in front of it and the table something holds. -/
def Succeeded (ω : Watch) (container : NodeId) (initial : List NodeId) (v : Value)
    (tried : List (List Value)) (P : List Subtree → Mounted → Prop) (r : Renderer) (h : Host) :
    Prop :=
  FillsRenderably v.parts.1 v.parts.2 ∧ ∃ debris m, r.mounted? container = some m ∧
    m.shared = v.parts.1 ∧ Places.Match m.places v.parts.2 ∧
    m.Stands ω container initial debris tried h ∧ P debris m

/-- The value cannot be shown. What is mounted stands all the same, as long as what was
tried takes the routes that may be taken. -/
def Failed (ω : Watch) (container : NodeId) (initial : List NodeId) (v : Value)
    (tried : List (List Value)) (r : Renderer) (h : Host) : Prop :=
  ¬FillsRenderably v.parts.1 v.parts.2 ∧
    ((∀ m, r.mounted? container = some m → AdmitsAttempt ω m.places v.parts.2) →
      ∃ debris, r.Stands ω container initial debris tried h)

/-- A value is shown where nothing is mounted, or cannot be shown. -/
theorem settle_ends (built : v.Built) (hm : r.mounted? container = none)
    (b : Block h.document container initial debris []) :
    ((r.settle v.parts.1 container h).andThen (patchMounted v.parts.2 container) id).Ends
      (Succeeded ω container initial v [v.parts.2] fun debris' m =>
        debris' = debris ∧ ∀ i, Clean m.places [v.parts.2] i)
      (Failed ω container initial v [v.parts.2]) := by
  obtain ⟨made, length, builtAll⟩ := parts_built built
  rw [ends_andThen, settle, hm]
  dsimp only
  rw [ends_attempt]
  refine (mount_runs ω made b (fun _ => True) fun _ _ => True).mono ?_ ?_
  · rintro ⟨tops, places⟩ h₁ ⟨ss, data, fill, w, htops, t, contents, bare⟩
    dsimp only
    have stands : Mounted.Stands ω container initial debris [] ⟨v.parts.1, places, tops⟩ h₁ :=
      ⟨ss, data, fill, w.block b, htops, t.mono (fun _ _ => trivial) fun _ _ _ => trivial,
        contents.mono fun _ _ => trivial⟩
    refine (patchMounted_ends (mounted?_put _) stands builtAll length fun i p hp =>
      placeWithin_bare (bare i p hp) i).mono ?_ ?_
    · rintro r' h' ⟨fills, m', hm', shared, same, hs, all⟩
      refine ⟨fills, debris, m', hm', shared, same, hs, rfl, all fun i p _ values hv => ?_⟩
      simp at hv
    · rintro r' h' ⟨no, m', hm', -, hs⟩
      refine ⟨no, fun attempts => ⟨debris, ?_⟩⟩
      rw [Stands, hm']
      exact hs (attempts m' hm')
  · rintro h₁ ⟨no, forest, w⟩
    refine ⟨fun hf => no hf.1, fun _ => ⟨debris ++ forest, ?_⟩⟩
    rw [id, Stands, hm]
    exact w.block b

theorem render_eq : r.render v container h = (r.makeRoom v.parts.1 container h).andThen
    (fun r h => (r.settle v.parts.1 container h).andThen (patchMounted v.parts.2 container) id)
    id := by
  unfold render
  cases v.parts
  rfl

/-- Where the skeleton of the value is mounted, nothing is left to do but to fill it. -/
theorem render_of_shared {m : Mounted} (hm : r.mounted? container = some m)
    (shared : m.shared = v.parts.1) :
    r.render v container h = r.patchMounted v.parts.2 container h := by
  have room : r.makeRoom v.parts.1 container h = ⟨r, h, none⟩ := by
    rw [makeRoom, hm]
    exact if_pos shared
  have settled : r.settle v.parts.1 container h = ⟨r, h, none⟩ := by
    rw [settle, hm]
  rw [render_eq, room]
  show (r.settle v.parts.1 container h).andThen _ _ = _
  rw [settled]
  rfl

/-- A value rendered into a container is shown there, unless it cannot be shown. Either
way what is mounted stands as the record says. -/
theorem render_ends (built : v.Built) (s : r.Stands ω container initial debris tried h)
    (within : ∀ m, r.mounted? container = some m →
      ∀ (i : Nat) (p : Place), m.places[i]? = some p → PlaceWithin ω i p) :
    (r.render v container h).Ends
      (Succeeded ω container initial v (r.triedWith container v tried) fun debris' m =>
        (r.AllClean container tried → debris' = debris) ∧
          (r.Unspoiled container v tried →
            ∀ i, Clean m.places (r.triedWith container v tried) i))
      (Failed ω container initial v (r.triedWith container v tried)) := by
  rw [render_eq, ends_andThen]
  rw [Stands] at s
  cases hm : r.mounted? container with
  | none =>
    rw [hm] at s
    rw [makeRoom, triedWith, hm]
    refine (settle_ends built hm s).mono ?_ fun _ _ failed => failed
    rintro r' h' ⟨fills, d, m', hm', shared, same, hs, rfl, all⟩
    exact ⟨fills, d, m', hm', shared, same, hs, fun _ => rfl, fun _ => all⟩
  | some m =>
    rw [hm] at s
    rw [makeRoom, triedWith, hm]
    dsimp only
    by_cases hshared : m.shared = v.parts.1
    · obtain ⟨-, length, builtAll⟩ := parts_built built
      rw [if_pos hshared, if_pos hshared, ends_done, ends_andThen, settle, hm]
      refine (patchMounted_ends hm s builtAll (hshared ▸ length) (within m hm)).mono ?_ ?_
      · rintro r' h' ⟨fills, m', hm', hs, same, stands, all⟩
        exact ⟨hshared ▸ fills, debris, m', hm', hs.trans hshared, same, stands,
          fun _ => rfl, fun unspoiled => all (unspoiled m hm hshared)⟩
      · rintro r' h' ⟨no, m', hm', -, stands⟩
        refine ⟨hshared ▸ no, fun attempts => ⟨debris, ?_⟩⟩
        rw [Stands, hm']
        exact stands (attempts m' hm')
    · rw [if_neg hshared, if_neg hshared, ends_map]
      refine (unmount_ends hm s).mono ?_ fun _ _ hfalse => hfalse.elim
      rintro ⟨r₁, was⟩ h₁ ⟨rfl, debris₁, b₁, hdebris⟩
      refine (settle_ends built mounted?_forget b₁).mono ?_ fun _ _ failed => failed
      rintro r' h' ⟨fills, d, m', hm', shared, same, hs, rfl, all⟩
      exact ⟨fills, d, m', hm', shared, same, hs, fun before => hdebris (before m hm), fun _ => all⟩

end Renderer

end LiveTemplate
