import LiveTemplate.Proofs.Rendering

/-!
# Containers that renderers share

Several renderers may use the same container. Behind its first children it has one plot
after the other: what one of the renderers has mounted there, or what a failure has left.
A renderer changes its own plot, or adds one behind the others, and touches no other one.
-/
namespace LiveTemplate
open Document Subtree Live Patched

/-- Nothing is looked at, and nothing taken. -/
def Watch.blind : Watch := ⟨fun _ => false, fun _ _ _ => False, by simp⟩

theorem placeWithin_blind (i : Nat) (p : Place) : PlaceWithin .blind i p := by
  rcases p with _ | ⟨n, b, v⟩ | ⟨marker, item⟩
  · trivial
  · rintro - x ks ⟨⟩
  · rintro n attrs shown - x ⟨⟩

/-- A stretch of the children of a container, and the number of the renderer that has
mounted it, unless a failure has left it. -/
structure Plot where
  tenant : Option Nat
  forest : List Subtree

def Plot.forests (plots : List Plot) : List Subtree := plots.flatMap Plot.forest

@[simp] theorem Plot.forests_nil : forests [] = [] := rfl

@[simp] theorem Plot.forests_cons (p : Plot) (rest : List Plot) :
    forests (p :: rest) = p.forest ++ forests rest := rfl

@[simp] theorem Plot.forests_append (left right : List Plot) :
    forests (left ++ right) = forests left ++ forests right := List.flatMap_append

theorem Plot.forests_insert (left right : List Plot) (p : Plot) :
    forests (left ++ p :: right) = forests left ++ p.forest ++ forests right := by simp

/-- What is mounted is this forest. All of it is accounted for if the table is faithful. -/
def Mounted.Occupies (faithful : Prop) (m : Mounted) (forest : List Subtree) : Prop :=
  ∃ ss data fill, forest = Stem.assembleAll data fill ss ∧ m.nodes = ss.map Stem.top ∧
    TableFits .blind (fun _ => faithful) (fun _ _ => faithful) m.shared ss data fill m.places ∧
    PlacesFit .blind (fun _ => faithful) fill m.places

/-- The plots of a container are those that the renderers have mounted there, one each at
most. If all is faithful, nothing has been left by failures. -/
structure Plotted (faithful : Prop) (renderers : Nat → Renderer) (container : NodeId)
    (plots : List Plot) : Prop where
  distinct : (plots.filterMap Plot.tenant).Nodup
  occupied : ∀ p ∈ plots, ∀ i, p.tenant = some i →
    ∃ m, (renderers i).mounted? container = some m ∧ m.Occupies faithful p.forest
  housed : ∀ i m, (renderers i).mounted? container = some m → ∃ p ∈ plots, p.tenant = some i
  vacant : faithful → ∀ p ∈ plots, p.tenant = none → p.forest = []

/-- What the plots of a container become when one of the renderers has become another. -/
def Replots (faithful : Prop) (renderers : Nat → Renderer) (i : Nat) (container : NodeId)
    (initial : List NodeId) (plots : List Plot) (h : Host) (r' : Renderer) (h' : Host) : Prop :=
  (∀ q, q ≠ container → r'.mounted? q = (renderers i).mounted? q) ∧
    ∃ plots', Rewrites h.document h'.document container initial (Plot.forests plots)
        (Plot.forests plots') [] ∧
      Plotted faithful (Function.update renderers i r') container plots'

variable {faithful : Prop} {renderers : Nat → Renderer} {i : Nat} {container q : NodeId}
  {initial : List NodeId} {plots left right : List Plot} {h : Host} {r' : Renderer} {m : Mounted}
  {v : Value}

namespace Plotted

theorem mono (p : Plotted faithful renderers container plots) {faithful' : Prop}
    (hf : faithful' → faithful) : Plotted faithful' renderers container plots where
  distinct := p.distinct
  occupied x hx i hi := by
    obtain ⟨m, hm, ss, data, fill, hforest, hnodes, t, contents⟩ := p.occupied x hx i hi
    exact ⟨m, hm, ss, data, fill, hforest, hnodes, t.mono (fun _ => hf) fun _ _ => hf,
      contents.mono fun _ => hf⟩
  housed := p.housed
  vacant h := p.vacant (hf h)

/-- Only what is mounted in the container matters. -/
theorem congr (p : Plotted faithful renderers container plots)
    {renderers' : Nat → Renderer}
    (same : ∀ j, (renderers' j).mounted? container = (renderers j).mounted? container) :
    Plotted faithful renderers' container plots where
  distinct := p.distinct
  occupied x hx j hj := same j ▸ p.occupied x hx j hj
  housed j m hm := p.housed j m (same j ▸ hm)
  vacant := p.vacant

/-- The plot of a renderer among the others. -/
theorem exists_split (p : Plotted faithful renderers container plots)
    (hm : (renderers i).mounted? container = some m) :
    ∃ left f right, plots = left ++ ⟨some i, f⟩ :: right ∧ m.Occupies faithful f := by
  obtain ⟨⟨t, f⟩, hx, rfl⟩ := p.housed i m hm
  obtain ⟨left, right, rfl⟩ := List.append_of_mem hx
  obtain ⟨m', hm', occupies⟩ := p.occupied _ hx i rfl
  obtain rfl : m = m' := Option.some.inj (hm.symm.trans hm')
  exact ⟨left, f, right, rfl, occupies⟩

/-- What a plot may become when a renderer takes it, has it changed, or leaves it. -/
structure Fills (faithful : Prop) (i : Nat) (container : NodeId) (r' : Renderer) (y : Plot) :
    Prop where
  tenant : y.tenant = none ∨ y.tenant = some i
  mounted : ∀ m, r'.mounted? container = some m → y.tenant = some i
  occupied : y.tenant = some i → ∃ m, r'.mounted? container = some m ∧ m.Occupies faithful y.forest
  vacant : faithful → y.tenant = none → y.forest = []

theorem fills_occupied {f : List Subtree} (hm : r'.mounted? container = some m)
    (occupies : m.Occupies faithful f) : Fills faithful i container r' ⟨some i, f⟩ where
  tenant := .inr rfl
  mounted _ _ := rfl
  occupied _ := ⟨m, hm, occupies⟩
  vacant _ h := by simp at h

theorem fills_vacant {f : List Subtree} (hm : r'.mounted? container = none)
    (vacant : faithful → f = []) : Fills faithful i container r' ⟨none, f⟩ where
  tenant := .inl rfl
  mounted m h := by simp [hm] at h
  occupied h := by simp at h
  vacant hf _ := vacant hf

/-- Another plot in place of one that no other renderer has. -/
theorem replace {x y : Plot} (p : Plotted faithful renderers container (left ++ x :: right))
    (others : ∀ z ∈ left ++ right, z.tenant ≠ some i) (hx : x.tenant = none ∨ x.tenant = some i)
    (fills : Fills faithful i container r' y) :
    Plotted faithful (Function.update renderers i r') container (left ++ y :: right) := by
  have mem : ∀ {y z : Plot}, z ∈ left ++ y :: right → z = y ∨ z ∈ left ++ right := fun hz => by
    rw [List.mem_append, List.mem_cons] at hz
    rw [List.mem_append]
    tauto
  have back : ∀ {y z : Plot}, z ∈ left ++ right → z ∈ left ++ y :: right := fun hz => by
    rw [List.mem_append] at hz
    rw [List.mem_append, List.mem_cons]
    tauto
  have other : ∀ z ∈ left ++ right, ∀ j, z.tenant = some j → j ≠ i := by
    rintro z hz j hj rfl
    exact others z hz hj
  refine ⟨?_, fun z hz j hj => ?_, fun j m hm => ?_, fun hf z hz ht => ?_⟩
  · have distinct : ((left ++ right).filterMap Plot.tenant).Nodup :=
      p.distinct.sublist (List.Sublist.filterMap _ (by simp))
    rcases fills.tenant with hy | hy
    · rwa [List.filterMap_append, List.filterMap_cons_none hy, ← List.filterMap_append]
    · rw [List.filterMap_append, List.filterMap_cons_some hy, List.nodup_middle, List.nodup_cons,
        ← List.filterMap_append]
      refine ⟨fun hi => ?_, distinct⟩
      obtain ⟨z, hz, ht⟩ := List.mem_filterMap.1 hi
      exact others z hz ht
  · rcases mem hz with rfl | hz
    · obtain rfl : j = i := by simpa [hj] using fills.tenant
      rw [Function.update_self]
      exact fills.occupied hj
    · rw [Function.update_of_ne (other z hz j hj)]
      exact p.occupied z (back hz) j hj
  · by_cases hji : j = i
    · subst hji
      rw [Function.update_self] at hm
      exact ⟨y, by simp, fills.mounted m hm⟩
    · rw [Function.update_of_ne hji] at hm
      obtain ⟨z, hz, ht⟩ := p.housed j m hm
      rcases mem hz with rfl | hz
      · rcases hx with hx | hx
        · simp [hx] at ht
        · exact absurd (Option.some.inj (hx.symm.trans ht)).symm hji
      · exact ⟨z, back hz, ht⟩
  · rcases mem hz with rfl | hz
    · exact fills.vacant hf ht
    · exact p.vacant hf z (back hz) ht

/-- A renderer has one plot only. -/
theorem tenant_ne {f : List Subtree}
    (p : Plotted faithful renderers container (left ++ ⟨some i, f⟩ :: right)) :
    ∀ z ∈ left ++ right, z.tenant ≠ some i := by
  intro z hz ht
  have own : (⟨some i, f⟩ :: right : List Plot).filterMap Plot.tenant =
      i :: right.filterMap Plot.tenant := rfl
  have distinct := p.distinct
  rw [List.filterMap_append, own, List.nodup_middle, List.nodup_cons, ← List.filterMap_append]
    at distinct
  exact distinct.1 (List.mem_filterMap.2 ⟨z, hz, ht⟩)

/-- The plot of a renderer is changed. -/
theorem change {f : List Subtree} {y : Plot}
    (p : Plotted faithful renderers container (left ++ ⟨some i, f⟩ :: right))
    (fills : Fills faithful i container r' y) :
    Plotted faithful (Function.update renderers i r') container (left ++ y :: right) :=
  p.replace p.tenant_ne (.inr rfl) fills

/-- A plot is added behind the others, when the renderer has none. -/
theorem add {y : Plot} (p : Plotted faithful renderers container plots)
    (hm : (renderers i).mounted? container = none) (fills : Fills faithful i container r' y) :
    Plotted faithful (Function.update renderers i r') container (plots ++ [y]) := by
  have room : Plotted faithful renderers container (plots ++ ⟨none, []⟩ :: []) := by
    refine ⟨by simpa using p.distinct, fun z hz j hj => ?_, fun j m hj => ?_, fun hf z hz ht => ?_⟩
    · rcases List.mem_append.1 hz with hz | hz
      · exact p.occupied z hz j hj
      · simp [List.mem_singleton.1 hz] at hj
    · obtain ⟨z, hz, ht⟩ := p.housed j m hj
      exact ⟨z, List.mem_append_left _ hz, ht⟩
    · rcases List.mem_append.1 hz with hz | hz
      · exact p.vacant hf z hz ht
      · rw [List.mem_singleton.1 hz]
  refine room.replace (fun z hz ht => ?_) (.inl rfl) fills
  obtain ⟨m, hm', -⟩ := p.occupied z (by simpa using hz) i ht
  simp [hm] at hm'

end Plotted

namespace Renderer

/-- The plot of a renderer that unmounts is left. -/
theorem unmount_vacates {f : List Subtree}
    (p : Plotted faithful renderers container (left ++ ⟨some i, f⟩ :: right))
    (b : Block h.document container initial (Plot.forests (left ++ ⟨some i, f⟩ :: right)) [])
    (hm : (renderers i).mounted? container = some m) (occupies : m.Occupies faithful f) :
    ((renderers i).unmount container h).Ends
      (fun r h' => r.1.mounted? container = none ∧
        (∀ q, q ≠ container → r.1.mounted? q = (renderers i).mounted? q) ∧
        ∃ g, (faithful → g = []) ∧
          Rewrites h.document h'.document container initial
            (Plot.forests (left ++ ⟨some i, f⟩ :: right))
            (Plot.forests (left ++ ⟨none, g⟩ :: right)) [] ∧
          Plotted faithful (Function.update renderers i r.1) container
            (left ++ ⟨none, g⟩ :: right))
      (fun _ _ => False) := by
  obtain ⟨ss, data, fill, rfl, hnodes, t, contents⟩ := occupies
  rw [unmount, hm]
  dsimp only
  rw [ends_attempt]
  rw [Plot.forests_insert] at b
  refine dismount_runs hnodes t.seated b contents fun h' g w hg => ?_
  have hg : faithful → g = [] := fun hf => hg fun _ => hf
  refine ⟨mounted?_forget, fun q hq => mounted?_forget_of_ne hq _, g, hg, ?_,
    p.change (Plotted.fills_vacant mounted?_forget hg)⟩
  rw [Plot.forests_insert, Plot.forests_insert]
  exact w

/-- What a renderer has mounted is taken down, and nothing else. -/
theorem unmount_replots (p : Plotted faithful renderers container plots)
    (b : Block h.document container initial (Plot.forests plots) []) :
    ((renderers i).unmount container h).Ends
      (fun r h' => r.1.mounted? container = none ∧
        Replots faithful renderers i container initial plots h r.1 h')
      (fun _ _ => False) := by
  cases hm : (renderers i).mounted? container with
  | none =>
    rw [unmount, hm]
    exact ⟨hm, fun _ _ => rfl, plots, .refl b, by rwa [Function.update_eq_self]⟩
  | some m =>
    obtain ⟨left, f, right, rfl, occupies⟩ := p.exists_split hm
    refine (unmount_vacates p b hm occupies).mono ?_ fun _ _ hf => hf
    rintro r h' ⟨hnone, same, g, -, w, p'⟩
    exact ⟨hnone, same, _, w, p'⟩

/-- A value is filled into what is mounted. -/
theorem patchMounted_replots {values : List Value} (p : Plotted faithful renderers container plots)
    (b : Block h.document container initial (Plot.forests plots) [])
    (hm : (renderers i).mounted? container = some m) (built : Value.BuiltAll values)
    (length : values.length = m.shared.holes) :
    ((renderers i).patchMounted values container h).Ends
      (fun r' h' => Replots faithful renderers i container initial plots h r' h')
      (fun r' h' => Replots False renderers i container initial plots h r' h') := by
  obtain ⟨left, f, right, rfl, ss, data, fill, rfl, hnodes, t, contents⟩ := p.exists_split hm
  rw [Plot.forests_insert] at b
  rw [patchMounted, hm]
  dsimp only
  rw [ends_map]
  refine (PatchesPlaces.table (patchPlaces_ends .blind m.shared values built) length b.part t
    contents fun i p _ => placeWithin_blind i p).mono ?_ ?_
  · rintro places' h' ⟨⟨data', fill', w, t', contents', -⟩, -⟩
    refine ⟨fun q hq => mounted?_put_of_ne hq _, left ++ ⟨some i, _⟩ :: right, ?_,
      p.change (Plotted.fills_occupied (mounted?_put _)
        ⟨ss, data', fill', rfl, hnodes, t', contents'⟩)⟩
    rw [Plot.forests_insert, Plot.forests_insert]
    exact w.part b
  · rintro places' h' ⟨k, place, -, -, data', fill', w, t', contents', -⟩
    refine ⟨fun q hq => mounted?_put_of_ne hq _, left ++ ⟨some i, _⟩ :: right, ?_,
      (p.mono False.elim).change (Plotted.fills_occupied (mounted?_put _)
        ⟨ss, data', fill', rfl, hnodes, t'.mono (fun _ => False.elim) fun _ _ => False.elim,
          contents'.mono fun _ => False.elim⟩)⟩
    rw [Plot.forests_insert, Plot.forests_insert]
    exact w.part b

/-- Room is made for a skeleton: only the same one may stay. -/
theorem makeRoom_replots (shared : SharedSkeleton) (p : Plotted faithful renderers container plots)
    (b : Block h.document container initial (Plot.forests plots) []) :
    ((renderers i).makeRoom shared container h).Ends
      (fun r' h' => (∀ m, r'.mounted? container = some m → m.shared = shared) ∧
        Replots faithful renderers i container initial plots h r' h')
      (fun _ _ => False) := by
  have stay : Replots faithful renderers i container initial plots h (renderers i) h :=
    ⟨fun _ _ => rfl, plots, .refl b, by rwa [Function.update_eq_self]⟩
  rw [makeRoom]
  cases hm : (renderers i).mounted? container with
  | none => exact ⟨fun m h => by simp [hm] at h, stay⟩
  | some m =>
    dsimp only
    split
    next hs =>
      refine ⟨fun m' h => ?_, stay⟩
      obtain rfl : m = m' := Option.some.inj (hm.symm.trans h)
      exact hs
    next =>
      rw [ends_map]
      refine (unmount_replots p b).mono ?_ fun _ _ hf => hf
      rintro r' h' ⟨hnone, replots⟩
      exact ⟨fun m h => by simp [hnone] at h, replots⟩

/-- A skeleton is mounted, unless it is there. -/
theorem settle_replots {shared : SharedSkeleton} (made : shared.Made)
    (p : Plotted faithful renderers container plots)
    (b : Block h.document container initial (Plot.forests plots) [])
    (same : ∀ m, (renderers i).mounted? container = some m → m.shared = shared) :
    ((renderers i).settle shared container h).Ends
      (fun r' h' => (∃ m, r'.mounted? container = some m ∧ m.shared = shared) ∧
        Replots faithful renderers i container initial plots h r' h')
      (fun r' h' => Replots False renderers i container initial plots h r' h') := by
  have heq : ∀ y, Plot.forests (plots ++ [y]) = Plot.forests plots ++ y.forest := by simp
  rw [settle]
  cases hm : (renderers i).mounted? container with
  | some m =>
    exact ⟨⟨m, hm, same m hm⟩, fun _ _ => rfl, plots, .refl b, by rwa [Function.update_eq_self]⟩
  | none =>
    dsimp only
    rw [ends_attempt]
    refine (mount_runs .blind made b (fun _ => faithful) fun _ _ => faithful).mono ?_ ?_
    · rintro ⟨tops, places⟩ h' ⟨ss, data, fill, w, htops, t, contents, -⟩
      refine ⟨⟨_, mounted?_put _, rfl⟩, fun q hq => mounted?_put_of_ne hq _, plots ++ [⟨some i, _⟩],
        ?_, p.add hm (Plotted.fills_occupied (mounted?_put _)
          ⟨ss, data, fill, rfl, htops, t, contents⟩)⟩
      rwa [heq]
    · rintro h' ⟨-, forest, w⟩
      refine ⟨fun _ _ => rfl, plots ++ [⟨none, forest⟩], ?_,
        (p.mono False.elim).add hm (Plotted.fills_vacant hm False.elim)⟩
      rwa [heq]

end Renderer

/-- One change after the other. -/
theorem Replots.after {r₁ : Renderer} {h₁ h' : Host} {plots₁ : List Plot}
    (same : ∀ q, q ≠ container → r₁.mounted? q = (renderers i).mounted? q)
    (w : Rewrites h.document h₁.document container initial (Plot.forests plots)
      (Plot.forests plots₁) [])
    (next : Replots faithful (Function.update renderers i r₁) i container initial plots₁ h₁ r' h') :
    Replots faithful renderers i container initial plots h r' h' := by
  obtain ⟨same', plots', w', p'⟩ := next
  refine ⟨fun q hq => (same' q hq).trans ?_, plots', w.trans w', ?_⟩
  · rw [Function.update_self]
    exact same q hq
  · rwa [Function.update_idem] at p'

/-- A value is filled into its skeleton, which is mounted first if nothing is. -/
theorem Renderer.settle_patch_replots (built : v.Built)
    (p : Plotted faithful renderers container plots)
    (b : Block h.document container initial (Plot.forests plots) [])
    (same : ∀ m, (renderers i).mounted? container = some m → m.shared = v.parts.1) :
    (((renderers i).settle v.parts.1 container h).andThen
      (patchMounted v.parts.2 container) id).Ends
      (fun r' h' => Replots faithful renderers i container initial plots h r' h')
      (fun r' h' => Replots False renderers i container initial plots h r' h') := by
  obtain ⟨made, length, builtAll⟩ := parts_built built
  rw [ends_andThen]
  refine (settle_replots made p b same).mono ?_ fun _ _ hf => hf
  rintro r₁ h₁ ⟨⟨m, hm, hshared⟩, others₁, plots₁, w₁, p₁⟩
  have patched := @patchMounted_replots faithful _ i container initial plots₁ h₁ m _ p₁
    (w₁.block b) (by rwa [Function.update_self]) builtAll (hshared ▸ length)
  rw [Function.update_self] at patched
  exact patched.mono (fun _ _ hf => hf.after others₁ w₁) fun _ _ hf => hf.after others₁ w₁

/-- A value is rendered. Whatever comes of it, the other plots stay. -/
theorem Renderer.render_replots (built : v.Built) (p : Plotted faithful renderers container plots)
    (b : Block h.document container initial (Plot.forests plots) []) :
    ((renderers i).render v container h).Ends
      (fun r' h' => Replots faithful renderers i container initial plots h r' h')
      (fun r' h' => Replots False renderers i container initial plots h r' h') := by
  rw [render_eq, ends_andThen]
  refine (makeRoom_replots v.parts.1 p b).mono ?_ fun _ _ hf => hf.elim
  rintro r₁ h₁ ⟨same, others₁, plots₁, w₁, p₁⟩
  have filled := @settle_patch_replots faithful _ i container initial plots₁ h₁ v built p₁
    (w₁.block b) (by rwa [Function.update_self])
  rw [Function.update_self] at filled
  exact filled.mono (fun _ _ hf => hf.after others₁ w₁) fun _ _ hf => hf.after others₁ w₁

end LiveTemplate
