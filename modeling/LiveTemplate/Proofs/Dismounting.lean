import LiveTemplate.Proofs.Patching

/-!
# Taking down what is mounted

A mounted skeleton can always be taken down. Its contents are cleared first, and then
its own nodes are removed. What is left behind is what stood unknown in front of a marker
among those nodes; a faithful table leaves nothing.
-/
namespace LiveTemplate
open Document Subtree Live

namespace Stem

/-- What stands in front of the markers that are not inside of elements. -/
def leftover (fill : NodeId → List Subtree) : List Stem → List Subtree
  | [] => []
  | .hole marker _ :: rest => fill marker ++ leftover fill rest
  | _ :: rest => leftover fill rest

variable {data : NodeId → ElementData} {fill : NodeId → List Subtree}

/-- A stem is its own node behind what is left over when that is removed. -/
theorem assemble_top (s : Stem) :
    ∃ t, s.assemble data fill = leftover fill [s] ++ [t] ∧ t.root = s.top := by
  cases s with
  | hole marker index => exact ⟨_, by simp [assemble, leftover]; rfl, rfl⟩
  | _ => exact ⟨_, rfl, rfl⟩

theorem leftover_cons (s : Stem) (rest : List Stem) :
    leftover fill (s :: rest) = leftover fill [s] ++ leftover fill rest := by
  cases s <;> simp [leftover]

theorem leftover_eq_nil {ss : List Stem} (h : ∀ m ∈ markersAll ss, fill m.1 = []) :
    leftover fill ss = [] := by
  induction ss with
  | nil => rfl
  | cons s rest ih =>
    simp only [markersAll, List.mem_append] at h
    rw [leftover_cons, ih fun m hm => h m (.inr hm), List.append_nil]
    cases s with
    | hole marker index =>
      simpa [leftover] using h (marker, index) (.inl (List.mem_singleton_self _))
    | _ => rfl

end Stem

variable {ω : Watch} {clean : Nat → Prop} {shared : SharedSkeleton} {ss : List Stem}
  {data : NodeId → ElementData} {fill : NodeId → List Subtree} {parent : NodeId}
  {before : List NodeId}

namespace Live

/-- What stands in front of the markers from some hole on is gone where the hole is clean, and
what stands in front of the others has stayed. -/
structure ClearedFrom (ss : List Stem) (clean : Nat → Prop) (count : Nat)
    (fill fill' : NodeId → List Subtree) : Prop where
  kept : ∀ m ∈ Stem.markersAll ss, m.2 < count → fill' m.1 = fill m.1
  gone : ∀ m ∈ Stem.markersAll ss, count ≤ m.2 → clean m.2 → fill' m.1 = []

/-- One hole is done, and then those behind it. -/
theorem ClearedFrom.of_succ {count : Nat} {fill₁ fill' : NodeId → List Subtree}
    (others : ClearedFrom ss clean (count + 1) fill₁ fill')
    (kept : ∀ m ∈ Stem.markersAll ss, m.2 < count → fill₁ m.1 = fill m.1)
    (gone : ∀ m ∈ Stem.markersAll ss, m.2 = count → clean count → fill₁ m.1 = []) :
    ClearedFrom ss clean count fill fill' where
  kept m hm hlt := (others.kept m hm (Nat.lt_succ_of_lt hlt)).trans (kept m hm hlt)
  gone m hm hle hc := by
    rcases Nat.lt_or_eq_of_le hle with hlt | rfl
    · exact others.gone m hm hlt hc
    · exact (others.kept m hm (Nat.lt_succ_self _)).trans (gone m hm rfl hc)

/-- A marker at the index of a place makes it a content. -/
theorem place_at_length {done rest : List Place} {p : Place}
    (seated : Seated shared ss (done ++ p :: rest)) {m : NodeId × Nat}
    (hm : m ∈ Stem.markersAll ss) (here : m.2 = done.length) : ∃ item, p = .content m.1 item := by
  obtain ⟨item, hi⟩ := seated.place_of_marker hm
  exact ⟨item, by simpa [here] using hi⟩

/-- The contents of the places behind those that are done are cleared, and the others
stay. -/
theorem clearPlaces_runs : (rest done : List Place) → ∀ {h : Host}
    {fill : NodeId → List Subtree} {behind : List NodeId},
    Seated shared ss (done ++ rest) →
    Block h.document parent before (Stem.assembleAll data fill ss) behind →
    (∀ (i : Nat) (marker : NodeId) (item : Item), rest[i]? = some (.content marker item) →
      Fits ω (clean (done.length + i)) item.shown item.content (fill marker)) →
    ∀ {good : Unit → Host → Prop} {bad : Host → Prop},
    (∀ (h' : Host) fill', Rewrites h.document h'.document parent before
        (Stem.assembleAll data fill ss) (Stem.assembleAll data fill' ss) behind →
      ClearedFrom ss clean done.length fill fill' → good () h') →
    Runs (clearPlaces rest) h good bad
  | [], done, h, fill, _, seated, b, _, _, _, next => by
      refine next h fill (.refl b) ⟨fun _ _ _ => rfl, fun m hm hle => ?_⟩
      obtain ⟨item, hi⟩ := seated.place_of_marker hm
      have hlt := (List.getElem?_eq_some_iff.1 hi).1
      simp only [List.append_nil] at hlt
      exact absurd hlt (Nat.not_lt.2 hle)
  | p :: rest, done, h, fill, behind, seated, b, fits, good, bad, next => by
      have hlen : (done ++ [p]).length = done.length + 1 := by simp
      have seated' : Seated shared ss ((done ++ [p]) ++ rest) := by simpa using seated
      have fits' : ∀ (i : Nat) (marker : NodeId) (item : Item),
          rest[i]? = some (.content marker item) →
          Fits ω (clean ((done ++ [p]).length + i)) item.shown item.content (fill marker) := by
        intro i marker item hi
        have := fits (i + 1) marker item hi
        rwa [hlen, Nat.add_assoc, Nat.add_comm 1 i]
      have other : (∀ marker item, p ≠ .content marker item) →
          Runs (clearPlaces rest) h good bad := by
        intro hother
        refine clearPlaces_runs rest _ seated' b fits' fun h' fill' w cleared => ?_
        refine next h' fill' w ((hlen ▸ cleared).of_succ (fun _ _ _ => rfl) fun m hm here => ?_)
        obtain ⟨item, hi⟩ := place_at_length seated hm here
        exact absurd hi (hother _ _)
      rcases p with _ | ⟨n, c, v⟩ | ⟨marker, item⟩
      · exact other (by simp)
      · exact other (by simp)
      · have place : (done ++ .content marker item :: rest)[done.length]? =
            some (.content marker item) := by simp
        have hm := seated.marker_of place
        obtain ⟨q, before', rest', f⟩ := Stem.focusAll_marker ss b _ hm
        have distinct := Stem.distinctAll ss b.nodup
        have ne_marker : ∀ m ∈ Stem.markersAll ss, m.2 ≠ done.length → m.1 ≠ marker :=
          fun m hm' hne heq => hne (congrArg Prod.snd (distinct.marker_eq _ hm' _ hm heq))
        rw [clearPlaces, Runs.bind]
        refine clear_runs (fits 0 marker item rfl) f.block fun h₁ g w₁ hg => ?_
        have w₁ := f.lift _ _ w₁
        refine clearPlaces_runs rest _ seated' (w₁.block b) (fun i m k hi => ?_)
          fun h' fill' w cleared => next h' fill' (w₁.trans w) ((hlen ▸ cleared).of_succ ?_ ?_)
        · have later : ((done ++ [.content marker item]) ++ rest)[done.length + 1 + i]? =
              some (.content m k) := by
            rw [List.getElem?_append_right (by simp)]
            simpa using hi
          rw [Function.update_of_ne (ne_marker _ (seated'.marker_of later) (by simp; omega))]
          exact fits' i m k hi
        · intro m hm' hlt
          exact Function.update_of_ne (ne_marker m hm' (Nat.ne_of_lt hlt)) ..
        · intro m hm' here hc
          obtain ⟨k, hk⟩ := place_at_length seated hm' here
          injection hk with hk _
          rw [← hk, Function.update_self]
          exact hg hc

/-- The own nodes of a mounted skeleton are removed. -/
theorem removeTops_runs (fill : NodeId → List Subtree) : (ss : List Stem) →
    ∀ {left : List Subtree} {h : Host} {behind : List NodeId},
    Block h.document parent before (left ++ Stem.assembleAll data fill ss) behind →
    ∀ {good : Unit → Host → Prop} {bad : Host → Prop},
    (∀ h' : Host, Rewrites h.document h'.document parent before
        (left ++ Stem.assembleAll data fill ss) (left ++ Stem.leftover fill ss) behind →
      good () h') →
    Runs (Host.removeAll (ss.map Stem.top)) h good bad
  | [], _, h, _, b, _, _, next => next h (.refl b)
  | s :: rest, left, h, behind, b, good, bad, next => by
      obtain ⟨t, hs, ht⟩ : ∃ t, s.assemble data fill = Stem.leftover fill [s] ++ [t] ∧
          t.root = s.top := s.assemble_top
      have heq : left ++ Stem.assembleAll data fill (s :: rest) =
          (left ++ Stem.leftover fill [s]) ++ t :: Stem.assembleAll data fill rest := by
        simp [Stem.assembleAll, hs]
      rw [heq] at b
      obtain ⟨hok, w⟩ := Rewrites.remove b (.refl b)
      show Runs (Host.remove s.top >>= fun _ => Host.removeAll (rest.map Stem.top)) h good bad
      rw [Runs.bind, ← ht]
      refine Runs.edit_ok hok (removeTops_runs fill rest (w.block b) fun h' w' => next h' ?_)
      have hleft : left ++ Stem.leftover fill (s :: rest) =
          (left ++ Stem.leftover fill [s]) ++ Stem.leftover fill rest := by
        rw [Stem.leftover_cons, List.append_assoc]
      rw [heq, hleft]
      exact w.trans w'

end Live

/-- What is mounted in a part of a block is taken down, and nothing of it is left if all
its holes are clean. -/
theorem Renderer.dismount_runs {m : Mounted} {left right : List Subtree} {h : Host}
    {behind : List NodeId} (nodes : m.nodes = ss.map Stem.top)
    (seated : Seated m.shared ss m.places)
    (b : Block h.document parent before (left ++ Stem.assembleAll data fill ss ++ right) behind)
    (fits : PlacesFit ω clean fill m.places) {good : Unit → Host → Prop} {bad : Host → Prop}
    (next : ∀ (h' : Host) g, Rewrites h.document h'.document parent before
        (left ++ Stem.assembleAll data fill ss ++ right) (left ++ g ++ right) behind →
      ((∀ i, clean i) → g = []) → good () h') :
    Runs (dismount m) h good bad := by
  have contents : ∀ (i : Nat) (marker : NodeId) (item : Item),
      m.places[i]? = some (.content marker item) →
      Fits ω (clean (([] : List Place).length + i)) item.shown item.content (fill marker) :=
    fun i marker item hi => by simpa using fits i marker item hi
  rw [dismount, Runs.bind, nodes]
  refine clearPlaces_runs m.places [] seated b.part contents fun h₁ fill' w₁ cleared => ?_
  have b₁ : Block h₁.document parent (before ++ roots left) ([] ++ Stem.assembleAll data fill' ss)
      (roots right ++ behind) := w₁.block b.part
  refine removeTops_runs fill' ss b₁ fun h₂ w₂ => next h₂ _ ((w₁.trans w₂).part b) fun all => ?_
  exact Stem.leftover_eq_nil fun m hm => cleared.gone m hm (Nat.zero_le _) (all _)

end LiveTemplate
