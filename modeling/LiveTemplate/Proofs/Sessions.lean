import LiveTemplate.Proofs.Elements
import LiveTemplate.Proofs.Rendering
import LiveTemplate.Proofs.Viewing

/-!
# Sessions

A session renders values into one container, unmounts what it shows, and clears the cache
of templates, in any order. What has been mounted stands in the container all the time,
and a session in which every step succeeds leaves nothing behind that it does not know.
What may be asked of the elements depends on the routes by which they were written to:
those of every value that was shown or tried.
-/
namespace LiveTemplate
open Document Subtree Live Patched

/-- What can be done with a container. -/
inductive Action where
  | render (v : Value)
  | unmount
  | clearCache

def Action.Built : Action → Prop
  | .render v => v.Built
  | _ => True

/-- How the values that were shown or tried write to a target of an element. -/
inductive Mounted.Reaches (m : Mounted) (tried : List (List Value)) (n : NodeId) (x : Target) :
    Route → Prop
  | claims {attrs : Attributes} {shown : Nat → Value} {r : Route}
      (mounts : TableMounts n attrs shown m.shared m.places) (claims : Claims attrs shown x r) :
      Reaches m tried n x r
  | tries {i : Nat} {b : Binding} {v : Value} {values : List Value} {keys : List String}
      (place : m.places[i]? = some (.attribute n b v)) (mem : values ∈ tried)
      (writes : wrote x b (Markup.valueAt values i) keys ≠ none) :
      Reaches m tried n x (.hole i keys)

/-- The values tried since the skeleton was mounted are kept for the record; no step
depends on them. -/
structure Session where
  workshop : Workshop := {}
  renderer : Renderer := {}
  host : Host := {}
  tried : List (List Value) := []

namespace Session

def act (container : NodeId) (s : Session) : Action → Session × Option DocumentError
  | .render v =>
      let r := s.renderer.render v container s.host
      ({ s with
          renderer := r.state
          host := r.host
          tried := s.renderer.triedWith container v s.tried }, r.failure)
  | .unmount =>
      let r := s.renderer.unmount container s.host
      ({ s with renderer := r.state.1, host := r.host, tried := [] }, r.failure)
  | .clearCache =>
      ({ s with workshop := { s.workshop with cache := s.workshop.cache.clear } }, none)

/-- The session after some actions, those that failed included. -/
def run (container : NodeId) : List Action → Session → Session
  | [], s => s
  | a :: rest, s => run container rest (s.act container a).1

/-- All sessions on the way, the first and the last included. -/
def visits (container : NodeId) : List Action → Session → List Session
  | [], s => [s]
  | a :: rest, s => s :: visits container rest (s.act container a).1

/-- No action fails. -/
def Succeeds (container : NodeId) : List Action → Session → Prop
  | [], _ => True
  | a :: rest, s => (s.act container a).2 = none ∧ Succeeds container rest (s.act container a).1

/-- How a target of an element was written to on the way. -/
def Reaches (container : NodeId) (visited : List Session) (n : NodeId) (x : Target) (r : Route) :
    Prop :=
  ∃ s ∈ visited, ∃ m, s.renderer.mounted? container = some m ∧ m.Reaches s.tried n x r

/-- Each target that is looked at was written to by one route only, at every element. To clear a
target is to write to it. -/
def OneRoute (looked : Target → Bool) (container : NodeId) (visited : List Session) : Prop :=
  ∀ n x, looked x = true → ∀ r r', Reaches container visited n x r →
    Reaches container visited n x r' → r = r'

def watch {looked : Target → Bool} {container : NodeId} {visited : List Session}
    (one : OneRoute looked container visited) : Watch :=
  ⟨looked, Reaches container visited, one⟩

variable {ω : Watch} {container : NodeId} {initial : List NodeId} {debris : List Subtree}
  {s : Session} {a : Action} {v : Value} {actions : List Action}

def Stands (ω : Watch) (container : NodeId) (initial : List NodeId) (debris : List Subtree)
    (s : Session) : Prop :=
  s.renderer.Stands ω container initial debris s.tried s.host

/-- All routes that were taken so far may be taken. -/
def Admitted (ω : Watch) (container : NodeId) (s : Session) : Prop :=
  ∀ m, s.renderer.mounted? container = some m → ∀ n x r, m.Reaches s.tried n x r →
    ω.taken n x r

theorem admitted_of_mem {looked : Target → Bool} {visited : List Session}
    (one : OneRoute looked container visited) (h : s ∈ visited) :
    Admitted (watch one) container s :=
  fun m hm _ _ _ hr => ⟨s, h, m, hm, hr⟩

theorem self_mem_visits (container : NodeId) (actions : List Action) (s : Session) :
    s ∈ visits container actions s := by
  cases actions <;> exact List.mem_cons_self ..

theorem run_mem_visits (container : NodeId) (actions : List Action) (s : Session) :
    run container actions s ∈ visits container actions s := by
  induction actions generalizing s with
  | nil => exact List.mem_singleton_self _
  | cons a rest ih => exact List.mem_cons_of_mem _ (ih _)

theorem run_append (first rest : List Action) :
    run container (first ++ rest) s = run container rest (run container first s) := by
  induction first generalizing s with
  | nil => rfl
  | cons a first ih => exact ih

theorem run_snoc (first : List Action) (a : Action) :
    run container (first ++ [a]) s = ((run container first s).act container a).1 := run_append ..

theorem visits_prefix_subset (first rest : List Action) :
    visits container first s ⊆ visits container (first ++ rest) s := by
  induction first generalizing s with
  | nil =>
    intro t ht
    rw [List.mem_singleton.1 ht]
    exact self_mem_visits ..
  | cons a first ih =>
    rintro t (_ | ⟨_, ht⟩)
    · exact List.mem_cons_self ..
    · exact List.mem_cons_of_mem _ (ih ht)

theorem succeeds_append {first rest : List Action} :
    Succeeds container (first ++ rest) s ↔
      Succeeds container first s ∧ Succeeds container rest (run container first s) := by
  induction first generalizing s with
  | nil => exact (true_and _).symm.to_iff
  | cons a first ih => simp only [List.cons_append, Succeeds, run, ih, and_assoc]

/-! ### What may be cleared, what may be tried -/

theorem Admitted.within (h : Admitted ω container s) {m : Mounted}
    (hm : s.renderer.mounted? container = some m) (seated : ∃ ss, Seated m.shared ss m.places)
    (i : Nat) (p : Place) (hp : m.places[i]? = some p) : PlaceWithin ω i p := by
  obtain ⟨ss, seated⟩ := seated
  rcases p with _ | ⟨n, b, v⟩ | ⟨marker, item⟩
  · trivial
  · intro hnull x ks _ ht
    obtain ⟨tag, attrs, he, hb⟩ := seated.element_of hp
    have hshown : Places.shownAt m.places i = v := Places.shownAt_of_get hp rfl
    exact h m hm n x _ (.claims (seated.mounts he hb) (.clears hb (hshown ▸ hnull) (hshown ▸ ht)))
  · intro n attrs shown hmounts x _ j c ks hb hnull ht
    exact h m hm n x _ (.claims (.inside hp hmounts) (.clears hb hnull ht))

theorem Admitted.writes (h : Admitted ω container s) {m : Mounted}
    (hm : s.renderer.mounted? container = some m) (n : NodeId) (attrs : Attributes)
    (shown : Nat → Value) (hmounts : TableMounts n attrs shown m.shared m.places) :
    ω.Admits n attrs shown :=
  fun x _ _ hw => h m hm n x _ (.claims hmounts (.writes hw))

theorem Admitted.attempt (h : Admitted ω container s) {values : List Value}
    (mem : values ∈ s.tried) {m : Mounted} (hm : s.renderer.mounted? container = some m) :
    AdmitsAttempt ω m.places values :=
  fun _ n _ _ hp x _ _ hw => h m hm n x _ (.tries hp mem hw)

end Session

theorem Mounted.Stands.seated {ω : Watch} {container : NodeId} {initial : List NodeId}
    {debris : List Subtree} {tried : List (List Value)} {m : Mounted} {h : Host}
    (s : m.Stands ω container initial debris tried h) : ∃ ss, Seated m.shared ss m.places := by
  obtain ⟨ss, data, fill, -, -, t, -⟩ := s
  exact ⟨ss, t.seated⟩

namespace Session

variable {ω : Watch} {container : NodeId} {initial : List NodeId} {debris : List Subtree}
  {s : Session} {a : Action} {v : Value} {actions : List Action}

theorem mem_tried : v.parts.2 ∈ s.renderer.triedWith container v s.tried := by
  rw [Renderer.triedWith]
  split
  · split
    · exact List.mem_cons_self ..
    · exact List.mem_singleton_self _
  · exact List.mem_singleton_self _

/-- A render shows its value or cannot. -/
theorem render_ends (built : v.Built) (stands : Stands ω container initial debris s)
    (admitted : Admitted ω container s) :
    (s.renderer.render v container s.host).Ends
      (Renderer.Succeeded ω container initial v (s.renderer.triedWith container v s.tried)
        fun debris' m => (s.renderer.AllClean container s.tried → debris' = debris) ∧
          (s.renderer.Unspoiled container v s.tried →
            ∀ i, Clean m.places (s.renderer.triedWith container v s.tried) i))
      (Renderer.Failed ω container initial v (s.renderer.triedWith container v s.tried)) := by
  refine Renderer.render_ends built stands fun m hm => admitted.within hm ?_
  have stands : s.renderer.Stands ω container initial debris s.tried s.host := stands
  rw [Renderer.Stands, hm] at stands
  exact stands.seated

theorem unmount_ends (stands : Stands ω container initial debris s) :
    (s.renderer.unmount container s.host).Ends
      (fun r h => r.1.mounted? container = none ∧ ∃ debris',
        Block h.document container initial debris' [] ∧
        (s.renderer.AllClean container s.tried → debris' = debris))
      (fun _ _ => False) := by
  have stands : s.renderer.Stands ω container initial debris s.tried s.host := stands
  rw [Renderer.Stands] at stands
  cases hm : s.renderer.mounted? container with
  | none =>
    rw [hm] at stands
    rw [Renderer.unmount, hm]
    exact ⟨hm, debris, stands, fun _ => rfl⟩
  | some m =>
    rw [hm] at stands
    refine (Renderer.unmount_ends hm stands).mono ?_ fun _ _ hf => hf
    rintro r h ⟨hr, debris', b, hd⟩
    exact ⟨hr ▸ Renderer.mounted?_forget, debris', b, fun all => hd (all m hm)⟩

/-! ### What a step preserves -/

theorem act_stands (built : a.Built) (stands : Stands ω container initial debris s)
    (before : Admitted ω container s) (after : Admitted ω container (s.act container a).1) :
    ∃ debris', Stands ω container initial debris' (s.act container a).1 := by
  cases a with
  | render v =>
    have ends := render_ends built stands before
    by_cases hf : (s.renderer.render v container s.host).failure = none
    · obtain ⟨-, debris', m, hm, -, -, hs, -⟩ := ends.of_none hf
      refine ⟨debris', ?_⟩
      show Renderer.Stands ω container initial debris' _ (s.renderer.render v container s.host).state _
      rw [Renderer.Stands, hm]
      exact hs
    · obtain ⟨-, hs⟩ := ends.of_some hf
      exact hs fun m hm => after.attempt mem_tried hm
  | unmount =>
    have ends := unmount_ends stands
    by_cases hf : (s.renderer.unmount container s.host).failure = none
    · obtain ⟨hm, debris', b, -⟩ := ends.of_none hf
      refine ⟨debris', ?_⟩
      show Renderer.Stands ω container initial debris' _ (s.renderer.unmount container s.host).state.1 _
      rw [Renderer.Stands, hm]
      exact b
    · exact (ends.of_some hf).elim
  | clearCache => exact ⟨debris, stands⟩

/-- A step that succeeds where all is clean leaves all clean, and nothing behind. -/
theorem act_clean (built : a.Built) (stands : Stands ω container initial debris s)
    (before : Admitted ω container s) (clean : s.renderer.AllClean container s.tried)
    (succeeds : (s.act container a).2 = none) :
    Stands ω container initial debris (s.act container a).1 ∧
      (s.act container a).1.renderer.AllClean container (s.act container a).1.tried := by
  cases a with
  | render v =>
    obtain ⟨-, debris', m, hm, -, -, hs, hdebris, hclean⟩ :=
      (render_ends built stands before).of_none succeeds
    obtain rfl := hdebris clean
    constructor
    · show Renderer.Stands ω container initial debris' _ (s.renderer.render v container s.host).state _
      rw [Renderer.Stands, hm]
      exact hs
    · intro m' hm'
      obtain rfl : m = m' := Option.some.inj (hm.symm.trans hm')
      exact hclean fun m hm _ => clean m hm
  | unmount =>
    obtain ⟨hm, debris', b, hd⟩ := (unmount_ends stands).of_none succeeds
    obtain rfl := hd clean
    constructor
    · show Renderer.Stands ω container initial debris' _ (s.renderer.unmount container s.host).state.1 _
      rw [Renderer.Stands, hm]
      exact b
    · intro m' hm'
      exact absurd (hm.symm.trans hm') (by simp)
  | clearCache => exact ⟨stands, clean⟩

/-- What a render that succeeds where all is clean has mounted. -/
theorem render_mounted (built : v.Built) (stands : Stands ω container initial debris s)
    (before : Admitted ω container s) (clean : s.renderer.AllClean container s.tried)
    (succeeds : (s.act container (.render v)).2 = none) :
    let s' := (s.act container (.render v)).1
    ∃ m, s'.renderer.mounted? container = some m ∧ m.shared = v.parts.1 ∧
      Places.Match m.places v.parts.2 ∧ m.Stands ω container initial debris s'.tried s'.host ∧
      ∀ i, Clean m.places s'.tried i := by
  obtain ⟨-, debris', m, hm, shared, same, stands', hdebris, hclean⟩ :=
    (render_ends built stands before).of_none succeeds
  obtain rfl := hdebris clean
  exact ⟨m, hm, shared, same, stands', hclean fun m hm _ => clean m hm⟩

/-! ### What a run preserves -/

/-- What is mounted stands in the container after any actions. -/
theorem run_stands (actions : List Action) (built : ∀ a ∈ actions, a.Built)
    (stands : Stands ω container initial debris s)
    (admitted : ∀ t ∈ visits container actions s, Admitted ω container t) :
    ∃ debris', Stands ω container initial debris' (run container actions s) := by
  induction actions generalizing s debris with
  | nil => exact ⟨debris, stands⟩
  | cons a rest ih =>
    obtain ⟨debris', next⟩ := act_stands (built a (List.mem_cons_self ..)) stands
      (admitted _ (self_mem_visits ..))
      (admitted _ (List.mem_cons_of_mem _ (self_mem_visits ..)))
    exact ih (fun b hb => built b (List.mem_cons_of_mem _ hb)) next fun t ht =>
      admitted t (List.mem_cons_of_mem _ ht)

theorem run_clean (actions : List Action) (built : ∀ a ∈ actions, a.Built)
    (stands : Stands ω container initial debris s)
    (admitted : ∀ t ∈ visits container actions s, Admitted ω container t)
    (clean : s.renderer.AllClean container s.tried) (succeeds : Succeeds container actions s) :
    Stands ω container initial debris (run container actions s) ∧
      (run container actions s).renderer.AllClean container (run container actions s).tried := by
  induction actions generalizing s with
  | nil => exact ⟨stands, clean⟩
  | cons a rest ih =>
    obtain ⟨next, clean'⟩ := act_clean (built a (List.mem_cons_self ..)) stands
      (admitted _ (self_mem_visits ..)) clean succeeds.1
    exact ih (fun b hb => built b (List.mem_cons_of_mem _ hb)) next
      (fun t ht => admitted t (List.mem_cons_of_mem _ ht)) clean' succeeds.2

end Session

end LiveTemplate
