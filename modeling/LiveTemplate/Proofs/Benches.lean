import LiveTemplate.Proofs.Framing

/-!
# Benches

On a bench any number of skeletons are mounted in the containers of one document, and their
tables are patched, each with any values. The containers are nodes that the document had at
the start. As long as all of this succeeds, each table stands as if a renderer of its own had
mounted it. So values that differ in one place only change nothing but what this place may.
-/
namespace LiveTemplate
open Document Subtree Live Patched

/-- What is done on a bench. -/
inductive Job where
  | mount (container : NodeId) (shared : SharedSkeleton)
  | resolve (table : Nat) (values : List Value)

/-- The job is about a container of the document and a skeleton that can be made, or about
values that can be. -/
def Job.On (d : Document) : Job → Prop
  | .mount container shared => d.isContainer container = true ∧ shared.Made
  | .resolve _ values => Value.BuiltAll values

/-- Tables that share a host. -/
structure Bench where
  tables : List (List Place) := []
  host : Host := {}

namespace Bench

/-- A skeleton that cannot be mounted has no table. -/
def act (b : Bench) : Job → Bench × Option DocumentError
  | .mount container shared =>
      match Live.mount shared.skeleton container b.host with
      | .ok (_, places) host => (⟨b.tables ++ [places], host⟩, none)
      | .error e host => (⟨b.tables, host⟩, some e)
  | .resolve table values =>
      match b.tables[table]? with
      | none => (b, none)
      | some places =>
          let r := patchPlaces places values b.host
          (⟨b.tables.set table r.state, r.host⟩, r.failure)

def run : List Job → Bench → Bench
  | [], b => b
  | job :: rest, b => run rest (b.act job).1

/-- No job fails. -/
def Succeeds : List Job → Bench → Prop
  | [], _ => True
  | job :: rest, b => (b.act job).2 = none ∧ Succeeds rest (b.act job).1

variable {b start : Bench} {jobs : List Job} {container : NodeId} {shared : SharedSkeleton}
  {j k : Nat} {values us vs : List Value} {places : List Place} {d : Document}

theorem run_append (first rest : List Job) (b : Bench) :
    b.run (first ++ rest) = (b.run first).run rest := by
  induction first generalizing b with
  | nil => rfl
  | cons job first ih => exact ih _

theorem succeeds_append {first rest : List Job} :
    b.Succeeds (first ++ rest) ↔ b.Succeeds first ∧ (b.run first).Succeeds rest := by
  induction first generalizing b with
  | nil => exact ⟨fun h => ⟨trivial, h⟩, And.right⟩
  | cons job first ih => simp only [List.cons_append, Succeeds, run, ih, and_assoc]

/-- Each table is the one of a renderer of its own, in a scene that stands. -/
structure Staged (d : Document) (b : Bench) (s : Scene) : Prop where
  host : s.host = b.host
  stands : ∃ plots, s.Stands True d plots
  seated : ∀ (j : Nat) (places : List Place), b.tables[j]? = some places → ∃ q m,
    d.isContainer q = true ∧ (s.renderers j).mounted? q = some m ∧ m.places = places
  vacant : ∀ j, b.tables.length ≤ j → ∀ q, (s.renderers j).mounted? q = none

/-- What has been mounted for a table stands in a container, with all that its places show. -/
theorem Staged.occupied {s : Scene} (st : b.Staged d s) (h : b.tables[j]? = some places) :
    ∃ q shared ss data fill before behind,
      Block b.host.document q before (Stem.assembleAll data fill ss) behind ∧
      TableFits .blind (fun _ => True) (fun _ _ => True) shared ss data fill places ∧
      PlacesFit .blind (fun _ => True) fill places := by
  obtain ⟨plots, stands⟩ := st.stands
  obtain ⟨q, m, hq, hm, rfl⟩ := st.seated j places h
  obtain ⟨left, f, right, hplots, ss, data, fill, rfl, -, fits, contents⟩ :=
    (stands.plotted q hq).exists_split hm
  have blk := stands.block q hq
  have split : Plot.forests (plots q) =
      Plot.forests left ++ Stem.assembleAll data fill ss ++ Plot.forests right := by
    simp [hplots]
  rw [split, st.host] at blk
  exact ⟨q, m.shared, ss, data, fill, _, _, blk.part, fits, contents⟩

/-- One renderer changes what it has mounted, and with it its table. -/
theorem Staged.replot {s : Scene} (st : b.Staged d s) {plots : NodeId → List Plot}
    (stands : s.Stands True d plots) (hq : d.isContainer container = true) {r' : Renderer}
    {h' : Host} (replots : Replots True s.renderers j container (d.children container)
      (plots container) b.host r' h') {m : Mounted} (hm : r'.mounted? container = some m)
    {tables : List (List Place)} (here : tables[j]? = some m.places)
    (others : ∀ i, i ≠ j → tables[i]? = b.tables[i]?) :
    Staged d ⟨tables, h'⟩ ⟨Function.update s.renderers j r', h'⟩ where
  host := rfl
  stands := stands.replot id hq (st.host ▸ replots)
  seated i places hi := by
    by_cases hij : i = j
    · subst hij
      obtain rfl := Option.some.inj (here.symm.trans hi)
      exact ⟨container, m, hq, by simpa using hm, rfl⟩
    · obtain ⟨q, m, hq, hm, heq⟩ := st.seated i places ((others i hij).symm.trans hi)
      exact ⟨q, m, hq, by simpa [hij] using hm, heq⟩
  vacant i hi q := by
    have hij : i ≠ j := by
      rintro rfl
      rw [List.getElem?_eq_none hi] at here
      contradiction
    have beyond : b.tables.length ≤ i := by
      rw [← List.getElem?_eq_none_iff, ← others i hij]
      exact List.getElem?_eq_none hi
    simpa [hij] using st.vacant i beyond q

/-! ### What a job preserves -/

/-- A skeleton is mounted by one more renderer. -/
theorem Staged.mount {s : Scene} (st : b.Staged d s) (hq : d.isContainer container = true)
    (made : shared.Made) (succeeds : (b.act (.mount container shared)).2 = none) :
    ∃ s', (b.act (.mount container shared)).1.Staged d s' := by
  obtain ⟨plots, stands⟩ := st.stands
  have vacant := st.vacant b.tables.length le_rfl container
  have settles := Renderer.settle_replots made (stands.plotted container hq)
    (stands.block container hq) fun m hm => absurd (vacant.symm.trans hm) (by simp)
  unfold act at succeeds ⊢
  dsimp only at succeeds ⊢
  cases mounted : Live.mount shared.skeleton container b.host with
  | error e h' =>
    rw [mounted] at succeeds
    contradiction
  | ok r h' =>
    obtain ⟨nodes, places⟩ := r
    have run : (s.renderers b.tables.length).settle shared container s.host =
        ⟨(s.renderers b.tables.length).put container ⟨shared, places, nodes⟩, h', none⟩ := by
      simp [Renderer.settle, vacant, st.host, attempt, EStateM.run, mounted]
    rw [run, st.host] at settles
    refine ⟨_, st.replot stands hq settles.2 (Renderer.mounted?_put _) (by simp) fun i hi => ?_⟩
    rcases Nat.lt_or_ge i b.tables.length with hlt | hge
    · rw [List.getElem?_append_left hlt]
    · rw [List.getElem?_eq_none (by simp; omega), List.getElem?_eq_none hge]

/-- A table is patched by its renderer. -/
theorem Staged.resolve {s : Scene} (st : b.Staged d s) (built : Value.BuiltAll values)
    (succeeds : (b.act (.resolve j values)).2 = none) :
    ∃ s', (b.act (.resolve j values)).1.Staged d s' := by
  unfold act at succeeds ⊢
  dsimp only at succeeds ⊢
  cases hj : b.tables[j]? with
  | none => exact ⟨s, st⟩
  | some places =>
    rw [hj] at succeeds
    obtain ⟨plots, stands⟩ := st.stands
    obtain ⟨q, m, hq, hm, rfl⟩ := st.seated j places hj
    obtain ⟨_, _, _, -, ss, data, fill, -, -, fits, -⟩ := (stands.plotted q hq).exists_split hm
    have patched := Renderer.patchMounted_replots (stands.plotted q hq) (stands.block q hq) hm
      (builtAll_fitted built) (length_fitted.trans fits.seated.length)
    rw [Renderer.patchMounted, hm, st.host] at patched
    dsimp only at patched succeeds ⊢
    rw [← patchPlaces_fitted] at patched
    have hlt : j < b.tables.length := (List.getElem?_eq_some_iff.1 hj).1
    refine ⟨_, st.replot stands hq (patched.of_none succeeds) (Renderer.mounted?_put _)
      (List.getElem?_set_self hlt) fun i hi => ?_⟩
    exact List.getElem?_set_ne (Ne.symm hi)

theorem Staged.act {s : Scene} (st : b.Staged d s) {job : Job} (on : job.On d)
    (succeeds : (b.act job).2 = none) : ∃ s', (b.act job).1.Staged d s' := by
  cases job with
  | mount container shared => exact st.mount on.1 on.2 succeeds
  | resolve j values => exact st.resolve on succeeds

/-! ### What jobs preserve -/

theorem Staged.run {s : Scene} (st : b.Staged d s) (on : ∀ job ∈ jobs, job.On d)
    (succeeds : b.Succeeds jobs) : ∃ s', (b.run jobs).Staged d s' := by
  induction jobs generalizing b s with
  | nil => exact ⟨s, st⟩
  | cons job rest ih =>
    rw [List.forall_mem_cons] at on
    obtain ⟨s', st'⟩ := st.act on.1 succeeds.1
    exact ih st' on.2 succeeds.2

theorem staged_of_new (new : start.tables = []) (closed : Closed start.host.document) :
    start.Staged start.host.document { host := start.host } where
  host := rfl
  stands := by
    have new : Scene.New { host := start.host } := fun _ _ => rfl
    exact ⟨_, new.stands_of_closed closed⟩
  seated j places h := by simp [new] at h
  vacant _ _ _ := rfl

/-! ### One value that differs -/

/-- A table that has been patched shows the values. -/
theorem Staged.shows {s : Scene} (st : b.Staged d s) (built : Value.BuiltAll values)
    (succeeds : (b.act (.resolve j values)).2 = none)
    (table : (b.act (.resolve j values)).1.tables[j]? = some places) :
    Places.Match places values := by
  unfold Bench.act at succeeds table
  dsimp only at succeeds table
  cases hj : b.tables[j]? with
  | none =>
    rw [hj] at table
    exact absurd (hj.symm.trans table) (by simp)
  | some places₀ =>
    rw [hj] at succeeds table
    dsimp only at succeeds table
    obtain rfl : _ = places :=
      Option.some.inj ((List.getElem?_set_self (List.getElem?_eq_some_iff.1 hj).1).symm.trans table)
    obtain ⟨q, shared, ss, data, fill, front, behind, blk, fits, contents⟩ := st.occupied hj
    have length : (fitted places₀.length values).length = shared.holes :=
      length_fitted.trans fits.seated.length
    rw [patchPlaces_fitted] at succeeds ⊢
    obtain ⟨⟨_, _, -, fits', -⟩, shown⟩ :=
      (PatchesPlaces.table (patchPlaces_ends .blind shared _ (builtAll_fitted built)) length blk fits
        contents fun i p _ => placeWithin_blind i p).of_none succeeds
    intro i p hp v hv
    have hlt := (List.getElem?_eq_some_iff.1 hp).1
    rw [fits'.seated.length, ← fits.seated.length] at hlt
    exact valueAt_fitted hlt ▸ shown i p hp v hv

/-- After any jobs that have succeeded a table is patched with values, and then with others that
are the same in all places but one. That changes nothing in the nodes that are there but what
the one place may change, also if it fails. -/
theorem run_resolve_frames (new : start.tables = []) (closed : Closed start.host.document)
    (on : ∀ job ∈ jobs ++ [.resolve j us], job.On start.host.document)
    (succeeds : start.Succeeds (jobs ++ [.resolve j us])) (built : Value.BuiltAll vs)
    (same : ∀ i, i ≠ k → (Markup.valueAt us i).same (Markup.valueAt vs i) = true)
    (table : (start.run (jobs ++ [.resolve j us])).tables[j]? = some places) :
    let before := start.run (jobs ++ [.resolve j us])
    let after := (before.act (.resolve j vs)).1
    (∀ p, places[k]? = some p → p.Frames before.host.document after.host.document) ∧
      (places[k]? = none → after.host.document = before.host.document) := by
  intro before after
  obtain ⟨s, st⟩ := (staged_of_new new closed).run on succeeds
  obtain ⟨q, shared, ss, data, fill, front, behind, blk, fits, contents⟩ := st.occupied table
  have shown : Places.Match places us := by
    obtain ⟨succeeds₁, succeeds₂, -⟩ := succeeds_append.1 succeeds
    obtain ⟨s₁, st₁⟩ :=
      (staged_of_new new closed).run (fun job hjob => on job (by simp [hjob])) succeeds₁
    rw [run_append] at table
    exact st₁.shows (on (.resolve j us) (by simp)) succeeds₂ table
  have act : before.act (.resolve j vs) =
      (⟨before.tables.set j (patchPlaces places vs before.host).state,
        (patchPlaces places vs before.host).host⟩, (patchPlaces places vs before.host).failure) := by
    simp only [Bench.act, before, table]
  have frames := @patchPlaces_frames before.host shared ss data fill places k q front behind
    (fitted places.length vs) blk fits contents length_fitted (built_valueAt (builtAll_fitted built) k)
    fun i p hi hp => by
      refine placeRests_of_same fun v hv => ?_
      rw [valueAt_fitted (List.getElem?_eq_some_iff.1 hp).1]
      exact (shown i p hp v hv).same_trans (same i hi)
  rw [← patchPlaces_fitted] at frames
  simp only [after, act]
  exact ⟨frames.1, fun none => by rw [frames.2 none]⟩

/-- A text in a paragraph gives way to a list, and nothing else changes. -/
theorem run_resolve_frames_paragraph :
    let jobs : List Job := [.mount body .paragraph]
    let before := ({} : Bench).run (jobs ++ [.resolve 0 [.text "t", .text "one"]])
    let after := (before.act (.resolve 0 [.text "t", .list 1 [.text "a", .text "b"]])).1
    before.host.document.innerMarkup body = "<p title=\"t\">Hi one<!----></p>" ∧
      after.host.document.innerMarkup body = "<p title=\"t\">Hi ab<!----></p>" ∧
      ∃ places marker item, before.tables[0]? = some places ∧
        places[1]? = some (.content marker item) ∧
        Respaced marker item before.host.document after.host.document := by
  intro jobs before after
  have on : ∀ job ∈ jobs ++ [.resolve 0 [.text "t", .text "one"]],
      job.On ({} : Bench).host.document := by
    have container : ({} : Bench).host.document.isContainer body = true := by decide
    simp [jobs, Job.On, container, Value.BuiltAll, Value.Built]
  have succeeds : ({} : Bench).Succeeds (jobs ++ [.resolve 0 [.text "t", .text "one"]]) := by
    refine ⟨?_, ?_, trivial⟩ <;> decide +kernel
  have built : Value.BuiltAll [.text "t", .list 1 [.text "a", .text "b"]] := by
    simp [Value.BuiltAll, Value.Built]
  have same : ∀ i, i ≠ 1 → (Markup.valueAt [.text "t", .text "one"] i).same
      (Markup.valueAt [.text "t", .list 1 [.text "a", .text "b"]] i) = true := by
    intro i hi
    rcases i with _ | _ | i
    · rfl
    · contradiction
    · rfl
  obtain ⟨places, table⟩ : ∃ places, before.tables[0]? = some places :=
    Option.isSome_iff_exists.1 (by decide +kernel)
  have closed : Closed ({} : Bench).host.document := Edited.empty.closed
  obtain ⟨frames, -⟩ := run_resolve_frames rfl closed on succeeds built same table
  -- the second place of the table is one of content
  have part : (before.tables[0]?.bind fun places =>
      places[1]?.bind fun p => p.part?.map fun _ => ()) = some () := by decide +kernel
  rw [table, Option.bind_some, Option.bind_eq_some_iff] at part
  obtain ⟨p, hp, part⟩ := part
  refine ⟨by decide +kernel, by decide +kernel, places, ?_⟩
  rcases p with _ | ⟨n, b, v⟩ | ⟨marker, item⟩
  · contradiction
  · contradiction
  · have frame := frames (.content marker item) hp
    rw [Place.Frames] at frame
    simp only [before, after] at table ⊢
    exact ⟨marker, item, table, hp, frame⟩

end Bench

end LiveTemplate
