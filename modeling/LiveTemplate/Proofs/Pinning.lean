import LiveTemplate.Proofs.References

/-!
# Binding cells

A place gives its node to the cells that it binds when a value is applied, and is skipped
when its value stays the same. So a patch that succeeds leaves a cell as it was or gives it a
node that is bound to it afterwards, and every binding that was not there before has been
written. As long as no cell is bound twice, all bindings hold then, if those before did.
-/
namespace LiveTemplate
open Live

/-! ### Steps that succeed -/

namespace Live
variable {α β : Type}

theorem exists_of_bind_ok {m : HostM α} {f : α → HostM β} {h h' : Host} {b : β}
    (run : (m >>= f) h = .ok b h') : ∃ a h₁, m h = .ok a h₁ ∧ f a h₁ = .ok b h' := by
  cases ha : m h with
  | ok a h₁ =>
    rw [bind_ok ha] at run
    exact ⟨a, h₁, rfl, run⟩
  | error e h₁ =>
    rw [bind_error ha] at run
    contradiction

namespace Patched

theorem exists_of_attempt {m : HostM α} {done : α → β} {kept : β} {h : Host}
    (hf : (attempt m done kept h).failure = none) :
    ∃ a h', m h = .ok a h' ∧ attempt m done kept h = ⟨done a, h', none⟩ := by
  cases hr : m h with
  | ok a h' => exact ⟨a, h', rfl, by simp only [attempt, EStateM.run, hr]⟩
  | error e h' => simp [attempt, EStateM.run, hr] at hf

theorem andThen_of_none {r : Patched α} {next : α → Host → Patched β} {kept : α → β}
    (hf : (r.andThen next kept).failure = none) :
    r.failure = none ∧ r.andThen next kept = next r.state r.host := by
  cases h : r.failure with
  | none => exact ⟨rfl, by simp only [andThen, h]⟩
  | some e => simp [andThen, h] at hf

end Patched

end Live

/-! ### Steps that bind cells -/

namespace Live
variable {α β : Type} {old : List Pin}

/-- What a step that succeeds binds, by its result. -/
def Pins (old : List Pin) (m : HostM α) (new : α → List Pin) : Prop :=
  ∀ h a h', m h = .ok a h' → Pinned old (new a) h.cells h'.cells

theorem KeepsCells.pins {m : HostM α} {new : α → List Pin} (hm : KeepsCells m)
    (sub : ∀ a, new a ⊆ old) : Pins old m new := by
  intro h a h' run
  rw [hm.of_ok run]
  exact .kept (sub a)

namespace Pins
variable {m : HostM α} {f : α → HostM β} {new : α → List Pin} {new' : β → List Pin}

/-- A step that gives no cell a node, in front of one that binds cells. -/
theorem behind {P : α → Prop} (hm : KeepsCells m) (hy : Yields m P)
    (hf : ∀ a, P a → Pins old (f a) new') : Pins old (m >>= f) new' := by
  intro h b h' run
  obtain ⟨a, h₁, first, run⟩ := exists_of_bind_ok run
  rw [← hm.of_ok first]
  exact hf a (hy h a h₁ first) h₁ b h' run

/-- A step that gives no cell a node, behind one that binds cells. -/
theorem before (hm : Pins old m new) (hf : ∀ a, KeepsCells (f a))
    (hy : ∀ a, Yields (f a) fun b => new' b = new a) : Pins old (m >>= f) new' := by
  intro h b h' run
  obtain ⟨a, h₁, first, run⟩ := exists_of_bind_ok run
  rw [hy a h₁ b h' run, (hf a).of_ok run]
  exact hm h a h₁ first

/-- Two steps bind the cells of both. -/
theorem append {m m' : HostM Unit} {new new' : List Pin} (hm : Pins old m fun _ => new)
    (hm' : Pins old m' fun _ => new') :
    Pins old (m >>= fun _ => m') fun _ => new ++ new' := by
  intro h _ h' run
  obtain ⟨_, h₁, first, run⟩ := exists_of_bind_ok run
  exact (hm h () h₁ first).append (hm' h₁ () h' run)

/-- What was bound before may stay as it is. -/
theorem keeping {m : HostM Unit} {new new' : List Pin} (sub : new ⊆ old)
    (hm : Pins old m fun _ => new') : Pins old m fun _ => new ++ new' :=
  fun h a h' run => (Pinned.kept sub).append (hm h a h' run)

end Pins

/-! ### Applying -/

/-- A value applied through any binding but a spread gives the node to its cell. -/
theorem applySingle_pins (node : NodeId) (binding : Binding) (prev : Value) {next : Value}
    (ne : binding = .spread → next.entries = []) :
    Pins old (applySingle node binding prev next) fun _ =>
      (next.cellsVia binding).map (·, node) := by
  by_cases h : next.cellsVia binding = []
  · refine (applySingle_keepsCells node prev h).pins fun _ => ?_
    simp [h]
  cases next with
  | cell name =>
    by_cases hb : binding = .reference
    · subst hb
      rintro h _ _ ⟨⟩
      exact .put name node
    · simp [Value.cellsVia, hb] at h
  | attributes handle entries =>
    by_cases hb : binding = .spread
    · obtain rfl : entries = [] := ne hb
      simp [Value.cellsVia, Value.entryCells] at h
    · simp [Value.cellsVia, hb] at h
  | _ => exact absurd rfl h

mutual
/-- A value gives the node to the cells that it binds, unless they were bound before. -/
theorem apply_pins (node : NodeId) (binding : Binding) (prev : Value)
    (sub : (prev.cellsVia binding).map (·, node) ⊆ old) :
    (next : Value) →
      Pins old (apply node binding prev next) fun _ => (next.cellsVia binding).map (·, node)
  | .attributes handle entries => by
      unfold apply
      split
      · refine Pins.before (applyEntries_pins node prev.entries ?_ entries) (fun _ =>
          retractEntries_keepsCells node _ _) fun _ => ?_
        · rwa [← Value.cellsVia_spread]
        · rw [Value.cellsVia, if_pos rfl]
          exact fun _ _ _ _ => rfl
      next ne => exact applySingle_pins node binding prev fun hb => absurd hb ne
  | .null | .bool _ | .number _ | .text _ | .template .. | .list .. | .callback _ | .cell _
  | .payload _ => by
      unfold apply
      split
      · exact (retractEntries_keepsCells node _ _).pins fun _ => by simp [Value.cellsVia]
      · exact applySingle_pins node binding prev fun _ => rfl
termination_by structural v => v

theorem applyEntries_pins (node : NodeId) (prev : List (String × Value))
    (sub : (Value.entryCells prev).map (·, node) ⊆ old) :
    (entries : List (String × Value)) →
      Pins old (applyEntries node prev entries) fun _ =>
        (Value.entryCells entries).map (·, node)
  | [] => KeepsCells.pure.pins fun _ => List.nil_subset _
  | (name, next) :: rest => by
      have others := applyEntries_pins node prev sub rest
      -- what the entry of that name has bound before
      have before {b : Binding} (hb : Binding.ofEntryName? name = some b) :
          (((Entries.get? name prev).getD .null).cellsVia b).map (·, node) ⊆ old := by
        cases hw : Entries.get? name prev with
        | none => exact List.nil_subset _
        | some w =>
          exact List.Subset.trans (List.map_subset _ (Value.cellsVia_subset_entryCells hb hw)) sub
      rw [applyEntries]
      simp only [Value.entryCells, List.map_append]
      cases hb : Binding.ofEntryName? name with
      | none =>
        dsimp only
        split
        · exact others
        · exact others
      | some b =>
        dsimp only
        split
        · exact (apply_pins node b _ (before hb) next).append others
        next same =>
          have same : ((Entries.get? name prev).getD .null).same next = true := by simpa using same
          refine others.keeping ?_
          rw [← Value.cellsVia_of_same same]
          exact before hb
termination_by structural es => es
end

/-! ### Patches -/

/-- What a patch that succeeds binds, by what is live behind it. -/
def Patched.Pins (cells old : List Pin) (r : Patched α) (new : α → List Pin) : Prop :=
  r.failure = none → Pinned old (new r.state) cells r.host.cells

namespace Patched.Pins
variable {cells : List Pin} {new : α → List Pin} {new' : β → List Pin} {h : Host}

theorem done {a : α} (sub : new a ⊆ old) : Patched.Pins h.cells old ⟨a, h, none⟩ new :=
  fun _ => .kept sub

theorem map {r : Patched α} {f : α → β} (hr : Patched.Pins cells old r fun a => new' (f a)) :
    Patched.Pins cells old (r.map f) new' := hr

theorem andThen {r : Patched α} {next : α → Host → Patched β} {kept : α → β}
    (hr : Patched.Pins cells old r new)
    (hnext : ∀ a h, Pinned old (new a) cells h.cells → Patched.Pins cells old (next a h) new') :
    Patched.Pins cells old (r.andThen next kept) new' := by
  intro hf
  obtain ⟨first, eq⟩ := andThen_of_none hf
  rw [eq] at hf ⊢
  exact hnext _ _ (hr first) hf

/-- A patch behind a step that has bound some cells binds these as well. -/
theorem append {r : Patched α} {first : List Pin} (hfirst : Pinned old first cells h.cells)
    (hr : Patched.Pins h.cells old r new) :
    Patched.Pins cells old r fun a => first ++ new a :=
  fun hf => hfirst.append (hr hf)

theorem attempt {m : HostM α} {done : α → β} {kept : β}
    (hm : Live.Pins old m fun a => new' (done a)) :
    Patched.Pins h.cells old (Patched.attempt m done kept h) new' := by
  intro hf
  obtain ⟨a, h', run, eq⟩ := exists_of_attempt hf
  rw [eq]
  exact hm h a h' run

theorem toStep {patch : Host → Patched α}
    (hp : ∀ h : Host, Patched.Pins h.cells old (patch h) new) :
    Live.Pins old (fun h => (patch h).toStep) new := by
  intro h a h' ha
  cases hf : (patch h).failure with
  | none =>
    simp only [Patched.toStep, hf, EStateM.Result.ok.injEq] at ha
    rw [← ha.1, ← ha.2]
    exact hp h hf
  | some e => simp [Patched.toStep, hf] at ha

end Patched.Pins

/-- A patch that succeeds gives no cell a node, and behind it nothing is bound that was not
bound before. -/
def Patched.LeavesCells (cells old : List Pin) (r : Patched α) (new : α → List Pin) : Prop :=
  r.failure = none → r.host.cells = cells ∧ new r.state ⊆ old

namespace Patched.LeavesCells
variable {cells : List Pin} {new : α → List Pin} {new' : β → List Pin} {h : Host}

theorem done {a : α} (sub : new a ⊆ old) : Patched.LeavesCells h.cells old ⟨a, h, none⟩ new :=
  fun _ => ⟨rfl, sub⟩

theorem map {r : Patched α} {f : α → β}
    (hr : Patched.LeavesCells cells old r fun a => new' (f a)) :
    Patched.LeavesCells cells old (r.map f) new' := hr

theorem attempt {m : HostM α} {done : α → β} {kept : β} (hm : KeepsCells m)
    (hy : Live.Yields m fun a => new' (done a) ⊆ old) :
    Patched.LeavesCells h.cells old (Patched.attempt m done kept h) new' := by
  intro hf
  obtain ⟨a, h', run, eq⟩ := exists_of_attempt hf
  rw [eq]
  exact ⟨hm.of_ok run, hy h a h' run⟩

theorem andThen {r : Patched α} {next : α → Host → Patched β} {kept : α → β}
    (hr : Patched.LeavesCells cells old r new)
    (hnext : ∀ a h, new a ⊆ old → Patched.Pins h.cells old (next a h) new') :
    Patched.Pins cells old (r.andThen next kept) new' := by
  intro hf
  obtain ⟨first, eq⟩ := andThen_of_none hf
  rw [eq] at hf ⊢
  obtain ⟨same, sub⟩ := hr first
  exact same ▸ hnext _ r.host sub hf

theorem pins {r : Patched α} (hr : Patched.LeavesCells cells old r new) :
    Patched.Pins cells old r new := by
  intro hf
  obtain ⟨same, sub⟩ := hr hf
  rw [same]
  exact .kept sub

end Patched.LeavesCells

variable {h : Host}

/-- A place that shows nothing any more binds no cell. -/
theorem withdraw_leavesCells {p : Place} (sub : p.pins ⊆ old) :
    Patched.LeavesCells h.cells old (withdraw p h) Place.pins := by
  rcases p with _ | ⟨n, b, v⟩ | ⟨marker, ⟨v, c⟩⟩
  · exact .done sub
  · dsimp only [withdraw]
    split
    · exact .done sub
    · exact .attempt (retract_keepsCells n b v) fun _ _ _ _ => List.nil_subset _
  · dsimp only [withdraw]
    split
    · exact .done sub
    · exact .attempt (clear_keepsCells c) fun _ _ _ _ => List.nil_subset _

theorem withdrawAll_pins {places : List Place} (sub : pinsAt places ⊆ old) :
    Patched.Pins h.cells old (withdrawAll places h) pinsAt := by
  induction places generalizing h with
  | nil => exact .done sub
  | cons p rest ih =>
    rw [pinsAt, List.append_subset] at sub
    exact (withdraw_leavesCells sub.1).pins.andThen fun p' h' first => .map (.append first (ih sub.2))

theorem patchText_leavesCells (anchor : NodeId) (c : Content) (text : String) :
    Patched.LeavesCells h.cells old (patchText anchor c text h) Content.pins := by
  unfold patchText
  split
  · exact .attempt (.edit _) fun _ _ _ _ => List.nil_subset _
  · refine .attempt ?_ fun _ _ _ _ => List.nil_subset _
    refine (clear_keepsCells c).bind fun _ => (KeepsCells.create _).bind fun _ => ?_
    exact (KeepsCells.edit _).bind fun _ => .pure

section
variable {patch : List Place → Host → Patched (List Place)}

/-- A new table binds no cell before it is patched. -/
theorem instantiate_pins (shared : SharedSkeleton) (anchor : NodeId)
    (hp : ∀ (places : List Place) (h : Host), pinsAt places ⊆ old →
      Patched.Pins h.cells old (patch places h) pinsAt) :
    Pins old (instantiate shared patch anchor) Content.pins := by
  unfold instantiate
  refine .behind (.create _) (.of_true _) fun start _ => ?_
  refine .behind (.create _) (.of_true _) fun stop _ => ?_
  refine .behind (.create _) (.of_true _) fun fragment _ => ?_
  refine .behind (mount_keepsCells _ _) (mount_yields shared.skeleton fragment) fun r bare => ?_
  have none : pinsAt r.2 = [] := pinsAt_eq_nil fun i p hp => (bare i p hp).1
  have patched : Pins old (fun h => (patch r.2 h).toStep) pinsAt :=
    Patched.Pins.toStep fun h => hp r.2 h (by simp [none])
  refine patched.before (fun places => ?_) fun places => ?_
  · exact (KeepsCells.edit _).bind fun _ => (KeepsCells.edit _).bind fun _ =>
      (KeepsCells.edit _).bind fun _ => .pure
  · exact .next fun _ => .next fun _ => .next fun _ => .pure rfl

theorem patchTemplate_pins (anchor : NodeId) (shared : SharedSkeleton)
    (hp : ∀ (places : List Place) (h : Host), pinsAt places ⊆ old →
      Patched.Pins h.cells old (patch places h) pinsAt) {c : Content} (sub : c.pins ⊆ old) :
    Patched.Pins h.cells old (patchTemplate anchor shared patch c h) Content.pins := by
  have replaced : Patched.Pins h.cells old
      (Patched.attempt (do clear c; instantiate shared patch anchor) id Content.empty h)
      Content.pins :=
    .attempt (.behind (clear_keepsCells c) (.of_true _) fun _ _ => instantiate_pins shared anchor hp)
  unfold patchTemplate
  split
  · split
    · exact .map (hp _ h sub)
    · exact replaced
  · exact replaced

end

theorem patchList_pins {patch : List Item → Host → Patched (List Item)}
    (hp : ∀ (items : List Item) (h : Host), pinsOf items ⊆ old →
      Patched.Pins h.cells old (patch items h) pinsOf) {c : Content} (sub : c.pins ⊆ old) :
    Patched.Pins h.cells old (patchList patch c h) Content.pins := by
  have taken : Patched.LeavesCells h.cells old (takeItems c h) Content.pins := by
    unfold takeItems
    split
    · exact .done sub
    · exact .attempt (clear_keepsCells c) fun _ _ _ _ => List.nil_subset _
  refine taken.andThen fun c' h' sub' => ?_
  split
  next items => exact .map (hp items h' sub')
  · exact .done sub'

theorem updateItem_pins {patch : Content → Host → Patched Content} {next : Value}
    (hp : ∀ (c : Content) (h : Host), c.pins ⊆ old →
      Patched.Pins h.cells old (patch c h) Content.pins) {item : Item} (sub : item.pins ⊆ old) :
    Patched.Pins h.cells old (updateItem patch item next h) Item.pins := by
  unfold updateItem
  split
  · exact .done sub
  · refine (hp item.content h (item.pins_eq ▸ sub)).andThen fun c' h' first => ?_
    exact fun _ => first

theorem updatePlace_pins {patch : NodeId → Content → Host → Patched Content} {next : Value}
    (hp : ∀ (marker : NodeId) (c : Content) (h : Host), c.pins ⊆ old →
      Patched.Pins h.cells old (patch marker c h) Content.pins) {p : Place} (sub : p.pins ⊆ old) :
    Patched.Pins h.cells old (updatePlace patch p next h) Place.pins := by
  rcases p with _ | ⟨n, b, v⟩ | ⟨marker, item⟩
  · exact .done sub
  · dsimp only [updatePlace]
    split
    · exact .done sub
    · exact .attempt (apply_pins n b v sub next)
  · exact .map (updateItem_pins (hp marker) sub)

theorem clearItems_leavesCells {items : List Item} :
    Patched.LeavesCells h.cells old (Patched.attempt (clearItems items) (fun _ => []) [] h) pinsOf :=
  .attempt (clearItems_keepsCells items) fun _ _ _ _ => List.nil_subset _

mutual
/-- A content patched with a value gives the nodes to the cells that it binds, unless they
were bound before. -/
theorem patchContent_pins : (v : Value) → (anchor : NodeId) → (c : Content) → (h : Host) →
    c.pins ⊆ old → Patched.Pins h.cells old (patchContent anchor c v h) Content.pins
  | .null, _, c, _, _ | .attributes .., _, c, _, _ | .callback _, _, c, _, _
  | .cell _, _, c, _, _ | .payload _, _, c, _, _ =>
      (Patched.LeavesCells.attempt (clear_keepsCells c) fun _ _ _ _ => List.nil_subset _).pins
  | .bool _, anchor, c, _, _ | .number _, anchor, c, _, _ | .text _, anchor, c, _, _ =>
      (patchText_leavesCells anchor c _).pins
  | .template _ shared values, anchor, _, _, sub =>
      patchTemplate_pins anchor shared (fun places h => patchPlaces_pins values places h) sub
  | .list _ items, anchor, c, h, sub => by
      simp only [patchContent]
      split
      · exact patchList_pins (fun old h => patchKeyed_pins items _ _ anchor old h) sub
      · exact patchList_pins (fun old h => patchItems_pins items anchor old h) sub
termination_by structural v => v

theorem patchItems_pins : (vs : List Value) → (anchor : NodeId) → (items : List Item) →
    (h : Host) → pinsOf items ⊆ old →
    Patched.Pins h.cells old (patchItems anchor items vs h) pinsOf
  | [], _, _, _, _ => clearItems_leavesCells.pins
  | next :: vs, anchor, [], h, sub => by
      refine (updateItem_pins (patchContent_pins next anchor) (List.nil_subset _)).andThen
        fun item h' first => .map ?_
      exact .append first (patchItems_pins vs anchor [] h' sub)
  | next :: vs, anchor, item :: rest, h, sub => by
      rw [pinsOf, List.append_subset] at sub
      refine (updateItem_pins (patchContent_pins next _) sub.1).andThen
        fun item h' first => .map ?_
      exact .append first (patchItems_pins vs anchor rest h' sub.2)
termination_by structural vs => vs

theorem patchKeyed_pins : (vs : List Value) → (prevKeys nextKeys : List Value) →
    (anchor : NodeId) → (items : List Item) → (h : Host) → pinsOf items ⊆ old →
    Patched.Pins h.cells old (patchKeyed anchor prevKeys nextKeys items vs h) pinsOf
  | [], _, _, _, _, _, _ => clearItems_leavesCells.pins
  | next :: vs, prevKeys, nextKeys, anchor, items, h, sub => by
      have split := keyedStep_split (isStale nextKeys) (isFresh prevKeys next) items
      simp only [patchKeyed]
      generalize keyedStep (isStale nextKeys) (isFresh prevKeys next) items = step at split
      rw [← split] at sub
      simp only [pinsOf_eq, List.flatMap_append, List.append_subset] at sub
      have reused : (step.reused.getD .absent).pins ⊆ old := by
        cases hs : step.reused with
        | none => exact List.nil_subset _
        | some item => simpa [hs] using sub.1.2
      have removed : Patched.LeavesCells h.cells old
          (Patched.attempt (clearItems step.removed) id () h) fun _ => [] :=
        .attempt (clearItems_keepsCells _) fun _ _ _ _ => List.nil_subset _
      refine removed.andThen fun _ h' _ => ?_
      refine (updateItem_pins (patchContent_pins next _) reused).andThen
        fun item h'' first => .map ?_
      exact .append first (patchKeyed_pins vs prevKeys nextKeys anchor step.rest h''
        (pinsOf_eq step.rest ▸ sub.2))
termination_by structural vs => vs

theorem patchPlaces_pins : (vs : List Value) → (places : List Place) → (h : Host) →
    pinsAt places ⊆ old → Patched.Pins h.cells old (patchPlaces places vs h) pinsAt
  | [], _, _, sub => withdrawAll_pins sub
  | next :: vs, [], h, sub => .done sub
  | next :: vs, p :: rest, h, sub => by
      rw [pinsAt, List.append_subset] at sub
      refine (updatePlace_pins (fun marker => patchContent_pins next marker) sub.1).andThen
        fun p' h' first => .map ?_
      exact .append first (patchPlaces_pins vs rest h' sub.2)
termination_by structural vs => vs
end

end Live

/-! ### Renders -/

namespace Renderer
variable {container : NodeId} {old : List Pin} {r : Renderer} {h : Host}

/-- The bindings of what is mounted in a container. -/
def pins (container : NodeId) (r : Renderer) : List Pin :=
  match r.mounted? container with
  | none => []
  | some m => pinsAt m.places

theorem pins_of_none (hm : r.mounted? container = none) : r.pins container = [] := by
  rw [pins, hm]

theorem pins_of_mounted {m : Mounted} (hm : r.mounted? container = some m) :
    r.pins container = pinsAt m.places := by
  rw [pins, hm]

theorem dismount_keepsCells (m : Mounted) : KeepsCells (dismount m) :=
  (clearPlaces_keepsCells m.places).bind fun _ => .removeAll m.nodes

theorem unmount_leavesCells : Patched.LeavesCells h.cells old (r.unmount container h)
    fun r' => r'.1.pins container := by
  unfold unmount
  split
  next hm => exact .done (by simp [pins_of_none hm])
  next m _ =>
    refine .attempt (dismount_keepsCells m) fun _ _ _ _ => ?_
    simp [pins_of_none mounted?_forget]

theorem makeRoom_leavesCells (shared : SharedSkeleton) (sub : r.pins container ⊆ old) :
    Patched.LeavesCells h.cells old (r.makeRoom shared container h) (pins container) := by
  unfold makeRoom
  split
  · exact .done sub
  · split
    · exact .done sub
    · exact .map unmount_leavesCells

theorem settle_leavesCells (shared : SharedSkeleton) (sub : r.pins container ⊆ old) :
    Patched.LeavesCells h.cells old (r.settle shared container h) (pins container) := by
  unfold settle
  split
  · exact .done sub
  · refine .attempt (mount_keepsCells _ _) ((mount_yields shared.skeleton container).mono
      fun t bare => ?_)
    rw [pins_of_mounted (mounted?_put _), pinsAt_eq_nil fun i p hp => (bare i p hp).1]
    exact List.nil_subset _

theorem patchMounted_pins (values : List Value) (sub : r.pins container ⊆ old) :
    Patched.Pins h.cells old (r.patchMounted values container h) (pins container) := by
  unfold patchMounted
  split
  · exact .done sub
  next m hm =>
    refine .map fun hf => ?_
    dsimp only
    rw [pins_of_mounted (mounted?_put _)]
    exact patchPlaces_pins values m.places h (pins_of_mounted hm ▸ sub) hf

/-- A render that succeeds gives the nodes to the cells that are bound behind it, unless they
were bound before, and changes no other cell. -/
theorem render_pins (v : Value) (container : NodeId) (r : Renderer) (h : Host) :
    Patched.Pins h.cells (r.pins container) (r.render v container h) (pins container) := by
  rw [render_eq]
  refine (makeRoom_leavesCells _ (List.Subset.refl _)).andThen fun r₁ h₁ sub₁ => ?_
  exact (settle_leavesCells _ sub₁).andThen fun r₂ h₂ sub₂ => patchMounted_pins _ sub₂

end Renderer

end LiveTemplate
