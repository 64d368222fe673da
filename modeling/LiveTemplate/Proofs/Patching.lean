import LiveTemplate.Proofs.Instantiating

/-!
# Patching

A patch brings what fits one value to fit the next. It succeeds exactly when the next
value can be shown. A faithful content stays faithful then, and is carried on from what it
was. When it fails, what it leaves fits without being faithful, and nothing outside of it
has changed.
-/
namespace LiveTemplate.Live
open Document Subtree Patched

variable {ω : Watch} {faithful : Prop} {h : Host} {parent anchor : NodeId}
  {before behind : List NodeId} {f : List Subtree} {c : Content} {u v next : Value}
  {shared : SharedSkeleton} {values : List Value}

/-- The routes that the values in a content take to what they may clear are taken. -/
def ContentWithin (ω : Watch) (c : Content) : Prop :=
  ∀ n attrs shown, Mounts n attrs shown c → ω.Clears n attrs shown

/-- The content fits the value, and what a faithful one has kept is carried on. -/
def Renewed (ω : Watch) (faithful : Prop) (count : Nat) (c : Content) (f : List Subtree)
    (v : Value) (c' : Content) (f' : List Subtree) : Prop :=
  Fits ω faithful v c' f' ∧ (faithful → Carries ω count c f c' f')

/-- A content in front of an anchor becomes one that fits the value, unless the value
cannot be shown. -/
def PatchesContent (ω : Watch) (v : Value) (patch : NodeId → Content → Host → Patched Content) :
    Prop :=
  ∀ {faithful : Prop} {u : Value} {c : Content} {f : List Subtree} {h : Host}
    {parent anchor : NodeId} {before behind : List NodeId},
    Block h.document parent before f behind → behind.head? = some anchor →
    Fits ω faithful u c f → ContentWithin ω c →
    (patch anchor c h).Ends
      (fun c' h' => Becomes h parent before f behind
        (Renewed ω faithful h.document.nodes.size c f v c') h' ∧ v.Renderable)
      (fun c' h' => Becomes h parent before f behind (Fits ω False v c') h' ∧ ¬v.Renderable)

/-- What has been cleared and made anew consists of new nodes. -/
theorem Renewed.fresh {h₁ h₂ : Host} {f₁ f₂ : List Subtree} {c' : Content}
    (w₁ : Rewrites h.document h₁.document parent before f f₁ behind) (hf₁ : faithful → f₁ = [])
    (w₂ : Rewrites h₁.document h₂.document parent before f₁ f₂ behind)
    (fits : Fits ω faithful v c' f₂) (apart : faithful → ¬c.Resumes c') :
    Renewed ω faithful h.document.nodes.size c f v c' f₂ := by
  constructor
  · exact fits
  intro hf
  apply Carries.fresh (apart hf)
  intro n hn
  rcases w₂.fresh n hn with hn | hn
  · simp [hf₁ hf] at hn
  · exact Nat.le_trans w₁.size_le hn

theorem Content.not_resumes_empty : ¬c.Resumes .empty := by
  cases c <;> exact id

/-! ### Contents of one node and of none -/

/-- A content gives way to none. -/
theorem clear_ends (hv : v.Blank) (b : Block h.document parent before f behind)
    (fits : Fits ω faithful u c f) :
    (attempt (clear c) (fun _ => Content.empty) .empty h).Ends
      (fun c' h' => Becomes h parent before f behind
        (Renewed ω faithful h.document.nodes.size c f v c') h' ∧ v.Renderable)
      (fun c' h' => Becomes h parent before f behind (Fits ω False v c') h' ∧ ¬v.Renderable) := by
  rw [ends_attempt]
  refine clear_runs fits b fun h' f' w hf' => ⟨⟨f', w, ?_⟩, by cases v <;> trivial⟩
  exact .fresh w hf' (.refl (w.block b)) (.empty fun hf => ⟨hf' hf, hv⟩) fun _ =>
    Content.not_resumes_empty

theorem setText_runs {n : NodeId} {s t : String} {left right : List Subtree}
    (b : Block h.document parent before (left ++ .node n (.text s) [] :: right) behind)
    {good : Unit → Host → Prop} {bad : Host → Prop}
    (next : ∀ h' : Host, Rewrites h.document h'.document parent before
      (left ++ .node n (.text s) [] :: right) (left ++ .node n (.text t) [] :: right) behind →
      good () h') :
    Runs (Host.edit (Document.setText n t)) h good bad := by
  have heq : ∀ s, left ++ .node n (.text s) [] :: right = left ++ [.node n (.text s) []] ++ right := by
    simp
  rw [heq] at b
  simp only [heq] at next
  have hkind : h.document.kind? n = some (.text s) := by
    have hrec := b.part.holds.1.1
    simp [kind?, hrec]
  refine Runs.edit_ok (d := h.document.update n fun r => { r with kind := .text t }) ?_ ?_
  · simp [Document.setText, hkind]
  · exact next _ ((Rewrites.recast b.part).part b)

/-- A scalar is shown as text. -/
theorem patchText_ends (hv : v.Scalar) (b : Block h.document parent before f behind)
    (head : behind.head? = some anchor) (fits : Fits ω faithful u c f) :
    (patchText anchor c v.toText h).Ends
      (fun c' h' => Becomes h parent before f behind
        (Renewed ω faithful h.document.nodes.size c f v c') h' ∧ v.Renderable)
      (fun c' h' => Becomes h parent before f behind (Fits ω False v c') h' ∧ ¬v.Renderable) := by
  have renderable : v.Renderable := by cases v <;> trivial
  have replace (apart : ∀ n, ¬c.Resumes (.text n)) : (attempt (do
      clear c
      let n ← Host.create (.text v.toText)
      Host.insertBefore n anchor
      pure n) Content.text .empty h).Ends
      (fun c' h' => Becomes h parent before f behind
        (Renewed ω faithful h.document.nodes.size c f v c') h' ∧ v.Renderable)
      (fun c' h' => Becomes h parent before f behind (Fits ω False v c') h' ∧ ¬v.Renderable) := by
    rw [ends_attempt, Runs.bind]
    refine clear_runs fits b fun h₁ f₁ w₁ hf₁ => ?_
    refine createText_runs (w₁.block b) head fun n h₂ w₂ => ⟨⟨_, w₁.trans w₂, ?_⟩, renderable⟩
    exact .fresh w₁ hf₁ w₂ (.text f₁ [] fun hf => ⟨hf₁ hf, rfl, hv, rfl⟩) fun _ => apart n
  cases fits with
  | text left right shows =>
    rw [patchText, ends_attempt]
    refine setText_runs b fun h' w => ⟨⟨_, w, ?_⟩, renderable⟩
    constructor
    · exact .text left right fun hf => ⟨(shows hf).1, (shows hf).2.1, hv, rfl⟩
    intro hf
    obtain ⟨rfl, rfl, -⟩ := shows hf
    exact .text _ _ _
  | empty _ => exact replace fun _ => id
  | nested _ _ _ _ _ => exact replace fun _ => id
  | list _ _ => exact replace fun _ => id

/-! ### Templates -/

theorem renderable_template {handle : Nat} :
    (Value.template handle shared values).Renderable ↔ FillsRenderably shared values := by
  rw [Value.Renderable, FillsRenderably]
  refine and_congr_right fun _ => forall₂_congr fun s _ => ?_
  cases s.2 with
  | content => exact Value.renderableAt_iff values s.1
  | _ => exact Iff.rfl

theorem placesWithin {ss : List Stem} {places : List Place} (s : Seated shared ss places)
    (within : ∀ n attrs shown, TableMounts n attrs shown shared places → ω.Clears n attrs shown) :
    ∀ (i : Nat) (p : Place), places[i]? = some p → PlaceWithin ω i p := by
  intro i p hi
  rcases p with _ | ⟨n, b, v⟩ | ⟨m, item⟩
  · trivial
  · intro hv x ks hx ht
    obtain ⟨tag, attrs, he, hb⟩ := s.element_of hi
    have hshown : Places.shownAt places i = v := Places.shownAt_of_get hi rfl
    rw [← hshown] at hv ht
    exact within n attrs _ (s.mounts he hb) x hx i b ks hb hv ht
  · exact fun n attrs shown hm => within n attrs shown (.inside hi hm)

/-- What a table fits is a content that is not faithful. -/
theorem fits_of_turns {clean : Nat → Prop} {kept : NodeId → Target → Prop} {ss : List Stem}
    {data : NodeId → ElementData} {fill : NodeId → List Subtree} {places : List Place}
    {start stop : NodeId} (t : TableFits ω clean kept shared ss data fill places)
    (contents : PlacesFit ω clean fill places) (left right : List Subtree) :
    Fits ω False v (.nested shared start stop places)
      (left ++ (.node start .marker [] :: Stem.assembleAll data fill ss ++
        [.node stop .marker []]) ++ right) := by
  refine .nested left right (t.mono (fun _ h => h.elim) fun _ _ h => h.elim)
    (fun i marker item hi => ?_) fun h => h.elim
  simpa using (contents i marker item hi).weaken (fun h => h) item.shown [] []

/-- A faithful content of a template is one of its skeleton. -/
theorem fits_template {handle : Nat} (fits : Fits ω faithful (.template handle shared values) c f)
    (hf : faithful) : ∃ start stop places, c = .nested shared start stop places := by
  cases fits with
  | empty shows => exact (shows hf).2.elim
  | text _ _ shows => exact (shows hf).2.2.1.elim
  | nested _ _ _ _ shows =>
    obtain ⟨-, -, handle', values', heq, -⟩ := shows hf
    cases heq
    exact ⟨_, _, _, rfl⟩
  | list _ shows =>
    obtain ⟨_, _, heq, -⟩ := shows hf
    cases heq

/-- A template is shown by the table of the same skeleton, or by a new one. -/
theorem patchTemplate_ends {patch : List Place → Host → Patched (List Place)}
    (made : shared.Made) (hp : PatchesTable ω shared values patch) (handle : Nat)
    (b : Block h.document parent before f behind) (head : behind.head? = some anchor)
    (fits : Fits ω faithful u c f) (within : ContentWithin ω c) :
    (patchTemplate anchor shared patch c h).Ends
      (fun c' h' => Becomes h parent before f behind
        (Renewed ω faithful h.document.nodes.size c f (.template handle shared values) c') h' ∧
        (Value.template handle shared values).Renderable)
      (fun c' h' => Becomes h parent before f behind
        (Fits ω False (.template handle shared values) c') h' ∧
        ¬(Value.template handle shared values).Renderable) := by
  simp only [renderable_template]
  have replace (apart : ∀ start stop places, ¬c.Resumes (.nested shared start stop places)) :
      (attempt (do
        clear c
        instantiate shared patch anchor) id Content.empty h).Ends
      (fun c' h' => Becomes h parent before f behind
        (Renewed ω faithful h.document.nodes.size c f (.template handle shared values) c') h' ∧
        FillsRenderably shared values)
      (fun c' h' => Becomes h parent before f behind
        (Fits ω False (.template handle shared values) c') h' ∧
        ¬FillsRenderably shared values) := by
    rw [ends_attempt, Runs.bind]
    refine clear_runs fits b fun h₁ f₁ w₁ hf₁ => ?_
    refine (instantiate_runs made hp (w₁.block b) head hf₁ handle).mono ?_ ?_
    · rintro c' h₂ ⟨⟨f₂, w₂, fits₂⟩, ok⟩
      refine ⟨⟨f₂, w₁.trans w₂, .fresh w₁ hf₁ w₂ fits₂ fun hf => ?_⟩, ok⟩
      obtain ⟨start, stop, places, rfl⟩ := fits_template fits₂ hf
      exact apart start stop places
    · rintro h₂ ⟨w₂, no⟩
      exact ⟨⟨f₁, w₁.trans w₂, .empty fun h => h.elim⟩, no⟩
  cases fits with
  | @nested _ shared' start stop places ss data fill left right table contents shows =>
    rw [patchTemplate]
    split
    next hs =>
      subst hs
      have heq : ∀ g, left ++ (.node start .marker [] :: g ++ [.node stop .marker []]) ++ right =
          (left ++ [.node start .marker []]) ++ g ++ ([.node stop .marker []] ++ right) := by simp
      rw [heq] at b
      rw [ends_map]
      refine (hp b.part table contents (placesWithin table.seated fun n attrs shown hm =>
        within n attrs shown (.nested hm))).mono ?_ ?_
      · rintro places' h' ⟨⟨data', fill', w, table', contents', carry⟩, same⟩
        refine ⟨⟨_, heq _ ▸ w.part b, heq _ ▸ ⟨.nested left right table' contents' fun hf => ?_,
          fun hf => ?_⟩⟩, table'.fillsRenderably same⟩
        · exact ⟨(shows hf).1, (shows hf).2.1, handle, values, rfl, same⟩
        · obtain ⟨rfl, rfl, -⟩ := shows hf
          rw [List.nil_append, List.append_nil, List.nil_append, List.append_nil]
          exact carry.nested (fun _ => hf) table.seated table'.seated contents contents'
      · rintro places' h' ⟨k, p, hk, no, data', fill', w, table', contents', -⟩
        refine ⟨⟨_, heq _ ▸ w.part b, heq _ ▸ fits_of_turns table' contents' left right⟩,
          fun ok => no ?_⟩
        exact (table.seated.fillsRenderably_iff values).1 ok k p hk
    next hs => exact replace fun _ _ _ => hs
  | empty _ => exact replace fun _ _ _ => id
  | text _ _ _ => exact replace fun _ _ _ => id
  | list _ _ => exact replace fun _ _ _ => id

/-! ### Items -/

/-- An item takes on a value that can be shown, or stays with its own. -/
theorem updateItem_ends {patch : NodeId → Content → Host → Patched Content}
    (hp : PatchesContent ω next patch) (built : next.Built) {item : Item}
    (builtItem : item.shown.Built) (renderable : item.shown.Renderable)
    (b : Block h.document parent before f behind) (head : behind.head? = some anchor)
    (fits : Fits ω faithful item.shown item.content f) (within : ContentWithin ω item.content) :
    (updateItem (patch anchor) item next h).Ends
      (fun item' h' => Becomes h parent before f behind
          (Renewed ω faithful h.document.nodes.size item.content f item'.shown item'.content) h' ∧
        item'.shown.Alike next ∧ item'.shown.Built ∧ item'.shown.Renderable)
      (fun item' h' => Becomes h parent before f behind
          (Fits ω False item'.shown item'.content) h' ∧
        ¬next.Renderable ∧ item'.shown.Built ∧ item'.shown.Renderable) := by
  unfold updateItem
  split
  next hs =>
    have carries (hf : faithful) : Carries ω h.document.nodes.size item.content f item.content f :=
      (fits.mono fun _ => hf).carries _
    exact ⟨⟨f, .refl b, fits, carries⟩, .inr hs, builtItem, renderable⟩
  next =>
    rw [ends_andThen]
    refine (hp b head fits within).mono ?_ ?_
    · rintro c' h' ⟨w, ok⟩
      exact ⟨w, .inl rfl, built, ok⟩
    · rintro c' h' ⟨⟨f', w, fits'⟩, no⟩
      refine ⟨⟨f', w, ?_⟩, no, builtItem, renderable⟩
      have fits₁ := fits'.weaken (fun h => h) item.shown [] []
      rwa [List.nil_append, List.append_nil] at fits₁

/-- The items fit, and those of a faithful list are carried on. -/
def ItemsRenewed (ω : Watch) (faithful : Prop) (count : Nat) (stale : Item → Bool)
    (fresh : Value → Bool) (old : List Item) (f : List Subtree) (items : List Item)
    (f' : List Subtree) : Prop :=
  FitsItems ω faithful items f' ∧ (faithful → ∃ rows rows', old = Row.items rows ∧
    f = Row.forests rows ∧ items = Row.items rows' ∧ f' = Row.forests rows' ∧
    CarriesItems ω count stale fresh rows rows')

/-- What patching the items of a list comes to. Which of them are stale and which values
are fresh may depend on the list before. -/
def PatchesItems (ω : Watch) (stale : Item → Bool) (fresh : List Item → Value → Bool)
    (vs : List Value) (patch : NodeId → List Item → Host → Patched (List Item)) : Prop :=
  ∀ {faithful : Prop} {old : List Item} {f : List Subtree} {h : Host} {parent anchor : NodeId}
    {before behind : List NodeId},
    Block h.document parent before f behind → behind.head? = some anchor →
    FitsItems ω faithful old f → (∀ item ∈ old, ContentWithin ω item.content) →
    (patch anchor old h).Ends
      (fun items h' => Becomes h parent before f behind
          (ItemsRenewed ω faithful h.document.nodes.size stale (fresh old) old f items) h' ∧
        List.Forall₂ Value.Alike (items.map Item.shown) vs ∧ Value.RenderableAll vs)
      (fun items h' => Becomes h parent before f behind (FitsItems ω False items) h' ∧
        ¬Value.RenderableAll vs)

section
variable {old rest : List Item} {vs : List Value} {g : List Subtree} {stale : Item → Bool}
  {fresh : Value → Bool}

/-- The items left over are cleared. -/
theorem clearRest_ends (b : Block h.document parent before f behind)
    (fits : FitsItems ω faithful old f) :
    (attempt (clearItems old) (fun _ => []) [] h).Ends
      (fun items h' => Becomes h parent before f behind
          (ItemsRenewed ω faithful h.document.nodes.size stale fresh old f items) h' ∧
        List.Forall₂ Value.Alike (items.map Item.shown) [] ∧ Value.RenderableAll [])
      (fun items h' => Becomes h parent before f behind (FitsItems ω False items) h' ∧
        ¬Value.RenderableAll []) := by
  rw [ends_attempt]
  refine clearItems_runs fits b fun h' f' w hf' => ⟨⟨f', w, .nil hf', fun hf => ?_⟩, .nil, trivial⟩
  obtain rfl := hf' hf
  obtain ⟨rows, rfl, rfl, fitsRows⟩ := (fits.mono fun _ => hf).exists_rows
  have all : CarriesItems ω h.document.nodes.size stale fresh (rows ++ []) [] :=
    .skip (fun _ _ => .inr rfl) fitsRows .nil
  rw [List.append_nil] at all
  exact ⟨rows, [], rfl, rfl, rfl, rfl, all⟩

/-- The first of some items has become another one, and the rest of them are carried on. -/
def FirstRenewed (ω : Watch) (count : Nat) (stale : Item → Bool) (fresh : Value → Bool)
    (item : Item) (f : List Subtree) (next : Value) (rest : List Item) (g : List Subtree)
    (items : List Item) (f' : List Subtree) : Prop :=
  ∃ row' rows rows', rest = Row.items rows ∧ g = Row.forests rows ∧
    items = Row.items (row' :: rows') ∧ f' = Row.forests (row' :: rows') ∧
    row'.item.shown.Alike next ∧ row'.Fits ω ∧ Grown count f row'.forest ∧
    Carries ω count item.content f row'.item.content row'.forest ∧
    CarriesItems ω count stale fresh rows rows'

/-- One item is patched in front of the rest, and then the rest. What stands between
them without being known is taken to belong to the first. On failure the patch may keep
any items for which what is there still fits. -/
theorem patchFirst_ends {patch : NodeId → Content → Host → Patched Content}
    {patchRest : Host → Patched (List Item)} {item : Item} {kept : Item → List Item}
    (hp : PatchesContent ω next patch) (built : next.Built) (builtItem : item.shown.Built)
    (renderable : item.shown.Renderable)
    (b : Block h.document parent before (f ++ g) behind) (head : behind.head? = some anchor)
    (fits : Fits ω faithful item.shown item.content f) (fitsRest : FitsItems ω faithful rest g)
    (within : ContentWithin ω item.content)
    (hrest : ∀ {h₁ : Host} {before : List NodeId} {g : List Subtree},
      Block h₁.document parent before g behind → FitsItems ω faithful rest g →
      (patchRest h₁).Ends
        (fun items h' => Becomes h₁ parent before g behind
            (ItemsRenewed ω faithful h₁.document.nodes.size stale fresh rest g items) h' ∧
          List.Forall₂ Value.Alike (items.map Item.shown) vs ∧ Value.RenderableAll vs)
        (fun items h' => Becomes h₁ parent before g behind (FitsItems ω False items) h' ∧
          ¬Value.RenderableAll vs))
    (hkept : ∀ item' : Item, item'.shown.Built → item'.shown.Renderable → ∀ f g,
      Fits ω False item'.shown item'.content f → FitsItems ω faithful rest g →
      FitsItems ω False (kept item') (f ++ g)) :
    ((updateItem (patch (anchorOf rest anchor)) item next h).andThen
      (fun item h => (patchRest h).map (item :: ·)) kept).Ends
      (fun items h' => Becomes h parent before (f ++ g) behind
          (fun f' => FitsItems ω faithful items f' ∧ (faithful →
            FirstRenewed ω h.document.nodes.size stale fresh item f next rest g items f')) h' ∧
        List.Forall₂ Value.Alike (items.map Item.shown) (next :: vs) ∧
        Value.RenderableAll (next :: vs))
      (fun items h' => Becomes h parent before (f ++ g) behind (FitsItems ω False items) h' ∧
        ¬Value.RenderableAll (next :: vs)) := by
  obtain ⟨d, g, rfl, fitsRest, hd, hanchor⟩ := fitsRest.anchored head
  have fits : Fits ω faithful item.shown item.content ([] ++ f ++ d) :=
    fits.around (fun _ => rfl) hd
  have heq : f ++ (d ++ g) = [] ++ ([] ++ f ++ d) ++ g := by simp
  rw [heq] at b ⊢
  rw [ends_andThen]
  refine (updateItem_ends hp built builtItem renderable b.part hanchor fits within).mono ?_ ?_
  · rintro item' h₁ ⟨⟨f', w, fits', carries⟩, same, built', renderable'⟩
    have w₁ := w.part b
    have b₁ : Block h₁.document parent before (f' ++ g ++ []) behind := by simpa using w₁.block b
    rw [ends_map]
    refine (hrest b₁.part fitsRest).mono ?_ ?_
    · rintro items h₂ ⟨⟨g', w₂, fitsItems, others⟩, sames, ok⟩
      have w₂ := w₂.part b₁
      refine ⟨⟨f' ++ g', w₁.trans (by simpa using w₂), .cons built' renderable' fits' fitsItems,
        fun hf => ?_⟩, .cons same sames, same.renderable.1 renderable', ok⟩
      obtain rfl := hd hf
      simp only [List.nil_append, List.append_nil] at w carries
      obtain ⟨rows, rows', hrows, hg, rfl, rfl, carriesRest⟩ := others hf
      exact ⟨⟨item', f'⟩, rows, rows', hrows, hg, rfl, rfl, same, fits'.mono fun _ => hf, w.fresh,
        carries hf, carriesRest.mono w₁.size_le⟩
    · rintro items h₂ ⟨⟨g', w₂, fitsItems⟩, no⟩
      have w₂ := w₂.part b₁
      refine ⟨⟨f' ++ g', w₁.trans (by simpa using w₂), .cons built' renderable' ?_ fitsItems⟩,
        fun ok => no ok.2⟩
      simpa using fits'.weaken (fun h => h) item'.shown [] []
  · rintro item' h₁ ⟨⟨f', w, fits'⟩, no, built', renderable'⟩
    refine ⟨⟨_, w.part b, ?_⟩, fun ok => no ok.1⟩
    rw [List.nil_append]
    exact hkept item' built' renderable' f' g fits' fitsRest

theorem built_absent : Item.absent.shown.Built := trivial

theorem renderable_absent : Item.absent.shown.Renderable := trivial

theorem clears_absent : ContentWithin ω Item.absent.content := by
  rintro _ _ _ ⟨⟩

theorem fits_absent : Fits ω faithful Item.absent.shown Item.absent.content [] :=
  .empty fun _ => ⟨rfl, trivial⟩

theorem FirstRenewed.reuse {count : Nat} {item : Item} {items : List Item} {f' : List Subtree}
    (first : FirstRenewed ω count stale fresh item f next rest g items f')
    (fits : Fits ω True item.shown item.content f) (kept : stale item = false)
    (known : ∀ v : Value, v.Alike next → fresh v = false) :
    ∃ rows rows', item :: rest = Row.items rows ∧ f ++ g = Row.forests rows ∧
      items = Row.items rows' ∧ f' = Row.forests rows' ∧
      CarriesItems ω count stale fresh rows rows' := by
  obtain ⟨row', rows, rows', rfl, rfl, rfl, rfl, same, fits', grown, carries, others⟩ := first
  exact ⟨⟨item, f⟩ :: rows, row' :: rows', rfl, rfl, rfl, rfl,
    .reuse kept (known _ same) fits fits' grown carries others⟩

theorem FirstRenewed.insert {count : Nat} {items : List Item} {f' : List Subtree}
    (first : FirstRenewed ω count stale fresh .absent [] next rest g items f')
    (come : ∀ v : Value, v.Alike next → fresh v = true ∨ rest = []) :
    ∃ rows rows', rest = Row.items rows ∧ g = Row.forests rows ∧
      items = Row.items rows' ∧ f' = Row.forests rows' ∧
      CarriesItems ω count stale fresh rows rows' := by
  obtain ⟨row', rows, rows', rfl, rfl, rfl, rfl, same, fits', grown, -, others⟩ := first
  refine ⟨rows, row' :: rows', rfl, rfl, rfl, rfl, .insert ?_ fits' ?_ others⟩
  · exact (come _ same).imp_right List.map_eq_nil_iff.1
  · intro n hn
    exact (grown n hn).resolve_left (by simp)

/-- The next value by position, in the place of the first item or of none. -/
theorem patchNext_ends {patch : NodeId → Content → Host → Patched Content}
    {patchItems : NodeId → List Item → Host → Patched (List Item)}
    (hp : PatchesContent ω next patch)
    (hps : PatchesItems ω (fun _ => false) (fun _ _ => false) vs patchItems)
    (built : next.Built) :
    PatchesItems ω (fun _ => false) (fun _ _ => false) (next :: vs) fun anchor old h =>
      match old with
      | item :: rest =>
          (updateItem (fun c h => patch (anchorOf rest anchor) c h) item next h).andThen
            (fun item h => (patchItems anchor rest h).map (item :: ·)) (· :: rest)
      | [] =>
          (updateItem (fun c h => patch anchor c h) .absent next h).andThen
            (fun item h => (patchItems anchor [] h).map (item :: ·)) (fun _ => []) := by
  intro faithful old f h parent anchor before behind b head fits within
  cases fits with
  | nil shows =>
    have b : Block h.document parent before ([] ++ f) behind := b
    refine (patchFirst_ends hp built built_absent renderable_absent b head fits_absent (.nil shows)
      clears_absent (fun b fits => hps b head fits (by simp)) fun _ _ _ _ _ _ _ => ?_).mono ?_ ?_
    · exact .nil fun h => h.elim
    · rintro items h' ⟨⟨f', w, fits', first⟩, r⟩
      exact ⟨⟨f', w, fits', fun hf => (first hf).insert fun _ _ => .inr rfl⟩, r⟩
    · exact fun _ _ r => r
  | cons builtItem renderable first fitsRest =>
    refine (patchFirst_ends hp built builtItem renderable b head first fitsRest
      (within _ (List.mem_cons_self ..))
      (fun b fits => hps b head fits fun item hi => within item (List.mem_cons_of_mem _ hi))
      ?_).mono ?_ ?_
    · intro item' built' renderable' f g fits' fitsRest'
      refine .cons built' renderable' fits' ?_
      simpa using fitsRest'.weaken (fun h => h) [] []
    · rintro items h' ⟨⟨f', w, fits', renewed⟩, r⟩
      exact ⟨⟨f', w, fits', fun hf => (renewed hf).reuse (first.mono fun _ => hf) rfl
        fun _ _ => rfl⟩, r⟩
    · exact fun _ _ r => r

/-- Nothing of the list before is lost in a step along it. -/
theorem keyedStep_split {α : Type} (stale : α → Bool) (fresh : Bool) (old : List α) :
    (keyedStep stale fresh old).removed ++ (keyedStep stale fresh old).reused.toList ++
      (keyedStep stale fresh old).rest = old := by
  unfold keyedStep
  split
  · simp
  · have h := List.takeWhile_append_dropWhile (p := stale) (l := old)
    split
    next hd => simpa [hd] using h
    next item rest hd => simpa [hd] using h

/-- Stale items are removed, one that is not may be taken over. Otherwise the value is
fresh, or no item is left. -/
theorem keyedStep_reasons {α : Type} (stale : α → Bool) (fresh : Bool) (old : List α) :
    (∀ item ∈ (keyedStep stale fresh old).removed, stale item = true) ∧
      (∀ item, (keyedStep stale fresh old).reused = some item →
        stale item = false ∧ fresh = false) ∧
      ((keyedStep stale fresh old).reused = none →
        fresh = true ∨ (keyedStep stale fresh old).rest = []) := by
  unfold keyedStep
  split
  next hf => simp [hf]
  next hf =>
    have removed : ∀ item ∈ old.takeWhile stale, stale item = true :=
      List.all_eq_true.1 List.all_takeWhile
    split
    next => exact ⟨removed, by simp, fun _ => .inr rfl⟩
    next item rest hd =>
      have hs : stale item = false := by
        have h := List.head_dropWhile_not stale (l := old) (by simp [hd])
        simpa [hd] using h
      refine ⟨removed, ?_, by simp⟩
      rintro item' ⟨⟩
      exact ⟨hs, by simpa using hf⟩

/-- What an item that is reused has put into the document, or none, and what is taken to
belong to it. -/
theorem fits_reused {reused : Option Item} (fits : FitsItems ω faithful reused.toList f) :
    ∃ own debris, f = own ++ debris ∧ (faithful → debris = []) ∧
      Fits ω faithful (reused.getD .absent).shown (reused.getD .absent).content own ∧
      (reused.getD .absent).shown.Built ∧ (reused.getD .absent).shown.Renderable := by
  cases reused with
  | none =>
    cases fits with
    | nil shows => exact ⟨[], f, rfl, shows, fits_absent, built_absent, renderable_absent⟩
  | some item =>
    cases fits with
    | cons built renderable first none =>
      cases none with
      | nil shows => exact ⟨_, _, rfl, shows, first, built, renderable⟩

/-- An item is reused, or the value has a place of its own, for one of these reasons. -/
theorem FirstRenewed.reused {count : Nat} {reused : Option Item} {items : List Item}
    {f' : List Subtree}
    (first : FirstRenewed ω count stale fresh (reused.getD .absent) f next rest g items f')
    (fits : FitsItems ω True reused.toList f)
    (known : ∀ item, reused = some item →
      stale item = false ∧ ∀ v : Value, v.Alike next → fresh v = false)
    (come : reused = none → ∀ v : Value, v.Alike next → fresh v = true ∨ rest = []) :
    ∃ rows rows', reused.toList ++ rest = Row.items rows ∧ f ++ g = Row.forests rows ∧
      items = Row.items rows' ∧ f' = Row.forests rows' ∧
      CarriesItems ω count stale fresh rows rows' := by
  cases reused with
  | none =>
    cases fits with
    | nil shows =>
      obtain rfl := shows trivial
      exact first.insert (come rfl)
  | some item =>
    obtain ⟨kept, known⟩ := known item rfl
    cases fits with
    | cons built renderable fits none =>
      cases none with
      | nil shows =>
        obtain rfl := shows trivial
        rw [List.append_nil] at first ⊢
        exact first.reuse fits kept known

/-- The next value by key. Items in front of the one that it takes over are removed, and
what is left of them is taken to belong to that item. -/
theorem patchKeyedNext_ends {patch : NodeId → Content → Host → Patched Content}
    {patchItems : NodeId → List Item → Host → Patched (List Item)}
    (hp : PatchesContent ω next patch) (hps : PatchesItems ω stale (fun _ => fresh) vs patchItems)
    (built : next.Built) (hfresh : ∀ v : Value, v.Alike next → fresh v = fresh next) :
    PatchesItems ω stale (fun _ => fresh) (next :: vs) fun anchor old h =>
      let step := keyedStep stale (fresh next) old
      (attempt (clearItems step.removed) id () h).andThen
        (fun _ h =>
          (updateItem (fun c h => patch (anchorOf step.rest anchor) c h)
            (step.reused.getD .absent) next h).andThen
            (fun item h => (patchItems anchor step.rest h).map (item :: ·))
            (fun _ => []))
        (fun _ => []) := by
  intro faithful old f h parent anchor before behind b head fits within
  obtain ⟨stales, taken, left⟩ := keyedStep_reasons stale (fresh next) old
  have hsplit := keyedStep_split stale (fresh next) old
  dsimp only
  revert stales taken left hsplit
  generalize keyedStep stale (fresh next) old = step
  obtain ⟨removed, reused, rest⟩ := step
  rintro stales taken left rfl
  rw [List.append_assoc] at fits
  obtain ⟨f₁, f₂, rfl, fitsRemoved, others⟩ := fits.split
  obtain ⟨f₃, f₄, rfl, fitsReused, fitsRest⟩ := others.split
  obtain ⟨own, debris, rfl, shows, first, builtItem, renderable⟩ := fits_reused fitsReused
  have withinRest : ∀ item ∈ rest, ContentWithin ω item.content := fun item hi =>
    within item (List.mem_append_right _ hi)
  have withinReused : ContentWithin ω (reused.getD .absent).content := by
    cases reused with
    | none => exact clears_absent
    | some item => exact within item (by simp)
  have b : Block h.document parent before ([] ++ f₁ ++ (own ++ debris ++ f₄)) behind := b
  rw [ends_andThen, ends_attempt]
  refine clearItems_runs fitsRemoved b.part fun h₁ f₁' w₁ hf₁ => ?_
  have w₁ := w₁.part b
  have b₁ : Block h₁.document parent before ((f₁' ++ own ++ debris) ++ f₄) behind := by
    simpa using w₁.block b
  refine (patchFirst_ends hp built builtItem renderable b₁ head (first.around hf₁ shows) fitsRest
    withinReused (fun b fits => hps b head fits withinRest)
    fun _ _ _ _ _ _ _ => .nil fun h => h.elim).mono ?_ ?_
  · rintro items h' ⟨⟨f', w, fits', renewed⟩, r⟩
    refine ⟨⟨f', Rewrites.trans (by simpa using w₁) w, fits', fun hf => ?_⟩, r⟩
    have renewed := renewed hf
    obtain rfl := shows hf
    obtain rfl := hf₁ hf
    rw [List.append_nil, List.nil_append] at renewed
    rw [List.append_nil] at fitsReused ⊢
    obtain ⟨rows, rows', hrows, hforests, rfl, rfl, items⟩ :=
      renewed.reused (fitsReused.mono fun _ => hf)
        (fun item hi => (taken item hi).imp_right fun known v hv => (hfresh v hv).trans known)
        fun none v hv => (left none).imp_left (hfresh v hv).trans
    -- the items that are removed stand in front of those that are carried on
    obtain ⟨rows₁, rfl, rfl, fitsRows⟩ := (fitsRemoved.mono fun _ => hf).exists_rows
    refine ⟨rows₁ ++ rows, rows', ?_, ?_, rfl, rfl,
      .skip (fun row hr => .inl (stales _ (List.mem_map_of_mem hr))) fitsRows
        (items.mono w₁.size_le)⟩
    · rw [Row.items_append, ← hrows, List.append_assoc]
    · rw [Row.forests_append, ← hforests]
  · rintro items h' ⟨⟨f', w, fits'⟩, r⟩
    exact ⟨⟨f', Rewrites.trans (by simpa using w₁) w, fits'⟩, r⟩

end

/-! ### Lists -/

section
variable {vs : List Value} {rows rows' : List Row}

theorem keys_of_alike (same : List.Forall₂ Value.Alike ((Row.items rows').map Item.shown) vs) :
    Row.keys rows' = vs.filterMap (·.key?) ∧
      Value.allKeyed (rows'.map fun row => row.item.shown) = Value.allKeyed vs := by
  have keys : (rows'.map fun row => row.item.shown).map (·.key?) = vs.map (·.key?) := by
    rw [Row.items, List.map_map] at same
    have same := same.imp fun _ _ h => h.key?
    rwa [← List.forall₂_map_right_iff, ← List.forall₂_map_left_iff, List.forall₂_eq_eq_eq] at same
  constructor
  · have filtered := congrArg (List.filterMap id) keys
    rwa [List.map_map, List.filterMap_map, List.filterMap_map] at filtered
  · exact Value.allKeyed_congr
      (by simpa [Function.comp_def] using congrArg (List.map Option.isSome) keys)

/-- Items are taken over by the keys of the two lists. -/
theorem keyed_of_alike (same : List.Forall₂ Value.Alike ((Row.items rows').map Item.shown) vs) :
    Keyed (isStale (vs.filterMap (·.key?)))
      (isFresh ((Row.items rows).filterMap (·.shown.key?))) rows rows' := by
  intro _
  rw [(keys_of_alike same).1, Row.items, List.filterMap_map]
  exact ⟨rfl, rfl⟩

theorem keyed_of_not_keyed {stale : Item → Bool} {fresh : Value → Bool}
    (no : ¬Value.allKeyed vs = true)
    (same : List.Forall₂ Value.Alike ((Row.items rows').map Item.shown) vs) :
    Keyed stale fresh rows rows' := by
  intro keyed
  rw [(keys_of_alike same).2] at keyed
  exact absurd keyed no

end

theorem takeItems_of_apart (apart : ¬c.Resumes (.list [])) :
    takeItems c h = attempt (clear c) (fun _ => .list []) .empty h := by
  cases c with
  | list _ => exact absurd trivial apart
  | empty => rfl
  | text _ => rfl
  | nested _ _ _ _ => rfl

/-- A list is taken over with its items, and its keys. Any other content gives way to one
that is new. -/
theorem patchList_ends {vs : List Value} {stale : Item → Bool} {fresh : List Item → Value → Bool}
    {patch : NodeId → List Item → Host → Patched (List Item)}
    (hp : PatchesItems ω stale fresh vs patch) (handle : Nat)
    (keyed : ∀ rows rows' : List Row, List.Forall₂ Value.Alike ((Row.items rows').map Item.shown) vs →
      Keyed stale (fresh (Row.items rows)) rows rows')
    (placed : Value.allKeyed vs = false → ∀ old, ByPosition stale (fresh old))
    (b : Block h.document parent before f behind) (head : behind.head? = some anchor)
    (fits : Fits ω faithful u c f) (within : ContentWithin ω c) :
    (patchList (patch anchor) c h).Ends
      (fun c' h' => Becomes h parent before f behind
        (Renewed ω faithful h.document.nodes.size c f (.list handle vs) c') h' ∧
        (Value.list handle vs).Renderable)
      (fun c' h' => Becomes h parent before f behind (Fits ω False (.list handle vs) c') h' ∧
        ¬(Value.list handle vs).Renderable) := by
  have cleared (apart : ∀ items, ¬c.Resumes (.list items)) :
      (patchList (patch anchor) c h).Ends
      (fun c' h' => Becomes h parent before f behind
        (Renewed ω faithful h.document.nodes.size c f (.list handle vs) c') h' ∧
        (Value.list handle vs).Renderable)
      (fun c' h' => Becomes h parent before f behind (Fits ω False (.list handle vs) c') h' ∧
        ¬(Value.list handle vs).Renderable) := by
    rw [patchList, takeItems_of_apart (apart []), ends_andThen, ends_attempt]
    refine clear_runs fits b fun h₁ f₁ w₁ hf₁ => ?_
    rw [ends_map]
    refine (hp (w₁.block b) head (.nil hf₁) (by simp)).mono ?_ ?_
    · rintro items h₂ ⟨⟨f₂, w₂, fits₂, -⟩, same, ok⟩
      refine ⟨⟨f₂, w₁.trans w₂, .fresh w₁ hf₁ w₂ (.list fits₂ fun _ => ?_) fun _ => apart items⟩, ok⟩
      exact ⟨handle, vs, rfl, same⟩
    · rintro items h₂ ⟨⟨f₂, w₂, fits₂⟩, no⟩
      exact ⟨⟨f₂, w₁.trans w₂, .list fits₂ fun h => h.elim⟩, no⟩
  cases fits with
  | @list _ old _ items _ =>
    show ((patch anchor old h).map Content.list).Ends _ _
    rw [ends_map]
    refine (hp b head items fun item hi n attrs shown hm =>
      within n attrs shown (.item hi hm)).mono ?_ ?_
    · rintro items' h' ⟨⟨f', w, fits', carries⟩, same, ok⟩
      refine ⟨⟨f', w, .list fits' fun _ => ⟨handle, vs, rfl, same⟩, fun hf => ?_⟩, ok⟩
      obtain ⟨rows, rows', rfl, rfl, rfl, rfl, carried⟩ := carries hf
      exact .list carried (.inr (keyed rows rows' same)) fun no =>
        placed ((keys_of_alike same).2 ▸ no) (Row.items rows)
    · rintro items' h' ⟨⟨f', w, fits'⟩, no⟩
      exact ⟨⟨f', w, .list fits' fun h => h.elim⟩, no⟩
  | empty _ => exact cleared fun _ => id
  | text _ _ _ => exact cleared fun _ => id
  | nested _ _ _ _ _ => exact cleared fun _ => id

/-! ### Places -/

section
variable {clean : Nat → Prop} {kept : NodeId → Target → Prop} {ss : List Stem}
  {data : NodeId → ElementData} {fill : NodeId → List Subtree} {places : List Place} {j : Nat}
  {p : Place}

/-- One place of a table has become another one. The contents of the others are as they
were, and its own one is carried on. -/
structure PlaceCarries (ω : Watch) (clean : Nat → Prop) (count : Nat) (j : Nat)
    (fill : NodeId → List Subtree) (places : List Place) (fill' : NodeId → List Subtree)
    (p' : Place) : Prop where
  grown : ∀ spot, Grown count (fill spot) (fill' spot)
  others : ∀ (i : Nat) (marker : NodeId) (item : Item), i ≠ j →
    places[i]? = some (.content marker item) → fill' marker = fill marker
  carries : ∀ (marker : NodeId) (item item' : Item), clean j →
    places[j]? = some (.content marker item) → p' = .content marker item' →
    Carries ω count item.content (fill marker) item'.content (fill' marker)

/-- What patching one place of a table comes to. -/
def PlaceEnds (ω : Watch) (clean : Nat → Prop) (kept : NodeId → Target → Prop)
    (shared : SharedSkeleton) (ss : List Stem) (h : Host) (parent : NodeId)
    (before : List NodeId) (f : List Subtree) (behind : List NodeId)
    (fill : NodeId → List Subtree) (places : List Place) (j : Nat) (p : Place) (next : Value)
    (r : Patched Place) : Prop :=
  r.Ends
    (fun p' h' => TableTurns ω clean kept shared ss h parent before f behind (places.set j p')
        (fun fill' => PlaceCarries ω clean h.document.nodes.size j fill places fill' p') h' ∧
      ∀ v, p'.shown? = some v → v.Alike next)
    (fun p' h' => ¬p.Takes next ∧
      TableTurns ω (fun i => clean i ∧ i ≠ j) (fun n x => kept n x ∧ p.Spares next n x) shared ss h
        parent before f behind (places.set j p') (fun _ => True) h')

theorem set_self (hj : places[j]? = some p) : places.set j p = places := by
  obtain ⟨hlt, rfl⟩ := List.getElem?_eq_some_iff.1 hj
  exact List.set_getElem_self hlt

theorem PlaceCarries.same {count : Nat} (contents : PlacesFit ω clean fill places)
    (hj : places[j]? = some p) : PlaceCarries ω clean count j fill places fill p where
  grown _ := .refl
  others _ _ _ _ _ := rfl
  carries marker item item' hclean hi hp := by
    obtain rfl : item = item' := by simpa [hi, hp] using hj
    exact ((contents j marker item hi).mono fun _ => hclean).carries count

theorem grown_update {count : Nat} {spot : NodeId} {g : List Subtree}
    (grown : Grown count (fill spot) g) (other : NodeId) :
    Grown count (fill other) (Function.update fill spot g other) := by
  by_cases heq : other = spot
  · rw [heq, Function.update_self]
    exact grown
  · rw [Function.update_of_ne heq]
    exact .refl

/-- An attribute has no content. -/
theorem PlaceCarries.attribute {count : Nat} {n : NodeId} {c : Binding} {v : Value}
    {fill' : NodeId → List Subtree} (grown : ∀ spot, Grown count (fill spot) (fill' spot))
    (others : ∀ (i : Nat) (marker : NodeId) (item : Item),
      places[i]? = some (.content marker item) → fill' marker = fill marker) :
    PlaceCarries ω clean count j fill places fill' (.attribute n c v) where
  grown := grown
  others i marker item _ hi := others i marker item hi
  carries marker item item' _ _ hp := by simp at hp

theorem PlaceCarries.content {count : Nat} {marker : NodeId} {item item' : Item}
    {g : List Subtree} (seated : Seated shared ss places)
    (nodup : (idsAll (Stem.assembleAll data fill ss)).Nodup)
    (hj : places[j]? = some (.content marker item)) (grown : Grown count (fill marker) g)
    (carries : clean j → Carries ω count item.content (fill marker) item'.content g) :
    PlaceCarries ω clean count j fill places (Function.update fill marker g)
      (.content marker item') where
  grown := grown_update grown
  others i m _ hij hi := by
    apply Function.update_of_ne
    rintro rfl
    have heq := (Stem.distinctAll ss nodup).marker_eq _ (seated.marker_of hi) _
      (seated.marker_of hj) rfl
    exact hij (congrArg Prod.snd heq)
  carries m it it' hclean hi hp := by
    obtain ⟨rfl, rfl⟩ : marker = m ∧ item' = it' := by simpa using hp
    obtain rfl : item = it := by simpa [hi, eq_comm] using hj
    rw [Function.update_self]
    exact carries hclean

/-- A place that is left alone. -/
theorem placeEnds_same
    (b : Block h.document parent before (Stem.assembleAll data fill ss) behind)
    (t : TableFits ω clean kept shared ss data fill places) (contents : PlacesFit ω clean fill places)
    (hj : places[j]? = some p) (same : ∀ v, p.shown? = some v → v.Alike next) :
    PlaceEnds ω clean kept shared ss h parent before (Stem.assembleAll data fill ss) behind fill
      places j p next ⟨p, h, none⟩ := by
  refine ⟨⟨data, fill, .refl b, ?_, ?_, .same contents hj⟩, same⟩
  · rwa [set_self hj]
  · rwa [set_self hj]

theorem replaceMarkup_runs (looked : Target → Bool) {n : NodeId} {kids : List Subtree}
    (b : Block h.document n [] kids []) :
    Runs (replaceMarkup n next) h
      (fun _ h' => ∃ kids', Rewrites h.document h'.document n [] kids kids' [] ∧
        shapes looked kids' = (if next = .null then [] else shownMarkup looked next.toText) ∧
        Applicable .markup next)
      (fun h' => ∃ kids', Rewrites h.document h'.document n [] kids kids' [] ∧
        ¬Applicable .markup next) := by
  unfold replaceMarkup
  split
  next hnull =>
    obtain rfl := Value.isNull_iff.1 hnull
    exact removeChildren_runs b fun h' w => ⟨[], w, rfl, fun h => absurd rfl h⟩
  next hnull =>
    have hne : next ≠ .null := fun h => hnull (Value.isNull_iff.2 h)
    refine (showMarkup_fills looked kids h n next.toText b).mono ?_ ?_
    · rintro _ h' ⟨kids', w, hshape, ok⟩
      exact ⟨kids', w, by rw [hshape, if_neg hne], fun _ => ok⟩
    · rintro h' ⟨kids', w, no⟩
      exact ⟨kids', w, fun ok => no (ok hne)⟩

/-- Markup is put in place of the children of its host. -/
theorem updateMarkup_ends {n : NodeId} {prev : Value} (built : next.Built)
    (b : Block h.document parent before (Stem.assembleAll data fill ss) behind)
    (t : TableFits ω clean kept shared ss data fill places) (contents : PlacesFit ω clean fill places)
    (hj : places[j]? = some (.attribute n .markup prev)) :
    PlaceEnds ω clean kept shared ss h parent before (Stem.assembleAll data fill ss) behind fill
      places j (.attribute n .markup prev) next
      (attempt (replaceMarkup n next) (fun _ => .attribute n .markup next)
        (.attribute n .markup prev) h) := by
  obtain ⟨tag, attrs, he, -⟩ := t.seated.element_of hj
  obtain ⟨attrs', hhost, -⟩ := t.host_of_bound hj
  obtain ⟨q, before', kids, behind', plug, f⟩ := Stem.focusAll_element ss b _ he
  have lift : ∀ {h' : Host} {kids' : List Subtree},
      Rewrites h.document h'.document n [] kids kids' [] →
      Rewrites h.document h'.document parent before (Stem.assembleAll data fill ss)
        (Stem.assembleAll data (Function.update fill n kids') ss) behind := by
    intro h' kids' w
    have w' := f.focus.lift _ _ (w.inside f.focus.block)
    rwa [f.plug_fill _ hhost rfl] at w'
  rw [PlaceEnds, ends_attempt]
  refine (replaceMarkup_runs ω.looked
    (f.focus.block.inside (Stem.container_of_element f.focus.block))).mono ?_ ?_
  · rintro _ h' ⟨kids', w, hshape, ok⟩
    refine ⟨⟨data, _, lift w, t.remark b.nodup hj built ok hshape,
      (t.contents_host contents b.nodup hj kids').set hj (by simp),
      .attribute (grown_update (f.kids_host _ hhost rfl ▸ w.fresh)) ?_⟩, ?_⟩
    · intro i marker item hi
      have apart := (Stem.distinctAll ss b.nodup).apart _ he _ (t.seated.marker_of hi)
      exact Function.update_of_ne (Ne.symm apart) ..
    · rintro v ⟨⟩
      exact .inl rfl
  · rintro h' ⟨kids', w, no⟩
    refine ⟨no, data, _, lift w, ?_, ?_, trivial⟩
    · rw [set_self hj]
      exact (t.unmark b.nodup hj kids').mono (fun _ h => h) fun _ _ h => h.1
    · rw [set_self hj]
      exact (t.contents_host contents b.nodup hj kids').drop j

/-- Any other value is written to the data of its element. -/
theorem updateData_ends {n : NodeId} {c : Binding} {prev : Value} (built : next.Built)
    (b : Block h.document parent before (Stem.assembleAll data fill ss) behind)
    (t : TableFits ω clean kept shared ss data fill places) (contents : PlacesFit ω clean fill places)
    (hj : places[j]? = some (.attribute n c prev)) (hc : c ≠ .markup)
    (within : PlaceWithin ω j (.attribute n c prev)) (changed : prev.same next = false) :
    PlaceEnds ω clean kept shared ss h parent before (Stem.assembleAll data fill ss) behind fill
      places j (.attribute n c prev) next
      (attempt (apply n c prev next) (fun _ => .attribute n c next) (.attribute n c prev) h) := by
  obtain ⟨tag, attrs, he, -⟩ := t.seated.element_of hj
  obtain ⟨q, before', kids, behind', plug, f⟩ := Stem.focusAll_element ss b _ he
  obtain ⟨builtPrev, applicable⟩ := t.sound j _ hj prev rfl
  have writable : ∀ v, Applicable c v ↔ Writable c v := fun v => by rw [Applicable, if_neg hc]
  rw [PlaceEnds, ends_attempt]
  refine ((apply_turns n next built c hc prev builtPrev ((writable _).1 applicable)).rewrites
    f.focus.block).mono ?_ ?_
  · rintro _ h' ⟨data', w, turns, ok⟩
    have w' := f.focus.lift _ _ w
    rw [f.plug_data] at w'
    refine ⟨⟨_, fill, w', t.turn b.nodup hj hc built ((writable _).2 ok) changed within turns,
      contents.set hj (by simp), .attribute (fun _ => .refl) fun _ _ _ _ => rfl⟩, ?_⟩
    rintro v ⟨⟩
    exact .inl rfl
  · rintro h' ⟨data', w, spoils, no⟩
    have w' := f.focus.lift _ _ w
    rw [f.plug_data] at w'
    refine ⟨fun ok => no ((writable _).1 ok), _, fill, w', ?_, ?_, trivial⟩
    · rw [set_self hj]
      exact t.spoil spoils fun i h => h.1
    · rw [set_self hj]
      exact contents.drop j

/-- A value is applied to an element. -/
theorem updateAttribute_ends {n : NodeId} {c : Binding} {prev : Value} (built : next.Built)
    (b : Block h.document parent before (Stem.assembleAll data fill ss) behind)
    (t : TableFits ω clean kept shared ss data fill places) (contents : PlacesFit ω clean fill places)
    (hj : places[j]? = some (.attribute n c prev))
    (within : PlaceWithin ω j (.attribute n c prev)) (changed : prev.same next = false) :
    PlaceEnds ω clean kept shared ss h parent before (Stem.assembleAll data fill ss) behind fill
      places j (.attribute n c prev) next
      (attempt (apply n c prev next) (fun _ => .attribute n c next) (.attribute n c prev) h) := by
  by_cases hc : c = .markup
  · subst hc
    have happly : apply n .markup prev next = replaceMarkup n next := by cases next <;> rfl
    rw [happly]
    exact updateMarkup_ends built b t contents hj
  · exact updateData_ends built b t contents hj hc within changed

/-- A place is left alone, or takes on the value if it can be shown there. -/
theorem updatePlace_ends {patch : NodeId → Content → Host → Patched Content}
    (hp : PatchesContent ω next patch) (built : next.Built)
    (b : Block h.document parent before (Stem.assembleAll data fill ss) behind)
    (t : TableFits ω clean kept shared ss data fill places) (contents : PlacesFit ω clean fill places)
    (hj : places[j]? = some p) (within : PlaceWithin ω j p) :
    PlaceEnds ω clean kept shared ss h parent before (Stem.assembleAll data fill ss) behind fill
      places j p next (updatePlace patch p next h) := by
  rcases p with _ | ⟨n, c, prev⟩ | ⟨marker, item⟩
  · exact placeEnds_same b t contents hj (by simp [Place.shown?])
  · rw [updatePlace]
    split
    next hs =>
      refine placeEnds_same b t contents hj ?_
      rintro v ⟨⟩
      exact .inr hs
    next hs => exact updateAttribute_ends built b t contents hj within (by simpa using hs)
  · have hm := t.seated.marker_of hj
    obtain ⟨builtItem, renderable⟩ := t.sound j _ hj _ rfl
    obtain ⟨q, before', rest, f⟩ := Stem.focusAll_marker ss b _ hm
    rw [PlaceEnds, updatePlace, ends_map]
    refine (updateItem_ends hp built builtItem renderable f.block rfl (contents j _ _ hj)
      within).mono ?_ ?_
    · rintro item' h' ⟨⟨g, w, fits, carries⟩, same, built', renderable'⟩
      refine ⟨⟨data, _, f.lift _ _ w, t.refill b.nodup hj built' renderable' g,
        contents.refill t.seated b.nodup hj fits, .content t.seated b.nodup hj w.fresh carries⟩, ?_⟩
      rintro v ⟨⟩
      exact same
    · rintro item' h' ⟨⟨g, w, fits⟩, no, built', renderable'⟩
      refine ⟨no, data, _, f.lift _ _ w, (t.refill b.nodup hj built' renderable' g).mono
        (fun _ h => h.1) (fun _ _ h => h.1), (contents.drop j).refill t.seated b.nodup hj ?_,
        trivial⟩
      have fits := fits.weaken (fun h : clean j ∧ j ≠ j => h.2 rfl) item'.shown [] []
      rwa [List.nil_append, List.append_nil] at fits

theorem TableTurns.after {h₁ h' : Host} {f₁ : List Subtree}
    {P Q : (NodeId → List Subtree) → Prop}
    (v : Rewrites h.document h₁.document parent before f f₁ behind)
    (w : TableTurns ω clean kept shared ss h₁ parent before f₁ behind places P h')
    (hPQ : ∀ fill, P fill → Q fill) :
    TableTurns ω clean kept shared ss h parent before f behind places Q h' := by
  obtain ⟨data, fill, w, t, contents, hfill⟩ := w
  exact ⟨data, fill, v.trans w, t, contents, hPQ fill hfill⟩

/-- One place is carried on, and then those behind it. -/
theorem PlaceCarries.andThen {count count' : Nat} {fill₁ fill₂ : NodeId → List Subtree}
    {p p' : Place} {done rest rest' : List Place} (le : count ≤ count')
    (first : PlaceCarries ω clean count done.length fill (done ++ p :: rest) fill₁ p')
    (behind : PlacesCarry ω clean count' (done.length + 1) fill₁ (done ++ p' :: rest) fill₂
      (done ++ p' :: rest')) :
    PlacesCarry ω clean count done.length fill (done ++ p :: rest) fill₂ (done ++ p' :: rest') := by
  have elsewhere : ∀ i, i ≠ done.length → (done ++ p :: rest)[i]? = (done ++ p' :: rest)[i]? := by
    intro i hi
    rw [List.getElem?_append, List.getElem?_append]
    split
    · rfl
    · rw [List.getElem?_cons, List.getElem?_cons, if_neg (by omega), if_neg (by omega)]
  have here : ∀ q (l : List Place), (done ++ q :: l)[done.length]? = some q := by simp
  constructor
  · exact fun spot => (first.grown spot).trans ((behind.grown spot).mono le)
  · intro i marker item item' hi hp hp'
    have hne : i ≠ done.length := by omega
    have hp₁ := hp
    rw [elsewhere i hne] at hp₁
    obtain ⟨rfl, hfill⟩ := behind.stays i marker item item' (by omega) hp₁ hp'
    exact ⟨rfl, hfill.trans (first.others i marker item' hne hp)⟩
  · intro i marker item item' hi hclean hp hp'
    by_cases hne : i = done.length
    · subst hne
      rw [here, Option.some.injEq] at hp'
      subst hp'
      have hfill := (behind.stays _ marker item' item' (by omega) (here _ _) (here _ _)).2
      rw [hfill]
      exact first.carries marker item item' hclean hp rfl
    · have hp₁ := hp
      rw [elsewhere i hne] at hp₁
      have carried := behind.carries i marker item item' (by omega) hclean hp₁ hp'
      rw [first.others i marker item hne hp] at carried
      exact carried.mono le

/-- What patching the rest of a table comes to, the places in front of it being done. -/
def PatchesPlaces (ω : Watch) (shared : SharedSkeleton) (vs : List Value)
    (patch : List Place → Host → Patched (List Place)) : Prop :=
  ∀ {clean : Nat → Prop} {kept : NodeId → Target → Prop} {ss : List Stem}
    {data : NodeId → ElementData} {fill : NodeId → List Subtree} {done rest : List Place}
    {h : Host} {parent : NodeId} {before behind : List NodeId},
    rest.length = vs.length →
    Block h.document parent before (Stem.assembleAll data fill ss) behind →
    TableFits ω clean kept shared ss data fill (done ++ rest) →
    PlacesFit ω clean fill (done ++ rest) →
    (∀ (i : Nat) (p : Place), rest[i]? = some p → PlaceWithin ω (done.length + i) p) →
    (patch rest h).Ends
      (fun rest' h' => TableTurns ω clean kept shared ss h parent before
        (Stem.assembleAll data fill ss) behind (done ++ rest')
        (fun fill' => PlacesCarry ω clean h.document.nodes.size done.length fill (done ++ rest)
          fill' (done ++ rest')) h' ∧ Places.Match rest' vs)
      (fun rest' h' => ∃ k p, rest[k]? = some p ∧ ¬p.Takes (Markup.valueAt vs k) ∧
        TableTurns ω (fun i => clean i ∧ i ≠ done.length + k)
          (fun n x => kept n x ∧ p.Spares (Markup.valueAt vs k) n x) shared ss h parent before
          (Stem.assembleAll data fill ss) behind (done ++ rest') (fun _ => True) h')

theorem PatchesPlaces.table {patch : List Place → Host → Patched (List Place)}
    (hp : PatchesPlaces ω shared values patch) (length : values.length = shared.holes) :
    PatchesTable ω shared values patch := by
  intro clean kept ss data fill places h parent before behind b t contents within
  have hlen : places.length = values.length := by rw [length, t.seated.length]
  have t : TableFits ω clean kept shared ss data fill ([] ++ places) := t
  refine (hp hlen b t contents (by simpa using within)).mono (fun _ _ h => h) ?_
  rintro places' h' ⟨k, p, hk, no, w⟩
  refine ⟨k, p, hk, no, ?_⟩
  simpa using w

/-- One place after the other. -/
theorem patchNextPlace_ends {vs : List Value}
    {patch : NodeId → Content → Host → Patched Content}
    {patchRest : List Place → Host → Patched (List Place)} (hp : PatchesContent ω next patch)
    (hps : PatchesPlaces ω shared vs patchRest) (built : next.Built) :
    PatchesPlaces ω shared (next :: vs) fun places h =>
      match places with
      | [] => ⟨[], h, none⟩
      | place :: rest =>
          (updatePlace (fun marker c h => patch marker c h) place next h).andThen
            (fun place h => (patchRest rest h).map (place :: ·)) (· :: rest) := by
  intro clean kept ss data fill done rest h parent before behind hlen b t contents within
  cases rest with
  | nil => simp at hlen
  | cons p rest =>
    have hj : (done ++ p :: rest)[done.length]? = some p := by simp
    have hset : ∀ p', (done ++ p :: rest).set done.length p' = done ++ p' :: rest := by simp
    have h0 := within 0 p rfl
    rw [Nat.add_zero] at h0
    rw [ends_andThen]
    have first := updatePlace_ends hp built b t contents hj h0
    simp only [PlaceEnds, hset] at first
    refine first.mono ?_ ?_
    · rintro p' h₁ ⟨⟨data₁, fill₁, w₁, t₁, contents₁, carry₁⟩, same⟩
      rw [ends_map]
      have hdone : ∀ rest', done ++ p' :: rest' = (done ++ [p']) ++ rest' := by simp
      rw [hdone] at t₁ contents₁
      refine (hps (by simpa using hlen) (w₁.block b) t₁ contents₁ fun i q hq => ?_).mono ?_ ?_
      · have := within (i + 1) q hq
        rwa [List.length_append, List.length_singleton, Nat.add_assoc, Nat.add_comm 1 i]
      · rintro rest' h₂ ⟨w₂, sames⟩
        refine ⟨hdone _ ▸ w₂.after w₁ fun fill₂ carry₂ => ?_, fun i q hq v hv => ?_⟩
        · simp only [List.length_append, List.length_singleton, ← hdone] at carry₂ ⊢
          exact carry₁.andThen w₁.size_le carry₂
        cases i with
        | zero =>
          obtain rfl : p' = q := by simpa using hq
          exact same v hv
        | succ i => exact sames i q (by simpa using hq) v hv
      · rintro rest' h₂ ⟨k, q, hk, no, w₂⟩
        refine ⟨k + 1, q, hk, no, hdone _ ▸ ?_⟩
        have hlen' : (done ++ [p']).length + k = done.length + (k + 1) := by
          rw [List.length_append, List.length_singleton, Nat.add_assoc, Nat.add_comm 1 k]
        rw [hlen'] at w₂
        exact w₂.after w₁ fun _ => id
    · rintro p' h₁ ⟨no, w₁⟩
      exact ⟨0, p, rfl, no, w₁⟩

end

/-! ### All values -/

mutual
theorem patchContent_ends (ω : Watch) : (v : Value) → v.Built →
    PatchesContent ω v fun anchor c h => patchContent anchor c v h
  | .null, _ => fun b _ fits _ => clear_ends trivial b fits
  | .attributes .., _ => fun b _ fits _ => clear_ends trivial b fits
  | .callback _, _ => fun b _ fits _ => clear_ends trivial b fits
  | .cell _, _ => fun b _ fits _ => clear_ends trivial b fits
  | .payload _, _ => fun b _ fits _ => clear_ends trivial b fits
  | .bool b, _ => fun h head fits _ => patchText_ends (v := .bool b) trivial h head fits
  | .number n, _ => fun b head fits _ => patchText_ends (v := .number n) trivial b head fits
  | .text s, _ => fun b head fits _ => patchText_ends (v := .text s) trivial b head fits
  | .template handle shared values, ⟨made, length, built⟩ =>
      patchTemplate_ends made
        (PatchesPlaces.table (patchPlaces_ends ω shared values built) length) handle
  | .list handle items, built => by
      intro b head fits within
      show (patchContent _ _ (.list handle items) _).Ends _ _
      rw [patchContent]
      split
      next hk =>
        have hp : PatchesItems ω (isStale (items.filterMap (·.key?)))
            (fun old => isFresh (old.filterMap (·.shown.key?))) items fun anchor old h =>
              patchKeyed anchor (old.filterMap (·.shown.key?)) (items.filterMap (·.key?)) old items h :=
          fun b head fits within => patchKeyed_ends ω items built _ _ b head fits within
        exact patchList_ends hp handle (fun rows rows' same => keyed_of_alike same)
          (fun no => absurd (hk.symm.trans no) (by simp)) b head fits within
      next hk =>
        exact patchList_ends (patchItems_ends ω items built) handle
          (fun rows rows' same => keyed_of_not_keyed hk same)
          (fun _ _ => ⟨fun _ => rfl, fun _ => rfl⟩) b head fits within
termination_by structural v => v

theorem patchItems_ends (ω : Watch) : (vs : List Value) → Value.BuiltAll vs →
    PatchesItems ω (fun _ => false) (fun _ _ => false) vs fun anchor old h =>
      patchItems anchor old vs h
  | [], _ => fun b _ fits _ => clearRest_ends b fits
  | next :: vs, built =>
      patchNext_ends (patchContent_ends ω next built.1) (patchItems_ends ω vs built.2) built.1
termination_by structural vs => vs

theorem patchKeyed_ends (ω : Watch) : (vs : List Value) → Value.BuiltAll vs →
    (prevKeys nextKeys : List Value) →
    PatchesItems ω (isStale nextKeys) (fun _ => isFresh prevKeys) vs fun anchor old h =>
      patchKeyed anchor prevKeys nextKeys old vs h
  | [], _, _, _ => fun b _ fits _ => clearRest_ends b fits
  | next :: vs, built, prevKeys, nextKeys =>
      patchKeyedNext_ends (patchContent_ends ω next built.1)
        (patchKeyed_ends ω vs built.2 prevKeys nextKeys) built.1 fun v hv => by
          rw [isFresh, isFresh, hv.key?]
termination_by structural vs => vs

/-- A table patched with values shows them, unless one of them cannot be shown at its
place. -/
theorem patchPlaces_ends (ω : Watch) (shared : SharedSkeleton) : (vs : List Value) →
    Value.BuiltAll vs → PatchesPlaces ω shared vs fun places h => patchPlaces places vs h
  | [], _ => by
      intro hlen b t contents within
      obtain rfl := List.length_eq_zero_iff.1 hlen
      have none : Places.Match [] [] := fun i p hp => by simp at hp
      refine ⟨⟨_, _, .refl b, t, contents, fun _ => .refl, ?_, ?_⟩, none⟩
      · intro i marker item item' _ hp hp'
        have heq := hp.symm.trans hp'
        simp only [Option.some.injEq, Place.content.injEq, true_and] at heq
        exact ⟨heq.symm, rfl⟩
      · intro i marker item item' hi _ hp
        simp [List.getElem?_eq_none hi] at hp
  | next :: vs, built =>
      patchNextPlace_ends (patchContent_ends ω next built.1) (patchPlaces_ends ω shared vs built.2)
        built.1
termination_by structural vs => vs
end

end LiveTemplate.Live
