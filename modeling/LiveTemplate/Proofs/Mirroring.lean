import LiveTemplate.Proofs.Counterparts
import LiveTemplate.Proofs.Rendering

/-!
# Renders that mirror each other

A render looks at nothing but what it has recorded and the nodes that are recorded. So the same
render of a container in two documents that match below it goes the same way, whatever else there
is in the documents: both fail or both succeed, new nodes are made in pairs, and the documents
match again.
-/
namespace LiveTemplate
open Document Live

/-! ### Steps -/

namespace Live
variable {α α' β β' : Type} {outer : NodeId → Prop} {c : NodeId} {R S : Pairing}

/-- Both results are failures or both are none, and the documents match. -/
inductive Agrees (outer : NodeId → Prop) (c : NodeId) (R : Pairing) (P : α → α' → Prop) :
    EStateM.Result DocumentError Host α → EStateM.Result DocumentError Host α' → Prop
  | ok {a : α} {a' : α'} {h h' : Host} (m : Matches outer c R h.document h'.document)
      (ha : P a a') : Agrees outer c R P (.ok a h) (.ok a' h')
  | error {h h' : Host} (m : Matches outer c R h.document h'.document) (e e' : DocumentError) :
      Agrees outer c R P (.error e h) (.error e' h')

/-- In documents that match two steps have results that agree, with more pairs. -/
def Mirrors (outer : NodeId → Prop) (c : NodeId) (R : Pairing) (m : HostM α) (m' : HostM α')
    (P : Pairing → α → α' → Prop) : Prop :=
  ∀ h h' : Host, Matches outer c R h.document h'.document →
    ∃ S, R ≤ S ∧ Agrees outer c S (P S) (m h) (m' h')

/-- Nothing is said of the answers. -/
abbrev Anything : Pairing → α → α' → Prop := fun _ _ _ => True

namespace Mirrors
variable {m : HostM α} {m' : HostM α'} {f : α → HostM β} {f' : α' → HostM β'}
  {P : Pairing → α → α' → Prop} {Q : Pairing → β → β' → Prop}

theorem pure {a : α} {a' : α'} (h : P R a a') :
    Mirrors outer c R (Pure.pure a : HostM α) (Pure.pure a' : HostM α') P :=
  fun _ _ matching => ⟨R, le_rfl, .ok matching h⟩

theorem bind (hm : Mirrors outer c R m m' P)
    (hf : ∀ S, R ≤ S → ∀ a a', P S a a' → Mirrors outer c S (f a) (f' a') Q) :
    Mirrors outer c R (m >>= f) (m' >>= f') Q := by
  intro h h' matching
  obtain ⟨S, le, first⟩ := hm h h' matching
  generalize hr : m h = r, hr' : m' h' = r' at first
  cases first with
  | ok matching₁ ha =>
    obtain ⟨T, le₁, rest⟩ := hf S le _ _ ha _ _ matching₁
    rw [bind_ok hr, bind_ok hr']
    exact ⟨T, le.trans le₁, rest⟩
  | error matching₁ e e' =>
    rw [bind_error hr, bind_error hr']
    exact ⟨S, le, .error matching₁ e e'⟩

theorem get : Mirrors outer c R (get : HostM Host) (get : HostM Host)
    fun S h h' => Matches outer c S h.document h'.document :=
  fun _ _ matching => ⟨R, le_rfl, .ok matching matching⟩

/-- Steps that do nothing to the documents. -/
theorem modify {g g' : Host → Host} (same : ∀ h, (g h).document = h.document)
    (same' : ∀ h, (g' h).document = h.document) :
    Mirrors outer c R (modify g : HostM Unit) (modify g' : HostM Unit) Anything := by
  intro h h' matching
  exact ⟨R, le_rfl, .ok (by rwa [same, same']) trivial⟩

theorem edit {f f' : Document → Except DocumentError Document}
    (hf : ∀ d d', Matches outer c R d d' → Agree (Matches outer c R) (f d) (f' d')) :
    Mirrors outer c R (Host.edit f) (Host.edit f') Anything := by
  intro h h' matching
  refine ⟨R, le_rfl, ?_⟩
  have agree := hf _ _ matching
  unfold Host.edit
  generalize f h.document = x, f' h'.document = y at agree
  cases agree with
  | ok matching₁ => exact .ok matching₁ trivial
  | error e e' => exact .error matching e e'

/-- New nodes are paired. -/
theorem create (kind : NodeKind) (hkind : ∀ data, kind = .element data → data.WellFormed) :
    Mirrors outer c R (Host.create kind) (Host.create kind) fun S n n' => S n n' :=
  fun _ _ matching => ⟨_, Pairing.le_add, .ok (matching.create kind hkind) Pairing.add_self⟩

theorem createElement (tag : String) :
    Mirrors outer c R (Host.createElement tag) (Host.createElement tag) fun S n n' => S n n' := by
  intro h h' matching
  by_cases valid : isValidTag tag = true
  · refine ⟨R.add h.document.nodes.size h'.document.nodes.size, Pairing.le_add, ?_⟩
    simp only [Host.createElement, Document.createElement, if_pos valid]
    refine .ok (matching.create _ ?_) Pairing.add_self
    rintro _ ⟨⟩
    exact .new valid
  · refine ⟨R, le_rfl, ?_⟩
    simp only [Host.createElement, Document.createElement, if_neg valid]
    exact .error matching _ _

variable {n n' p p' : NodeId}

theorem appendChild (hp : R.add c c p p') (hn : R n n') :
    Mirrors outer c R (Host.appendChild p n) (Host.appendChild p' n') Anything :=
  edit fun _ _ matching => matching.appendChild hp hn

theorem insertBefore (hn : R n n') (hp : R p p') :
    Mirrors outer c R (Host.insertBefore n p) (Host.insertBefore n' p') Anything :=
  edit fun _ _ matching => matching.insertBefore hn hp

theorem remove (hn : R n n') : Mirrors outer c R (Host.remove n) (Host.remove n') Anything :=
  edit fun _ _ matching => matching.remove hn

theorem removeAll {ids ids' : List NodeId} (h : List.Forall₂ R ids ids') :
    Mirrors outer c R (Host.removeAll ids) (Host.removeAll ids') Anything := by
  unfold Host.removeAll
  simp only [List.forM_eq_forM]
  induction ids generalizing ids' R with
  | nil =>
    cases h
    exact .pure trivial
  | cons n rest ih =>
    cases h with
    | cons hn others =>
      rw [List.forM_cons, List.forM_cons]
      exact (remove hn).bind fun S le _ _ _ => ih (others.imp le)

theorem removeChildren (hn : R n n') :
    Mirrors outer c R (Host.removeChildren n) (Host.removeChildren n') Anything :=
  get.bind fun _ le _ _ matching => removeAll (matching.children _ _ (.inl (le _ _ hn)))

theorem removeRange (hn : R n n') (hp : R p p') :
    Mirrors outer c R (Host.removeRange n p) (Host.removeRange n' p') Anything :=
  get.bind fun _ le _ _ matching => removeAll (matching.range (le _ _ hn) (le _ _ hp))

end Mirrors

/-! ### Mounting -/

variable {n n' : NodeId}

theorem writeDirect_mirrors (hn : R n n') (binding : Binding) (prev next : Value) :
    Mirrors outer c R (writeDirect n binding prev next) (writeDirect n' binding prev next)
      Anything := by
  rcases binding with name | name | name | event | - | - | - <;> simp only [writeDirect]
  · split
    · exact .edit fun _ _ matching => matching.removeAttribute hn _
    · exact .edit fun _ _ matching => matching.setAttribute hn _ _
  · split
    · exact .edit fun _ _ matching => matching.setAttribute hn _ _
    · exact .edit fun _ _ matching => matching.removeAttribute hn _
  · exact .edit fun _ _ matching => matching.setProperty hn _ _
  · split
    · refine Mirrors.bind (.edit fun _ _ matching => matching.removeListener hn _ _)
        fun S le _ _ _ => ?_
      split
      · exact .edit fun _ _ matching => matching.addListener (le _ _ hn) _ _
      · exact .pure trivial
    · split
      · exact .edit fun _ _ matching => matching.addListener hn _ _
      · exact .pure trivial
  · split
    · exact .modify (fun _ => rfl) fun _ => rfl
    · exact .modify (fun _ => rfl) fun _ => rfl
    · exact .pure trivial
  · exact .pure trivial
  · exact .pure trivial

section
variable {fill : NodeId → String → HostM Unit}

/-- What fills elements with markup does so alike in any two that are paired. -/
def FillsAlike (outer : NodeId → Prop) (c : NodeId) (fill : NodeId → String → HostM Unit) : Prop :=
  ∀ (R : Pairing) (n n' : NodeId) (s : String), R n n' →
    Mirrors outer c R (fill n s) (fill n' s) Anything

theorem mountAttributes_mirrors (hfill : FillsAlike outer c fill) (hn : R n n')
    (attrs : Attributes) : Mirrors outer c R (mountAttributes fill n attrs)
      (mountAttributes fill n' attrs) Bound.Paired := by
  induction attrs generalizing R with
  | nil => exact .pure .nil
  | cons a rest ih =>
    unfold mountAttributes
    split
    · exact ih hn
    · exact (hfill R n n' _ hn).bind fun _ le _ _ _ => ih (le _ _ hn)
    · exact (writeDirect_mirrors hn _ _ _).bind fun _ le _ _ _ => ih (le _ _ hn)
    · exact (ih hn).bind fun _ le _ _ hbound =>
        .pure (.cons ⟨rfl, .attribute (le _ _ hn)⟩ hbound)

mutual
/-- A node is mounted alike under any two parents that are paired, or both the container. -/
theorem mountNode_mirrors (hfill : FillsAlike outer c fill) : (node : Node) → {R : Pairing} →
    {p p' : NodeId} → R.add c c p p' →
    Mirrors outer c R (mountNode fill p node) (mountNode fill p' node)
      fun S r r' => S r.1 r'.1 ∧ Bound.Paired S r.2 r'.2
  | .element tag attrs children, R, p, p', hp => by
      unfold mountNode
      refine (Mirrors.createElement tag).bind fun S₁ le₁ n n' hn => ?_
      refine (Mirrors.appendChild (hp.imp_left (le₁ _ _)) hn).bind fun S₂ le₂ _ _ _ => ?_
      refine (mountAttributes_mirrors hfill (le₂ _ _ hn) attrs).bind fun S₃ le₃ _ _ hb => ?_
      have hn₃ : S₃ n n' := le₃ _ _ (le₂ _ _ hn)
      split
      · exact .pure ⟨hn₃, hb⟩
      · refine (mountNodes_mirrors hfill children (.inl hn₃)).bind fun S₄ le₄ r r' hr => ?_
        exact .pure ⟨le₄ _ _ hn₃, List.rel_append (hb.mono le₄) hr.2⟩
  | .text data, R, p, p', hp => by
      unfold mountNode
      refine (Mirrors.create _ (by simp)).bind fun S₁ le₁ n n' hn => ?_
      refine (Mirrors.appendChild (hp.imp_left (le₁ _ _)) hn).bind fun S₂ le₂ _ _ _ => ?_
      exact .pure ⟨le₂ _ _ hn, .nil⟩
  | .hole index, R, p, p', hp => by
      unfold mountNode
      refine (Mirrors.create _ (by simp)).bind fun S₁ le₁ n n' hn => ?_
      refine (Mirrors.appendChild (hp.imp_left (le₁ _ _)) hn).bind fun S₂ le₂ _ _ _ => ?_
      exact .pure ⟨le₂ _ _ hn, .cons ⟨rfl, .content (le₂ _ _ hn) Item.paired_absent⟩ .nil⟩
termination_by structural node => node

theorem mountNodes_mirrors (hfill : FillsAlike outer c fill) : (nodes : List Node) → {R : Pairing} →
    {p p' : NodeId} → R.add c c p p' →
    Mirrors outer c R (mountNodes fill p nodes) (mountNodes fill p' nodes)
      fun S r r' => List.Forall₂ S r.1 r'.1 ∧ Bound.Paired S r.2 r'.2
  | [], _, _, _, _ => .pure ⟨.nil, .nil⟩
  | node :: rest, R, p, p', hp => by
      unfold mountNodes
      refine (mountNode_mirrors hfill node hp).bind fun S₁ le₁ r r' hr => ?_
      refine (mountNodes_mirrors hfill rest (hp.imp_left (le₁ _ _))).bind fun S₂ le₂ t t' ht => ?_
      exact .pure ⟨.cons (le₂ _ _ hr.1) ht.1, List.rel_append (hr.2.mono le₂) ht.2⟩
termination_by structural nodes => nodes
end

end

theorem fillMarkup_mirrors (depth : Nat) : FillsAlike outer c (fillMarkup depth) := by
  induction depth with
  | zero => exact fun _ _ _ _ _ => .pure trivial
  | succ depth ih =>
    intro R n n' markup hn
    unfold fillMarkup
    refine (Mirrors.removeChildren hn).bind fun S₁ le₁ _ _ _ => ?_
    split
    · exact (mountNodes_mirrors ih _ (.inl (le₁ _ _ hn))).bind fun _ _ _ _ _ => .pure trivial
    · exact (Mirrors.create _ (by simp)).bind fun S₂ le₂ _ _ ht =>
        .appendChild (.inl (le₂ _ _ (le₁ _ _ hn))) ht

theorem showMarkup_mirrors : FillsAlike outer c showMarkup :=
  fun R n n' markup hn => fillMarkup_mirrors _ R n n' markup hn

theorem mount_mirrors (skeleton : Skeleton) {p p' : NodeId} (hp : R.add c c p p') :
    Mirrors outer c R (mount skeleton p) (mount skeleton p')
      fun S r r' => List.Forall₂ S r.1 r'.1 ∧ Places.Paired S r.2 r'.2 := by
  unfold mount
  refine (mountNodes_mirrors showMarkup_mirrors skeleton.nodes hp).bind fun S le r r' hr => ?_
  exact .pure ⟨hr.1, Places.Paired.ofBound hr.2 skeleton.holes⟩

/-! ### Applying -/

theorem applySingle_mirrors (hn : R n n') (binding : Binding) (prev next : Value) :
    Mirrors outer c R (applySingle n binding prev next) (applySingle n' binding prev next)
      Anything := by
  unfold applySingle
  split
  · unfold replaceMarkup
    split
    · exact .removeChildren hn
    · exact showMarkup_mirrors R n n' _ hn
  · exact writeDirect_mirrors hn _ _ _

mutual
theorem retract_mirrors : (prev : Value) → {R : Pairing} → R n n' → (binding : Binding) →
    Mirrors outer c R (retract n binding prev) (retract n' binding prev) Anything
  | .attributes handle entries, _, hn, binding => by
      unfold retract
      split
      · exact retractEntries_mirrors entries hn []
      · exact applySingle_mirrors hn _ _ _
  | .null, _, hn, _ | .bool _, _, hn, _ | .number _, _, hn, _ | .text _, _, hn, _
  | .template .., _, hn, _ | .list .., _, hn, _ | .callback _, _, hn, _ | .cell _, _, hn, _
  | .payload _, _, hn, _ => applySingle_mirrors hn _ _ _
termination_by structural v => v

theorem retractEntries_mirrors : (entries : List (String × Value)) → {R : Pairing} → R n n' →
    (kept : List String) →
    Mirrors outer c R (retractEntries n kept entries) (retractEntries n' kept entries) Anything
  | [], _, _, _ => .pure trivial
  | (name, old) :: rest, R, hn, kept => by
      have others : ∀ S, R ≤ S →
          Mirrors outer c S (retractEntries n kept rest) (retractEntries n' kept rest) Anything :=
        fun _ le => retractEntries_mirrors rest (le _ _ hn) kept
      rw [retractEntries, retractEntries]
      split
      · split
        · exact (retract_mirrors old hn _).bind fun S le _ _ _ => others S le
        · exact others R le_rfl
      · exact others R le_rfl
termination_by structural es => es
end

mutual
theorem apply_mirrors : (next : Value) → {R : Pairing} → R n n' → (binding : Binding) →
    (prev : Value) →
    Mirrors outer c R (apply n binding prev next) (apply n' binding prev next) Anything
  | .attributes handle entries, _, hn, binding, prev => by
      unfold apply
      split
      · exact (applyEntries_mirrors entries hn _).bind fun _ le _ _ _ =>
          retractEntries_mirrors _ (le _ _ hn) _
      · exact applySingle_mirrors hn _ _ _
  | .null, _, hn, _, _ | .bool _, _, hn, _, _ | .number _, _, hn, _, _ | .text _, _, hn, _, _
  | .template .., _, hn, _, _ | .list .., _, hn, _, _ | .callback _, _, hn, _, _
  | .cell _, _, hn, _, _ | .payload _, _, hn, _, _ => by
      unfold apply
      split
      · exact retractEntries_mirrors _ hn _
      · exact applySingle_mirrors hn _ _ _
termination_by structural v => v

theorem applyEntries_mirrors : (entries : List (String × Value)) → {R : Pairing} → R n n' →
    (prev : List (String × Value)) →
    Mirrors outer c R (applyEntries n prev entries) (applyEntries n' prev entries) Anything
  | [], _, _, _ => .pure trivial
  | (name, next) :: rest, R, hn, prev => by
      have others : ∀ S, R ≤ S →
          Mirrors outer c S (applyEntries n prev rest) (applyEntries n' prev rest) Anything :=
        fun _ le => applyEntries_mirrors rest (le _ _ hn) prev
      rw [applyEntries, applyEntries]
      dsimp only
      split
      · split
        · exact (apply_mirrors next hn _ _).bind fun S le _ _ _ => others S le
        · exact others R le_rfl
      · exact others R le_rfl
termination_by structural es => es
end

/-! ### Clearing -/

mutual
theorem clear_mirrors : (content : Content) → {R : Pairing} → {content' : Content} →
    Content.Paired R content content' →
    Mirrors outer c R (clear content) (clear content') Anything
  | _, _, _, .empty => .pure trivial
  | _, _, _, .text h => .remove h
  | _, _, _, .nested hstart hstop _ => .removeRange hstart hstop
  | .list items, _, _, .list h => clearItems_mirrors items h
termination_by structural content => content

theorem clearItems_mirrors : (items : List Item) → {R : Pairing} → {items' : List Item} →
    Items.Paired R items items' →
    Mirrors outer c R (clearItems items) (clearItems items') Anything
  | [], _, _, .nil => .pure trivial
  | .mk _ content :: rest, _, _, .cons (.mk h) others =>
      (clear_mirrors content h).bind fun _ le _ _ _ =>
        clearItems_mirrors rest (Items.Paired.mono le rest others)
termination_by structural items => items
end

theorem clearPlaces_mirrors {places places' : List Place} (h : Places.Paired R places places') :
    Mirrors outer c R (clearPlaces places) (clearPlaces places') Anything := by
  induction places generalizing places' R with
  | nil =>
    cases h
    exact .pure trivial
  | cons p rest ih =>
    cases h with
    | cons hp others =>
      obtain _ | h | ⟨h, hitem⟩ := hp <;> simp only [clearPlaces]
      · exact ih others
      · exact ih others
      · exact (clear_mirrors _ hitem.content).bind fun _ le _ _ _ =>
          ih (Places.Paired.mono le rest others)

/-! ### Patches -/

/-- In documents that match two patches come to the same, and both fail or none does. -/
def Patched.Mirrors (outer : NodeId → Prop) (c : NodeId) (R : Pairing) (r : Host → Patched α)
    (r' : Host → Patched α') (P : Pairing → α → α' → Prop) : Prop :=
  ∀ h h' : Host, Matches outer c R h.document h'.document →
    ∃ S, R ≤ S ∧ Matches outer c S (r h).host.document (r' h').host.document ∧
      P S (r h).state (r' h').state ∧ ((r h).failure = none ↔ (r' h').failure = none)

namespace Patched.Mirrors
variable {r : Host → Patched α} {r' : Host → Patched α'} {P : Pairing → α → α' → Prop}
  {Q : Pairing → β → β' → Prop}

theorem done {a : α} {a' : α'} (ha : P R a a') :
    Patched.Mirrors outer c R (fun h => ⟨a, h, none⟩) (fun h => ⟨a', h, none⟩) P :=
  fun _ _ matching => ⟨R, le_rfl, matching, ha, Iff.rfl⟩

theorem map {f : α → β} {f' : α' → β'} (hr : Patched.Mirrors outer c R r r' P)
    (hf : ∀ S, R ≤ S → ∀ a a', P S a a' → Q S (f a) (f' a')) :
    Patched.Mirrors outer c R (fun h => (r h).map f) (fun h => (r' h).map f') Q := by
  intro h h' matching
  obtain ⟨S, le, matching₁, ha, failure⟩ := hr h h' matching
  exact ⟨S, le, matching₁, hf S le _ _ ha, failure⟩

theorem andThen {next : α → Host → Patched β} {next' : α' → Host → Patched β'} {kept : α → β}
    {kept' : α' → β'} (hr : Patched.Mirrors outer c R r r' P)
    (hnext : ∀ S, R ≤ S → ∀ a a', P S a a' → Patched.Mirrors outer c S (next a) (next' a') Q)
    (hkept : ∀ S, R ≤ S → ∀ a a', P S a a' → Q S (kept a) (kept' a')) :
    Patched.Mirrors outer c R (fun h => (r h).andThen next kept)
      (fun h => (r' h).andThen next' kept') Q := by
  intro h h' matching
  obtain ⟨S, le, matching₁, ha, failure⟩ := hr h h' matching
  dsimp only [Patched.andThen]
  by_cases hf : (r h).failure = none
  · simp only [hf, failure.1 hf]
    obtain ⟨T, le₁, rest⟩ := hnext S le _ _ ha _ _ matching₁
    exact ⟨T, le.trans le₁, rest⟩
  · obtain ⟨e, he⟩ := Option.ne_none_iff_exists'.1 hf
    obtain ⟨e', he'⟩ := Option.ne_none_iff_exists'.1 (mt failure.2 hf)
    simp only [he, he']
    exact ⟨S, le, matching₁, hkept S le _ _ ha, by simp⟩

theorem attempt {m : HostM α} {m' : HostM α'} {done : α → β} {done' : α' → β'} {kept : β}
    {kept' : β'} (hm : Live.Mirrors outer c R m m' P)
    (hdone : ∀ S, R ≤ S → ∀ a a', P S a a' → Q S (done a) (done' a'))
    (hkept : ∀ S, R ≤ S → Q S kept kept') :
    Patched.Mirrors outer c R (fun h => Patched.attempt m done kept h)
      (fun h => Patched.attempt m' done' kept' h) Q := by
  intro h h' matching
  obtain ⟨S, le, agree⟩ := hm h h' matching
  dsimp only [Patched.attempt, EStateM.run]
  generalize m h = x, m' h' = y at agree
  cases agree with
  | ok matching₁ ha => exact ⟨S, le, matching₁, hdone S le _ _ ha, Iff.rfl⟩
  | error matching₁ e e' => exact ⟨S, le, matching₁, hkept S le, by simp⟩

theorem toStep (hr : Patched.Mirrors outer c R r r' P) :
    Live.Mirrors outer c R (fun h => (r h).toStep) (fun h => (r' h).toStep) P := by
  intro h h' matching
  obtain ⟨S, le, matching₁, ha, failure⟩ := hr h h' matching
  refine ⟨S, le, ?_⟩
  dsimp only [Patched.toStep]
  by_cases hf : (r h).failure = none
  · simp only [hf, failure.1 hf]
    exact .ok matching₁ ha
  · obtain ⟨e, he⟩ := Option.ne_none_iff_exists'.1 hf
    obtain ⟨e', he'⟩ := Option.ne_none_iff_exists'.1 (mt failure.2 hf)
    simp only [he, he']
    exact .error matching₁ e e'

end Patched.Mirrors

theorem withdraw_mirrors {p p' : Place} (hp : Place.Paired R p p') :
    Patched.Mirrors outer c R (withdraw p) (withdraw p') Place.Paired := by
  intro h h' matching
  obtain _ | hn | ⟨hn, ⟨hcontent⟩⟩ := hp <;> dsimp only [withdraw]
  · exact Patched.Mirrors.done .vacant h h' matching
  · split
    · exact Patched.Mirrors.done (.attribute hn) h h' matching
    · exact Patched.Mirrors.attempt (retract_mirrors _ hn _)
        (fun _ le _ _ _ => .attribute (le _ _ hn)) (fun _ le => .attribute (le _ _ hn))
        h h' matching
  · split
    · exact Patched.Mirrors.done (.content hn (.mk hcontent)) h h' matching
    · exact Patched.Mirrors.attempt (clear_mirrors _ hcontent)
        (fun S le _ _ _ => .content (le _ _ hn) Item.paired_absent)
        (fun S le => .content (le _ _ hn) (.mk .empty)) h h' matching

theorem withdrawAll_mirrors {places places' : List Place} (hp : Places.Paired R places places') :
    Patched.Mirrors outer c R (withdrawAll places) (withdrawAll places') Places.Paired := by
  induction places generalizing places' R with
  | nil =>
    cases hp
    exact .done .nil
  | cons p rest ih =>
    cases hp with
    | cons hp others =>
      refine (withdraw_mirrors hp).andThen (fun S le p₁ p₁' hp₁ => ?_) fun S le p₁ p₁' hp₁ => ?_
      · exact (ih (Places.Paired.mono le rest others)).map fun T le₁ _ _ hrest =>
          .cons (hp₁.mono le₁) hrest
      · exact .cons hp₁ (Places.Paired.mono le rest others)

variable {anchor anchor' : NodeId} {content content' : Content}

theorem patchText_mirrors (hanchor : R anchor anchor') (hc : Content.Paired R content content')
    (text : String) :
    Patched.Mirrors outer c R (patchText anchor content text) (patchText anchor' content' text)
      Content.Paired := by
  have replaced : ∀ {content content'}, Content.Paired R content content' →
      Live.Mirrors outer c R
        (do
          clear content
          let node ← Host.create (.text text)
          Host.insertBefore node anchor
          pure node)
        (do
          clear content'
          let node ← Host.create (.text text)
          Host.insertBefore node anchor'
          pure node) fun S n n' => S n n' := by
    intro content content' hc
    refine (clear_mirrors content hc).bind fun S₁ le₁ _ _ _ => ?_
    refine (Mirrors.create _ (by simp)).bind fun S₂ le₂ n n' hn => ?_
    refine (Mirrors.insertBefore hn (le₂ _ _ (le₁ _ _ hanchor))).bind fun S₃ le₃ _ _ _ => ?_
    exact .pure (le₃ _ _ hn)
  have replace := fun (content content') (hc : Content.Paired R content content') =>
    Patched.Mirrors.attempt (replaced hc) (fun S le _ _ hn => Content.Paired.text hn)
      (fun _ _ => .empty)
  cases hc with
  | text hn =>
    exact .attempt (.edit fun _ _ matching => matching.setText hn text)
      (fun S le _ _ _ => .text (le _ _ hn)) (fun S le => .text (le _ _ hn))
  | empty => exact replace _ _ .empty
  | nested hstart hstop hplaces => exact replace _ _ (.nested hstart hstop hplaces)
  | list hitems => exact replace _ _ (.list hitems)

section
variable {patch patch' : List Place → Host → Patched (List Place)}

/-- Patches of tables come to the same on tables that are paired. -/
def PatchesAlike (outer : NodeId → Prop) (c : NodeId)
    (patch patch' : List Place → Host → Patched (List Place)) : Prop :=
  ∀ (R : Pairing) (places places' : List Place), Places.Paired R places places' →
    Patched.Mirrors outer c R (patch places) (patch' places') Places.Paired

theorem instantiate_mirrors (shared : SharedSkeleton) (hp : PatchesAlike outer c patch patch')
    (hanchor : R anchor anchor') :
    Live.Mirrors outer c R (instantiate shared patch anchor) (instantiate shared patch' anchor')
      Content.Paired := by
  unfold instantiate
  -- what is paired stays paired, so each pair is carried along to where it is needed
  refine (Mirrors.create _ (by simp)).bind fun S₁ le₁ start start' hstart => ?_
  refine (Mirrors.create _ (by simp)).bind fun S₂ le₂ stop stop' hstop => ?_
  refine (Mirrors.create _ (by simp)).bind fun S₃ le₃ fragment fragment' hfragment => ?_
  refine (mount_mirrors shared.skeleton (.inl hfragment)).bind fun S₄ le₄ r r' hr => ?_
  refine (hp S₄ r.2 r'.2 hr.2).toStep.bind fun S₅ le₅ places places' hplaces => ?_
  have le₁₅ : S₁ ≤ S₅ := le₂.trans (le₃.trans (le₄.trans le₅))
  refine (Mirrors.insertBefore (le₁₅ _ _ hstart) (le₁₅ _ _ (le₁ _ _ hanchor))).bind
    fun S₆ le₆ _ _ _ => ?_
  have le₁₆ : S₁ ≤ S₆ := le₁₅.trans le₆
  refine (Mirrors.insertBefore (le₆ _ _ (le₅ _ _ (le₄ _ _ hfragment)))
    (le₁₆ _ _ (le₁ _ _ hanchor))).bind fun S₇ le₇ _ _ _ => ?_
  have le₂₇ : S₂ ≤ S₇ := le₃.trans (le₄.trans (le₅.trans (le₆.trans le₇)))
  refine (Mirrors.insertBefore (le₂₇ _ _ hstop) (le₇ _ _ (le₁₆ _ _ (le₁ _ _ hanchor)))).bind
    fun S₈ le₈ _ _ _ => ?_
  exact .pure (.nested (le₈ _ _ (le₇ _ _ (le₁₆ _ _ hstart))) (le₈ _ _ (le₂₇ _ _ hstop))
    (Places.Paired.mono (le₆.trans (le₇.trans le₈)) places hplaces))

theorem patchTemplate_mirrors (shared : SharedSkeleton) (hp : PatchesAlike outer c patch patch')
    (hanchor : R anchor anchor') (hc : Content.Paired R content content') :
    Patched.Mirrors outer c R (patchTemplate anchor shared patch content)
      (patchTemplate anchor' shared patch' content') Content.Paired := by
  have replaced : ∀ {content content'}, Content.Paired R content content' → Live.Mirrors outer c R
      (do
        clear content
        instantiate shared patch anchor)
      (do
        clear content'
        instantiate shared patch' anchor') Content.Paired := fun hc =>
    (clear_mirrors _ hc).bind fun _ le _ _ _ => instantiate_mirrors shared hp (le _ _ hanchor)
  have replace := fun (content content') (hc : Content.Paired R content content') =>
    Patched.Mirrors.attempt (replaced hc) (fun S le _ _ h => h) (fun _ _ => Content.Paired.empty)
  cases hc with
  | nested hstart hstop hplaces =>
    intro h h' matching
    dsimp only [patchTemplate]
    split
    · exact (hp R _ _ hplaces).map (fun S le _ _ h => .nested (le _ _ hstart) (le _ _ hstop) h)
        h h' matching
    · exact replace _ _ (.nested hstart hstop hplaces) h h' matching
  | empty => exact replace _ _ .empty
  | text hn => exact replace _ _ (.text hn)
  | list hitems => exact replace _ _ (.list hitems)

end

theorem takeItems_mirrors (hc : Content.Paired R content content') :
    Patched.Mirrors outer c R (takeItems content) (takeItems content') Content.Paired := by
  have cleared : ∀ {content content'}, Content.Paired R content content' →
      Patched.Mirrors outer c R
        (fun h => Patched.attempt (clear content) (fun _ => .list []) .empty h)
        (fun h => Patched.attempt (clear content') (fun _ => .list []) .empty h)
        Content.Paired := fun hc =>
    .attempt (clear_mirrors _ hc) (fun _ _ _ _ _ => .list .nil) (fun _ _ => .empty)
  cases hc with
  | list hitems => exact .done (.list hitems)
  | empty => exact cleared .empty
  | text hn => exact cleared (.text hn)
  | nested hstart hstop hplaces => exact cleared (.nested hstart hstop hplaces)

theorem patchList_mirrors {patch patch' : List Item → Host → Patched (List Item)}
    (hp : ∀ S, R ≤ S → ∀ items items', Items.Paired S items items' →
      Patched.Mirrors outer c S (patch items) (patch' items') Items.Paired)
    (hc : Content.Paired R content content') :
    Patched.Mirrors outer c R (patchList patch content) (patchList patch' content')
      Content.Paired := by
  refine (takeItems_mirrors hc).andThen (fun S le content content' hc => ?_) fun _ _ _ _ h => h
  cases hc with
  | list hitems => exact (hp S le _ _ hitems).map fun _ _ _ _ h => .list h
  | empty => exact .done .empty
  | text hn => exact .done (.text hn)
  | nested hstart hstop hplaces => exact .done (.nested hstart hstop hplaces)

theorem updateItem_mirrors {patch patch' : Content → Host → Patched Content} {item item' : Item}
    (hp : Patched.Mirrors outer c R (patch item.content) (patch' item'.content) Content.Paired)
    (hitem : Item.Paired R item item') (next : Value) :
    Patched.Mirrors outer c R (updateItem patch item next) (updateItem patch' item' next)
      Item.Paired := by
  intro h h' matching
  unfold updateItem
  rw [hitem.shown]
  split
  · exact Patched.Mirrors.done hitem h h' matching
  · exact hp.andThen (fun S le _ _ h => .done (.mk h)) (fun S le _ _ h => .mk h) h h' matching

theorem updatePlace_mirrors {patch patch' : NodeId → Content → Host → Patched Content}
    (hp : ∀ {marker marker' content content'}, R marker marker' →
      Content.Paired R content content' →
      Patched.Mirrors outer c R (patch marker content) (patch' marker' content') Content.Paired)
    {p p' : Place} (hplace : Place.Paired R p p') (next : Value) :
    Patched.Mirrors outer c R (updatePlace patch p next) (updatePlace patch' p' next)
      Place.Paired := by
  intro h h' matching
  obtain _ | hn | ⟨hn, hitem⟩ := hplace <;> dsimp only [updatePlace]
  · exact Patched.Mirrors.done .vacant h h' matching
  · split
    · exact Patched.Mirrors.done (.attribute hn) h h' matching
    · exact Patched.Mirrors.attempt (apply_mirrors next hn _ _)
        (fun _ le _ _ _ => .attribute (le _ _ hn)) (fun _ le => .attribute (le _ _ hn))
        h h' matching
  · exact (updateItem_mirrors (hp hn hitem.content) hitem next).map
      (fun S le _ _ h => .content (le _ _ hn) h) h h' matching

theorem clearContent_mirrors (hc : Content.Paired R content content') :
    Patched.Mirrors outer c R (fun h => Patched.attempt (clear content) (fun _ => .empty) .empty h)
      (fun h => Patched.attempt (clear content') (fun _ => .empty) .empty h) Content.Paired :=
  .attempt (clear_mirrors content hc) (fun _ _ _ _ _ => .empty) (fun _ _ => .empty)

theorem clearOld_mirrors {old old' : List Item} (hold : Items.Paired R old old') :
    Patched.Mirrors outer c R (fun h => Patched.attempt (clearItems old) (fun _ => []) [] h)
      (fun h => Patched.attempt (clearItems old') (fun _ => []) [] h) Items.Paired :=
  .attempt (clearItems_mirrors old hold) (fun _ _ _ _ _ => .nil) (fun _ _ => .nil)

mutual
/-- The same value is shown in front of paired anchors. -/
theorem patchContent_mirrors : (v : Value) → {R : Pairing} → {anchor anchor' : NodeId} →
    {content content' : Content} → R anchor anchor' → Content.Paired R content content' →
    Patched.Mirrors outer c R (fun h => patchContent anchor content v h)
      (fun h => patchContent anchor' content' v h) Content.Paired
  | .null, _, _, _, _, _, _, hc => clearContent_mirrors hc
  | .attributes _ _, _, _, _, _, _, _, hc | .callback _, _, _, _, _, _, _, hc
  | .cell _, _, _, _, _, _, _, hc | .payload _, _, _, _, _, _, _, hc => clearContent_mirrors hc
  | .bool _, _, _, _, _, _, hanchor, hc | .number _, _, _, _, _, _, hanchor, hc
  | .text _, _, _, _, _, _, hanchor, hc => patchText_mirrors hanchor hc _
  | .template _ shared values, _, _, _, _, _, hanchor, hc =>
      patchTemplate_mirrors shared (fun _ _ _ hplaces => patchPlaces_mirrors values hplaces)
        hanchor hc
  | .list _ items, R, anchor, anchor', content, content', hanchor, hc => by
      intro h h' matching
      simp only [patchContent]
      split
      · refine patchList_mirrors (fun S le old old' hold => ?_) hc h h' matching
        intro h h' matching
        rw [hold.keys]
        exact patchKeyed_mirrors items (le _ _ hanchor) _ _ hold h h' matching
      · exact patchList_mirrors (fun S le old old' hold =>
          patchItems_mirrors items (le _ _ hanchor) hold) hc h h' matching
termination_by structural v => v

theorem patchItems_mirrors : (values : List Value) → {R : Pairing} → {anchor anchor' : NodeId} →
    {old old' : List Item} → R anchor anchor' → Items.Paired R old old' →
    Patched.Mirrors outer c R (fun h => patchItems anchor old values h)
      (fun h => patchItems anchor' old' values h) Items.Paired
  | [], _, _, _, _, _, _, hold => clearOld_mirrors hold
  | next :: values, R, anchor, anchor', _, _, hanchor, .nil => by
      refine (updateItem_mirrors (patchContent_mirrors next hanchor .empty) Item.paired_absent
        next).andThen (fun S le item item' hitem => ?_) fun _ _ _ _ _ => .nil
      exact (patchItems_mirrors values (le _ _ hanchor) .nil).map fun T le₁ _ _ h =>
        .cons (hitem.mono le₁) h
  | next :: values, R, anchor, anchor', item :: rest, _ :: rest', hanchor, .cons hitem hrest => by
      have front := Items.Paired.anchorOf hrest hanchor
      refine (updateItem_mirrors (patchContent_mirrors next front hitem.content) hitem next).andThen
        (fun S le item item' hitem => ?_) fun S le item item' hitem => ?_
      · exact (patchItems_mirrors values (le _ _ hanchor) (Items.Paired.mono le rest hrest)).map
          fun T le₁ _ _ h => .cons (hitem.mono le₁) h
      · exact .cons hitem (Items.Paired.mono le rest hrest)
termination_by structural values => values

theorem patchKeyed_mirrors : (values : List Value) → {R : Pairing} → {anchor anchor' : NodeId} →
    {old old' : List Item} → R anchor anchor' → (prevKeys nextKeys : List Value) →
    Items.Paired R old old' →
    Patched.Mirrors outer c R (fun h => patchKeyed anchor prevKeys nextKeys old values h)
      (fun h => patchKeyed anchor' prevKeys nextKeys old' values h) Items.Paired
  | [], _, _, _, _, _, _, _, _, hold => clearOld_mirrors hold
  | next :: values, R, anchor, anchor', old, old', hanchor, prevKeys, nextKeys, hold => by
      obtain ⟨hremoved, hreused, hrest⟩ := hold.keyedStep nextKeys (isFresh prevKeys next)
      simp only [patchKeyed]
      generalize Live.keyedStep (isStale nextKeys) (isFresh prevKeys next) old = step,
        Live.keyedStep (isStale nextKeys) (isFresh prevKeys next) old' = step' at *
      refine Patched.Mirrors.andThen (.attempt (clearItems_mirrors step.removed hremoved)
        (fun _ _ _ _ h => h) fun _ _ => trivial) (fun S₁ le₁ _ _ _ => ?_) fun _ _ _ _ _ => .nil
      have hreused := hreused.mono le₁
      have hrest := Items.Paired.mono le₁ step.rest hrest
      have hanchor := le₁ _ _ hanchor
      have front := Items.Paired.anchorOf hrest hanchor
      refine (updateItem_mirrors (patchContent_mirrors next front hreused.content) hreused
        next).andThen (fun S₂ le₂ item item' hitem => ?_) fun _ _ _ _ _ => .nil
      exact (patchKeyed_mirrors values (le₂ _ _ hanchor) prevKeys nextKeys
        (Items.Paired.mono le₂ step.rest hrest)).map fun T le₃ _ _ h => .cons (hitem.mono le₃) h
termination_by structural values => values

theorem patchPlaces_mirrors : (values : List Value) → {R : Pairing} →
    {places places' : List Place} → Places.Paired R places places' →
    Patched.Mirrors outer c R (fun h => patchPlaces places values h)
      (fun h => patchPlaces places' values h) Places.Paired
  | [], _, _, _, hplaces => withdrawAll_mirrors hplaces
  | _ :: _, _, _, _, .nil => .done .nil
  | next :: values, R, p :: rest, _ :: _, .cons hp hrest => by
      refine (updatePlace_mirrors (fun hmarker hc => patchContent_mirrors next hmarker hc) hp
        next).andThen (fun S le p p' hp => ?_) fun S le p p' hp => ?_
      · exact (patchPlaces_mirrors values (Places.Paired.mono le rest hrest)).map fun T le₁ _ _ h =>
          .cons (hp.mono le₁) h
      · exact .cons hp (Places.Paired.mono le rest hrest)
termination_by structural values => values
end

end Live

/-! ### Renderers -/

/-- The same skeleton is mounted, but for the nodes. -/
structure Mounted.Paired (R : Pairing) (m m' : Mounted) : Prop where
  shared : m.shared = m'.shared
  places : Places.Paired R m.places m'.places
  nodes : List.Forall₂ R m.nodes m'.nodes

theorem Mounted.Paired.mono {R S : Pairing} (le : R ≤ S) {m m' : Mounted} (h : m.Paired R m') :
    m.Paired S m' where
  shared := h.shared
  places := Places.Paired.mono le m.places h.places
  nodes := h.nodes.imp le

namespace Renderer
variable {outer : NodeId → Prop} {c : NodeId} {R S : Pairing} {r r' : Renderer}

/-- Both renderers have mounted the same in the container, or both nothing. -/
def PairedAt (c : NodeId) (R : Pairing) (r r' : Renderer) : Prop :=
  Option.Rel (Mounted.Paired R) (r.mounted? c) (r'.mounted? c)

theorem PairedAt.mono (le : R ≤ S) (h : PairedAt c R r r') : PairedAt c S r r' :=
  rel_mono (fun _ _ hm => hm.mono le) h

theorem pairedAt_forget : PairedAt c R (r.forget c) (r'.forget c) := by
  rw [PairedAt, mounted?_forget, mounted?_forget]
  exact .none

theorem pairedAt_put {m m' : Mounted} (h : m.Paired R m') :
    PairedAt c R (r.put c m) (r'.put c m') := by
  rw [PairedAt, mounted?_put, mounted?_put]
  exact .some h

/-- What is mounted is so in both, or in none. -/
theorem PairedAt.cases (h : PairedAt c R r r') :
    (r.mounted? c = none ∧ r'.mounted? c = none) ∨
      ∃ m m', r.mounted? c = some m ∧ r'.mounted? c = some m' ∧ m.Paired R m' := by
  unfold PairedAt at h
  generalize r.mounted? c = x, r'.mounted? c = y at h
  cases h with
  | none => exact .inl ⟨rfl, rfl⟩
  | some h => exact .inr ⟨_, _, rfl, rfl, h⟩

theorem dismount_mirrors {m m' : Mounted} (h : m.Paired R m') :
    Live.Mirrors outer c R (dismount m) (dismount m') Anything :=
  (clearPlaces_mirrors h.places).bind fun _ le _ _ _ => .removeAll (h.nodes.imp le)

theorem unmount_mirrors (h : PairedAt c R r r') :
    Patched.Mirrors outer c R (r.unmount c) (r'.unmount c) fun S s s' => PairedAt c S s.1 s'.1 := by
  intro g g' matching
  obtain ⟨hm, hm'⟩ | ⟨m, m', hm, hm', paired⟩ := h.cases
  · rw [unmount, unmount, hm, hm']
    exact Patched.Mirrors.done h g g' matching
  · have forgotten : Patched.Mirrors outer c R
        (Patched.attempt (dismount m) (fun _ => (r.forget c, true)) (r.forget c, true))
        (Patched.attempt (dismount m') (fun _ => (r'.forget c, true)) (r'.forget c, true))
        fun S s s' => PairedAt c S s.1 s'.1 :=
      .attempt (dismount_mirrors paired) (fun _ _ _ _ _ => pairedAt_forget)
        fun _ _ => pairedAt_forget
    rw [unmount, unmount, hm, hm']
    exact forgotten g g' matching

theorem makeRoom_mirrors (shared : SharedSkeleton) (h : PairedAt c R r r') :
    Patched.Mirrors outer c R (r.makeRoom shared c) (r'.makeRoom shared c) (PairedAt c) := by
  intro g g' matching
  obtain ⟨hm, hm'⟩ | ⟨m, m', hm, hm', paired⟩ := h.cases
  · rw [makeRoom, makeRoom, hm, hm']
    exact Patched.Mirrors.done h g g' matching
  · rw [makeRoom, makeRoom, hm, hm']
    dsimp only
    rw [paired.shared]
    split
    · exact Patched.Mirrors.done h g g' matching
    · exact (unmount_mirrors h).map (fun _ _ _ _ h => h) g g' matching

theorem settle_mirrors (shared : SharedSkeleton) (h : PairedAt c R r r') :
    Patched.Mirrors outer c R (r.settle shared c) (r'.settle shared c) (PairedAt c) := by
  intro g g' matching
  obtain ⟨hm, hm'⟩ | ⟨m, m', hm, hm', paired⟩ := h.cases
  · rw [settle, settle, hm, hm']
    refine Patched.Mirrors.attempt (mount_mirrors shared.skeleton Pairing.add_self) ?_ ?_ g g'
      matching
    · rintro S - ⟨nodes, places⟩ ⟨nodes', places'⟩ ⟨hnodes, hplaces⟩
      exact pairedAt_put ⟨rfl, hplaces, hnodes⟩
    · exact fun _ le => h.mono le
  · rw [settle, settle, hm, hm']
    exact Patched.Mirrors.done h g g' matching

theorem patchMounted_mirrors (values : List Value) (h : PairedAt c R r r') :
    Patched.Mirrors outer c R (r.patchMounted values c) (r'.patchMounted values c)
      (PairedAt c) := by
  intro g g' matching
  obtain ⟨hm, hm'⟩ | ⟨m, m', hm, hm', paired⟩ := h.cases
  · rw [patchMounted, patchMounted, hm, hm']
    exact Patched.Mirrors.done h g g' matching
  · rw [patchMounted, patchMounted, hm, hm']
    refine (patchPlaces_mirrors values paired.places).map ?_ g g' matching
    exact fun _ le _ _ ht => pairedAt_put ⟨paired.shared, ht, paired.nodes.imp le⟩

/-- The same value is rendered the same into the same container of documents that match. -/
theorem render_mirrors (v : Value) (h : PairedAt c R r r') :
    Patched.Mirrors outer c R (r.render v c) (r'.render v c) (PairedAt c) := by
  unfold render
  refine (makeRoom_mirrors v.parts.1 h).andThen (fun S _ r r' h => ?_) fun _ _ _ _ h => h
  exact (settle_mirrors v.parts.1 h).andThen (fun T _ r r' h => patchMounted_mirrors v.parts.2 h)
    fun _ _ _ _ h => h

end Renderer

end LiveTemplate
