import LiveTemplate.Proofs.Records
import LiveTemplate.Proofs.Scenes

/-!
# Rendering equal data again

Data that is made anew each time, with new templates, lists and mappings around values
that are the same, is shown by what is there already: rendering it again takes no step on
the host at all. Whether a place or an item needs a step is read off its record, never off
the document.
-/
namespace LiveTemplate
open Document Live Patched

/-! ### Equal data -/

namespace Value

/-- Two values between which a spread does not change: they are the same, or mappings of
the same names to values that are the same. Where these are spread in turn, they may be
such mappings again. -/
inductive Respread : Value → Value → Prop
  | same {a b : Value} (same : a.same b = true) : Respread a b
  | mapping {handle handle' : Nat} {es es' : List (String × Value)}
      (names : ∀ name, name ∈ Entries.names es ↔ name ∈ Entries.names es')
      (entries : ∀ name a b, (name, a) ∈ es → (name, b) ∈ es' → name ≠ Binding.spreadName →
        a.same b = true)
      (spreads : ∀ a b, (Binding.spreadName, a) ∈ es → (Binding.spreadName, b) ∈ es' →
        Respread a b) :
      Respread (.attributes handle es) (.attributes handle' es')

mutual
/-- Two values that show the same inside of a template: the same value, two lists of such values,
or two templates of one skeleton that are filled with such values where they hold content, and with
the same ones where they hold attributes, the key of a list item among them. The items of a keyed
list are recognised by their keys, so none of these may be the number that is not the same as
itself, even if the items are the same. -/
inductive Resembles : Value → Value → Prop
  | same {a b : Value} (same : a.same b = true) : Resembles a b
  | list {handle handle' : Nat} {as bs : List Value} (items : ResemblesAll as bs)
      (keys : allKeyed as = true → ∀ a ∈ as, a.key? ≠ some (.number .nan)) :
      Resembles (.list handle as) (.list handle' bs)
  | template {handle handle' : Nat} {shared : SharedSkeleton} {values values' : List Value}
      (contents : ∀ i, (i, Seat.content) ∈ Node.seatsAll shared.nodes →
        Resembles (Markup.valueAt values i) (Markup.valueAt values' i))
      (attributes : ∀ i b attrs, (i, Seat.attribute b attrs) ∈ Node.seatsAll shared.nodes →
        b ≠ .spread → (Markup.valueAt values i).same (Markup.valueAt values' i) = true)
      (spreads : ∀ i attrs, (i, Seat.attribute .spread attrs) ∈ Node.seatsAll shared.nodes →
        Respread (Markup.valueAt values i) (Markup.valueAt values' i))
      (key : ∀ i, keyOfFirst? shared = some (.hole i) →
        (Markup.valueAt values i).same (Markup.valueAt values' i) = true) :
      Resembles (.template handle shared values) (.template handle' shared values')

inductive ResemblesAll : List Value → List Value → Prop
  | nil : ResemblesAll [] []
  | cons {a b : Value} {as bs : List Value} (head : Resembles a b) (tail : ResemblesAll as bs) :
      ResemblesAll (a :: as) (b :: bs)
end

theorem ResemblesAll.forall₂ {as bs : List Value} : ResemblesAll as bs →
    List.Forall₂ Resembles as bs
  | .nil => .nil
  | .cons head tail => .cons head tail.forall₂

/-- Two values that show the same when they are rendered into a container. The holes of the
outermost template are compared one by one, even if it is the same template, so nothing that they
show may be the number that is not the same as itself. -/
structure Equivalent (a b : Value) : Prop where
  resembles : a.Resembles b
  numbers (i : Nat) (seat : Seat) : (i, seat) ∈ Node.seatsAll a.parts.1.nodes →
    Markup.valueAt a.parts.2 i ≠ .number .nan

variable {a b : Value}

theorem same_null (h : a.same .null = true) : a = .null := by
  rcases same_cases h with h | ⟨m, n, -, h, -⟩
  · exact h
  · simp at h

theorem Resembles.null (e : Resembles a .null) : a = .null := by
  cases e with
  | same h => exact same_null h

theorem Respread.null (r : Respread a .null) : a = .null := by
  cases r with
  | same h => exact same_null h

/-! ### Keys of equal data -/

/-- Both values have no key, or both have the same. -/
def KeysMatch (a b : Value) : Prop :=
  a.key? = none ∧ b.key? = none ∨ ∃ k l, a.key? = some k ∧ b.key? = some l ∧ k.same l = true

theorem keyOf?_hole {shared : SharedSkeleton} {i : Nat} (h : keyOfFirst? shared = some (.hole i))
    (values : List Value) :
    keyOf? shared values =
      if Markup.valueAt values i = .null then none else some (Markup.valueAt values i) := by
  rcases Option.eq_none_or_eq_some values[i]? with hi | ⟨v, hi⟩
  · simp [keyOf?, h, Markup.valueAt, hi]
  · by_cases hv : v = .null <;>
      simp [keyOf?, h, Markup.valueAt, hi, Option.filter, isNull, hv]

theorem keysMatch_template {handle handle' : Nat} {shared : SharedSkeleton}
    {values values' : List Value} (key : ∀ i, keyOfFirst? shared = some (.hole i) →
      (Markup.valueAt values i).same (Markup.valueAt values' i) = true) :
    KeysMatch (.template handle shared values) (.template handle' shared values') := by
  unfold KeysMatch key?
  cases hs : keyOfFirst? shared with
  | none => simp [keyOf?, hs]
  | some source =>
      cases source with
      | literal text =>
          right
          exact ⟨.text text, .text text, by simp [keyOf?, hs], by simp [keyOf?, hs],
            (same_self _).2 (by simp)⟩
      | hole i =>
          have same := key i hs
          simp only [keyOf?_hole hs]
          by_cases hnull : Markup.valueAt values i = .null
          · rw [hnull, same_comm] at same
            simp [hnull, same_null same]
          · right
            refine ⟨_, _, if_neg hnull, if_neg fun h => ?_, same⟩
            rw [h] at same
            exact hnull (same_null same)

theorem Resembles.keysMatch (e : Resembles a b) (number : a.key? ≠ some (.number .nan)) :
    KeysMatch a b := by
  cases e with
  | list items keys => exact .inl ⟨rfl, rfl⟩
  | same h =>
      rcases same_cases h with rfl | ⟨m, n, rfl, rfl, -, -⟩
      · cases hk : a.key? with
        | none => exact .inl ⟨hk, hk⟩
        | some k => exact .inr ⟨k, k, hk, hk, (same_self k).2 fun h => number (h ▸ hk)⟩
      · exact .inl ⟨rfl, rfl⟩
  | template contents attributes spreads key => exact keysMatch_template key

theorem Resembles.keyed (e : Resembles a b) : a.key?.isSome = b.key?.isSome := by
  cases e with
  | list items keys => rfl
  | same h => rcases same_cases h with rfl | ⟨m, n, rfl, rfl, -, -⟩ <;> rfl
  | template contents attributes spreads key =>
      rcases keysMatch_template key with ⟨ha, hb⟩ | ⟨k, l, ha, hb, -⟩
      · rw [ha, hb]
      · rw [ha, hb]
        rfl

theorem ResemblesAll.allKeyed_eq {as bs : List Value} (e : ResemblesAll as bs) :
    allKeyed as = allKeyed bs := by
  apply allKeyed_congr
  rw [← List.forall₂_eq_eq_eq, List.forall₂_map_left_iff, List.forall₂_map_right_iff]
  exact e.forall₂.imp fun _ _ h => h.keyed

end Value

/-! ### Steps that leave the host as it is -/

namespace Live
variable {α β : Type} {h : Host}

/-- The patch succeeds and has done nothing to the host. -/
def Patched.Leaves (r : Patched α) (h : Host) : Prop := r.failure = none ∧ r.host = h

namespace Patched.Leaves

theorem done {a : α} : Patched.Leaves ⟨a, h, none⟩ h := ⟨rfl, rfl⟩

theorem map {r : Patched α} (f : α → β) (hr : r.Leaves h) : (r.map f).Leaves h := hr

theorem andThen {r : Patched α} {next : α → Host → Patched β} {kept : α → β} (hr : r.Leaves h)
    (hnext : ∀ a, (next a h).Leaves h) : (r.andThen next kept).Leaves h := by
  obtain ⟨hf, hh⟩ := hr
  simp only [Patched.andThen, hf, hh]
  exact hnext _

theorem attempt {m : HostM α} {a : α} {done : α → β} {kept : β} (hm : m h = .ok a h) :
    (Patched.attempt m done kept h).Leaves h := by
  simp only [Patched.attempt, EStateM.run, hm]
  exact .done

end Patched.Leaves

/-- Entries that are all kept are not retracted. -/
theorem retractEntries_leaves (node : NodeId) {kept : List String} {es : List (String × Value)}
    (h : ∀ name ∈ Entries.names es, name ∈ kept) (host : Host) :
    retractEntries node kept es host = .ok () host := by
  induction es with
  | nil => rfl
  | cons e rest ih =>
      obtain ⟨name, old⟩ := e
      simp only [Entries.names, List.map_cons, List.forall_mem_cons] at h
      have hkept : kept.contains name = true := by simpa using h.1
      simp only [retractEntries, hkept]
      exact ih h.2

/-- Entries that show the same, or are spread in turn and do, are not applied again. -/
theorem applyEntries_leaves (node : NodeId) {es es' : List (String × Value)}
    (each : ∀ name b, (name, b) ∈ es' → ∃ a, Entries.get? name es = some a ∧
      (a.same b = true ∨ ∃ c, Binding.ofEntryName? name = some c ∧
        ∀ h, apply node c a b h = .ok () h)) (host : Host) :
    applyEntries node es es' host = .ok () host := by
  induction es' with
  | nil => rfl
  | cons e rest ih =>
      obtain ⟨name, next⟩ := e
      obtain ⟨a, ha, still⟩ := each name next (List.mem_cons_self ..)
      have ih := ih fun name b hb => each name b (List.mem_cons_of_mem _ hb)
      simp only [applyEntries, ha, Option.getD_some]
      cases hs : a.same next with
      | true => exact ih
      | false =>
          obtain ⟨c, hc, happly⟩ := still.resolve_left (by simp [hs])
          simp only [hc, Bool.not_false, if_true]
          exact (bind_ok (happly host)).trans ih

/-- To spread the same again takes no step. -/
theorem apply_leaves {a b : Value} (r : a.Respread b) (node : NodeId) :
    a.same b = true ∨ ∀ h, apply node .spread a b h = .ok () h := by
  induction r with
  | same h => exact .inl h
  | @mapping handle handle' es es' names entries spreads ih =>
      right
      intro h
      have entriesStill : applyEntries node es es' h = .ok () h := by
        apply applyEntries_leaves
        intro name b hb
        have hname : name ∈ Entries.names es := (names name).2 (List.mem_map_of_mem hb)
        obtain ⟨a, ha⟩ := Option.ne_none_iff_exists'.1
          (mt Entries.get?_eq_none_iff.1 (not_not.2 hname))
        have hmem := Entries.mem_of_get? ha
        refine ⟨a, ha, ?_⟩
        by_cases hs : name = Binding.spreadName
        · subst hs
          exact (ih a b hmem hb).imp_right fun happly => ⟨.spread, by decide, happly⟩
        · exact .inl (entries name a b hmem hb hs)
      simp only [apply, Value.entries]
      exact (bind_ok entriesStill).trans
        (retractEntries_leaves node (fun name hn => (names name).1 hn) h)

/-- Patching the item with the value does nothing to the host. -/
def Rests (item : Item) (next : Value) : Prop :=
  ∀ anchor h, (updateItem (fun c h => patchContent anchor c next h) item next h).Leaves h

theorem Rests.of_same {item : Item} {next : Value} (h : item.shown.same next = true) :
    Rests item next := by
  intro anchor host
  rw [updateItem, if_pos h]
  exact .done

theorem Rests.of_patch {item : Item} {next : Value}
    (hp : ∀ anchor h, (patchContent anchor item.content next h).Leaves h) : Rests item next := by
  intro anchor host
  rw [updateItem]
  split
  · exact .done
  · exact (hp anchor host).andThen fun _ => .done

theorem clearItems_leaves :
    (Patched.attempt (clearItems []) (fun _ => ([] : List Item)) [] h).Leaves h :=
  .attempt (a := ()) rfl

theorem patchItems_leaves {old : List Item} {values : List Value}
    (rests : List.Forall₂ Rests old values) (anchor : NodeId) :
    (patchItems anchor old values h).Leaves h := by
  induction rests with
  | nil => exact clearItems_leaves
  | cons head _ ih => exact (head _ h).andThen fun item => ih.map _

/-- In the walk along both lists each item is taken over for the value at its place. -/
theorem patchKeyed_leaves {prevKeys nextKeys : List Value} {old : List Item}
    {values : List Value} (rests : List.Forall₂ Rests old values)
    (steady : List.Forall₂
      (fun item next => isStale nextKeys item = false ∧ isFresh prevKeys next = false) old values)
    (anchor : NodeId) : (patchKeyed anchor prevKeys nextKeys old values h).Leaves h := by
  induction rests with
  | nil => exact clearItems_leaves
  | @cons item next rest values head _ ih =>
      obtain ⟨⟨stale, fresh⟩, steady⟩ := List.forall₂_cons.1 steady
      have step : keyedStep (isStale nextKeys) (isFresh prevKeys next) (item :: rest) =
          ⟨[], some item, rest⟩ := by
        simp [keyedStep, fresh, stale]
      simp only [patchKeyed, step]
      refine (Patched.Leaves.attempt (a := ()) rfl).andThen fun _ => ?_
      exact (head _ h).andThen fun item => (ih steady).map _

theorem hasKey_of_mem {keys : List Value} {k l : Value} (hk : k ∈ keys) (h : k.same l = true) :
    hasKey keys l = true :=
  List.any_eq_true.2 ⟨k, hk, h⟩

/-- Items with the keys of the values at their places are neither stale nor are the values
fresh. -/
theorem steady_of_keys {prevKeys nextKeys : List Value} {old : List Item} {values : List Value}
    (keys : List.Forall₂ (fun item next => Value.KeysMatch item.shown next) old values)
    (prev : old.filterMap (·.shown.key?) ⊆ prevKeys) (next : values.filterMap (·.key?) ⊆ nextKeys) :
    List.Forall₂ (fun item next => isStale nextKeys item = false ∧ isFresh prevKeys next = false)
      old values := by
  induction keys with
  | nil => exact .nil
  | cons head _ ih =>
      refine .cons ?_ (ih ?_ ?_)
      · rcases head with ⟨hk, hl⟩ | ⟨k, l, hk, hl, hkl⟩
        · exact ⟨by simp [isStale, hk], by simp [isFresh, hl]⟩
        · have hl' : l ∈ nextKeys := next (by simp [hl])
          have hk' : k ∈ prevKeys := prev (by simp [hk])
          rw [isStale, isFresh, hk, hl]
          exact ⟨by simp [hasKey_of_mem hl' (Value.same_comm k l ▸ hkl)],
            by simp [hasKey_of_mem hk' hkl]⟩
      · intro k hk
        refine prev ?_
        rw [List.filterMap_cons]
        split
        · exact hk
        · exact List.mem_cons_of_mem _ hk
      · intro l hl
        refine next ?_
        rw [List.filterMap_cons]
        split
        · exact hl
        · exact List.mem_cons_of_mem _ hl

/-- Patching the place with the value, or with an absent one if it is that, does nothing to
the host. -/
def PlaceRests (p : Place) (next : Value) : Prop :=
  ∀ h, (updatePlace (fun marker c h => patchContent marker c next h) p next h).Leaves h ∧
    (next = .null → (withdraw p h).Leaves h)

theorem placeRests_vacant (next : Value) : PlaceRests .vacant next :=
  fun _ => ⟨.done, fun _ => .done⟩

theorem placeRests_of_same {p : Place} {next : Value}
    (same : ∀ v, p.shown? = some v → v.same next = true) : PlaceRests p next := by
  intro h
  rcases p with _ | ⟨n, b, v⟩ | ⟨marker, ⟨v, c⟩⟩
  · exact placeRests_vacant next h
  · have same : v.same next = true := same v rfl
    simp only [updatePlace, withdraw, if_pos same]
    exact ⟨.done, fun hn => by rw [if_pos (hn ▸ same)]; exact .done⟩
  · have same : v.same next = true := same v rfl
    simp only [updatePlace, withdraw]
    have rests : Rests (.mk v c) next := .of_same same
    exact ⟨(rests marker h).map _, fun hn => by rw [if_pos (hn ▸ same)]; exact .done⟩

theorem patchPlaces_leaves {places : List Place} {values : List Value}
    (rests : ∀ (i : Nat) (p : Place), places[i]? = some p →
      PlaceRests p (Markup.valueAt values i)) : (patchPlaces places values h).Leaves h := by
  induction values generalizing places with
  | nil =>
      induction places with
      | nil => exact .done
      | cons p rest ih =>
          refine ((rests 0 p rfl h).2 rfl).andThen fun p' => .map _ (ih fun i p hp => ?_)
          exact rests (i + 1) p hp
  | cons next values ih =>
      cases places with
      | nil => exact .done
      | cons p rest =>
          exact (rests 0 p rfl h).1.andThen fun p' => .map _ (ih fun i p hp => rests (i + 1) p hp)

end Live

/-! ### Equal data takes no step -/

namespace Value

/-- Only numbers need not be told apart from others. -/
theorem Alike.eq_of_not_number {a b : Value} (h : a.Alike b) (hb : ∀ n, b ≠ .number n) : a = b := by
  rcases h.cases with h | ⟨m, n, -, rfl, -, -⟩
  · exact h
  · exact absurd rfl (hb n)

end Value

open Value in
/-- A place at an attribute shows the same, or spreads the same. -/
theorem Live.placeRests_attribute {n : NodeId} {b : Binding} {v v₁ v₂ : Value}
    (alike : v.Alike v₁) (direct : b ≠ .spread → v₁.same v₂ = true)
    (spread : b = .spread → v₁.Respread v₂) : PlaceRests (.attribute n b v) v₂ := by
  by_cases hs : v.same v₂ = true
  · exact placeRests_of_same fun w hw => Option.some.inj hw ▸ hs
  have hs₁ : ¬v₁.same v₂ = true := fun h => hs (alike.same_trans h)
  have hb : b = .spread := by
    by_contra hb
    exact hs₁ (direct hb)
  subst hb
  have respread := spread rfl
  obtain rfl : v = v₁ := by
    apply alike.eq_of_not_number
    rintro m rfl
    cases respread with
    | same h => exact hs₁ h
  intro h
  constructor
  · simp only [updatePlace, if_neg hs]
    exact .attempt ((apply_leaves respread n).resolve_left hs₁ h)
  · rintro rfl
    rw [respread.null] at hs
    exact absurd (by decide) hs

theorem Live.placeRests_content {marker : NodeId} {item : Item} {v₁ v₂ : Value}
    (alike : item.shown.Alike v₁) (rests : Rests item v₂) (e : v₁.Resembles v₂) :
    PlaceRests (.content marker item) v₂ := by
  intro h
  refine ⟨(rests marker h).map _, ?_⟩
  rintro rfl
  have same : item.shown.same .null = true := alike.same_trans (by rw [e.null]; rfl)
  obtain ⟨v, c⟩ := item
  have same : v.same .null = true := same
  rw [withdraw, if_pos same]
  exact .done

/-- All places of a table rest when the values are equal. -/
theorem TableRecords.rests {shared : SharedSkeleton} {places : List Place}
    {values values' : List Value} (table : TableRecords shared places values)
    (contents : ∀ i, (i, Seat.content) ∈ Node.seatsAll shared.nodes →
      (Markup.valueAt values i).Resembles (Markup.valueAt values' i))
    (inner : ∀ i, (i, Seat.content) ∈ Node.seatsAll shared.nodes → ∀ item : Item, item.Recorded →
      item.shown.Alike (Markup.valueAt values i) → Rests item (Markup.valueAt values' i))
    (direct : ∀ i b attrs, (i, Seat.attribute b attrs) ∈ Node.seatsAll shared.nodes →
      b ≠ .spread → (Markup.valueAt values i).same (Markup.valueAt values' i) = true)
    (spreads : ∀ i attrs, (i, Seat.attribute .spread attrs) ∈ Node.seatsAll shared.nodes →
      (Markup.valueAt values i).Respread (Markup.valueAt values' i))
    (i : Nat) (p : Place) (hp : places[i]? = some p) : PlaceRests p (Markup.valueAt values' i) := by
  have seat := table.seated i p hp
  rcases p with _ | ⟨n, b, v⟩ | ⟨marker, item⟩
  · exact placeRests_vacant _
  · obtain ⟨attrs, hmem⟩ := seat
    exact placeRests_attribute (table.same i _ hp v rfl) (direct i b attrs hmem)
      fun hb => spreads i attrs (hb ▸ hmem)
  · have alike := table.same i _ hp item.shown rfl
    have recorded := table.recorded _ (List.mem_of_getElem? hp) marker item rfl
    exact placeRests_content alike (inner i seat item recorded alike) (contents i seat)

/-- The items have the keys of the values that they are to show. -/
theorem Value.ResemblesAll.keysMatch {as bs : List Value} (e : ResemblesAll as bs)
    (numbers : ∀ a ∈ as, a.key? ≠ some (.number .nan)) {old : List Item}
    (alike : List.Forall₂ Value.Alike (old.map Item.shown) as) :
    List.Forall₂ (fun item next => Value.KeysMatch item.shown next) old bs := by
  have pairs := e.forall₂
  clear e
  induction pairs generalizing old with
  | nil =>
      cases old with
      | nil => exact .nil
      | cons item rest => cases alike
  | cons head _ ih =>
      cases old with
      | nil => cases alike
      | cons item rest =>
          rw [List.map_cons, List.forall₂_cons] at alike
          rw [List.forall_mem_cons] at numbers
          refine .cons ?_ (ih numbers.2 alike.2)
          rw [Value.KeysMatch, alike.1.key?]
          exact head.keysMatch numbers.1

mutual
/-- An item that shows a value rests when one that resembles it is to be shown. -/
theorem Value.Resembles.rests : {a b : Value} → a.Resembles b → (item : Item) →
    item.Recorded → item.shown.Alike a → Rests item b
  | _, _, .same same, item, _, alike => .of_same (alike.same_trans same)
  | _, _, .list items numbers, item, recorded, alike => by
      rw [Item.Recorded, alike.eq_of_not_number (by simp)] at recorded
      obtain ⟨old, hc, same, contents⟩ := recorded.items
      have rests := items.rests old contents same
      refine .of_patch fun anchor h => ?_
      have take : ∀ patch, patchList patch (.list old) h = (patch old h).map .list := fun _ => rfl
      rw [hc, patchContent]
      split
      next keyed =>
        rw [take]
        have keys := steady_of_keys (items.keysMatch (numbers (items.allKeyed_eq.trans keyed)) same)
          (List.Subset.refl _) (List.Subset.refl _)
        exact (patchKeyed_leaves rests keys anchor).map _
      next =>
        rw [take]
        exact (patchItems_leaves rests anchor).map _
  | _, _, .template contents direct spreads _, item, recorded, alike => by
      rw [Item.Recorded, alike.eq_of_not_number (by simp)] at recorded
      obtain ⟨start, stop, places, hc, table⟩ := recorded.template
      refine .of_patch fun anchor h => ?_
      rw [hc, patchContent]
      simp only [patchTemplate, if_pos]
      refine .map _ (patchPlaces_leaves ?_)
      exact table.rests contents (fun i seat => (contents i seat).rests) direct spreads

theorem Value.ResemblesAll.rests : {as bs : List Value} → ResemblesAll as bs →
    (old : List Item) → (∀ item ∈ old, item.Recorded) →
    List.Forall₂ Value.Alike (old.map Item.shown) as → List.Forall₂ Rests old bs
  | _, _, .nil, old, _, alike => by
      cases old with
      | nil => exact .nil
      | cons item rest => cases alike
  | _, _, .cons head tail, old, recorded, alike => by
      cases old with
      | nil => cases alike
      | cons item rest =>
          rw [List.forall_mem_cons] at recorded
          rw [List.map_cons] at alike
          cases alike with
          | cons first others =>
              exact .cons (head.rests item recorded.1 first) (tail.rests rest recorded.2 others)
end

/-! ### Rendering -/

/-- The holes of the parts of values that are the same show the same, but for the number that is
not the same as itself. -/
theorem Value.same_valueAt {v v' : Value} (h : v.same v' = true) :
    v.parts.1 = v'.parts.1 ∧ ∀ i, Markup.valueAt v.parts.2 i ≠ .number .nan →
      (Markup.valueAt v.parts.2 i).same (Markup.valueAt v'.parts.2 i) = true := by
  rcases same_cases h with rfl | ⟨m, n, rfl, rfl, -, -⟩
  · exact ⟨rfl, fun i number => (same_self _).2 number⟩
  · refine ⟨rfl, fun i _ => ?_⟩
    cases i with
    | zero => exact h
    | succ i => rfl

/-- A table that is a record of a value rests when an equal one is to be shown. -/
theorem Value.Equivalent.table_rests {v v' : Value} (e : v.Equivalent v') {places : List Place}
    (table : TableRecords v.parts.1 places v.parts.2) :
    v.parts.1 = v'.parts.1 ∧ ∀ (i : Nat) (p : Place), places[i]? = some p →
      PlaceRests p (Markup.valueAt v'.parts.2 i) := by
  obtain ⟨resembles, numbers⟩ := e
  cases resembles with
  | same h =>
      obtain ⟨hshared, hsame⟩ := same_valueAt h
      refine ⟨hshared, fun i p hp => ?_⟩
      have rests : (∃ seat, (i, seat) ∈ Node.seatsAll v.parts.1.nodes) →
          PlaceRests p (Markup.valueAt v'.parts.2 i) := by
        rintro ⟨seat, hseat⟩
        exact placeRests_of_same fun w hw =>
          (table.same i p hp w hw).same_trans (hsame i (numbers i seat hseat))
      have seat := table.seated i p hp
      rcases p with _ | ⟨n, b, w⟩ | ⟨marker, item⟩
      · exact placeRests_vacant _
      · obtain ⟨attrs, hmem⟩ := seat
        exact rests ⟨_, hmem⟩
      · exact rests ⟨_, seat⟩
  | @list handle handle' as bs items keys =>
      have e : (Value.list handle as).Resembles (.list handle' bs) := .list items keys
      have seats : Node.seatsAll SharedSkeleton.bare.nodes = [(0, .content)] := rfl
      have only : ∀ i, (i, Seat.content) ∈ Node.seatsAll SharedSkeleton.bare.nodes → i = 0 := by
        simp [seats]
      refine ⟨rfl, TableRecords.rests table ?_ ?_ ?_ ?_⟩
      · intro i hi
        obtain rfl := only i hi
        exact e
      · intro i hi
        obtain rfl := only i hi
        exact e.rests
      · intro i b attrs hi
        simp [Value.parts, seats] at hi
      · intro i attrs hi
        simp [Value.parts, seats] at hi
  | template contents direct spreads key =>
      exact ⟨rfl, table.rests contents (fun i seat => (contents i seat).rests) direct spreads⟩

theorem Renderer.render_leaves {r : Renderer} {container : NodeId} {v v' : Value} {h : Host}
    {m : Mounted} (hm : r.mounted? container = some m) (shared : m.shared = v.parts.1)
    (recorded : m.Records v.parts.2) (e : v.Equivalent v') :
    (r.render v' container h).Leaves h := by
  obtain ⟨m_shared, places, nodes⟩ := m
  obtain rfl : m_shared = v.parts.1 := shared
  obtain ⟨hshared, rests⟩ := e.table_rests recorded
  rw [render_of_shared hm hshared, patchMounted, hm]
  exact .map _ (patchPlaces_leaves rests)

/-! ### After any run -/

/-- The move is one of this renderer in this container. -/
def Move.Concerns (i : Nat) (container : NodeId) : Move → Prop
  | .render j q _ => j = i ∧ q = container
  | .unmount j q => j = i ∧ q = container

namespace Scene
variable {s : Scene} {i : Nat} {container : NodeId} {v : Value}

/-- Whatever is mounted is a record of some value. -/
def Recorded (s : Scene) : Prop :=
  ∀ i q m, (s.renderers i).mounted? q = some m → ∃ values, m.Records values

/-- What the renderer has mounted in the container is a record of the value. -/
def Shows (i : Nat) (container : NodeId) (v : Value) (s : Scene) : Prop :=
  ∃ m, (s.renderers i).mounted? container = some m ∧ m.shared = v.parts.1 ∧ m.Records v.parts.2

theorem New.recorded (new : s.New) : s.Recorded := fun i q m hm => by simp [new i q] at hm

/-- A move that succeeds changes what is mounted where it is made, and nowhere else. -/
theorem act_mounted {m : Move} (recorded : s.Recorded) (succeeds : (s.act m).2 = none) :
    (s.act m).1.Recorded ∧ ∀ j q, ¬m.Concerns j q →
      ((s.act m).1.renderers j).mounted? q = (s.renderers j).mounted? q := by
  -- what is mounted by one renderer, and what by the others
  have split : ∀ {i : Nat} {q₀ : NodeId} {r : Renderer} {h : Host},
      (∀ m, r.mounted? q₀ = some m → ∃ values, m.Records values) →
      Renderer.KeepsOthers q₀ (s.renderers i) r →
      (Scene.mk (Function.update s.renderers i r) h).Recorded ∧
        ∀ j q, ¬(i = j ∧ q₀ = q) →
          (Function.update s.renderers i r j).mounted? q = (s.renderers j).mounted? q := by
    intro i q₀ r h mounted others
    have same : ∀ j q, ¬(i = j ∧ q₀ = q) →
        (Function.update s.renderers i r j).mounted? q = (s.renderers j).mounted? q := by
      intro j q hne
      by_cases hj : j = i
      · subst hj
        rw [Function.update_self]
        exact others q fun hq => hne ⟨rfl, hq.symm⟩
      · rw [Function.update_of_ne hj]
    refine ⟨fun j q m hm => ?_, same⟩
    by_cases hjq : i = j ∧ q₀ = q
    · obtain ⟨rfl, rfl⟩ := hjq
      exact mounted m (by simpa [Function.update_self] using hm)
    · exact recorded j q m ((same j q hjq).symm.trans hm)
  cases m with
  | render i q v =>
      obtain ⟨⟨m, hm, -, hrec⟩, others⟩ :=
        Renderer.render_yields (v := v) (h := s.host) (recorded i q) succeeds
      refine split (fun m' hm' => ?_) others
      obtain rfl := Option.some.inj (hm.symm.trans hm')
      exact ⟨_, hrec⟩
  | unmount i q =>
      obtain ⟨hm, others⟩ := Renderer.unmount_yields (r := s.renderers i) (h := s.host) succeeds
      exact split (fun m' hm' => by rw [hm] at hm'; contradiction) others

theorem run_recorded {moves : List Move} (recorded : s.Recorded) (succeeds : s.Succeeds moves) :
    (s.run moves).Recorded := by
  induction moves generalizing s with
  | nil => exact recorded
  | cons m rest ih => exact ih (act_mounted recorded succeeds.1).1 succeeds.2

/-- A render that succeeds shows its value. -/
theorem act_shows (recorded : s.Recorded) (succeeds : (s.act (.render i container v)).2 = none) :
    (s.act (.render i container v)).1.Shows i container v := by
  obtain ⟨⟨m, hm, h⟩, -⟩ := Renderer.render_yields (recorded i container) succeeds
  refine ⟨m, ?_, h⟩
  show (Function.update s.renderers i _ i).mounted? container = some m
  rw [Function.update_self]
  exact hm

theorem Shows.run {moves : List Move} (shows : s.Shows i container v) (recorded : s.Recorded)
    (succeeds : s.Succeeds moves) (last : ∀ m ∈ moves, ¬m.Concerns i container) :
    (s.run moves).Shows i container v := by
  induction moves generalizing s with
  | nil => exact shows
  | cons m rest ih =>
      rw [List.forall_mem_cons] at last
      obtain ⟨next, same⟩ := act_mounted recorded succeeds.1
      refine ih ?_ next succeeds.2 last.2
      obtain ⟨m, hm, h⟩ := shows
      exact ⟨m, (same i container last.1).trans hm, h⟩

/-- To render data that is equal to what was rendered into a container last succeeds and
does nothing: the host stays as it was, with its document, its cells and its calls. -/
theorem run_render_again {start : Scene} (new : start.New) (before after : List Move)
    {v v' : Value} (succeeds : start.Succeeds (before ++ .render i container v :: after))
    (last : ∀ m ∈ after, ¬m.Concerns i container) (equal : v.Equivalent v') :
    let final := start.run (before ++ .render i container v :: after)
    (final.act (.render i container v')).2 = none ∧
      (final.act (.render i container v')).1.host = final.host := by
  intro final
  obtain ⟨succeeds₁, succeeds₂, succeeds₃⟩ := succeeds_append.1 succeeds
  have recorded₁ := run_recorded new.recorded succeeds₁
  have shows := act_shows recorded₁ succeeds₂
  have recorded₂ := (act_mounted recorded₁ succeeds₂).1
  have hfinal : final = ((start.run before).act (.render i container v)).1.run after :=
    run_append before _ start
  obtain ⟨m, hm, shared, hrec⟩ := shows.run recorded₂ succeeds₃ last
  rw [hfinal]
  exact Renderer.render_leaves hm shared hrec equal

/-- A keyed row that spreads a mapping is made anew around a template that stays, while another
renderer has put something beside it. -/
theorem run_render_again_row :
    let row : SharedSkeleton :=
      ⟨.parsed 3, ⟨[.element "li" [("key", .hole 0), ("...", .hole 1)] [.hole 2]], 3⟩⟩
    let kept := Value.template 9 .paragraph [.null, .number .nan]
    let rows (handle : Nat) : Value := .list handle [.template (handle + 1) row
      [.text "a", .attributes (handle + 2) [("title", .text "x")],
        .list (handle + 3) [.text "y", kept]]]
    let moves : List Move := [.render 0 body (rows 0), .render 1 body (.text "z")]
    let final := ({} : Scene).run moves
    (rows 0).Equivalent (rows 4) ∧ ({} : Scene).Succeeds moves ∧
      final.host.document.innerMarkup body = "<!----><li title=\"x\">y<!----><p>Hi NaN<!----></p>" ++
        "<!----><!----></li><!----><!---->z<!---->" ∧
      (final.act (.render 0 body (rows 4))).2 = none ∧
      (final.act (.render 0 body (rows 4))).1.host = final.host := by
  intro row kept rows moves final
  have equal : (rows 0).Equivalent (rows 4) := by
    have seats : Node.seatsAll row.nodes =
        [(1, .attribute .spread [("key", .hole 0), ("...", .hole 1)]), (2, .content)] := by
      decide +kernel
    have key : ∀ i, Value.keyOfFirst? row = some (.hole i) → i = 0 := by
      simp [Value.keyOfFirst?, row, SharedSkeleton.nodes, keySource?, Entries.get?,
        Binding.keyName, eq_comm]
    refine ⟨.list (.cons (.template ?_ ?_ ?_ ?_) .nil) ?_, ?_⟩
    · intro i hi
      obtain rfl : i = 2 := by simpa [seats] using hi
      exact .list (.cons (.same rfl) (.cons (.same rfl) .nil)) (by simp [Value.allKeyed, Value.key?])
    · intro i b attrs hi hb
      simp [seats] at hi
      exact absurd hi.2.1 hb
    · intro i attrs hi
      obtain ⟨rfl, -⟩ : i = 1 ∧ attrs = _ := by simpa [seats] using hi
      refine .mapping (by simp [Entries.names]) ?_ ?_
      · intro name a b ha hb _
        simp only [List.mem_singleton, Prod.mk.injEq] at ha hb
        rw [ha.2, hb.2]
        rfl
      · intro a b ha
        simp [Binding.spreadName] at ha
    · intro i hi
      obtain rfl := key i hi
      rfl
    · intro _ a ha
      rw [List.mem_singleton.1 ha]
      decide +kernel
    · intro i seat hi
      obtain rfl : i = 0 := by
        simpa [rows, Value.parts, SharedSkeleton.bare, SharedSkeleton.nodes, Node.seatsAll,
          Node.seats] using congrArg Prod.fst (List.mem_singleton.1 hi)
      simp [rows, Value.parts, Markup.valueAt]
  have succeeds : ({} : Scene).Succeeds moves := by
    refine ⟨?_, ?_, trivial⟩ <;> decide +kernel
  have last : ∀ m ∈ [Move.render 1 body (.text "z")], ¬m.Concerns 0 body := by
    simp [Move.Concerns]
  have again := run_render_again (fun _ _ => rfl) [] [.render 1 body (.text "z")] succeeds last equal
  exact ⟨equal, succeeds, by decide +kernel, again⟩

/-- The number that is not the same as itself is shown again where the same template is rendered
again: as markup, it gets a new node. -/
example :
    let host : SharedSkeleton := ⟨.parsed 1, ⟨[.element "div" [("unsafe-html", .hole 0)] []], 1⟩⟩
    let v := Value.template 0 host [.number .nan]
    let shown := ({} : Scene).run [.render 0 body v]
    v.same v = true ∧ shown.host.document.children 1 = [2] ∧
      (shown.act (.render 0 body v)).1.host.document.children 1 = [3] := by
  decide +kernel

/-- As an attribute, it is written over what a spread entry has put there. -/
example :
    let p : SharedSkeleton :=
      ⟨.parsed 1, ⟨[.element "p" [("a", .hole 0), ("...", .hole 1)] []], 2⟩⟩
    let v := Value.template 0 p [.number .nan, .attributes 1 [("a", .text "y")]]
    let shown := ({} : Scene).run [.render 0 body v]
    shown.host.document.innerMarkup body = "<p a=\"y\"></p>" ∧
      (shown.act (.render 0 body v)).1.host.document.innerMarkup body = "<p a=\"NaN\"></p>" := by
  decide +kernel

end Scene

end LiveTemplate
