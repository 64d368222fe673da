import LiveTemplate.Proofs.Grammar
import LiveTemplate.Workshop

/-!
# Values that can be made

A value is built from parsed templates when every template in it has a skeleton that was
read from fragments, or the one of bare values, and one value for each hole, and every
mapping in it has each name once. Whatever the workshop makes of such values is such a
value again.
-/
namespace LiveTemplate

/-- A skeleton that was read, or the one of bare values. -/
def SharedSkeleton.Made (s : SharedSkeleton) : Prop :=
  s = .bare ∨ ∃ fragments, Skeleton.parse fragments = .ok s.skeleton

theorem SharedSkeleton.Made.wellFormed {s : SharedSkeleton} (h : s.Made) :
    s.skeleton.WellFormed := by
  rcases h with rfl | ⟨fragments, h⟩
  · exact ⟨⟨trivial, trivial⟩, by simp [bare, Node.holes], by simp [bare, Node.holes]⟩
  · exact Skeleton.parse_wellFormed h

/-- A paragraph with a title and a text, the skeleton of small examples. -/
def SharedSkeleton.paragraph : SharedSkeleton :=
  ⟨.parsed 0, ⟨[.element "p" [("title", .hole 0)] [.text "Hi ", .hole 1]], 2⟩⟩

@[simp] theorem SharedSkeleton.paragraph_made : paragraph.Made :=
  .inr ⟨["<p title=", ">Hi ", "</p>"], by decide +kernel⟩

@[simp] theorem SharedSkeleton.paragraph_holes : paragraph.holes = 2 := rfl

/-- An element that no document has: a tag does not start with a digit. -/
def SharedSkeleton.misnamed : SharedSkeleton := ⟨.parsed 1, ⟨[.element "1b" [] []], 0⟩⟩

@[simp] theorem SharedSkeleton.misnamed_made : misnamed.Made :=
  .inr ⟨["<1b></1b>"], by decide +kernel⟩

@[simp] theorem SharedSkeleton.misnamed_holes : misnamed.holes = 0 := rfl

namespace Value

mutual
def Built : Value → Prop
  | .template _ shared values => shared.Made ∧ values.length = shared.holes ∧ BuiltAll values
  | .list _ items => BuiltAll items
  | .attributes _ entries => (Entries.names entries).Nodup ∧ BuiltEntries entries
  | _ => True
termination_by structural v => v

def BuiltAll : List Value → Prop
  | [] => True
  | v :: rest => v.Built ∧ BuiltAll rest
termination_by structural vs => vs

/-- The values of the entries are built from parsed templates. -/
def BuiltEntries : List (String × Value) → Prop
  | [] => True
  | (_, v) :: rest => v.Built ∧ BuiltEntries rest
termination_by structural es => es
end

theorem builtAll_iff {values : List Value} : BuiltAll values ↔ ∀ v ∈ values, v.Built := by
  induction values with
  | nil => simp [BuiltAll]
  | cons v rest ih => simp [BuiltAll, ih]

theorem builtEntries_iff {entries : List (String × Value)} :
    BuiltEntries entries ↔ ∀ e ∈ entries, e.2.Built := by
  induction entries with
  | nil => simp [BuiltEntries]
  | cons e rest ih => simp [BuiltEntries, ih]

/-- What a name stands for in a mapping is built as well; without an entry it is absent. -/
theorem BuiltEntries.get? {entries : List (String × Value)} (h : BuiltEntries entries)
    (name : String) : ((Entries.get? name entries).getD .null).Built := by
  induction entries with
  | nil => trivial
  | cons e rest ih =>
    obtain ⟨n, v⟩ := e
    rw [Entries.get?]
    split
    · exact h.1
    · exact ih h.2

theorem Built.entries {v : Value} (h : v.Built) :
    (Entries.names v.entries).Nodup ∧ BuiltEntries v.entries := by
  cases v <;> first | exact h | exact ⟨List.nodup_nil, trivial⟩

theorem built_ofList {pairs : List (String × Value)} (h : BuiltEntries pairs) :
    (Entries.names (Entries.ofList pairs)).Nodup ∧ BuiltEntries (Entries.ofList pairs) := by
  have put : ∀ (entries : List (String × Value)) (name : String) (v : Value), v.Built →
      BuiltEntries entries → BuiltEntries (Entries.put name v entries) := by
    intro entries name v hv he
    induction entries with
    | nil => exact ⟨hv, trivial⟩
    | cons e rest ih =>
      obtain ⟨n, w⟩ := e
      rw [Entries.put]
      split
      · exact ⟨hv, he.2⟩
      · exact ⟨he.1, ih he.2⟩
  have key : ∀ entries : List (String × Value), (Entries.names entries).Nodup ∧ BuiltEntries entries →
      (Entries.names (pairs.foldl (fun es p => Entries.put p.1 p.2 es) entries)).Nodup ∧
        BuiltEntries (pairs.foldl (fun es p => Entries.put p.1 p.2 es) entries) := by
    induction pairs with
    | nil => exact fun _ he => he
    | cons p rest ih =>
      rintro entries ⟨nodup, he⟩
      exact ih h.2 _ ⟨Entries.names_put_nodup nodup, put entries p.1 p.2 h.1 he⟩
  exact key [] ⟨List.nodup_nil, trivial⟩

end Value

namespace Workshop

/-- Every skeleton in the cache was read from the fragments of a site. -/
def Made (w : Workshop) : Prop := ∀ s ∈ w.cache.skeletons, s.2.Made

variable {w : Workshop}

theorem made_new : Made {} := by simp [Made]

theorem made_clear : Made { w with cache := w.cache.clear } := by
  simp [Made, Cache.clear]

theorem list_built {items : List Value} (h : ∀ v ∈ items, v.Built) :
    (w.list items).1.Built := Value.builtAll_iff.2 h

theorem attributes_built {pairs : List (String × Value)} (h : ∀ p ∈ pairs, p.2.Built) :
    (w.attributes pairs).1.Built := Value.built_ofList (Value.builtEntries_iff.2 h)

theorem wrap_built {v : Value} (h : v.Built) : (w.wrap v).1.Built := by
  unfold wrap
  split
  · exact h
  · exact ⟨.inl rfl, rfl, h, trivial⟩

theorem get?_made {site : CallSite} {shared : SharedSkeleton} (h : w.Made)
    (hs : w.cache.get? site = some shared) : shared.Made := h _ (Entries.mem_of_get? hs)

/-- A template of a call site is built when its values are, and all skeletons in the
cache stay what was read. -/
theorem invoke_built {site : CallSite} {values : List Value} (h : w.Made)
    (hv : ∀ v ∈ values, v.Built) :
    (w.invoke site values).2.Made ∧ ∀ v, (w.invoke site values).1 = .ok v → v.Built := by
  have template : ∀ (shared : SharedSkeleton) (u : Workshop), shared.Made → ∀ v,
      (u.template shared values).1 = .ok v → v.Built := by
    intro shared u hs v ht
    unfold Workshop.template at ht
    split at ht
    next hlen =>
      obtain rfl : _ = v := by simpa [make] using ht
      exact ⟨hs, hlen, Value.builtAll_iff.2 hv⟩
    next => simp at ht
  have keeps : ∀ (shared : SharedSkeleton) (u : Workshop), u.Made →
      (u.template shared values).2.Made := by
    intro shared u hu
    unfold Workshop.template
    split
    · exact hu
    · exact hu
  unfold invoke Cache.obtain
  cases hg : w.cache.get? site with
  | some shared => exact ⟨keeps shared w h, template shared w (get?_made h hg)⟩
  | none =>
    cases hp : Skeleton.parse site.fragments with
    | error e => exact ⟨h, by simp⟩
    | ok skeleton =>
      have hm : SharedSkeleton.Made ⟨.parsed w.cache.nextNumber, skeleton⟩ := .inr ⟨_, hp⟩
      refine ⟨keeps _ _ ?_, template _ _ hm⟩
      rintro s (_ | ⟨_, hs⟩)
      · exact hm
      · exact h s hs

end Workshop

end LiveTemplate
