import LiveTemplate.Proofs.Routes
import Mathlib.Data.List.Sort

/-!
# Writing over what is there

An element that is new gets its literals first, in the order in which they stand, and then the values
of its holes, in the order of their numbers. Whatever is written to an attribute is written over what
the attribute has by then. So of several that write to one attribute the one that is applied last
counts, which need not be the one that stands last in the template.
-/
namespace LiveTemplate
open Document

/-! ### One value -/

/-- Something has been written over what an element had for its attributes. -/
structure Overwrites (w : String → Option (List Value)) (data data' : ElementData) : Prop where
  tag : data'.tag = data.tag
  reading : ∀ n, data'.reading (.attribute n) = (w n).getD (data.reading (.attribute n))

namespace Overwrites
variable {w w' : String → Option (List Value)} {data data₁ data' : ElementData}

theorem refl (h : ∀ n, w n = none) : Overwrites w data data := ⟨rfl, fun n => by rw [h]; rfl⟩

theorem trans (first : Overwrites w data data₁) (next : Overwrites w' data₁ data') :
    Overwrites (fun n => w' n <|> w n) data data' where
  tag := next.tag.trans first.tag
  reading n := by
    rw [next.reading, first.reading]
    cases w' n <;> rfl

theorem ofSets {n : String} {r : List Value} (s : Sets (.attribute n) r data data')
    (h : ∀ m, w m = if m = n then some r else none) : Overwrites w data data' where
  tag := s.tag
  reading m := by
    rw [s.reading, h]
    by_cases hm : m = n <;> simp [hm]

/-- What gives way to a value through a binding to something else than an attribute. -/
theorem ofTurns {b : Binding} {v : Value} (t : Turns b .null v data data')
    (drops : ∀ n, b.drops .null ≠ some (.attribute n))
    (writes : ∀ n ks, wrote (.attribute n) b v ks = none) (h : ∀ n, w n = none) :
    Overwrites w data data' where
  tag := t.tag
  reading n := by
    rw [h, Option.getD_none]
    refine t.kept _ (fun ks ht => ?_) (writes n)
    obtain ⟨rfl, -⟩ := touches_null ht
    exact drops n ht

end Overwrites

namespace Live
variable (node : NodeId)

/-- A value that is written where none was is written over what the element has. -/
theorem writeDirect_overwrites {b : Binding} (hb : b ≠ .spread) {v : Value} (hv : v ≠ .null) :
    Edits node (writeDirect node b .null v) (Overwrites fun n => wrote (.attribute n) b v [])
      fun _ _ => True := by
  have other (drops : ∀ n, b.drops .null ≠ some (.attribute n))
      (writes : ∀ n, wrote (.attribute n) b v [] = none) :
      Edits node (writeDirect node b .null v) (Overwrites fun n => wrote (.attribute n) b v [])
        fun _ _ => True := by
    have nothing (n : String) (ks : List String) : wrote (.attribute n) b v ks = none := by
      cases ks with
      | nil => exact writes n
      | cons k ks => exact wrote_direct hb v (by simp)
    exact (writeDirect_turns node .null v hb).mono (fun _ _ t => .ofTurns t.1 drops nothing writes)
      fun _ _ _ => trivial
  rcases b with name | name | name | event | _ | _ | _
  · refine (writeAttribute_sets node .null v name).mono (fun _ _ s => .ofSets s.1 fun m => ?_)
      fun _ _ _ => trivial
    simp [wrote_attribute, hv]
  · refine (writePresence_sets node .null v name).mono (fun _ _ s => .ofSets s.1 fun m => ?_)
      fun _ _ _ => trivial
    simp [wrote_presence, hv]
  · exact other (by simp [Binding.drops]) (by simp [wrote_property])
  · refine other (by simp [Binding.drops]) fun n => ?_
    cases v <;> simp [wrote, Binding.effect]
  · refine other (by simp [Binding.drops]) fun n => ?_
    cases v <;> simp [wrote, Binding.effect]
  · contradiction
  · exact other (by simp [Binding.drops]) fun n => by simp [wrote, Binding.effect]

/-- Through a binding that does not spread it, or if it is no mapping, a value is written as it
is. -/
theorem applyDirect_overwrites {b : Binding} (hb : b ≠ .markup) {v : Value} (hv : v ≠ .null)
    (other : b = .spread → ∀ handle entries, v ≠ .attributes handle entries) :
    Edits node (apply node b .null v) (Overwrites fun n => written (.attribute n) b v)
      fun _ _ => True := by
  by_cases hs : b = .spread
  · subst hs
    have heq : apply node .spread .null v = pure () := by
      cases v <;> first | rfl | exact absurd rfl (other rfl _ _)
    have nothing (n : String) : written (.attribute n) .spread v = none := by
      cases v <;> first | exact absurd rfl (other rfl _ _) | exact wrote_spread_nil ..
    rw [heq]
    exact Edits.pure fun _ => .refl nothing
  · have heq : apply node b .null v = writeDirect node b .null v := by
      cases v <;> cases b <;> first | rfl | contradiction
    simp only [written_direct hs, heq]
    exact writeDirect_overwrites node hs hv

mutual
/-- A value that is applied where none was is written over what the element has, with the entries
of a mapping one after the other. -/
theorem apply_overwrites : (v : Value) → v ≠ .null → (b : Binding) → b ≠ .markup →
    Edits node (apply node b .null v) (Overwrites fun n => written (.attribute n) b v)
      fun _ _ => True
  | .attributes handle entries, hv, b, hb => by
      by_cases hs : b = .spread
      · subst hs
        have heq : apply node .spread .null (.attributes handle entries) = applyEntries node [] entries := by
          rw [apply]
          exact bind_pure (applyEntries node [] entries)
        simp only [heq, written, if_true]
        exact applyEntries_overwrites entries
      · exact applyDirect_overwrites node hb hv fun h => absurd h hs
  | .null, hv, _, _ => absurd rfl hv
  | .bool _, hv, _, hb => applyDirect_overwrites node hb hv (by simp)
  | .number _, hv, _, hb => applyDirect_overwrites node hb hv (by simp)
  | .text _, hv, _, hb => applyDirect_overwrites node hb hv (by simp)
  | .template .., hv, _, hb => applyDirect_overwrites node hb hv (by simp)
  | .list .., hv, _, hb => applyDirect_overwrites node hb hv (by simp)
  | .callback _, hv, _, hb => applyDirect_overwrites node hb hv (by simp)
  | .cell _, hv, _, hb => applyDirect_overwrites node hb hv (by simp)
  | .payload _, hv, _, hb => applyDirect_overwrites node hb hv (by simp)
termination_by structural v => v

theorem applyEntries_overwrites : (entries : List (String × Value)) →
    Edits node (applyEntries node [] entries) (Overwrites fun n => writtenIn (.attribute n) entries)
      fun _ _ => True
  | [] => Edits.pure fun _ => .refl fun _ => rfl
  | (name, v) :: rest => by
      have first : Edits node (if (entryOf [] name).same v then pure ()
          else match Binding.ofEntryName? name with
            | some c => apply node c (entryOf [] name) v
            | none => pure ())
          (Overwrites fun n => (Binding.ofEntryName? name).bind fun c => written (.attribute n) c v)
          fun _ _ => True := by
        by_cases hv : v = .null
        · subst hv
          refine Edits.pure fun _ => .refl fun n => ?_
          cases Binding.ofEntryName? name <;> simp [written]
        · have hsame : (entryOf [] name).same v = false := by
            cases v <;> first | rfl | exact absurd rfl hv
          rw [hsame]
          cases hc : Binding.ofEntryName? name with
          | none => exact Edits.pure fun _ => .refl fun _ => rfl
          | some c => exact apply_overwrites v hv c (ofEntryName?_ne_markup hc)
      rw [applyEntries_cons]
      refine (first.andThen (applyEntries_overwrites rest)).mono ?_ fun _ _ _ => trivial
      rintro a c ⟨b, hfirst, hrest⟩
      exact hfirst.trans hrest
termination_by structural es => es
end

end Live

/-! ### All attributes of an element -/

/-- When an attribute is written to a new element: literals at once, holes by number. -/
def AttrValue.turn : AttrValue → Nat
  | .literal _ => 0
  | .hole index => index + 1

namespace Live

/-- Attributes in the order in which they are applied to a new element. -/
def applied (attrs : Attributes) : Attributes :=
  attrs.insertionSort fun a b => a.2.turn ≤ b.2.turn

variable {attrs : Attributes} {x : Target} {shown : Nat → Value}

theorem mem_applied {a : String × AttrValue} : a ∈ applied attrs ↔ a ∈ attrs :=
  List.mem_insertionSort _

theorem applied_sorted (attrs : Attributes) :
    (applied attrs).Pairwise fun a b => a.2.turn ≤ b.2.turn := by
  have : Std.Total fun a b : String × AttrValue => a.2.turn ≤ b.2.turn :=
    ⟨fun a b => Nat.le_total a.2.turn b.2.turn⟩
  have : IsTrans (String × AttrValue) fun a b => a.2.turn ≤ b.2.turn :=
    ⟨fun _ _ _ => Nat.le_trans⟩
  exact List.pairwise_insertionSort _ attrs

theorem boundTo_applied {i : Nat} {b : Binding} : BoundTo (applied attrs) i b ↔ BoundTo attrs i b := by
  simp only [BoundTo, mem_applied]

theorem attrHoles_applied : (attrHoles (applied attrs)).Perm (attrHoles attrs) :=
  (List.perm_insertionSort _ attrs).filterMap _

/-- Literals keep their order. -/
theorem lookLiteral_applied : lookLiteral x (applied attrs) = lookLiteral x attrs := by
  suffices (applied attrs).filterMap (literalWrite x) = attrs.filterMap (literalWrite x) by
    rw [lookLiteral, lookLiteral, this]
  induction attrs with
  | nil => rfl
  | cons a rest ih =>
    obtain ⟨name, value⟩ := a
    cases value with
    | literal s =>
      have hcons : applied ((name, .literal s) :: rest) = (name, .literal s) :: applied rest :=
        List.insertionSort_cons_of_forall_rel _ fun _ _ => Nat.zero_le _
      rw [hcons, List.filterMap_cons, List.filterMap_cons, ih]
    | hole i =>
      have hnone : literalWrite x (name, .hole i) = none := rfl
      rw [applied, List.insertionSort_cons_eq_take_drop, List.filterMap_append,
        List.filterMap_cons_none hnone, ← List.filterMap_append, List.takeWhile_append_dropWhile,
        List.filterMap_cons_none hnone]
      exact ih

/-- The values of the holes below a number. Those of the others are absent. -/
def upTo (k : Nat) (shown : Nat → Value) (i : Nat) : Value := if i < k then shown i else .null

theorem upTo_of_le {k i : Nat} (h : k ≤ i) : upTo k shown i = .null := if_neg (Nat.not_lt.2 h)

theorem upTo_succ_of_ne {k i : Nat} (h : i ≠ k) : upTo (k + 1) shown i = upTo k shown i := by
  have : i < k + 1 ↔ i < k := by omega
  simp only [upTo, this]

theorem upTo_succ_self {k : Nat} : upTo (k + 1) shown k = shown k := if_pos (Nat.lt_succ_self k)

/-- A hole whose value is absent changes nothing. -/
theorem upTo_succ_of_null {k : Nat} (h : shown k = .null) : upTo (k + 1) shown = upTo k shown := by
  funext i
  by_cases hi : i = k
  · rw [hi, upTo_succ_self, h, upTo_of_le (Nat.le_refl k)]
  · exact upTo_succ_of_ne hi

/-- What other holes write does not depend on the next one. -/
theorem holeWrite_upTo_succ {k : Nat} {a : String × AttrValue} (h : a.2 ≠ .hole k) :
    holeWrite x (upTo (k + 1) shown) a = holeWrite x (upTo k shown) a := by
  obtain ⟨name, value⟩ := a
  cases value with
  | literal s => rfl
  | hole j =>
    have hj : j ≠ k := fun hj => h (congrArg AttrValue.hole hj)
    simp only [holeWrite, upTo_succ_of_ne hj]

theorem written_null {b : Binding} : written x b .null = none := wrote_null x b []

theorem holeWrite_upTo_of_le {k : Nat} {a : String × AttrValue} (h : k + 1 ≤ a.2.turn) :
    holeWrite x (upTo k shown) a = none := by
  obtain ⟨name, value⟩ := a
  cases value with
  | literal s => rfl
  | hole j =>
    have hj : k ≤ j := Nat.le_of_succ_le_succ h
    rw [holeWrite, upTo_of_le hj]
    cases Binding.ofName? name <;> simp [written_null]

/-- The value of the next hole is written over what the element has. -/
theorem look_applied_succ (nodup : (attrHoles attrs).Nodup) {k : Nat} {b : Binding}
    (bound : BoundTo attrs k b) :
    look x (upTo (k + 1) shown) (applied attrs) =
      (written x b (shown k)).getD (look x (upTo k shown) (applied attrs)) := by
  obtain ⟨name, mem, hb⟩ := boundTo_applied.2 bound
  have sorted := applied_sorted attrs
  have once := attrHoles_applied.nodup_iff.2 nodup
  obtain ⟨left, right, heq⟩ := List.append_of_mem mem
  rw [heq] at sorted once
  obtain ⟨-, sortedRight, -⟩ := List.pairwise_append.1 sorted
  -- the hole occurs once, so the others write the same
  have other : ∀ a ∈ left ++ right, a.2 ≠ .hole k := by
    have holes : attrHoles (left ++ (name, .hole k) :: right) =
        attrHoles left ++ k :: attrHoles right := attrHoles_append ..
    rw [holes, List.nodup_middle, ← attrHoles_append] at once
    intro a ha hk
    exact (List.nodup_cons.1 once).1 (List.mem_filterMap.2 ⟨a, ha, by simp [hk]⟩)
  have hleft : left.filterMap (holeWrite x (upTo (k + 1) shown)) =
      left.filterMap (holeWrite x (upTo k shown)) :=
    List.filterMap_congr fun a ha => holeWrite_upTo_succ (other a (List.mem_append_left _ ha))
  -- behind it stand only holes whose turn has not come
  have later : ∀ a ∈ right, holeWrite x (upTo k shown) a = none := fun a ha =>
    holeWrite_upTo_of_le ((List.pairwise_cons.1 sortedRight).1 a ha)
  have hright : right.filterMap (holeWrite x (upTo k shown)) = [] :=
    List.filterMap_eq_nil_iff.2 later
  have hright' : right.filterMap (holeWrite x (upTo (k + 1) shown)) = [] :=
    List.filterMap_eq_nil_iff.2 fun a ha =>
      (holeWrite_upTo_succ (other a (List.mem_append_right _ ha))).trans (later a ha)
  have hbefore : holeWrite x (upTo k shown) (name, .hole k) = none :=
    holeWrite_upTo_of_le (Nat.le_refl _)
  have hnow : holeWrite x (upTo (k + 1) shown) (name, .hole k) = written x b (shown k) := by
    simp [holeWrite, hb, upTo_succ_self]
  rw [look, look, heq, List.filterMap_append, List.filterMap_append, hleft, List.filterMap_cons,
    List.filterMap_cons, hbefore, hnow, hright, hright']
  cases written x b (shown k) <;> simp

/-- Where the next hole is not bound, nothing changes. -/
theorem look_applied_still {k : Nat} (unbound : ∀ b, ¬BoundTo attrs k b) :
    look x (upTo (k + 1) shown) (applied attrs) = look x (upTo k shown) (applied attrs) := by
  refine look_congr fun j c hj => ?_
  have hne : j ≠ k := by
    rintro rfl
    exact unbound c (boundTo_applied.1 hj)
  rw [upTo_succ_of_ne hne]

end Live

end LiveTemplate
