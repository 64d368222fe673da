import LiveTemplate.Proofs.Framing
import LiveTemplate.Proofs.Hosting
import LiveTemplate.Proofs.Pinning

/-!
# Steps that guard hosts

Each step of a patch is told by the nodes that are on record in front of it and behind it:
what it takes over, what it drops, and any others, which stay on record as they are. A step
that succeeds where all hosts are guarded leaves all of them guarded. So a host that a patch
does not come to keeps its markup, and one that is given a new value shows the markup of this
one.
-/
namespace LiveTemplate
open Document Subtree Live

/-! ### Nodes on record -/

/-- The nodes without the values of the hosts. -/
def nodesIn (marks : List Mark) : List NodeId := marks.map Prod.fst

section
variable {marks : List Mark} {anchor : NodeId}

theorem nodesIn_append (marks marks' : List Mark) :
    nodesIn (marks ++ marks') = nodesIn marks ++ nodesIn marks' := List.map_append

theorem mem_nodesIn {n : NodeId} : n ∈ nodesIn marks ↔ ∃ k ∈ marks, k.1 = n := List.mem_map

/-- What is on record stays so when there is more. -/
theorem mem_nodesIn_append {n : NodeId} (marks' : List Mark) (h : n ∈ nodesIn marks) :
    n ∈ nodesIn (marks' ++ marks) := by
  rw [nodesIn_append]
  exact List.mem_append_right _ h

/-- Where the anchor is on record, what stands first in front of it is as well. -/
theorem anchorOf_mem (items : List Item) (h : anchor ∈ nodesIn marks) :
    anchorOf items anchor ∈ nodesIn (marksOf items ++ marks) := by
  rcases anchorOf_cases items anchor with same | first
  · rw [same]
    exact mem_nodesIn_append _ h
  · rw [nodesIn_append]
    exact List.mem_append_left _ (List.mem_map_of_mem first)

end

theorem marksOf_append (items items' : List Item) :
    marksOf (items ++ items') = marksOf items ++ marksOf items' := by
  rw [marksOf_eq, marksOf_eq, marksOf_eq, List.flatMap_append]

theorem Document.through_subset (last : NodeId) (nodes : List NodeId) :
    through last nodes ⊆ nodes := by
  induction nodes with
  | nil => exact List.Subset.refl _
  | cons n rest ih =>
    rw [through]
    split
    · exact List.cons_subset_cons n (List.nil_subset rest)
    · exact List.cons_subset_cons n ih

namespace Live
variable {α β : Type}

/-! ### Steps -/

/-- Where all hosts are guarded, a step that succeeds leaves them so. -/
def Guards (marks : List Mark) (m : HostM α) (marks' : α → List Mark) : Prop :=
  ∀ h a h', m h = .ok a h' → Guarded h.document marks → Guarded h'.document (marks' a)

theorem Traces.consistent {m : HostM α} {h h' : Host} {a : α} (t : Traces 0 m)
    (run : m h = .ok a h') (c : h.document.Consistent) : h'.document.Consistent := by
  have edits := t h (Nat.zero_le _)
  rw [left, run] at edits
  exact edits.consistent c

namespace Guards
variable {m : HostM α} {f : α → HostM β} {marks : List Mark} {Q Q' : α → List Mark}
  {R : β → List Mark} {n anchor : NodeId}

theorem pure {a : α} (sub : ∀ d, Guarded d marks → Guarded d (Q a)) :
    Guards marks (Pure.pure a) Q := by
  rintro h _ _ ⟨⟩ g
  exact sub _ g

theorem bind (hm : Guards marks m Q) (hf : ∀ a, Guards (Q a) (f a) R) :
    Guards marks (m >>= f) R := by
  intro h b h' run g
  obtain ⟨a, h₁, first, run⟩ := exists_of_bind_ok run
  exact hf a h₁ b h' run (hm h a h₁ first g)

theorem after (hm : Guards marks m Q') (sub : ∀ a d, Guarded d (Q' a) → Guarded d (Q a)) :
    Guards marks m Q := fun h a h' run g => sub a _ (hm h a h' run g)

theorem modify {g : Host → Host} (same : ∀ h, (g h).document = h.document) :
    Guards marks (modify g : HostM Unit) fun _ => marks := by
  rintro h _ _ ⟨⟩ guarded
  rwa [same]

/-- An edit that succeeds. -/
theorem edit {p : Primitive}
    (hp : ∀ d d', d'.Consistent → p.edit d = .ok d' → Guarded d marks → Guarded d' marks) :
    Guards marks (Host.edit p.edit) fun _ => marks := by
  intro h _ h' run g
  unfold Host.edit at run
  split at run
  next d hd =>
    cases run
    exact hp _ d (Primitive.edit_consistent g.consistent hd) hd g
  · contradiction

/-- An edit of the data of a node on record. -/
theorem update {p : Primitive} (hn : n ∈ nodesIn marks)
    (hp : ∀ d d', p.edit d = .ok d' → ∃ f, d.updateElement n f = .ok d') :
    Guards marks (Host.edit p.edit) fun _ => marks := by
  refine edit fun d d' c h g => ?_
  obtain ⟨k, hk, rfl⟩ := mem_nodesIn.1 hn
  obtain ⟨f, hf⟩ := hp d d' h
  exact g.updateElement c hk hf

theorem setText (hn : n ∈ nodesIn marks) (text : String) :
    Guards marks (Host.edit (Document.setText n text)) fun _ => marks := by
  obtain ⟨k, hk, rfl⟩ := mem_nodesIn.1 hn
  exact edit (p := .setText k.1 text) fun d d' c h g => g.setText c hk h

theorem create {kind : NodeKind} (wellFormed : ∀ data, kind = .element data → data.WellFormed) :
    Guards marks (Host.create kind) fun n => (n, none) :: marks := by
  rintro h _ _ ⟨⟩ g
  exact g.create wellFormed

theorem insertBefore (hn : n ∈ nodesIn marks) (ha : anchor ∈ nodesIn marks) :
    Guards marks (Host.insertBefore n anchor) fun _ => marks := by
  obtain ⟨k, hk, rfl⟩ := mem_nodesIn.1 hn
  obtain ⟨a, hmem, rfl⟩ := mem_nodesIn.1 ha
  exact edit (p := .insertBefore k.1 a.1) fun d d' _ h g => g.insertBefore hk hmem h

theorem remove (hn : n ∈ nodesIn marks) : Guards marks (Host.remove n) fun _ => marks := by
  obtain ⟨k, hk, rfl⟩ := mem_nodesIn.1 hn
  refine edit (p := .remove k.1) fun d d' _ h g => ?_
  simp only [Primitive.edit, Document.remove] at h
  split at h
  · obtain rfl := Except.ok.inj h
    exact g.detach (.of_mem hk)
  · contradiction

theorem removeAll {nodes : List NodeId} (hn : ∀ n ∈ nodes, n ∈ nodesIn marks) :
    Guards marks (Host.removeAll nodes) fun _ => marks := by
  unfold Host.removeAll
  rw [List.forM_eq_forM]
  induction nodes with
  | nil => exact .pure fun _ g => g
  | cons n rest ih =>
    rw [List.forM_cons]
    rw [List.forall_mem_cons] at hn
    exact (remove hn.1).bind fun _ => ih hn.2

/-- A node and its siblings are taken out, none of which is inside of a host. -/
theorem removeRange {first : NodeId} (last : NodeId) (hn : first ∈ nodesIn marks) :
    Guards marks (Host.removeRange first last) fun _ => marks := by
  intro h _ h' run g
  obtain ⟨_, _, ⟨⟩, run⟩ := exists_of_bind_ok run
  obtain ⟨k, hk, rfl⟩ := mem_nodesIn.1 hn
  let range := h.document.range k.1 last
  have siblings : ∀ s ∈ range, s = k.1 ∨ ∃ p, h.document.parent? k.1 = some p ∧
      h.document.parent? s = some p := by
    intro s hs
    rcases List.mem_cons.1 (through_subset _ _ hs) with rfl | hs
    · exact .inl rfl
    · right
      unfold followingSiblings at hs
      split at hs
      · simp at hs
      next p hp =>
        have mem := (List.dropWhile_sublist _).subset (List.mem_of_mem_drop hs)
        exact ⟨p, hp, (g.consistent.mem_children p s).1 mem⟩
  have known : ∀ s ∈ range, (s : Nat) < h.document.nodes.size := by
    intro s hs
    rcases siblings s hs with rfl | ⟨p, -, hp⟩
    · exact g.known k hk
    · exact lt_size_of_parent? hp
  have outside : ∀ s ∈ range, Outside h.document marks s := by
    intro s hs
    rcases siblings s hs with rfl | ⟨p, hp, hp'⟩
    · exact .of_mem hk
    · exact (Outside.of_mem hk).sibling g.consistent hp hp'
  have all : ∀ s ∈ range, s ∈ nodesIn (range.map (·, none) ++ marks) := fun s hs =>
    mem_nodesIn.2 ⟨(s, none), List.mem_append_left _ (List.mem_map_of_mem hs), rfl⟩
  exact (removeAll all h _ h' run (g.append known outside)).sublist
    (List.sublist_append_right _ _)

end Guards

/-! ### Applying -/

section
variable {marks : List Mark} {n : NodeId}

theorem writeDirect_guards (hn : n ∈ nodesIn marks) (b : Binding) (prev next : Value) :
    Guards marks (writeDirect n b prev next) fun _ => marks := by
  have set : ∀ name s, Guards marks (Host.edit (Document.setAttribute n name s))
      fun _ => marks := by
    refine fun name s => .update (p := .setAttribute n name s) hn fun d d' h => ?_
    simp only [Primitive.edit, Document.setAttribute] at h
    split at h
    · exact ⟨_, h⟩
    · contradiction
  have erase : ∀ name, Guards marks (Host.edit (Document.removeAttribute n name)) fun _ => marks :=
    fun name => .update (p := .removeAttribute n name) hn fun d d' h => ⟨_, h⟩
  have add : ∀ event c, Guards marks (Host.edit (Document.addListener n event c)) fun _ => marks :=
    fun event c => .update (p := .addListener n event c) hn fun d d' h => ⟨_, h⟩
  have drop : ∀ event c, Guards marks (Host.edit (Document.removeListener n event c))
      fun _ => marks :=
    fun event c => .update (p := .removeListener n event c) hn fun d d' h => ⟨_, h⟩
  have idle : Guards marks (Pure.pure ()) fun _ => marks := .pure fun _ g => g
  unfold writeDirect
  split
  · split
    · exact erase _
    · exact set _ _
  · split
    · exact set _ _
    · exact erase _
  · exact .update (p := .setProperty n _ next) hn fun d d' h => ⟨_, h⟩
  · dsimp only
    split
    · refine (drop _ _).bind fun _ => ?_
      split
      · exact add _ _
      · exact idle
    · split
      · exact add _ _
      · exact idle
  · split
    · exact .modify fun _ => rfl
    · exact .modify fun _ => rfl
    · exact idle
  · exact idle
  · exact idle

theorem applySingle_guards (hn : n ∈ nodesIn marks) {b : Binding} (hb : b ≠ .markup)
    (prev next : Value) : Guards marks (applySingle n b prev next) fun _ => marks := by
  unfold applySingle
  split
  · contradiction
  · exact writeDirect_guards hn b prev next

mutual
theorem retract_guards (hn : n ∈ nodesIn marks) {b : Binding} (hb : b ≠ .markup) :
    (prev : Value) → Guards marks (retract n b prev) fun _ => marks
  | .attributes handle entries => by
      unfold retract
      split
      · exact retractEntries_guards hn [] entries
      · exact applySingle_guards hn hb _ _
  | .null | .bool _ | .number _ | .text _ | .template .. | .list .. | .callback _ | .cell _
  | .payload _ => applySingle_guards hn hb _ _
termination_by structural v => v

theorem retractEntries_guards (hn : n ∈ nodesIn marks) (kept : List String) :
    (entries : List (String × Value)) → Guards marks (retractEntries n kept entries) fun _ => marks
  | [] => .pure fun _ g => g
  | (name, old) :: rest => by
      have others := retractEntries_guards hn kept rest
      rw [retractEntries]
      split
      · split
        next hb => exact (retract_guards hn (ofEntryName?_ne_markup hb) old).bind fun _ => others
        · exact others
      · exact others
termination_by structural es => es
end

mutual
/-- A value that is no markup changes nothing but the data of the element. -/
theorem apply_guards (hn : n ∈ nodesIn marks) {b : Binding} (hb : b ≠ .markup) (prev : Value) :
    (next : Value) → Guards marks (apply n b prev next) fun _ => marks
  | .attributes handle entries => by
      unfold apply
      split
      · exact (applyEntries_guards hn prev.entries entries).bind fun _ =>
          retractEntries_guards hn _ _
      · exact applySingle_guards hn hb _ _
  | .null | .bool _ | .number _ | .text _ | .template .. | .list .. | .callback _ | .cell _
  | .payload _ => by
      unfold apply
      split
      · exact retractEntries_guards hn _ _
      · exact applySingle_guards hn hb _ _
termination_by structural v => v

theorem applyEntries_guards (hn : n ∈ nodesIn marks) (prev : List (String × Value)) :
    (entries : List (String × Value)) → Guards marks (applyEntries n prev entries) fun _ => marks
  | [] => .pure fun _ g => g
  | (name, next) :: rest => by
      have others := applyEntries_guards hn prev rest
      rw [applyEntries]
      dsimp only
      split
      · split
        next hb => exact (apply_guards hn (ofEntryName?_ne_markup hb) _ next).bind fun _ => others
        · exact others
      · exact others
termination_by structural es => es
end

/-! ### Markup -/

variable {h : Host} {kids : List Subtree} {prev next : Value}

/-- What stands in a host is replaced by what the markup of the value is shown as. -/
theorem replaceMarkup_fills (b : Block h.document n [] kids []) :
    Runs (replaceMarkup n next) h
      (fun _ h' => ∃ kids', Rewrites h.document h'.document n [] kids kids' [] ∧
        next.FilledBy kids')
      (fun _ => True) := by
  by_cases echoed : next ≠ .null ∧ IsEchoed next.toText
  · have shown : replaceMarkup n next = showMarkup n next.toText := by
      rw [replaceMarkup, if_neg (fun h => echoed.1 (Value.isNull_iff.1 h))]
    rw [shown]
    exact (showMarkup_echoes echoed.2 b).mono (fun _ _ ⟨kids', w, hm⟩ => ⟨kids', w, fun _ _ => hm⟩)
      fun _ h => h
  · exact (replaceMarkup_runs (fun _ => false) b).mono
      (fun _ _ ⟨kids', w, _⟩ => ⟨kids', w, fun ne e => absurd ⟨ne, e⟩ echoed⟩) fun _ _ => trivial

theorem replaceMarkup_guards (n : NodeId) (prev next : Value) (others : List Mark) :
    Guards ((n, some prev) :: others) (replaceMarkup n next) fun _ => (n, some next) :: others := by
  intro h _ h' run g
  have own := List.mem_cons_self (a := (n, some prev)) (l := others)
  obtain ⟨kids, s, -, out⟩ := g.host n prev own
  have fills : Runs (replaceMarkup n next) h _ _ :=
    replaceMarkup_fills (s.block g.consistent (out _ own))
  rw [Runs, run] at fills
  obtain ⟨kids', w, filled⟩ := fills
  have c' := (applySingle_traces n .markup prev next).consistent run g.consistent
  exact g.refill c' s out w filled

/-- A value is applied at a place. If it is markup, the host shows it afterwards. -/
theorem applyPlace_guards (n : NodeId) (b : Binding) (prev next : Value) (others : List Mark) :
    Guards ((Place.attribute n b prev).marks ++ others) (apply n b prev next)
      fun _ => (Place.attribute n b next).marks ++ others := by
  by_cases hb : b = .markup
  · subst hb
    have markup : apply n .markup prev next = replaceMarkup n next := by cases next <;> rfl
    rw [markup]
    exact replaceMarkup_guards n prev next others
  · simp only [Place.marks, if_neg hb]
    exact apply_guards (List.mem_cons_self ..) hb prev next

end

/-! ### Clearing -/

mutual
/-- The nodes of a content go, and are off the record. -/
theorem clear_guards (others : List Mark) :
    (c : Content) → Guards (c.marks ++ others) (clear c) fun _ => others
  | .empty => .pure fun _ g => g
  | .text _ => (Guards.remove (List.mem_cons_self ..)).after fun _ _ g =>
      g.sublist (List.sublist_cons_self ..)
  | .nested _ _ stop _ => (Guards.removeRange stop (List.mem_cons_self ..)).after
      fun _ _ g => g.sublist (List.sublist_append_right ..)
  | .list items => clearItems_guards others items
termination_by structural c => c

theorem clearItems_guards (others : List Mark) :
    (items : List Item) → Guards (marksOf items ++ others) (clearItems items) fun _ => others
  | [] => .pure fun _ g => g
  | .mk _ content :: rest => by
      rw [marksOf, Item.marks, List.append_assoc]
      exact (clear_guards _ content).bind fun _ => clearItems_guards others rest
termination_by structural items => items
end

end Live

end LiveTemplate
