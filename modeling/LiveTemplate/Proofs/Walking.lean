import LiveTemplate.Proofs.Plots

/-!
# The walk of two cursors

One cursor stands in the list before, the other in the list after. At each place of the
walk the keys decide: the next value is inserted, the previous item is removed, or the item
is taken over for the value. To patch a list by keys comes to carrying out the decisions
of this walk, whatever the keys are. The walk meets every item and every value once.
-/
namespace LiveTemplate.Live
open Document Subtree Patched

/-- A value is inserted in front of an item, an item is removed, or it is taken over for a
value. Items are numbered in the list before, values in the list after. -/
inductive Decision where
  | insert (i j : Nat)
  | remove (i : Nat)
  | reuse (i j : Nat)
deriving DecidableEq, Repr

namespace Decision

/-- The value that comes to stand in the list. -/
def placed? : Decision → Option Nat
  | .insert _ j | .reuse _ j => some j
  | .remove _ => none

/-- The item that is dealt with. -/
def met? : Decision → Option Nat
  | .remove i | .reuse i _ => some i
  | .insert .. => none

end Decision

/-- There is a key, and it occurs nowhere among the others. -/
def isForeign (others : List (Option Value)) (key : Option Value) : Bool :=
  key.any fun key => !others.any fun other => other.any fun k => k.same key

/-- The walk along the keys before and the keys after, from the two cursors on. -/
def walk (prev next : List (Option Value)) (i j : Nat) : List Decision :=
  if hj : j < next.length then
    if isForeign prev next[j] then .insert i j :: walk prev next i (j + 1)
    else if hi : i < prev.length then
      if isForeign next prev[i] then .remove i :: walk prev next (i + 1) j
      else .reuse i j :: walk prev next (i + 1) (j + 1)
    else .insert i j :: walk prev next i (j + 1)
  else if i < prev.length then .remove i :: walk prev next (i + 1) j
  else []
termination_by (prev.length - i) + (next.length - j)

/-- A value takes the place of an item, in front of what the others come to. -/
def placeFirst (before : NodeId) (item : Item) (next : Value) (others : Host → Patched (List Item))
    (h : Host) : Patched (List Item) :=
  (updateItem (fun content h => patchContent before content next h) item next h).andThen
    (fun item h => (others h).map (item :: ·)) (fun _ => [])

/-- What is live of an item is removed before the others are dealt with. -/
def removeFirst (item : Item) (others : Host → Patched (List Item)) (h : Host) :
    Patched (List Item) :=
  (attempt (clear item.content) id () h).andThen (fun _ h => others h) (fun _ => [])

/-- Decisions are carried out one after the other. A value is put in front of what is live
of the items that its decision has left. Nothing is carried out any more after a failure. -/
def carryOut (anchor : NodeId) (old : List Item) (next : List Value) :
    List Decision → Host → Patched (List Item)
  | [], h => ⟨[], h, none⟩
  | .remove i :: rest, h =>
      removeFirst (old[i]?.getD .absent) (carryOut anchor old next rest) h
  | .insert i j :: rest, h =>
      placeFirst (anchorOf (old.drop i) anchor) .absent (Markup.valueAt next j)
        (carryOut anchor old next rest) h
  | .reuse i j :: rest, h =>
      placeFirst (anchorOf (old.drop (i + 1)) anchor) (old[i]?.getD .absent)
        (Markup.valueAt next j) (carryOut anchor old next rest) h

/-! ### What the walk meets -/

section
variable {prev next : List (Option Value)}

theorem range'_from {i k : Nat} (h : i < k) :
    List.range' i (k - i) = i :: List.range' (i + 1) (k - (i + 1)) := by
  have heq : k - i = k - (i + 1) + 1 := by omega
  rw [heq, List.range'_succ]

/-- Every value from the cursor on is placed once, in order. -/
theorem walk_placed (i j : Nat) :
    (walk prev next i j).filterMap Decision.placed? = List.range' j (next.length - j) := by
  fun_induction walk prev next i j with
  | case1 i j hj hf ih => simp [Decision.placed?, ih, range'_from hj]
  | case2 i j hj hf hi hs ih => exact ih
  | case3 i j hj hf hi hs ih => simp [Decision.placed?, ih, range'_from hj]
  | case4 i j hj hf hi ih => simp [Decision.placed?, ih, range'_from hj]
  | case5 i j hj hi ih => exact ih
  | case6 i j hj hi => simp [Nat.sub_eq_zero_of_le (Nat.not_lt.1 hj)]

/-- Every item from the cursor on is removed or taken over once, in order. -/
theorem walk_met (i j : Nat) :
    (walk prev next i j).filterMap Decision.met? = List.range' i (prev.length - i) := by
  fun_induction walk prev next i j with
  | case1 i j hj hf ih => exact ih
  | case2 i j hj hf hi hs ih => simp [Decision.met?, ih, range'_from hi]
  | case3 i j hj hf hi hs ih => simp [Decision.met?, ih, range'_from hi]
  | case4 i j hj hf hi ih => exact ih
  | case5 i j hj hi ih => simp [Decision.met?, ih, range'_from hi]
  | case6 i j hj hi => simp [Nat.sub_eq_zero_of_le (Nat.not_lt.1 hi)]

end

/-! ### Patching by keys -/

section
variable {anchor : NodeId} {prevKeys nextKeys : List Value} {old rest : List Item} {item : Item}
  {next : Value} {values : List Value} {h : Host}

theorem any_occurs {α : Type} (others : List α) (key? : α → Option Value) (key : Value) :
    ((others.map key?).any fun other => other.any fun k => k.same key) =
      hasKey (others.filterMap key?) key := by
  induction others with
  | nil => rfl
  | cons other others ih =>
    rw [List.map_cons, List.any_cons, ih]
    cases hk : key? other with
    | none => simp [hk]
    | some k => simp [hk, hasKey]

theorem isForeign_eq_isFresh (old : List Item) (next : Value) :
    isForeign (old.map (·.shown.key?)) next.key? =
      isFresh (old.filterMap (·.shown.key?)) next := by
  rw [isForeign, isFresh]
  cases next.key? with
  | none => rfl
  | some key => simp only [Option.any_some, any_occurs]

theorem isForeign_eq_isStale (next : List Value) (item : Item) :
    isForeign (next.map (·.key?)) item.shown.key? = isStale (next.filterMap (·.key?)) item := by
  rw [isForeign, isStale]
  cases item.shown.key? with
  | none => rfl
  | some key => simp only [Option.any_some, any_occurs]

theorem patchKeyed_fresh (hf : isFresh prevKeys next = true) :
    patchKeyed anchor prevKeys nextKeys old (next :: values) h =
      placeFirst (anchorOf old anchor) .absent next
        (fun h => patchKeyed anchor prevKeys nextKeys old values h) h := by
  simp [patchKeyed, keyedStep, hf]
  rfl

theorem patchKeyed_exhausted (hf : isFresh prevKeys next = false) :
    patchKeyed anchor prevKeys nextKeys [] (next :: values) h =
      placeFirst anchor .absent next
        (fun h => patchKeyed anchor prevKeys nextKeys [] values h) h := by
  simp [patchKeyed, keyedStep, hf]
  rfl

theorem patchKeyed_reuse (hf : isFresh prevKeys next = false)
    (hs : isStale nextKeys item = false) :
    patchKeyed anchor prevKeys nextKeys (item :: rest) (next :: values) h =
      placeFirst (anchorOf rest anchor) item next
        (fun h => patchKeyed anchor prevKeys nextKeys rest values h) h := by
  simp [patchKeyed, keyedStep, hf, hs]
  rfl

theorem keyedStep_stale {stale : Item → Bool} (hs : stale item = true) :
    keyedStep stale false (item :: rest) =
      { keyedStep stale false rest with
        removed := item :: (keyedStep stale false rest).removed } := by
  simp only [keyedStep, Bool.false_eq_true, if_false, List.dropWhile_cons, List.takeWhile_cons, hs,
    if_true]
  split <;> rfl

/-- To clear several items is to clear the first and then the others. -/
theorem clearItems_removeFirst {removed : List Item} {others : Host → Patched (List Item)} :
    (attempt (clearItems (item :: removed)) id () h).andThen (fun _ h => others h) (fun _ => []) =
      removeFirst item (fun h =>
        (attempt (clearItems removed) id () h).andThen (fun _ h => others h) (fun _ => [])) h := by
  obtain ⟨shown, content⟩ := item
  simp only [clearItems, removeFirst, attempt, EStateM.run, Item.content]
  cases hc : clear content h with
  | ok _ h' => simp only [bind_ok hc]; rfl
  | error e h' => simp only [bind_error hc]; rfl

theorem patchKeyed_stale (hf : isFresh prevKeys next = false) (hs : isStale nextKeys item = true) :
    patchKeyed anchor prevKeys nextKeys (item :: rest) (next :: values) h =
      removeFirst item (fun h => patchKeyed anchor prevKeys nextKeys rest (next :: values) h) h := by
  simp only [patchKeyed, hf, keyedStep_stale hs]
  exact clearItems_removeFirst

theorem patchKeyed_nil :
    patchKeyed anchor prevKeys nextKeys old [] h =
      (attempt (clearItems old) id () h).andThen (fun _ h => ⟨[], h, none⟩) (fun _ => []) := by
  simp only [patchKeyed, attempt, EStateM.run]
  cases clearItems old h <;> rfl

theorem patchKeyed_rest :
    patchKeyed anchor prevKeys nextKeys (item :: rest) [] h =
      removeFirst item (fun h => patchKeyed anchor prevKeys nextKeys rest [] h) h := by
  simp only [patchKeyed_nil]
  exact clearItems_removeFirst

end

theorem drop_eq_nil_of_map {α β : Type} {f : α → β} {l : List α} {k : Nat}
    (h : ¬k < (l.map f).length) : l.drop k = [] :=
  List.drop_eq_nil_of_le (by simpa using h)

/-- To patch the rest of a list by keys is to carry out the rest of the walk. -/
theorem patchKeyed_eq_carryOut (anchor : NodeId) (old : List Item) (next : List Value)
    (i j : Nat) (h : Host) :
    patchKeyed anchor (old.filterMap (·.shown.key?)) (next.filterMap (·.key?)) (old.drop i)
        (next.drop j) h =
      carryOut anchor old next (walk (old.map (·.shown.key?)) (next.map (·.key?)) i j) h := by
  -- what a cursor stands at is the first of what is left
  have value {j : Nat} (hj : j < (next.map (·.key?)).length) :
      next.drop j = Markup.valueAt next j :: next.drop (j + 1) ∧
        (next.map (·.key?))[j] = (Markup.valueAt next j).key? := by
    rw [List.length_map] at hj
    rw [List.drop_eq_getElem_cons hj]
    simp [Markup.valueAt, hj]
  have item {i : Nat} (hi : i < (old.map (·.shown.key?)).length) :
      old.drop i = old[i]?.getD .absent :: old.drop (i + 1) ∧
        (old.map (·.shown.key?))[i] = (old[i]?.getD .absent).shown.key? := by
    rw [List.length_map] at hi
    rw [List.drop_eq_getElem_cons hi]
    simp [hi]
  induction i, j using walk.induct (old.map (·.shown.key?)) (next.map (·.key?)) generalizing h with
  | case1 i j hj hf ih =>
    rw [walk, dif_pos hj, if_pos hf, carryOut, (value hj).1, ← funext fun h => ih h]
    rw [(value hj).2, isForeign_eq_isFresh] at hf
    exact patchKeyed_fresh hf
  | case2 i j hj hf hi hs ih =>
    rw [walk, dif_pos hj, if_neg hf, dif_pos hi, if_pos hs, carryOut, (item hi).1,
      ← funext fun h => ih h, (value hj).1]
    rw [(value hj).2, isForeign_eq_isFresh, Bool.not_eq_true] at hf
    rw [(item hi).2, isForeign_eq_isStale] at hs
    exact patchKeyed_stale hf hs
  | case3 i j hj hf hi hs ih =>
    rw [walk, dif_pos hj, if_neg hf, dif_pos hi, if_neg hs, carryOut, (item hi).1,
      ← funext fun h => ih h, (value hj).1]
    rw [(value hj).2, isForeign_eq_isFresh, Bool.not_eq_true] at hf
    rw [(item hi).2, isForeign_eq_isStale, Bool.not_eq_true] at hs
    exact patchKeyed_reuse hf hs
  | case4 i j hj hf hi ih =>
    rw [walk, dif_pos hj, if_neg hf, dif_neg hi, carryOut, ← funext fun h => ih h,
      drop_eq_nil_of_map hi, (value hj).1]
    rw [(value hj).2, isForeign_eq_isFresh, Bool.not_eq_true] at hf
    exact patchKeyed_exhausted hf
  | case5 i j hj hi ih =>
    rw [walk, dif_neg hj, if_pos hi, carryOut, (item hi).1, ← funext fun h => ih h,
      drop_eq_nil_of_map hj]
    exact patchKeyed_rest
  | case6 i j hj hi =>
    rw [walk, dif_neg hj, if_neg hi, drop_eq_nil_of_map hi, drop_eq_nil_of_map hj]
    rfl

/-- A list of keyed templates that takes the place of a list of any items is patched by the
decisions of the walk, which deals with every item and every value once. Without a failure
the segments of what is live stand in the order of the values. -/
theorem patchContent_walks {old : List Item} {next : List Value}
    (keyed : Value.allKeyed next = true) (handle : Nat) (anchor : NodeId) (h : Host) :
    let decisions := walk (old.map (·.shown.key?)) (next.map (·.key?)) 0 0
    let result := carryOut anchor old next decisions h
    patchContent anchor (.list old) (.list handle next) h = result.map .list ∧
      decisions.filterMap Decision.placed? = List.range next.length ∧
      decisions.filterMap Decision.met? = List.range old.length ∧
      ∀ (faithful : Prop) (parent : NodeId) (before behind : List NodeId) (f : List Subtree),
        Value.BuiltAll next → Block h.document parent before f behind →
        behind.head? = some anchor → FitsItems .blind faithful old f → result.failure = none →
        ∃ f', Rewrites h.document result.host.document parent before f f' behind ∧
          FitsItems .blind faithful result.state f' ∧
          List.Forall₂ Value.Alike (result.state.map Item.shown) next := by
  intro decisions result
  have carried : patchKeyed anchor (old.filterMap (·.shown.key?)) (next.filterMap (·.key?)) old
      next h = result := patchKeyed_eq_carryOut anchor old next 0 0 h
  have placed := @walk_placed (old.map (·.shown.key?)) (next.map (·.key?)) 0 0
  have met := @walk_met (old.map (·.shown.key?)) (next.map (·.key?)) 0 0
  rw [List.length_map, Nat.sub_zero, ← List.range_eq_range'] at placed met
  refine ⟨?_, placed, met, ?_⟩
  · rw [patchContent, if_pos keyed, ← carried]
    rfl
  · intro faithful parent before behind f built b head fits succeeds
    have within : ∀ item ∈ old, ContentWithin .blind item.content := by
      rintro item - n attrs shown - x ⟨⟩
    have ends := patchKeyed_ends .blind next built (old.filterMap (·.shown.key?))
      (next.filterMap (·.key?)) b head fits within
    dsimp only at ends
    rw [carried] at ends
    obtain ⟨⟨f', w, fits', -⟩, alike, -⟩ := ends.of_none succeeds
    exact ⟨f', w, fits', alike⟩

/-- Two rows change places, and one of them comes twice. -/
theorem patchContent_walks_rows :
    let row (key : String) : Value := .template 0
      ⟨.parsed 0, ⟨[.element "li" [("key", .hole 0)] [.hole 1]], 2⟩⟩ [.text key, .text key]
    let h : Host := ⟨⟨#[⟨.element { tag := "body" }, none, [1]⟩, ⟨.marker, some body, []⟩]⟩, [], []⟩
    let rows := [row "a", row "b"]
    let first := carryOut 1 [] rows (walk [] (rows.map (·.key?)) 0 0) h
    let swapped := [row "b", row "a", row "a"]
    let decisions := walk (first.state.map (·.shown.key?)) (swapped.map (·.key?)) 0 0
    let second := carryOut 1 first.state swapped decisions first.host
    decisions = [.reuse 0 0, .reuse 1 1, .insert 2 2] ∧
      patchContent 1 (.list first.state) (.list 0 swapped) first.host = second.map .list ∧
      second.failure = none ∧ (∃ f, FitsItems .blind True second.state f) ∧
      second.host.document.innerMarkup body =
        "<!----><li>b<!----></li><!----><!----><li>a<!----></li><!---->" ++
        "<!----><li>a<!----></li><!----><!---->" := by
  intro row h rows first swapped decisions second
  have made : SharedSkeleton.Made
      ⟨.parsed 0, ⟨[.element "li" [("key", .hole 0)] [.hole 1]], 2⟩⟩ :=
    .inr ⟨["<li key=", ">", "</li>"], by decide +kernel⟩
  have built : ∀ key, (row key).Built := fun key => ⟨made, rfl, trivial, trivial, trivial⟩
  have b : Block h.document body [] [] [1] := by
    refine ⟨⟨le_rfl, fun n q hq => .inl ?_⟩, ⟨_, rfl, rfl⟩, rfl, trivial, by simp, by simp,
      by simp, by simp, by simp, ?_, ?_, ?_, by simp⟩
    · have parents : ∀ n < h.document.nodes.size,
          (h.document.parent? n).getD body < h.document.nodes.size := by decide
      simpa [hq] using parents n (lt_size_of_parent? hq)
    · decide
    · decide
    · decide
  have walked := @patchContent_walks [] rows (by decide +kernel) 0 1 h
  have ok : first.failure = none := by decide +kernel
  obtain ⟨f, w, fits, -⟩ := walked.2.2.2 True body [] [1] [] ⟨built _, built _, trivial⟩ b rfl
    (.nil fun _ => rfl) ok
  have again := @patchContent_walks first.state swapped (by decide +kernel) 0 1 first.host
  have ok' : second.failure = none := by decide +kernel
  obtain ⟨f', -, fits', -⟩ := again.2.2.2 True body [] [1] f
    ⟨built _, built _, built _, trivial⟩ (w.block b) rfl fits ok'
  refine ⟨?_, again.1, ok', ⟨f', fits'⟩, ?_⟩
  · decide +kernel
  · decide +kernel

end LiveTemplate.Live
