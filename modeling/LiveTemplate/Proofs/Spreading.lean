import LiveTemplate.Proofs.Recovery

/-!
# Mappings that are spread one after the other

An element that shows a mapping is given another one, and another. Each time the entries
of the new mapping are written first, and those that it does not have any more are taken
back afterwards. So an attribute or a listener is what the last mapping alone would make
of it, as long as all mappings come to it along one path of names. Where two of them come
to it along different paths, what the last one wrote may be taken back.
-/
namespace LiveTemplate
open Document Live Patched

/-- A table patched with some values, and then with others, until a patch fails. -/
def Live.patchInTurn : List Place → List (List Value) → Host → Patched (List Place)
  | places, [], h => ⟨places, h, none⟩
  | places, values :: rest, h =>
      (patchPlaces places values h).andThen (fun places h => patchInTurn places rest h) id

theorem Live.patchInTurn_append (first rest : List (List Value)) (places : List Place) (h : Host) :
    patchInTurn places (first ++ rest) h =
      (patchInTurn places first h).andThen (fun places h => patchInTurn places rest h) id := by
  induction first generalizing places h with
  | nil => rfl
  | cons values first ih =>
    rw [List.cons_append, patchInTurn, patchInTurn]
    obtain ⟨state, host, failure⟩ := patchPlaces places values h
    cases failure with
    | none => exact ih state host
    | some e => rfl

/-- All of the mappings come to the target along one path of names, if at all. -/
def OnePath (x : Target) (values : List Value) : Prop :=
  ∃ keys, ∀ v ∈ values, ∀ ks, Touches x .spread v ks → ks = keys

/-- The element shows the mapping, as far as targets are concerned to which the values so
far have come along one path. -/
structure ShowsSpread (n : NodeId) (values : List Value) (shown : Value) (h : Host) : Prop where
  known : shown ∈ .null :: values
  built : shown.Built
  writable : Writable .spread shown
  reading : ∃ data, h.document.element? n = some data ∧ ∀ x keys,
    (∀ v ∈ values, ∀ ks, Touches x .spread v ks → ks = keys) →
    data.reading x = (wrote x .spread shown keys).getD []

namespace ShowsSpread
variable {n : NodeId} {values : List Value} {shown v : Value} {h : Host}

theorem new {tag : String} (h₀ : h.document.element? n = some { tag := tag }) :
    ShowsSpread n [] .null h where
  known := List.mem_cons_self ..
  built := trivial
  writable := trivial
  reading := ⟨_, h₀, fun x _ _ => by cases x <;> simp [ElementData.reading, Entries.get?]⟩

theorem touches (s : ShowsSpread n values shown h) {x : Target} {keys : List String}
    (only : ∀ v ∈ values, ∀ ks, Touches x .spread v ks → ks = keys) (ks : List String)
    (ht : Touches x .spread shown ks) : ks = keys := by
  rcases List.mem_cons.1 s.known with rfl | hv
  · obtain ⟨rfl, -⟩ := touches_null ht
    exact absurd ht (by simp [Touches, Binding.drops])
  · exact only shown hv ks ht

/-- The mapping gives way to the next one, unless that cannot be written. -/
theorem step (s : ShowsSpread n values shown h) (built : v.Built) :
    (patchPlaces [.attribute n .spread shown] [v] h).Ends
      (fun places h' => Writable .spread v ∧ ∃ shown', places = [.attribute n .spread shown'] ∧
        shown'.Alike v ∧ ShowsSpread n (values ++ [v]) shown' h')
      (fun _ _ => ¬Writable .spread v) := by
  rw [patchPlaces, ends_andThen, updatePlace]
  obtain ⟨data, helement, hreading⟩ := s.reading
  by_cases same : shown.same v = true
  · rw [if_pos same]
    refine ⟨writable_of_same same s.writable, shown, rfl, .inr same, ?_, s.built, s.writable, data,
      helement, fun x keys only => ?_⟩
    · exact List.mem_cons.2 ((List.mem_cons.1 s.known).imp_right (List.mem_append_left _))
    · exact hreading x keys fun u hu => only u (List.mem_append_left _ hu)
  · rw [if_neg same, ends_attempt]
    refine (apply_turns n v built .spread (by simp) shown s.built s.writable h data helement).mono ?_ ?_
    · rintro _ h' ⟨data', hdoc, turns, writable⟩
      refine ⟨writable, v, rfl, .inl rfl, by simp, built, writable, data', ?_, fun x keys only => ?_⟩
      · have : h'.document.element? n = some data' := hdoc ▸ element?_withElement helement
        exact this
      · have earlier : ∀ u ∈ values, ∀ ks, Touches x .spread u ks → ks = keys :=
          fun u hu => only u (List.mem_append_left _ hu)
        exact turns.routed x keys (s.touches earlier)
          (fun ks hw => only v (by simp) ks (touches_of_wrote hw)) (hreading x keys earlier)
    · rintro h' ⟨data', -, -, no⟩
      exact no

/-- Mappings given one after the other. -/
theorem run (rest : List Value) (s : ShowsSpread n values shown h) (built : ∀ v ∈ rest, v.Built) :
    (patchInTurn [.attribute n .spread shown] (rest.map fun v => [v]) h).Ends
      (fun places h' => ∃ shown', places = [.attribute n .spread shown'] ∧
        ShowsSpread n (values ++ rest) shown' h')
      (fun _ _ => ¬∀ v ∈ rest, Writable .spread v) := by
  induction rest generalizing values shown h with
  | nil =>
    rw [List.append_nil]
    exact ⟨shown, rfl, s⟩
  | cons v rest ih =>
    rw [List.map_cons, patchInTurn, ends_andThen]
    refine (s.step (built v (List.mem_cons_self ..))).mono ?_ fun _ _ no all =>
      no (all v (List.mem_cons_self ..))
    rintro _ h₁ ⟨-, shown₁, rfl, -, s₁⟩
    have others := ih s₁ fun u hu => built u (List.mem_cons_of_mem _ hu)
    rw [List.append_assoc] at others
    exact others.mono (fun _ _ good => good) fun _ _ no all =>
      no fun u hu => all u (List.mem_cons_of_mem _ hu)

/-- What is shown in the end is the last mapping. -/
theorem runTo (earlier : List Value) (last : Value) (s : ShowsSpread n values shown h)
    (built : ∀ v ∈ earlier ++ [last], v.Built) :
    (patchInTurn [.attribute n .spread shown] ((earlier ++ [last]).map fun v => [v]) h).Ends
      (fun _ h' => Writable .spread last ∧ ∃ shown', shown'.Alike last ∧
        ShowsSpread n (values ++ (earlier ++ [last])) shown' h')
      (fun _ _ => ¬∀ v ∈ earlier ++ [last], Writable .spread v) := by
  rw [List.map_append, patchInTurn_append, ends_andThen]
  refine (s.run earlier fun v hv => built v (List.mem_append_left _ hv)).mono ?_ fun _ _ no all =>
    no fun v hv => all v (List.mem_append_left _ hv)
  rintro _ h₁ ⟨shown₁, rfl, s₁⟩
  rw [List.map_singleton, patchInTurn, ends_andThen]
  refine (s₁.step (built last (by simp))).mono ?_ fun _ _ no all => no (all last (by simp))
  rintro places h₂ ⟨writable, shown₂, -, alike, s₂⟩
  exact ⟨writable, shown₂, alike, by rwa [List.append_assoc] at s₂⟩

end ShowsSpread

namespace Live
variable {start : Host} {n : NodeId} {tag : String}

/-- After any mappings that could be written one after the other to a new element, it has
for a target what the last one alone gives it, as long as all of them come to the target
along one path. -/
theorem spread_shows_last (new : start.document.element? n = some { tag := tag })
    (earlier : List Value) (last : Value) (built : ∀ v ∈ earlier ++ [last], v.Built)
    (succeeds : (patchInTurn [.attribute n .spread .null] ((earlier ++ [last]).map fun v => [v])
      start).failure = none) :
    let shown := patchInTurn [.attribute n .spread .null] ((earlier ++ [last]).map fun v => [v]) start
    let alone := patchInTurn [.attribute n .spread .null] [[last]] start
    alone.failure = none ∧
      ∃ data data', shown.host.document.element? n = some data ∧
        alone.host.document.element? n = some data' ∧
        ∀ x, OnePath x (earlier ++ [last]) → data.reading x = data'.reading x := by
  intro shown alone
  obtain ⟨writable, w, hw, all⟩ := ((ShowsSpread.new new).runTo earlier last built).of_none succeeds
  have ends := (ShowsSpread.new new).runTo [] last fun v hv => built v (List.mem_append_right _ hv)
  have hnone : alone.failure = none := by
    by_contra hf
    exact ends.of_some hf (by simpa using writable)
  obtain ⟨-, w', hw', one⟩ := ends.of_none hnone
  obtain ⟨data, hdata, hreading⟩ := all.reading
  obtain ⟨data', hdata', hreading'⟩ := one.reading
  refine ⟨hnone, data, data', hdata, hdata', fun x ⟨keys, only⟩ => ?_⟩
  have alike : wrote x .spread w keys = wrote x .spread w' keys :=
    (hw.wrote x .spread keys).trans (hw'.wrote x .spread keys).symm
  rw [hreading x keys only, alike,
    hreading' x keys fun v hv => only v (List.mem_append_right _ hv)]

/-- A listener of the first of two mappings is gone if the second one has none. -/
theorem spread_shows_last_listener :
    let start : Host := { document := (Document.empty.create (.element { tag := "p" })).2 }
    let v := Value.attributes 0 [("a", .text "x"), ("@e", .callback "f")]
    let w := Value.attributes 1 [("a", .text "y")]
    let shown := patchInTurn [.attribute 1 .spread .null] (([v] ++ [w]).map fun v => [v]) start
    shown.failure = none ∧ shown.host.document.listeners 1 "e" = [] ∧
      ∃ data data', shown.host.document.element? 1 = some data ∧
        (patchInTurn [.attribute 1 .spread .null] [[w]] start).host.document.element? 1 = some data' ∧
        data.reading (.listener "e") = data'.reading (.listener "e") := by
  intro start v w shown
  have built : ∀ u ∈ [v] ++ [w], u.Built := by
    simp [v, w, Value.Built, Value.BuiltEntries, Entries.names]
  have path : OnePath (.listener "e") ([v] ++ [w]) := by
    refine ⟨["@e"], fun u hu ks ht => ?_⟩
    have ofText : ∀ text ks, ¬Touches (.listener "e") (.attribute "a") (.text text) ks := by
      rintro text (_ | ⟨k, ks⟩) <;> simp [Touches, Binding.drops]
    have ofCallback : ∀ ks, Touches (.listener "e") (.listener "e") (.callback "f") ks → ks = [] := by
      rintro (_ | ⟨k, ks⟩) <;> simp [Touches]
    rcases ks with _ | ⟨k, ks⟩
    · simp [Touches, Binding.drops] at ht
    · obtain ⟨-, value, c, hget, hc, ht⟩ := ht
      have key : (k, value) = ("@e", .callback "f") ∨ ∃ text, (k, value) = ("a", .text text) := by
        have hmem := Entries.mem_of_get? hget
        rcases List.mem_append.1 hu with hu | hu <;> obtain rfl := List.mem_singleton.1 hu <;>
          simp [v, w, Value.entries] at hmem ⊢ <;> tauto
      rcases key with heq | ⟨text, heq⟩ <;> obtain ⟨rfl, rfl⟩ := Prod.mk.inj heq
      · obtain rfl : Binding.listener "e" = c := Option.some.inj (hc.symm.trans (by decide)).symm
        rw [ofCallback ks ht]
      · obtain rfl : Binding.attribute "a" = c := Option.some.inj (hc.symm.trans (by decide)).symm
        exact absurd ht (ofText text ks)
  have succeeds : shown.failure = none := by decide +kernel
  have new : start.document.element? 1 = some { tag := "p" } := rfl
  obtain ⟨-, data, data', hdata, hdata', same⟩ := spread_shows_last new [v] w built succeeds
  exact ⟨succeeds, by decide +kernel, data, data', hdata, hdata', same _ path⟩

/-- The name of an attribute may be spelled in different ways, and then the way back of
the first spelling takes away what the second one has written. -/
theorem spread_takes_back_last :
    let start : Host := { document := (Document.empty.create (.element { tag := "p" })).2 }
    let v := Value.attributes 0 [("A", .text "x")]
    let w := Value.attributes 1 [("a", .text "y")]
    let shown := patchInTurn [.attribute 1 .spread .null] [[v], [w]] start
    let alone := patchInTurn [.attribute 1 .spread .null] [[w]] start
    shown.failure = none ∧ alone.failure = none ∧
      shown.host.document.attribute? 1 "a" = none ∧
      alone.host.document.attribute? 1 "a" = some "y" := by
  intro start v w shown alone
  refine ⟨?_, ?_, ?_, ?_⟩
  · decide +kernel
  · decide +kernel
  · decide +kernel
  · decide +kernel

end Live

end LiveTemplate
