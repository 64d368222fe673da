import LiveTemplate.Proofs.Writing

/-!
# Routes of what is written

A template writes to an element through its attributes: through a literal one, or
through a hole and the names of spread entries behind it. What an element should have
for a target is what was written to it last. Where everything that is ever written to a
target takes one route, the element goes on having what it should have when the value of
a hole changes.
-/
namespace LiveTemplate

/-! ### What a value writes last -/

mutual
/-- What a value writes to a target last. -/
def written (x : Target) (b : Binding) : Value → Option (List Value)
  | .attributes handle entries =>
      if b = .spread then writtenIn x entries else wrote x b (.attributes handle entries) []
  | v => wrote x b v []
termination_by structural v => v

def writtenIn (x : Target) : List (String × Value) → Option (List Value)
  | [] => none
  | (name, v) :: rest =>
      writtenIn x rest <|> (Binding.ofEntryName? name).bind fun c => written x c v
termination_by structural es => es
end

theorem wrote_spread_nil (x : Target) (v : Value) : wrote x .spread v [] = none := by
  simp [wrote, Binding.effect]

theorem written_direct {x : Target} {b : Binding} (hb : b ≠ .spread) (v : Value) :
    written x b v = wrote x b v [] := by
  cases v <;> simp [written, hb]

mutual
/-- What is written last is written along a path. -/
theorem exists_wrote (x : Target) : (v : Value) → v.Built → (b : Binding) → (r : List Value) →
    written x b v = some r → ∃ ks, wrote x b v ks = some r
  | .attributes handle entries, built, b, r, h => by
      by_cases hb : b = .spread
      · subst hb
        obtain ⟨k, ks, h⟩ := exists_wroteIn x entries built.1 built.2 r
          (by simpa [written] using h)
        exact ⟨k :: ks, by simpa [wrote, wroteIn, Value.entries] using h⟩
      · exact ⟨[], by simpa [written, hb] using h⟩
  | .null, _, _, _, h => ⟨[], h⟩
  | .bool _, _, _, _, h => ⟨[], h⟩
  | .number _, _, _, _, h => ⟨[], h⟩
  | .text _, _, _, _, h => ⟨[], h⟩
  | .template .., _, _, _, h => ⟨[], h⟩
  | .list .., _, _, _, h => ⟨[], h⟩
  | .callback _, _, _, _, h => ⟨[], h⟩
  | .cell _, _, _, _, h => ⟨[], h⟩
  | .payload _, _, _, _, h => ⟨[], h⟩
termination_by structural v => v

theorem exists_wroteIn (x : Target) : (entries : List (String × Value)) →
    (Entries.names entries).Nodup → Value.BuiltEntries entries → (r : List Value) →
    writtenIn x entries = some r → ∃ k ks, wroteIn x entries k ks = some r
  | [], _, _, _, h => by simp [writtenIn] at h
  | (name, v) :: rest, nodup, built, r, h => by
      obtain ⟨hn, nodup⟩ := List.nodup_cons.1 nodup
      simp only [writtenIn, Option.orElse_eq_orElse, Option.orElse_eq_or, Option.or_eq_some_iff] at h
      rcases h with h | ⟨-, h⟩
      · obtain ⟨k, ks, h⟩ := exists_wroteIn x rest nodup built.2 r h
        have hk : name ≠ k := by
          rintro rfl
          simp [wroteIn_of_notMem hn] at h
        exact ⟨k, ks, by rw [wroteIn_tail hk, h]⟩
      · cases hc : Binding.ofEntryName? name with
        | none => simp [hc] at h
        | some c =>
          obtain ⟨ks, h⟩ := exists_wrote x v built.1 c r (by simpa [hc] using h)
          exact ⟨name, ks, by rw [wroteIn_head hc, h]⟩
termination_by structural es => es
end

mutual
/-- What is written along a path is not overlooked. -/
theorem written_ne_none (x : Target) : (v : Value) → (b : Binding) → (ks : List String) →
    wrote x b v ks ≠ none → written x b v ≠ none
  | .attributes handle entries, b, ks, h => by
      by_cases hb : b = .spread
      · subst hb
        cases ks with
        | nil => exact absurd (wrote_spread_nil x _) h
        | cons k ks =>
          have := writtenIn_ne_none x entries k ks (by simpa [wrote, wroteIn, Value.entries] using h)
          simpa [written] using this
      · cases ks with
        | nil => simpa [written, hb] using h
        | cons k ks => exact absurd (wrote_direct hb _ (by simp)) h
  | .null, _, ks, h => by cases ks <;> simp_all [written, wrote, Value.entries, Entries.get?]
  | .bool _, _, ks, h => by cases ks <;> simp_all [written, wrote, Value.entries, Entries.get?]
  | .number _, _, ks, h => by cases ks <;> simp_all [written, wrote, Value.entries, Entries.get?]
  | .text _, _, ks, h => by cases ks <;> simp_all [written, wrote, Value.entries, Entries.get?]
  | .template .., _, ks, h => by cases ks <;> simp_all [written, wrote, Value.entries, Entries.get?]
  | .list .., _, ks, h => by cases ks <;> simp_all [written, wrote, Value.entries, Entries.get?]
  | .callback _, _, ks, h => by cases ks <;> simp_all [written, wrote, Value.entries, Entries.get?]
  | .cell _, _, ks, h => by cases ks <;> simp_all [written, wrote, Value.entries, Entries.get?]
  | .payload _, _, ks, h => by cases ks <;> simp_all [written, wrote, Value.entries, Entries.get?]
termination_by structural v => v

theorem writtenIn_ne_none (x : Target) : (entries : List (String × Value)) → (k : String) →
    (ks : List String) → wroteIn x entries k ks ≠ none → writtenIn x entries ≠ none
  | [], _, _, h => by simp [wroteIn, Entries.get?] at h
  | (name, v) :: rest, k, ks, h => by
      simp only [writtenIn, Option.orElse_eq_orElse, Option.orElse_eq_or, ne_eq, Option.or_eq_none_iff,
        not_and]
      intro hrest
      by_cases hk : name = k
      · subst hk
        cases hc : Binding.ofEntryName? name with
        | none => exact absurd (wroteIn_of_name hc) h
        | some c =>
          rw [wroteIn_head hc] at h
          simpa [hc] using written_ne_none x v c ks h
      · rw [wroteIn_tail hk] at h
        exact absurd hrest (writtenIn_ne_none x rest k ks h)
termination_by structural es => es
end

theorem written_eq_none {x : Target} {b : Binding} {v : Value} (built : v.Built)
    (h : ∀ ks, wrote x b v ks = none) : written x b v = none := by
  by_contra hne
  obtain ⟨r, hr⟩ := Option.ne_none_iff_exists'.1 hne
  obtain ⟨ks, hks⟩ := exists_wrote x v built b r hr
  simp [h ks] at hks

/-- Where only one path is written along, that is what is written last. -/
theorem written_of_only {x : Target} {b : Binding} {v : Value} {keys : List String}
    (built : v.Built) (only : ∀ ks, wrote x b v ks ≠ none → ks = keys) :
    written x b v = wrote x b v keys := by
  cases hw : written x b v with
  | none =>
    by_contra hne
    exact written_ne_none x v b keys (Ne.symm hne) hw
  | some r =>
    obtain ⟨ks, hks⟩ := exists_wrote x v built b r hw
    rw [← only ks (by simp [hks]), hks]

/-! ### Elements of a template -/

abbrev Attributes := List (String × AttrValue)

/-- How something is written to an element of a template. -/
inductive Route where
  | literal (name : String)
  | hole (index : Nat) (keys : List String)
deriving DecidableEq, Repr

/-- An attribute that binds to a hole. -/
def BoundTo (attrs : Attributes) (index : Nat) (b : Binding) : Prop :=
  ∃ name, (name, AttrValue.hole index) ∈ attrs ∧ Binding.ofName? name = some b

/-- What is written to a target of an element, given the values that its holes show.
Literals count only in an element that also has holes; without them nothing changes. -/
inductive Writes (attrs : Attributes) (shown : Nat → Value) (x : Target) : Route → Prop
  | literal {name text : String} {b c : Binding} {index : Nat}
      (mem : (name, AttrValue.literal text) ∈ attrs) (bound : Binding.ofName? name = some b)
      (writes : wrote x b (.text text) [] ≠ none) (beside : BoundTo attrs index c) :
      Writes attrs shown x (.literal name)
  | hole {index : Nat} {b : Binding} {keys : List String} (bound : BoundTo attrs index b)
      (writes : wrote x b (shown index) keys ≠ none) : Writes attrs shown x (.hole index keys)

/-- What an attribute writes to a target, if it binds to a hole. -/
def holeWrite (x : Target) (shown : Nat → Value) : String × AttrValue → Option (List Value)
  | (name, .hole index) => (Binding.ofName? name).bind fun b => written x b (shown index)
  | _ => none

def literalWrite (x : Target) : String × AttrValue → Option (List Value)
  | (name, .literal text) => (Binding.ofName? name).bind fun b => wrote x b (.text text) []
  | _ => none

/-- What literals write to a target last. -/
def lookLiteral (x : Target) (attrs : Attributes) : List Value :=
  (attrs.filterMap (literalWrite x)).getLast?.getD []

/-- What an element of a template should have for a target: what is written through a
hole, or else what is written by a literal. -/
def look (x : Target) (shown : Nat → Value) (attrs : Attributes) : List Value :=
  (attrs.filterMap (holeWrite x shown)).getLast?.getD (lookLiteral x attrs)

section
variable {attrs : Attributes} {shown : Nat → Value} {x : Target} {i : Nat} {b : Binding}
  {keys : List String}

theorem look_eq_literal (h : ∀ j c, BoundTo attrs j c → written x c (shown j) = none) :
    look x shown attrs = lookLiteral x attrs := by
  have hnil : attrs.filterMap (holeWrite x shown) = [] := by
    refine List.filterMap_eq_nil_iff.2 fun a ha => ?_
    obtain ⟨name, value⟩ := a
    cases value with
    | literal text => rfl
    | hole j =>
      cases hc : Binding.ofName? name with
      | none => simp [holeWrite, hc]
      | some c => simpa [holeWrite, hc] using h j c ⟨name, ha, hc⟩
  rw [look, hnil]
  rfl

theorem lookLiteral_eq_nil
    (h : ∀ name text c, (name, AttrValue.literal text) ∈ attrs → Binding.ofName? name = some c →
      wrote x c (.text text) [] = none) : lookLiteral x attrs = [] := by
  have hnil : attrs.filterMap (literalWrite x) = [] := by
    refine List.filterMap_eq_nil_iff.2 fun a ha => ?_
    obtain ⟨name, value⟩ := a
    cases value with
    | hole j => rfl
    | literal text =>
      cases hc : Binding.ofName? name with
      | none => simp [literalWrite, hc]
      | some c => simpa [literalWrite, hc] using h name text c ha hc
  rw [lookLiteral, hnil]
  rfl

/-- Holes that are written alike look alike. -/
theorem look_congr {shown' : Nat → Value}
    (h : ∀ j c, BoundTo attrs j c → written x c (shown j) = written x c (shown' j)) :
    look x shown attrs = look x shown' attrs := by
  have heq : attrs.filterMap (holeWrite x shown) = attrs.filterMap (holeWrite x shown') := by
    refine List.filterMap_congr fun a ha => ?_
    obtain ⟨name, value⟩ := a
    cases value with
    | literal text => rfl
    | hole j =>
      cases hc : Binding.ofName? name with
      | none => simp [holeWrite, hc]
      | some c => simpa [holeWrite, hc] using h j c ⟨name, ha, hc⟩
  rw [look, look, heq]

/-- Nothing that is written, in an element that has a hole. -/
theorem look_eq_nil (built : ∀ j, (shown j).Built) (beside : BoundTo attrs i b)
    (h : ∀ r, ¬Writes attrs shown x r) : look x shown attrs = [] := by
  rw [look_eq_literal fun j c hj => written_eq_none (built j) fun ks => ?_]
  · refine lookLiteral_eq_nil fun name text c hmem hc => ?_
    by_contra hne
    exact h _ (.literal hmem hc hne beside)
  · by_contra hne
    exact h _ (.hole hj hne)

/-- A hole has one binding where no hole occurs twice. -/
theorem BoundTo.unique {c : Binding} (nodup : (attrHoles attrs).Nodup)
    (h : BoundTo attrs i b) (h' : BoundTo attrs i c) : b = c := by
  obtain ⟨name, hmem, hb⟩ := h
  obtain ⟨name', hmem', hc⟩ := h'
  suffices name = name' by
    subst this
    exact Option.some.inj (hb.symm.trans hc)
  clear hb hc
  induction attrs with
  | nil => simp at hmem
  | cons a rest ih =>
    have mem : ∀ n, (n, AttrValue.hole i) ∈ rest → i ∈ attrHoles rest := fun n hn =>
      List.mem_filterMap.2 ⟨_, hn, rfl⟩
    obtain ⟨n, value⟩ := a
    rcases List.mem_cons.1 hmem with h | h <;> rcases List.mem_cons.1 hmem' with h' | h'
    · injection h with h1 _
      injection h' with h2 _
      exact h1.trans h2.symm
    · injection h with h1 h2
      subst h2
      exact absurd (mem _ h') (List.nodup_cons.1 nodup).1
    · injection h' with h1 h2
      subst h2
      exact absurd (mem _ h) (List.nodup_cons.1 nodup).1
    · refine ih ?_ h h'
      cases value with
      | literal text => exact nodup
      | hole j => exact (List.nodup_cons.1 nodup).2

/-- All that is written goes through one hole. -/
theorem look_of_only (built : ∀ j, (shown j).Built) (nodup : (attrHoles attrs).Nodup)
    (bound : BoundTo attrs i b) (only : ∀ r, Writes attrs shown x r → r = .hole i keys) :
    look x shown attrs = (wrote x b (shown i) keys).getD [] := by
  by_cases hw : wrote x b (shown i) keys = none
  · rw [hw, look_eq_nil built bound fun r hr => ?_]
    · rfl
    · obtain rfl := only r hr
      cases hr with
      | hole bound' writes => exact writes (bound.unique nodup bound' ▸ hw)
  · have hwritten : written x b (shown i) = wrote x b (shown i) keys := by
      refine written_of_only (built i) fun ks hks => ?_
      simpa using only _ (.hole bound hks)
    have hall : ∀ r ∈ attrs.filterMap (holeWrite x shown), some r = wrote x b (shown i) keys := by
      intro r hr
      obtain ⟨⟨name, value⟩, hmem, ha⟩ := List.mem_filterMap.1 hr
      cases value with
      | literal text => simp [holeWrite] at ha
      | hole j =>
        cases hc : Binding.ofName? name with
        | none => simp [holeWrite, hc] at ha
        | some c =>
          have hwj : written x c (shown j) = some r := by simpa [holeWrite, hc] using ha
          obtain ⟨ks, hks⟩ := exists_wrote x _ (built j) c r hwj
          have hsome : wrote x c (shown j) ks ≠ none := by simp [hks]
          have hr := only _ (.hole ⟨name, hmem, hc⟩ hsome)
          injection hr with h1 h2
          subst h1 h2
          rw [← hks, bound.unique nodup ⟨name, hmem, hc⟩]
    have hne : attrs.filterMap (holeWrite x shown) ≠ [] := by
      obtain ⟨name, hmem, hb⟩ := bound
      obtain ⟨r, hr⟩ := Option.ne_none_iff_exists'.1 hw
      refine List.ne_nil_of_mem (List.mem_filterMap.2 ⟨_, hmem, (?_ : _ = some r)⟩)
      simp [holeWrite, hb, hwritten, hr]
    obtain ⟨r, hr⟩ := Option.ne_none_iff_exists'.1 (mt List.getLast?_eq_none_iff.1 hne)
    rw [look, hr, Option.getD_some, ← hall r (List.mem_of_getLast? hr), Option.getD_some]

/-- The values that holes show, with another one for a hole. -/
theorem Writes.update_iff {next : Value} {j : Nat} {ks : List String} (hj : j ≠ i) :
    Writes attrs (Function.update shown i next) x (.hole j ks) ↔
      Writes attrs shown x (.hole j ks) := by
  constructor <;> rintro (_ | ⟨bound, writes⟩)
  · exact .hole bound (by simpa [Function.update_of_ne hj] using writes)
  · exact .hole bound (by simpa [Function.update_of_ne hj] using writes)

/-- An element goes on having what it should have for a target when the value of a hole
changes, if all that is written and cleared there takes one route. -/
theorem look_update {taken : Route → Prop} {next : Value} {data data' : ElementData}
    (built : ∀ j, (shown j).Built) (builtNext : next.Built) (nodup : (attrHoles attrs).Nodup)
    (bound : BoundTo attrs i b) (unique : ∀ r r', taken r → taken r' → r = r')
    (cleared : shown i ≠ .null → ∀ ks, Touches x b (shown i) ks → taken (.hole i ks))
    (changed : (shown i).same next = false) (turns : Turns b (shown i) next data data')
    (before : (∀ r, Writes attrs shown x r → taken r) → data.reading x = look x shown attrs)
    (after : ∀ r, Writes attrs (Function.update shown i next) x r → taken r) :
    data'.reading x = look x (Function.update shown i next) attrs := by
  set shown' := Function.update shown i next with hshown'
  have hself : shown' i = next := Function.update_self ..
  have built' : ∀ j, (shown' j).Built := by
    intro j
    by_cases hj : j = i
    · rw [hj, hself]
      exact builtNext
    · rw [hshown', Function.update_of_ne hj]
      exact built j
  have hprev : ∀ ks, wrote x b (shown i) ks ≠ none → taken (.hole i ks) := by
    intro ks hks
    refine cleared ?_ ks (touches_of_wrote hks)
    intro hnull
    simp [hnull] at hks
  -- what is written before is written afterwards as well, except through this hole
  have others : ∀ r, Writes attrs shown x r → taken r := by
    rintro r (⟨mem, hb, writes, beside⟩ | @⟨j, c, ks, hj, writes⟩)
    · exact after _ (.literal mem hb writes beside)
    · by_cases hji : j = i
      · subst hji
        rw [← bound.unique nodup hj] at writes
        exact hprev ks writes
      · exact after _ ((Writes.update_iff hji).2 (.hole hj writes))
  have only : ∀ r, taken r → (∀ r', Writes attrs shown x r' → r' = r) ∧
      ∀ r', Writes attrs shown' x r' → r' = r := fun r hr =>
    ⟨fun r' hr' => unique r' r (others r' hr') hr, fun r' hr' => unique r' r (after r' hr') hr⟩
  have viaHole : ∀ ks, taken (.hole i ks) → data'.reading x = look x shown' attrs := by
    intro ks hks
    obtain ⟨h1, h2⟩ := only _ hks
    rw [look_of_only built' nodup bound h2, hself]
    refine turns.routed_of_changed changed x ks (fun hnull ks' ht => ?_) (fun ks' hks' => ?_) ?_
    · simpa using unique _ _ (cleared hnull ks' ht) hks
    · simpa using h2 _ (.hole bound (by rwa [hself]))
    · rw [before others, look_of_only built nodup bound h1]
  by_cases hnext : ∃ ks, wrote x b next ks ≠ none
  · obtain ⟨ks, hks⟩ := hnext
    exact viaHole ks (after _ (.hole bound (by rwa [hself])))
  · simp only [not_exists, not_not] at hnext
    by_cases hclear : shown i ≠ .null ∧ ∃ ks, Touches x b (shown i) ks
    · obtain ⟨hnull, ks, ht⟩ := hclear
      exact viaHole ks (cleared hnull ks ht)
    · have hno : shown i ≠ .null → ∀ ks, ¬Touches x b (shown i) ks := fun hnull ks ht =>
        hclear ⟨hnull, ks, ht⟩
      rw [turns.kept_of_changed changed x hno hnext, before others]
      refine look_congr fun j c hj => ?_
      by_cases hji : j = i
      · subst hji
        rw [hself, ← bound.unique nodup hj, written_eq_none builtNext hnext]
        refine written_eq_none (built j) fun ks => ?_
        by_contra hks
        refine hno (fun hnull => ?_) ks (touches_of_wrote hks)
        simp [hnull] at hks
      · rw [hshown', Function.update_of_ne hji]

end

end LiveTemplate
