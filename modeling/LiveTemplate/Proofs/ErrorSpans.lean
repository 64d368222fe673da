import LiveTemplate.Proofs.Bones

/-!
# Where reading fails

A reading fails in one of the fragments: no token is recognised in front of a text, a hole in a
start tag has no attribute name, or a quote in front of a hole is not closed behind it. The span
of the error is a slice of that fragment, with its ends between characters, and the same slice of
the text as which the fragments are shown. That the reader reaches a point of a fragment is a
relation, and each way to fail says at which point it stops.
-/
namespace LiveTemplate
open Text

namespace Text

theorem utf8ByteSize_ofList (cs : List Char) : (String.ofList cs).utf8ByteSize = utf8Length cs := by
  induction cs with
  | nil => rfl
  | cons c cs ih =>
    rw [← List.singleton_append, String.ofList_append, String.utf8ByteSize_append, ih]
    simp

theorem utf8Length_toList (s : String) : utf8Length s.toList = s.utf8ByteSize := by
  rw [← utf8ByteSize_ofList, String.ofList_toList]

/-- The slice stands in the text from the start of the span up to its end. -/
def Span.Cuts (s : Span) (text slice : List Char) : Prop :=
  ∃ before behind, text = before ++ slice ++ behind ∧ utf8Length before = s.start ∧
    utf8Length (before ++ slice) = s.stop

theorem Span.Cuts.shift {s : Span} {text slice : List Char} (h : s.Cuts text slice)
    (left right : List Char) :
    (s.shift (utf8Length left)).Cuts (left ++ text ++ right) slice := by
  obtain ⟨before, behind, rfl, start, stop⟩ := h
  refine ⟨left ++ before, behind ++ right, by simp, ?_, ?_⟩
  · rw [utf8Length_append, start, Span.shift]
  · rw [List.append_assoc, utf8Length_append, stop, Span.shift]

end Text

/-! ### Fragments in the joined text -/

theorem joinFragments_append {first rest : List String} (hfirst : first ≠ []) (hrest : rest ≠ []) :
    joinFragments (first ++ rest) = joinFragments first ++ holeMark ++ joinFragments rest := by
  obtain ⟨g, rest, rfl⟩ := List.exists_cons_of_ne_nil hrest
  induction first with
  | nil => contradiction
  | cons f first ih =>
    cases first with
    | nil => simp [joinFragments, String.intercalate_cons_cons]
    | cons f' first =>
      have ih := ih (by simp)
      simp only [joinFragments, List.cons_append] at ih ⊢
      rw [String.intercalate_cons_cons, ih, String.intercalate_cons_cons]
      simp [String.append_assoc]

/-- A fragment starts in the joined text where its offset says. -/
theorem joinFragments_at {first rest : List String} {f : String} :
    ∃ left right, (joinFragments (first ++ f :: rest)).toList = left ++ f.toList ++ right ∧
      utf8Length left = offsetOf (first ++ f :: rest) first.length := by
  induction first with
  | nil =>
    refine ⟨[], ?_⟩
    cases rest with
    | nil => exact ⟨[], by simp [joinFragments], rfl⟩
    | cons g rest =>
      refine ⟨(holeMark ++ joinFragments (g :: rest)).toList, ?_, rfl⟩
      have joined : joinFragments ([f] ++ g :: rest) = _ := joinFragments_append (by simp) (by simp)
      rw [List.nil_append, ← List.singleton_append, joined]
      simp [joinFragments]
  | cons g first ih =>
    obtain ⟨left, right, joined, length⟩ := ih
    refine ⟨g.toList ++ holeMark.toList ++ left, right, ?_, ?_⟩
    · have split : joinFragments ([g] ++ (first ++ f :: rest)) = _ :=
        joinFragments_append (by simp) (by simp)
      rw [List.cons_append, ← List.singleton_append, split]
      simp [joinFragments] at joined ⊢
      exact joined
    · rw [utf8Length_append, utf8Length_append, utf8Length_toList, utf8Length_toList, length]
      rfl

/-- A list with an entry at an index is what is before it, the entry, and the rest. -/
theorem exists_split_of_getElem? {α : Type} {xs : List α} {index : Nat} {x : α}
    (h : xs[index]? = some x) :
    ∃ first rest, xs = first ++ x :: rest ∧ first.length = index := by
  obtain ⟨hlt, rfl⟩ := List.getElem?_eq_some_iff.1 h
  refine ⟨xs.take index, xs.drop (index + 1), ?_, by simp [Nat.le_of_lt hlt]⟩
  rw [← List.drop_eq_getElem_cons hlt, List.take_append_drop]

/-- A slice of a fragment is the same slice of the joined text. -/
theorem ParseError.sourceSpan_cuts {fragments : List String} {e : ParseError} {f : String}
    {slice : List Char} (fragment : fragments[e.fragment]? = some f)
    (h : e.span.Cuts f.toList slice) :
    (e.sourceSpan fragments).Cuts (joinFragments fragments).toList slice := by
  obtain ⟨first, rest, rfl, length⟩ := exists_split_of_getElem? fragment
  obtain ⟨left, right, joined, offset⟩ := @joinFragments_at first rest f
  rw [sourceSpan, joined, ← length, ← offset]
  exact h.shift left right

/-! ### What is left of a run -/

namespace Token

theorem afterComment?_suffix {cs rest : List Char} (h : afterComment? cs = some rest) :
    rest <:+ cs := by
  fun_induction afterComment? cs with
  | case1 rest' =>
    obtain rfl := Option.some.inj h
    exact ⟨['-', '-', '>'], rfl⟩
  | case2 c cs _ ih => exact (ih h).trans (List.suffix_cons c cs)
  | case3 => contradiction

theorem dropBlanks_suffix (cs : List Char) : dropBlanks cs <:+ cs := List.dropWhile_suffix _

namespace Content

variable {cs rest : List Char} {token : Content}

theorem doctype?_suffix (h : doctype? cs = some (token, rest)) : rest <:+ cs := by
  unfold doctype? at h
  split at h <;> try contradiction
  next body =>
    split at h <;> try contradiction
    split at h <;> try contradiction
    next run hrun =>
      split at h <;> try contradiction
      next after hafter =>
        split at h <;> try contradiction
        obtain ⟨-, rfl⟩ := Prod.mk.inj (Option.some.inj h)
        have h1 : after <:+ run := (List.suffix_cons _ _).trans (hafter ▸ List.dropWhile_suffix _)
        have h2 : run <:+ body := (List.suffix_cons _ _).trans (hrun ▸ List.drop_suffix 7 body)
        exact (h1.trans h2).trans (List.suffix_cons ..)

theorem commentStart?_suffix (h : commentStart? cs = some (token, rest)) : rest <:+ cs := by
  unfold commentStart? at h
  split at h <;> try contradiction
  obtain ⟨-, rfl⟩ := Prod.mk.inj (Option.some.inj h)
  exact ⟨['!', '-', '-'], rfl⟩

theorem closeTag?_suffix (h : closeTag? cs = some (token, rest)) : rest <:+ cs := by
  unfold closeTag? at h
  split at h <;> try contradiction
  next run hrun =>
    simp only at h
    split at h <;> try contradiction
    next after hafter =>
      split at h <;> try contradiction
      obtain ⟨-, rfl⟩ := Prod.mk.inj (Option.some.inj h)
      have h1 : after <:+ (dropBlanks run).dropWhile isTagNameChar :=
        (List.suffix_cons _ _).trans (hafter ▸ dropBlanks_suffix _)
      have h2 : run <:+ cs := (List.suffix_cons _ _).trans (hrun ▸ dropBlanks_suffix cs)
      exact ((h1.trans (List.dropWhile_suffix _)).trans (dropBlanks_suffix run)).trans h2

theorem openTag?_suffix (h : openTag? cs = some (token, rest)) : rest <:+ cs := by
  simp only [openTag?] at h
  split at h <;> try contradiction
  obtain ⟨-, rfl⟩ := Prod.mk.inj (Option.some.inj h)
  exact (List.dropWhile_suffix _).trans (dropBlanks_suffix cs)

theorem markup?_suffix (h : markup? cs = some (token, rest)) : rest <:+ cs := by
  rcases markup?_cases h with h | h | h | h
  · exact doctype?_suffix h
  · exact commentStart?_suffix h
  · exact closeTag?_suffix h
  · exact openTag?_suffix h

theorem scan_suffix (cs : List Char) : (scan cs).2 <:+ cs := by
  unfold scan
  split
  next run hrun =>
    have hsuffix : run <:+ cs := (List.suffix_cons _ _).trans (hrun ▸ dropBlanks_suffix cs)
    cases h : markup? run with
    | none => exact (List.dropWhile_suffix _).trans hsuffix
    | some found => exact (markup?_suffix h).trans hsuffix
  next => exact List.dropWhile_suffix _

end Content

theorem Tag.scan?_suffix {cs rest : List Char} {token : Tag} (h : Tag.scan? cs = some (token, rest)) :
    rest <:+ cs := by
  unfold Tag.scan? at h
  split at h
  case h_5 =>
    simp only [Tag.name?] at h
    split at h <;> try contradiction
    obtain ⟨-, rfl⟩ := Prod.mk.inj (Option.some.inj h)
    exact (List.dropWhile_suffix _).trans (List.drop_suffix ..)
  all_goals obtain ⟨-, rfl⟩ := Prod.mk.inj (Option.some.inj h)
  · exact ⟨['/', '>'], rfl⟩
  · exact ⟨['>'], rfl⟩
  · exact ⟨['='], rfl⟩
  · exact ⟨['.', '.', '.'], rfl⟩

/-- A quote is left open only at the very end. -/
theorem Value.quoted?_suffix {quote : Char} {cs rest : List Char} {token : Value}
    (h : Value.quoted? quote cs = some (token, rest)) :
    rest <:+ cs ∧ ∀ q, token = .openQuote q → q = quote ∧ cs = [] := by
  unfold Value.quoted? at h
  split at h
  next after hafter =>
    obtain ⟨rfl, rfl⟩ := Prod.mk.inj (Option.some.inj h)
    exact ⟨(List.suffix_cons _ _).trans (hafter ▸ List.dropWhile_suffix _), by simp⟩
  next =>
    split at h <;> try contradiction
    next hcs =>
      obtain ⟨rfl, rfl⟩ := Prod.mk.inj (Option.some.inj h)
      exact ⟨List.nil_suffix, fun q hq => ⟨(Value.openQuote.inj hq).symm, hcs⟩⟩

theorem Value.scan?_suffix {cs rest : List Char} {token : Value}
    (h : Value.scan? cs = some (token, rest)) :
    rest <:+ cs ∧ ∀ q, token = .openQuote q → cs = [q] := by
  unfold Value.scan? at h
  split at h <;> try contradiction
  next c run =>
    split at h
    next =>
      obtain ⟨suffix, quote⟩ := Value.quoted?_suffix h
      refine ⟨suffix.trans (List.suffix_cons ..), fun q hq => ?_⟩
      obtain ⟨rfl, rfl⟩ := quote q hq
      rfl
    next =>
      split at h <;> try contradiction
      obtain ⟨rfl, rfl⟩ := Prod.mk.inj (Option.some.inj h)
      exact ⟨List.dropWhile_suffix _, by simp⟩

end Token

/-! ### The quote in front of a hole -/

/-- The quote that was opened right before the end of a fragment. -/
def Mode.openQuote? : Mode → Option Char
  | .tag _ (some ⟨_, .quoteOpen quote⟩) => some quote
  | _ => none

namespace Draft

variable {d d' : Draft} {e : OpenElement} {pending : Option Pending} {hasNext : Bool}
  {cs rest : List Char}

theorem stepValue_suffix {name : String} (h : stepValue hasNext e name d cs = some (d', rest)) :
    rest <:+ cs ∧ ∀ quote, d'.mode.openQuote? = some quote → cs = [quote] := by
  unfold stepValue at h
  split at h
  next hscan =>
    obtain ⟨rfl, rfl⟩ := Prod.mk.inj (Option.some.inj h)
    exact ⟨(Token.Value.scan?_suffix hscan).1, by simp [inTag, Mode.openQuote?]⟩
  next hscan =>
    obtain ⟨rfl, rfl⟩ := Prod.mk.inj (Option.some.inj h)
    exact ⟨(Token.Value.scan?_suffix hscan).1, by simp [inTag, Mode.openQuote?]⟩
  next q _ hscan =>
    split at h <;> try contradiction
    obtain ⟨rfl, rfl⟩ := Prod.mk.inj (Option.some.inj h)
    obtain ⟨suffix, ends⟩ := Token.Value.scan?_suffix hscan
    refine ⟨suffix, fun quote hq => ?_⟩
    obtain rfl : q = quote := Option.some.inj hq
    exact ends q rfl
  next =>
    split at h <;> try contradiction
    next hscan =>
      obtain ⟨rfl, rfl⟩ := Prod.mk.inj (Option.some.inj h)
      exact ⟨Token.Tag.scan?_suffix hscan, by simp [endTag_mode, Mode.openQuote?]⟩

theorem stepName_suffix (h : stepName hasNext e pending d cs = some (d', rest)) :
    rest <:+ cs ∧ d'.mode.openQuote? = none := by
  unfold stepName at h
  split at h <;> try contradiction
  next hscan =>
    obtain ⟨rfl, rfl⟩ := Prod.mk.inj (Option.some.inj h)
    exact ⟨Token.Tag.scan?_suffix hscan, by rw [endTag_mode]; rfl⟩
  next hscan =>
    split at h <;> try contradiction
    obtain ⟨rfl, rfl⟩ := Prod.mk.inj (Option.some.inj h)
    exact ⟨Token.Tag.scan?_suffix hscan, rfl⟩
  next hscan =>
    split at h <;> try contradiction
    obtain ⟨rfl, rfl⟩ := Prod.mk.inj (Option.some.inj h)
    exact ⟨Token.Tag.scan?_suffix hscan, rfl⟩
  next hscan =>
    obtain ⟨rfl, rfl⟩ := Prod.mk.inj (Option.some.inj h)
    exact ⟨Token.Tag.scan?_suffix hscan, rfl⟩

theorem takeContent_openQuote (hmode : d.mode = .content) (token : Token.Content) :
    (d.takeContent token).mode.openQuote? = none := by
  cases token with
  | doctype => rw [takeContent, hmode]; rfl
  | commentStart => rfl
  | closeTag name => rw [takeContent, closeNamed_mode, hmode]; rfl
  | openTag name => rfl
  | text run =>
    simp only [takeContent]
    split
    · rw [hmode]; rfl
    · rw [add_eq_addAll, addAll_mode, hmode]; rfl

/-- What a step leaves is the end of what it was given. A quote is open behind it only if it
was before, or is the last character. -/
theorem step_suffix (h : step hasNext d cs = some (d', rest)) :
    rest <:+ cs ∧ ∀ quote, d'.mode.openQuote? = some quote →
      d.mode.openQuote? = some quote ∨ [quote] <:+ cs := by
  unfold step at h
  split at h
  next hmode =>
    split at h <;> obtain ⟨rfl, rfl⟩ := Prod.mk.inj (Option.some.inj h)
    next hscan => exact ⟨Token.afterComment?_suffix hscan, by simp [Mode.openQuote?]⟩
    next => exact ⟨List.nil_suffix, fun _ => .inl⟩
  next e pending hmode =>
    simp only [stepTag] at h
    split at h
    · obtain ⟨rfl, rfl⟩ := Prod.mk.inj (Option.some.inj h)
      exact ⟨List.nil_suffix, fun _ => .inl⟩
    · split at h
      next =>
        obtain ⟨suffix, ends⟩ := stepValue_suffix h
        refine ⟨suffix.trans (Token.dropBlanks_suffix cs), fun quote hq => .inr ?_⟩
        exact ends quote hq ▸ Token.dropBlanks_suffix cs
      next =>
        obtain ⟨suffix, none⟩ := stepName_suffix h
        exact ⟨suffix.trans (Token.dropBlanks_suffix cs), by simp [none]⟩
  next hmode =>
    obtain ⟨rfl, rfl⟩ := Prod.mk.inj (Option.some.inj h)
    exact ⟨Token.Content.scan_suffix cs, by simp [takeContent_openQuote hmode]⟩

/-- Where no token is recognised, more than blanks is left. -/
theorem dropBlanks_ne_nil_of_step (h : step hasNext d cs = none) : dropBlanks cs ≠ [] := by
  unfold step at h
  split at h
  next => split at h <;> contradiction
  next =>
    simp only [stepTag] at h
    split at h
    · contradiction
    · assumption
  next => contradiction

theorem takeHole_openQuote {index : Nat} {found : Option Char}
    (h : d.takeHole index = some (d', found)) :
    found = d.mode.openQuote? ∧ d'.mode.openQuote? = none := by
  unfold takeHole at h
  split at h <;> simp only [Option.some.injEq, Prod.mk.injEq, reduceCtorEq] at h <;>
    obtain ⟨rfl, rfl⟩ := h
  next hmode => simp [hmode, Mode.openQuote?]
  next hmode => simp [hmode, add_eq_addAll, Mode.openQuote?]
  next hmode => simp [hmode, inTag, Mode.openQuote?]
  next hmode => simp [hmode, inTag, Mode.openQuote?]

end Draft

/-! ### How far the fragments are read -/

namespace Skeleton

/-- The reader is in the fragment with that index, with a draft and the rest of the fragment. -/
inductive Reaches (fragments : List String) : Nat → Draft → List Char → Prop
  | start (fragment : String) (here : fragments[0]? = some fragment) :
      Reaches fragments 0 {} fragment.toList
  | token (index : Nat) (d d' : Draft) (cs rest : List Char) (before : Reaches fragments index d cs)
      (more : cs ≠ []) (read : d.step (decide (index + 1 < fragments.length)) cs = some (d', rest)) :
      Reaches fragments index d' rest
  | hole (index : Nat) (d d' : Draft) (fragment : String) (before : Reaches fragments index d [])
      (taken : d.takeHole index = some (d', none)) (here : fragments[index + 1]? = some fragment) :
      Reaches fragments (index + 1) d' fragment.toList
  | quotedHole (index : Nat) (d d' : Draft) (quote : Char) (fragment : String) (rest : List Char)
      (before : Reaches fragments index d []) (taken : d.takeHole index = some (d', some quote))
      (here : fragments[index + 1]? = some fragment) (closed : fragment.toList = quote :: rest) :
      Reaches fragments (index + 1) d' rest

variable {fragments : List String} {index : Nat} {d : Draft} {cs : List Char}

/-- What is left is the end of the fragment. A quote that is open is its last character. -/
theorem Reaches.suffix (h : Reaches fragments index d cs) :
    ∃ fragment, fragments[index]? = some fragment ∧ cs <:+ fragment.toList ∧
      ∀ quote, d.mode.openQuote? = some quote → [quote] <:+ fragment.toList := by
  induction h with
  | start fragment here => exact ⟨fragment, here, List.suffix_rfl, by simp [Mode.openQuote?]⟩
  | token index d d' cs rest before more read ih =>
    obtain ⟨fragment, here, left, opened⟩ := ih
    refine ⟨fragment, here, (Draft.step_suffix read).1.trans left, fun quote hq => ?_⟩
    rcases (Draft.step_suffix read).2 quote hq with was | last
    · exact opened quote was
    · exact last.trans left
  | hole index d d' fragment before taken here ih =>
    refine ⟨fragment, here, List.suffix_rfl, fun quote hq => ?_⟩
    simp [(Draft.takeHole_openQuote taken).2] at hq
  | quotedHole index d d' quote fragment rest before taken here closed ih =>
    refine ⟨fragment, here, closed ▸ List.suffix_cons quote rest, fun quote hq => ?_⟩
    simp [(Draft.takeHole_openQuote taken).2] at hq

/-- What is behind the quote that is awaited is reached. -/
theorem Reaches.behind (h : Reaches fragments index d []) {d' : Draft} {quote : Option Char}
    (taken : d.takeHole index = some (d', quote)) {fragment : String}
    (here : fragments[index + 1]? = some fragment) {run : List Char}
    (hrun : behindQuote (quote.map (index, ·)) fragment = .ok run) :
    Reaches fragments (index + 1) d' run := by
  cases quote with
  | none =>
    obtain rfl := Except.ok.inj hrun
    exact .hole index d d' fragment h taken here
  | some quote =>
    simp only [behindQuote, Option.map_some] at hrun
    split at hrun <;> try contradiction
    next c rest hcs =>
      split at hrun <;> try contradiction
      next hc =>
        obtain rfl := Except.ok.inj hrun
        exact .quotedHole index d d' quote fragment rest h taken here (hc ▸ hcs)

theorem Reaches.readRun_ok (h : Reaches fragments index d cs) {d' : Draft}
    (hr : d.readRun (decide (index + 1 < fragments.length)) cs = .ok d') :
    Reaches fragments index d' [] := by
  fun_induction Draft.readRun (decide (index + 1 < fragments.length)) d cs with
  | case1 => exact (by injection hr with hr; exact hr ▸ h)
  | case2 => contradiction
  | case3 d cs hcs d₁ rest hstep ih => exact ih (h.token _ _ _ _ _ hcs hstep) hr

/-- A run that fails is read up to where no token is recognised. -/
theorem Reaches.readRun_error (h : Reaches fragments index d cs) {unread : List Char}
    (hr : d.readRun (decide (index + 1 < fragments.length)) cs = .error unread) :
    ∃ d', Reaches fragments index d' unread ∧
      d'.step (decide (index + 1 < fragments.length)) unread = none := by
  fun_induction Draft.readRun (decide (index + 1 < fragments.length)) d cs with
  | case1 => contradiction
  | case2 d cs hcs hstep =>
    obtain rfl := Except.error.inj hr
    exact ⟨d, h, hstep⟩
  | case3 d cs hcs d₁ rest hstep ih => exact ih (h.token _ _ _ _ _ hcs hstep) hr

/-- The ways in which a reading fails, each with its error. -/
inductive Fails (fragments : List String) : ParseError → Prop
  | stalled (index : Nat) (d : Draft) (unread : List Char) (fragment : String)
      (reached : Reaches fragments index d unread) (here : fragments[index]? = some fragment)
      (stuck : d.step (decide (index + 1 < fragments.length)) unread = none) :
      Fails fragments (stalledError index fragment unread)
  | unboundHole (index : Nat) (d : Draft) (fragment : String)
      (reached : Reaches fragments index d []) (here : fragments[index]? = some fragment)
      (next : index + 1 < fragments.length) (untaken : d.takeHole index = none) :
      Fails fragments (.unboundHole index fragment.utf8ByteSize)
  | unclosedQuote (index : Nat) (d d' : Draft) (quote : Char) (fragment : String)
      (reached : Reaches fragments index d []) (taken : d.takeHole index = some (d', some quote))
      (next : fragments[index + 1]? = some fragment) (unclosed : ∀ rest, fragment.toList ≠ quote :: rest) :
      Fails fragments (.unclosedQuote index quote (utf8Length (fragment.toList.take 1)))

/-- The reader waits in front of a fragment, with the quote that comes first if one is
awaited. -/
def Awaits (fragments : List String) : Nat → Option (Nat × Char) → Draft → Prop
  | 0, awaited, d => awaited = none ∧ d = {}
  | index + 1, awaited, d => ∃ d₁ quote, Reaches fragments index d₁ [] ∧
      d₁.takeHole index = some (d, quote) ∧ awaited = quote.map (index, ·)

theorem Awaits.reaches {awaited : Option (Nat × Char)} (h : Awaits fragments index awaited d)
    {fragment : String} (here : fragments[index]? = some fragment) {run : List Char}
    (hrun : behindQuote awaited fragment = .ok run) : Reaches fragments index d run := by
  cases index with
  | zero =>
    obtain ⟨rfl, rfl⟩ := h
    obtain rfl := Except.ok.inj hrun
    exact .start fragment here
  | succ index =>
    obtain ⟨d₁, quote, reached, taken, rfl⟩ := h
    exact reached.behind taken here hrun

theorem Awaits.fails {awaited : Option (Nat × Char)} (h : Awaits fragments index awaited d)
    {fragment : String} (here : fragments[index]? = some fragment) {e : ParseError}
    (he : behindQuote awaited fragment = .error e) : Fails fragments e := by
  unfold behindQuote at he
  split at he
  · contradiction
  next hole quote =>
    cases index with
    | zero => simp [Awaits] at h
    | succ index =>
      obtain ⟨d₁, quote', reached, taken, hquote⟩ := h
      obtain ⟨q, rfl, hq⟩ := Option.map_eq_some_iff.1 hquote.symm
      obtain ⟨rfl, rfl⟩ := Prod.mk.inj hq
      have failed := Fails.unclosedQuote index d₁ d q fragment reached taken here
      split at he
      next hcs =>
        obtain rfl := Except.error.inj he
        simpa [hcs] using failed (by simp [hcs])
      next c rest hcs =>
        split at he <;> try contradiction
        next hc =>
          obtain rfl := Except.error.inj he
          simpa [hcs] using failed (by simp [hcs, hc])

/-- A reading that fails from some fragment on fails in one of the ways. -/
theorem readFragments_fails {first rest : List String} {awaited : Option (Nat × Char)}
    {e : ParseError} (h : Awaits (first ++ rest) first.length awaited d)
    (he : readFragments first.length awaited d rest = .error e) : Fails (first ++ rest) e := by
  induction rest generalizing first awaited d with
  | nil => contradiction
  | cons fragment rest ih =>
    have here : (first ++ fragment :: rest)[first.length]? = some fragment := by simp
    have next : (!rest.isEmpty) = decide (first.length + 1 < (first ++ fragment :: rest).length) := by
      cases rest <;> simp
    rw [readFragments, next] at he
    cases hrun : behindQuote awaited fragment with
    | error e' =>
      rw [hrun] at he
      obtain rfl := Except.error.inj he
      exact h.fails here hrun
    | ok run =>
      have reached := h.reaches here hrun
      rw [hrun] at he
      cases hread : d.readRun (decide (first.length + 1 < (first ++ fragment :: rest).length)) run with
      | error unread =>
        obtain ⟨d', reached, stuck⟩ := reached.readRun_error hread
        simp only [hread, Except.mapError, bind, Except.bind] at he
        obtain rfl := Except.error.inj he
        exact .stalled _ d' unread fragment reached here stuck
      | ok d₁ =>
        have read := reached.readRun_ok hread
        simp only [hread, Except.mapError, bind, Except.bind] at he
        split at he
        · contradiction
        next more =>
          split at he
          next untaken =>
            obtain rfl := Except.error.inj he
            refine .unboundHole _ d₁ fragment read here ?_ untaken
            simpa [more] using next.symm
          next d₂ quote taken =>
            have split : first ++ fragment :: rest = (first ++ [fragment]) ++ rest := by simp
            have length : first.length + 1 = (first ++ [fragment]).length := by simp
            rw [split] at read ⊢
            rw [length] at he
            refine ih ?_ he
            rw [← length]
            exact ⟨d₁, quote, read, taken, rfl⟩

theorem parse_fails {e : ParseError} (h : parse fragments = .error e) : Fails fragments e := by
  have he : readFragments 0 none {} fragments = .error e := by
    unfold parse at h
    cases hr : readFragments 0 none {} fragments with
    | error e' =>
      simp only [hr, bind, Except.bind] at h
      rw [Except.error.inj h]
    | ok d => rw [hr] at h; contradiction
  exact @readFragments_fails _ [] _ _ _ ⟨rfl, rfl⟩ he

end Skeleton

/-! ### What the span of an error marks -/

/-- What an error says of the slice that its span cuts out of its fragment, and of what is
before and behind the slice there. -/
def ParseError.Marks (fragments : List String) (before slice behind : List Char) :
    ParseError → Prop
  | .stalled index _ found => found.toList = slice ∧ slice ≠ [] ∧
      ∃ d unread, Skeleton.Reaches fragments index d unread ∧
        d.step (decide (index + 1 < fragments.length)) unread = none ∧
        slice ++ behind = dropBlanks unread ∧ slice = (dropBlanks unread).take 16
  | e@(.unboundHole hole _) => slice = [] ∧ behind = [] ∧
      (∃ d, Skeleton.Reaches fragments hole d [] ∧ d.takeHole hole = none) ∧
      joinFragments fragments = joinFragments (fragments.take (hole + 1)) ++ holeMark ++
        joinFragments (fragments.drop (hole + 1)) ∧
      (joinFragments (fragments.take (hole + 1))).utf8ByteSize = (e.sourceSpan fragments).start
  | .unclosedQuote hole quote _ => before = [] ∧ slice = (slice ++ behind).take 1 ∧
      slice ≠ [quote] ∧ ∃ d fragment, Skeleton.Reaches fragments hole d [] ∧
        d.mode.openQuote? = some quote ∧ fragments[hole]? = some fragment ∧
        [quote] <:+ fragment.toList

/-- Up to the end of a fragment the joined text is as long as the offset and the fragment. -/
theorem utf8ByteSize_joinFragments {first rest : List String} {f : String} :
    (joinFragments (first ++ [f])).utf8ByteSize =
      offsetOf (first ++ f :: rest) first.length + f.utf8ByteSize := by
  induction first with
  | nil => simp [joinFragments, offsetOf]
  | cons g first ih =>
    have split : joinFragments ([g] ++ (first ++ [f])) = _ := joinFragments_append (by simp) (by simp)
    rw [List.cons_append, ← List.singleton_append, split, String.utf8ByteSize_append,
      String.utf8ByteSize_append, ih]
    simp only [joinFragments, String.intercalate_singleton, List.cons_append, List.length_cons,
      offsetOf]
    omega

namespace Skeleton

variable {fragments : List String}

theorem Fails.marks {e : ParseError} (h : Fails fragments e) :
    ∃ fragment before slice behind, fragments[e.fragment]? = some fragment ∧
      fragment.toList = before ++ slice ++ behind ∧ utf8Length before = e.span.start ∧
      utf8Length (before ++ slice) = e.span.stop ∧ e.Marks fragments before slice behind := by
  cases h with
  | stalled index d unread fragment reached here stuck =>
    obtain ⟨fragment', here', left, -⟩ := reached.suffix
    obtain rfl := Option.some.inj (here.symm.trans here')
    obtain ⟨before, split⟩ := (Token.dropBlanks_suffix unread).trans left
    have whole : (dropBlanks unread).take foundLimit ++ (dropBlanks unread).drop foundLimit =
        dropBlanks unread := List.take_append_drop ..
    have start : fragment.utf8ByteSize - utf8Length (dropBlanks unread) = utf8Length before := by
      rw [← utf8Length_toList, ← split, utf8Length_append, Nat.add_sub_cancel]
    refine ⟨fragment, before, _, _, here, ?_, ?_, ?_, ?_, ?_, d, unread, reached, stuck, whole, rfl⟩
    · rw [List.append_assoc, whole, split]
    · exact start.symm
    · simp only [utf8Length_append, ← start, stalledError, ParseError.span, utf8ByteSize_ofList]
    · rw [String.toList_ofList]
    · simp [foundLimit, Draft.dropBlanks_ne_nil_of_step stuck]
  | unboundHole index d fragment reached here next untaken =>
    obtain ⟨first, rest, rfl, rfl⟩ := exists_split_of_getElem? here
    have hrest : rest ≠ [] := by rintro rfl; simp at next
    have split : first ++ fragment :: rest = (first ++ [fragment]) ++ rest := by simp
    have length : first.length + 1 = (first ++ [fragment]).length := by simp
    refine ⟨fragment, fragment.toList, [], [], here, by simp, ?_, ?_, rfl, rfl, ⟨d, reached, untaken⟩,
      ?_, ?_⟩
    · exact utf8Length_toList fragment
    · rw [List.append_nil]
      exact utf8Length_toList fragment
    · rw [split, length, List.take_left, List.drop_left]
      exact joinFragments_append (by simp) hrest
    · rw [length, split, List.take_left, ← split]
      exact utf8ByteSize_joinFragments
  | unclosedQuote index d d' quote fragment reached taken next unclosed =>
    obtain ⟨last, here, -, ends⟩ := reached.suffix
    have opened := (Draft.takeHole_openQuote taken).1.symm
    have whole : fragment.toList.take 1 ++ fragment.toList.drop 1 = fragment.toList :=
      List.take_append_drop ..
    refine ⟨fragment, [], _, _, next, whole.symm, rfl, rfl, rfl, by rw [whole], fun hquote => ?_,
      d, last, reached, opened, here, ends quote opened⟩
    exact unclosed (fragment.toList.drop 1) (by rw [← whole, hquote]; simp)

/-- A reading that fails cuts a slice out of one of its fragments, and the same slice out of
the joined text. Where it stalls, the slice is what was found, the first characters in front of
which no token is recognised, without the blanks before them; in front of a hole that is not
bound nothing, at the very place of its mark; where a quote is not closed, the first character
behind the hole, which is not the quote. -/
theorem parse_error_exact {e : ParseError} (h : parse fragments = .error e) :
    ∃ fragment before slice behind, fragments[e.fragment]? = some fragment ∧
      fragment.toList = before ++ slice ++ behind ∧ utf8Length before = e.span.start ∧
      utf8Length (before ++ slice) = e.span.stop ∧
      (e.sourceSpan fragments).Cuts (joinFragments fragments).toList slice ∧
      e.Marks fragments before slice behind := by
  obtain ⟨fragment, before, slice, behind, here, split, start, stop, marks⟩ := (parse_fails h).marks
  have cuts : e.span.Cuts fragment.toList slice := ⟨before, behind, split, start, stop⟩
  exact ⟨fragment, before, slice, behind, here, split, start, stop,
    ParseError.sourceSpan_cuts here cuts, marks⟩

/-- Behind a hole and two kinds of blanks, in a text of longer characters. -/
theorem parse_error_exact_behind_blanks :
    let fragments := ["é", "<p \u2003éa>", "</p>"]
    let e := ParseError.stalled 1 6 "éa>"
    parse fragments = .error e ∧
      ∃ fragment before slice behind, fragments[e.fragment]? = some fragment ∧
        fragment.toList = before ++ slice ++ behind ∧ utf8Length before = e.span.start ∧
        utf8Length (before ++ slice) = e.span.stop ∧
        (e.sourceSpan fragments).Cuts (joinFragments fragments).toList slice ∧
        e.Marks fragments before slice behind := by
  intro fragments e
  have failed : parse fragments = .error e := by decide +kernel
  exact ⟨failed, parse_error_exact failed⟩

end Skeleton

end LiveTemplate
