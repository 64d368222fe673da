import LiveTemplate.Proofs.Comments
import LiveTemplate.Proofs.TokenLengths
import LiveTemplate.Skeleton.Slicing

/-!
# Reading goes on

The reader of slices reads what is read by characters, and takes no bad slice. A step leaves
less than it was given, or all of it; the second is possible in a start tag only, where the
reading then ends with an error. So the loop comes to an end on every input.
-/
namespace LiveTemplate
open Text

/-! ### Flags for modes -/

/-- The state of the reader with flags that a draft stands for. -/
def Draft.toReader (d : Draft) : Reader :=
  match d.mode with
  | .content => { root := d.nodes, opened := d.opened }
  | .comment => { root := d.nodes, opened := d.opened, inComment := true }
  | .tag element pending =>
      { root := d.nodes, opened := element :: d.opened, inTag := true, pending := pending }

namespace Reader

/-- In a start tag its element is open, and there is no comment; anywhere else no attribute
is pending. -/
structure Sound (r : Reader) : Prop where
  tag : r.inTag = true → r.opened ≠ [] ∧ r.inComment = false
  elsewhere : r.inTag = false → r.pending = none

/-- Inside a start tag, with at least the element of it open, and in no comment. -/
structure InStartTag (r : Reader) : Prop where
  inTag : r.inTag = true
  noComment : r.inComment = false
  element : r.opened ≠ []

/-- The sound states are those that drafts stand for. -/
theorem sound_iff {r : Reader} : r.Sound ↔ ∃ d : Draft, d.toReader = r := by
  constructor
  · intro ⟨tag, elsewhere⟩
    obtain ⟨root, opened, inTag, inComment, pending⟩ := r
    cases inTag with
    | true =>
      obtain ⟨more, rfl⟩ := tag rfl
      obtain ⟨e, outer, rfl⟩ := List.exists_cons_of_ne_nil more
      exact ⟨⟨root, outer, .tag e pending⟩, rfl⟩
    | false =>
      obtain rfl := elsewhere rfl
      cases inComment with
      | true => exact ⟨⟨root, opened, .comment⟩, rfl⟩
      | false => exact ⟨⟨root, opened, .content⟩, rfl⟩
  · rintro ⟨⟨nodes, opened, mode⟩, rfl⟩
    cases mode with
    | content => exact ⟨by simp [Draft.toReader], fun _ => rfl⟩
    | comment => exact ⟨by simp [Draft.toReader], fun _ => rfl⟩
    | tag e pending => exact ⟨by simp [Draft.toReader], by simp [Draft.toReader]⟩

end Reader

namespace Draft

variable {d d' : Draft} {hasNext : Bool} {e : OpenElement} {pending : Option Pending}
  {name : String} {cs input rest : List Char}

theorem toReader_of_content (h : d.mode = .content) :
    d.toReader = { root := d.nodes, opened := d.opened } := by
  rw [toReader, h]

theorem toReader_inTag (d : Draft) (e : OpenElement) (pending : Option Pending) :
    (d.inTag e pending).toReader =
      { root := d.nodes, opened := e :: d.opened, inTag := true, pending := pending } := rfl

theorem inTag_of_tag (h : d.mode = .tag e pending) : d.inTag e pending = d := by
  rw [inTag, ← h]

/-- A change of the nodes and the open elements is the same for both. -/
theorem edit_toReader {f : Draft → Draft} (before : d.mode = .content)
    (after : (f d).mode = .content) : d.toReader.edit f = (f d).toReader := by
  have same : { nodes := d.nodes, opened := d.opened } = d := by rw [← before]
  rw [toReader_of_content before, toReader_of_content after, Reader.edit]
  simp only [same]

theorem flushValueless_toReader (d : Draft) (e : OpenElement) (pending : Option Pending) :
    (d.inTag e pending).toReader.flushValueless = (d.inTag (settle e pending) none).toReader := by
  rw [Reader.flushValueless, settle.eq_def]
  cases pending with
  | none => rfl
  | some pending =>
    obtain ⟨name, stage⟩ := pending
    cases stage with
    | named => rfl
    | valueDue => rfl
    | quoteOpen quote => rfl

theorem endTag_toReader (selfClosing : Bool) :
    (d.inTag e pending).toReader.endTag selfClosing =
      (d.endTag (settle e pending) selfClosing).toReader := by
  rw [Reader.endTag, flushValueless_toReader, endTag]
  split
  next ended =>
    have ended : (selfClosing || isVoidTag (settle e pending).tag) = true := ended
    have added : (add (settle e pending).toNode { d with mode := .content }).mode = .content := by
      rw [add_eq_addAll, addAll_mode]
    rw [if_pos ended, toReader_of_content added]
    rfl
  next goesOn =>
    have goesOn : ¬(selfClosing || isVoidTag (settle e pending).tag) = true := goesOn
    rw [if_neg goesOn]
    rfl

theorem takeContent_toReader (h : d.mode = .content) (token : Token.Content) :
    d.toReader.takeContent token = .ok (d.takeContent token).toReader := by
  cases token with
  | doctype => rfl
  | commentStart => rw [toReader_of_content h]; rfl
  | closeTag name =>
    rw [Reader.takeContent, edit_toReader h (by rw [closeNamed_mode, h])]
    rfl
  | openTag name => rw [toReader_of_content h]; rfl
  | text run =>
    simp only [Reader.takeContent, trimSliced_eq, ok_bind, takeContent]
    split
    next => rfl
    next => rw [edit_toReader h (by rw [add_eq_addAll, addAll_mode, h])]; rfl

/-! ### One step -/

/-- What a step gives back: all it was given, where there is no step. -/
def stepped (d : Draft) (cs : List Char) (found : Option (Draft × List Char)) :
    Reader × List Char :=
  match found with
  | some (d', rest) => (d'.toReader, rest)
  | none => (d.toReader, cs)

theorem stepName_toReader :
    (d.inTag e pending).toReader.stepName hasNext cs input =
      .ok (stepped (d.inTag e pending) cs (stepName hasNext e pending d input)) := by
  rw [Reader.stepName, stepName, Token.Tag.measure?_eq, ok_bind]
  cases hscan : Token.Tag.scan? input with
  | none => rfl
  | some found =>
    obtain ⟨token, rest⟩ := found
    have behind := dropBytes_of_suffix (Token.Tag.scan?_suffix hscan)
    simp only [Option.map_some, Token.measured, behind, ok_bind]
    cases token with
    | tagEnd selfClosing =>
      simp only [endTag_toReader]
      rfl
    | equals =>
      simp only [toReader_inTag]
      cases pending with
      | none => rfl
      | some pending =>
        obtain ⟨name, stage⟩ := pending
        cases stage with
        | named => rfl
        | valueDue => rfl
        | quoteOpen quote => rfl
    | ellipsis =>
      simp only [flushValueless_toReader]
      split
      next => rfl
      next => rfl
    | name run =>
      simp only [flushValueless_toReader]
      rfl

theorem scan?_of_prefix (h : (">".toList.isPrefixOf input || "/>".toList.isPrefixOf input) = true) :
    ∃ selfClosing rest, Token.Tag.scan? input = some (.tagEnd selfClosing, rest) := by
  rw [Bool.or_eq_true, List.isPrefixOf_iff_prefix, List.isPrefixOf_iff_prefix] at h
  rcases h with ⟨rest, rfl⟩ | ⟨rest, rfl⟩
  · exact ⟨false, rest, rfl⟩
  · exact ⟨true, rest, rfl⟩

theorem prefix_of_scan? {selfClosing : Bool}
    (h : Token.Tag.scan? input = some (.tagEnd selfClosing, rest)) :
    (">".toList.isPrefixOf input || "/>".toList.isPrefixOf input) = true := by
  unfold Token.Tag.scan? at h
  split at h
  case h_5 =>
    simp only [Token.Tag.name?] at h
    split at h <;> simp at h
  all_goals simp_all

theorem stepEmptyValue_toReader {hasNext : Bool} :
    (d.inTag e (some ⟨name, .valueDue⟩)).toReader.stepEmptyValue hasNext cs input =
      .ok (stepped (d.inTag e (some ⟨name, .valueDue⟩)) cs
        (match Token.Tag.scan? input with
          | some (.tagEnd selfClosing, rest) =>
              some (d.endTag (e.bind name (.literal "")) selfClosing, rest)
          | _ => none)) := by
  unfold Reader.stepEmptyValue
  split
  next starts =>
    obtain ⟨selfClosing, rest, hscan⟩ := scan?_of_prefix starts
    have bound : (d.inTag e (some ⟨name, .valueDue⟩)).toReader.commitLiteral "" =
        (d.inTag (e.bind name (.literal "")) none).toReader := rfl
    rw [bound, stepName_toReader, stepName, hscan]
    rfl
  next other =>
    split
    next hscan => exact (other (prefix_of_scan? hscan)).elim
    next => rfl

theorem stepValue_toReader :
    (d.inTag e (some ⟨name, .valueDue⟩)).toReader.stepValue hasNext cs input =
      .ok (stepped (d.inTag e (some ⟨name, .valueDue⟩)) cs
        (stepValue hasNext e name d input)) := by
  rw [Reader.stepValue, stepValue, Token.Value.measure?_eq, ok_bind]
  cases hscan : Token.Value.scan? input with
  | none => exact stepEmptyValue_toReader
  | some found =>
    obtain ⟨token, rest⟩ := found
    obtain ⟨suffix, ends⟩ := Token.Value.scan?_suffix hscan
    have behind := dropBytes_of_suffix suffix
    simp only [Option.map_some, Token.measured]
    cases token with
    | quoted text =>
      simp only [behind, ok_bind]
      rfl
    | unquoted text =>
      simp only [behind, ok_bind]
      rfl
    | openQuote quote =>
      cases hasNext with
      | true =>
        simp only [behind, ok_bind]
        rfl
      | false =>
        -- a lone quote is no end of the tag
        obtain rfl := ends quote rfl
        have other : ∀ selfClosing rest,
            Token.Tag.scan? [quote] ≠ some (.tagEnd selfClosing, rest) := by
          intro selfClosing rest h
          have starts := prefix_of_scan? h
          obtain rfl : '>' = quote := by simpa using starts
          simp [Token.Value.scan?, Token.isQuote, Token.isUnquotedChar] at hscan
        simp only [Bool.false_eq_true, if_false, stepEmptyValue_toReader]

/-- A step of the reader is a step of the draft. -/
theorem step_toReader (hasNext : Bool) (d : Draft) (cs : List Char) :
    d.toReader.step hasNext cs = .ok (stepped d cs (d.step hasNext cs)) := by
  obtain ⟨nodes, opened, mode⟩ := d
  cases mode with
  | comment =>
    simp only [toReader, Reader.step, if_true, step]
    rcases Token.commentStop?_cases cs with ⟨stop, after⟩ | ⟨before, rest, rfl, stop, after⟩
    · simp only [stop, after]
      rfl
    · have behind := dropBytes_append (before ++ ['-', '-', '>']) rest
      have length : utf8Length (before ++ ['-', '-', '>']) = utf8Length before + 3 :=
        utf8Length_append ..
      rw [length, List.append_assoc] at behind
      simp only [List.cons_append, List.nil_append] at behind
      simp only [stop, after, behind, ok_bind]
      rfl
  | tag e pending =>
    simp only [toReader, Reader.step, Bool.false_eq_true, if_false, if_true, step, stepTag]
    by_cases blank : dropBlanks cs = []
    · simp only [if_pos blank]
      rfl
    · simp only [if_neg blank]
      cases pending with
      | none => exact stepName_toReader (d := ⟨nodes, opened, .tag e none⟩)
      | some pending =>
        obtain ⟨name, stage⟩ := pending
        cases stage with
        | named => exact stepName_toReader (d := ⟨nodes, opened, .tag e (some ⟨name, .named⟩)⟩)
        | valueDue => exact stepValue_toReader (d := ⟨nodes, opened, .tag e (some ⟨name, .valueDue⟩)⟩)
        | quoteOpen quote =>
          exact stepName_toReader (d := ⟨nodes, opened, .tag e (some ⟨name, .quoteOpen quote⟩)⟩)
  | content =>
    have taken := takeContent_toReader (d := ⟨nodes, opened, .content⟩) rfl
    simp only [Reader.step, toReader, Bool.false_eq_true, if_false, Token.Content.measure_eq,
      ok_bind, Token.measured, step, dropBytes_of_suffix (Token.Content.scan_suffix cs)] at taken ⊢
    rw [taken]
    rfl

/-- Where no token is recognised, a start tag is being read. -/
theorem inStartTag_of_step_eq_none (h : d.step hasNext cs = none) : d.toReader.InStartTag := by
  unfold step at h
  split at h
  next => split at h <;> contradiction
  next e pending hmode =>
    rw [← inTag_of_tag hmode]
    exact ⟨rfl, rfl, List.cons_ne_nil e d.opened⟩
  next => contradiction

end Draft

/-- A step succeeds and keeps the state sound. What it gives back is shorter, or nothing at all
has happened; and that is so in a start tag only. -/
theorem Reader.Sound.step {r : Reader} (h : r.Sound) (hasNext : Bool) {cs : List Char}
    (more : cs ≠ []) : ∃ r' next, r.step hasNext cs = .ok (r', next) ∧ r'.Sound ∧ next <:+ cs ∧
      (utf8Length next < utf8Length cs ∨ next = cs ∧ r' = r ∧ r.InStartTag) := by
  obtain ⟨d, rfl⟩ := sound_iff.1 h
  rw [Draft.step_toReader]
  cases hstep : d.step hasNext cs with
  | some found =>
    obtain ⟨d', next⟩ := found
    have suffix := (Draft.step_suffix hstep).1
    have less := utf8Length_suffix_lt suffix (Draft.step_length_lt more hstep)
    exact ⟨d'.toReader, next, rfl, sound_iff.2 ⟨d', rfl⟩, suffix, .inl less⟩
  | none =>
    have stuck := Draft.inStartTag_of_step_eq_none hstep
    exact ⟨d.toReader, cs, rfl, h, List.suffix_rfl, .inr ⟨rfl, rfl, stuck⟩⟩

/-! ### The whole reading -/

theorem Reader.readRun_of_step {r r' : Reader} {hasNext : Bool} {cs next : List Char}
    (more : cs ≠ []) (h : r.step hasNext cs = .ok (r', next)) :
    r.readRun hasNext cs =
      if utf8Length next = utf8Length cs then .ok (.error (r, cs)) else r'.readRun hasNext next := by
  rw [readRun, if_neg more]
  split
  next e failed =>
    rw [h] at failed
    contradiction
  next r₁ next₁ read =>
    obtain ⟨rfl, rfl⟩ := Prod.mk.inj (Except.ok.inj (h.symm.trans read))
    split
    next => rfl
    next => rfl

namespace Draft

variable {d d' : Draft} {hasNext : Bool} {cs unread : List Char}

theorem readRun_ok (h : d.readRun hasNext cs = .ok d') :
    d.toReader.readRun hasNext cs = .ok (.ok d'.toReader) := by
  fun_induction readRun hasNext d cs with
  | case1 d =>
    obtain rfl := Except.ok.inj h
    rw [Reader.readRun, if_pos rfl]
  | case2 => contradiction
  | case3 d cs more d₁ rest hstep ih =>
    have less := utf8Length_suffix_lt (step_suffix hstep).1 (step_length_lt more hstep)
    have step := step_toReader hasNext d cs
    rw [hstep] at step
    rw [Reader.readRun_of_step more step, if_neg less.ne]
    exact ih h

theorem readRun_error (h : d.readRun hasNext cs = .error unread) :
    ∃ d' : Draft, d.toReader.readRun hasNext cs = .ok (.error (d'.toReader, unread)) ∧
      d'.toReader.InStartTag ∧ unread <:+ cs := by
  fun_induction readRun hasNext d cs with
  | case1 => contradiction
  | case2 d cs more hstep =>
    obtain rfl := Except.error.inj h
    refine ⟨d, ?_, inStartTag_of_step_eq_none hstep, List.suffix_rfl⟩
    have step := step_toReader hasNext d cs
    rw [hstep] at step
    rw [Reader.readRun_of_step more step, if_pos rfl]
  | case3 d cs more d₁ rest hstep ih =>
    have suffix := (step_suffix hstep).1
    have less := utf8Length_suffix_lt suffix (step_length_lt more hstep)
    obtain ⟨d', stopped, inTag, left⟩ := ih h
    refine ⟨d', ?_, inTag, left.trans suffix⟩
    have step := step_toReader hasNext d cs
    rw [hstep] at step
    rw [Reader.readRun_of_step more step, if_neg less.ne]
    exact stopped

theorem takeHole_toReader (index : Nat) (d : Draft) :
    d.toReader.takeHole index = (d.takeHole index).map (Prod.map toReader id) := by
  obtain ⟨nodes, opened, mode⟩ := d
  cases mode with
  | comment => rfl
  | content =>
    have added := edit_toReader (d := ⟨nodes, opened, .content⟩) (f := add (.hole index)) rfl
      (by rw [add_eq_addAll, addAll_mode])
    exact congrArg (fun r => some (r, none)) added
  | tag e pending =>
    cases pending with
    | none => rfl
    | some pending =>
      obtain ⟨name, stage⟩ := pending
      cases stage with
      | named => rfl
      | valueDue => rfl
      | quoteOpen quote => rfl

theorem finish_toReader (d : Draft) : d.toReader.finish = d.finish := by
  obtain ⟨nodes, opened, mode⟩ := d
  cases mode with
  | comment => exact (finish_comment (d := ⟨nodes, opened, .content⟩) rfl).symm
  | content => rfl
  | tag e pending =>
    have ended := flushValueless_toReader ⟨nodes, opened, .tag e pending⟩ e pending
    exact congrArg (fun r => (r.edit fun d => d.close d.opened.length).root) ended

end Draft

namespace Reader

variable {index : Nat} {awaited : Option (Nat × Char)} {fragment : String} {run unread : List Char}

theorem behindQuote_suffix (h : Skeleton.behindQuote awaited fragment = .ok run) :
    run <:+ fragment.toList := by
  unfold Skeleton.behindQuote at h
  split at h
  next => exact Except.ok.inj h ▸ List.suffix_rfl
  next =>
    split at h
    next => contradiction
    next c rest hcs =>
      split at h
      next =>
        obtain rfl := Except.ok.inj h
        exact hcs ▸ List.suffix_cons ..
      next => contradiction

theorem stalledError_eq (index : Nat) (h : unread <:+ fragment.toList) :
    stalledError index fragment unread = .ok (Skeleton.stalledError index fragment unread) := by
  rw [stalledError, excess_of_suffix ((Token.dropBlanks_suffix unread).trans h), utf8Length_toList]
  rfl

theorem behindQuote_ne_stalled {index' offset : Nat} {found : String} :
    Skeleton.behindQuote awaited fragment ≠ .error (.stalled index' offset found) := by
  unfold Skeleton.behindQuote
  split
  next => simp
  next =>
    split
    next => simp
    next => split <;> simp

/-- Both readings end alike. The state in which a reading stalls is one in a start tag. -/
inductive Agrees : Except Failure Reader → Except ParseError Draft → Prop
  | read (d : Draft) : Agrees (.ok d.toReader) (.ok d)
  | failed (r : Reader) (e : ParseError)
      (stuck : ∀ index offset found, e = .stalled index offset found → r.InStartTag) :
      Agrees (.error (r, e)) (.error e)

theorem readFragments_agrees (index : Nat) (awaited : Option (Nat × Char)) (d : Draft)
    (fragments : List String) :
    ∃ outcome, readFragments index awaited d.toReader fragments = .ok outcome ∧
      Agrees outcome (Skeleton.readFragments index awaited d fragments) := by
  -- in front of every fragment the reader is in the state that the draft stands for
  induction fragments generalizing index awaited d with
  | nil => exact ⟨.ok d.toReader, rfl, .read d⟩
  | cons fragment rest ih =>
    rw [readFragments, Skeleton.readFragments]
    cases hrun : Skeleton.behindQuote awaited fragment with
    | error e =>
      refine ⟨.error (d.toReader, e), rfl, .failed _ e ?_⟩
      rintro _ _ _ rfl
      exact (behindQuote_ne_stalled hrun).elim
    | ok run =>
      cases hread : d.readRun (!rest.isEmpty) run with
      | error unread =>
        obtain ⟨d', stopped, inTag, left⟩ := Draft.readRun_error hread
        have offset := stalledError_eq index (left.trans (behindQuote_suffix hrun))
        simp only [stopped, offset, hread, Except.mapError, bind, Except.bind]
        exact ⟨_, rfl, .failed _ _ fun _ _ _ _ => inTag⟩
      | ok d₁ =>
        simp only [Draft.readRun_ok hread, hread, Except.mapError, bind, Except.bind]
        by_cases last : rest.isEmpty = true
        · simp only [if_pos last]
          exact ⟨_, rfl, .read d₁⟩
        · simp only [if_neg last, Draft.takeHole_toReader]
          cases taken : d₁.takeHole index with
          | none => exact ⟨_, rfl, .failed _ _ (by simp)⟩
          | some found => exact ih ..

/-- The reader of slices reads what there is to read. -/
theorem parse_agrees (fragments : List String) : ∃ outcome, parse fragments = .ok outcome ∧
    outcome.mapError Prod.snd = Skeleton.parse fragments ∧
    ∀ r index offset found, outcome = .error (r, .stalled index offset found) → r.InStartTag := by
  obtain ⟨outcome, hread, agrees⟩ := readFragments_agrees 0 none {} fragments
  have start : Draft.toReader {} = {} := rfl
  rw [start] at hread
  rw [parse, hread, ok_bind, Skeleton.parse]
  generalize Skeleton.readFragments 0 none {} fragments = result at agrees
  cases agrees with
  | read d =>
    refine ⟨.ok ⟨d.toReader.finish, fragments.length - 1⟩, rfl, ?_, by simp⟩
    rw [Draft.finish_toReader]
    rfl
  | failed r e stuck =>
    refine ⟨.error (r, e), rfl, rfl, fun r' index offset found h => ?_⟩
    obtain ⟨rfl, rfl⟩ := Prod.mk.inj (Except.error.inj h)
    exact stuck index offset found rfl

/-- The name of an attribute cannot begin with such a character. -/
example : parse ["<p é>"] =
    .ok (.error ({ opened := [{ tag := "p" }], inTag := true }, .stalled 0 3 "é>")) := by
  decide +kernel

/-- Scanning takes no bad slice and measures what is scanned, which is never nothing among
content. A step from a sound state takes none either; it gives back less than it was given, or
nothing is recognised in a start tag. So a whole reading, which is that of the skeleton, takes
none, and where it stalls it is in a start tag. -/
theorem parse_safe :
    (∀ input : String, input ≠ "" → ∃ length,
      Token.Content.measure input.toList = .ok ((Token.Content.scan input.toList).1, length) ∧
      Token.Spans input length (Token.Content.scan input.toList).1.slices
        (Token.Content.scan input.toList).2) ∧
    (∀ input : String, Token.Measures Token.Tag.slices input
      (Token.Tag.measure? input.toList) (Token.Tag.scan? input.toList)) ∧
    (∀ input : String, Token.Measures Token.Value.slices input
      (Token.Value.measure? input.toList) (Token.Value.scan? input.toList)) ∧
    (∀ (r : Reader) hasNext cs, r.Sound → cs ≠ [] → ∃ r' next,
      r.step hasNext cs = .ok (r', next) ∧ r'.Sound ∧ next <:+ cs ∧
      (utf8Length next < utf8Length cs ∨ next = cs ∧ r' = r ∧ r.InStartTag)) ∧
    ∀ fragments, ∃ outcome, parse fragments = .ok outcome ∧
      outcome.mapError Prod.snd = Skeleton.parse fragments ∧
      ∀ r index offset found, outcome = .error (r, .stalled index offset found) → r.InStartTag :=
  ⟨fun _ => Token.Content.measure_spans, Token.Tag.measure?_measures, Token.Value.measure?_measures,
    fun _ hasNext _ sound => sound.step hasNext, parse_agrees⟩

end Reader

end LiveTemplate
