import LiveTemplate.Skeleton.Reading
import LiveTemplate.Token.Length

/-!
# Reading by slices

The reader as it works on encoded text. Its state says with flags where it stands, and the
element of a start tag that is being read is the innermost of the open ones. A step takes a
token with its length and gives back the slice behind it; a step that recognises nothing gives
back all it was given, and by that the reading fails.
-/
namespace LiveTemplate
open Text

structure Reader where
  root : List Node := []
  /-- Innermost first. -/
  opened : List OpenElement := []
  inTag : Bool := false
  inComment : Bool := false
  pending : Option Pending := none
deriving DecidableEq, Repr

namespace Reader

/-- The nodes and the open elements are changed like those of a draft. -/
def edit (f : Draft → Draft) (r : Reader) : Reader :=
  let d := f { nodes := r.root, opened := r.opened }
  { r with root := d.nodes, opened := d.opened }

/-- The innermost open element has the attribute from here on, and none is pending. -/
def bindInnermost (name : String) (value : AttrValue) (r : Reader) : Reader :=
  match r.opened with
  | [] => { r with pending := none }
  | e :: outer => { r with opened := e.bind name value :: outer, pending := none }

/-- The pending attribute has that text as its value. -/
def commitLiteral (text : String) (r : Reader) : Reader :=
  match r.pending with
  | none => r
  | some pending => r.bindInnermost pending.name (.literal text)

/-- An attribute without an equals sign has the empty text as its value. -/
def flushValueless (r : Reader) : Reader :=
  match r.pending with
  | some ⟨name, .named⟩ => r.bindInnermost name (.literal "")
  | _ => { r with pending := none }

def awaitsValue (r : Reader) : Bool := r.pending.any fun pending => pending.stage == .valueDue

/-- The end of a start tag. -/
def endTag (selfClosing : Bool) (r : Reader) : Reader :=
  let r := r.flushValueless
  let void := r.opened.head?.any fun e => isVoidTag e.tag
  let r := { r with inTag := false }
  if selfClosing || void then r.edit Draft.closeInnermost else r

/-! ### One step -/

/-- What a token among content does, with the text trimmed by slices. -/
def takeContent (r : Reader) : Token.Content → Sliced Reader
  | .doctype => pure r
  | .commentStart => pure { r with inComment := true }
  | .closeTag name => pure (r.edit (Draft.closeNamed (String.ofList name)))
  | .openTag name =>
      pure { r with opened := { tag := String.ofList name } :: r.opened, inTag := true }
  | .text run => do
      let data ← trimSliced run
      pure (if data = [] then r else r.edit (Draft.add (.text (String.ofList data))))

/-- A step where a name may stand. -/
def stepName (hasNext : Bool) (r : Reader) (cs input : List Char) :
    Sliced (Reader × List Char) := do
  match ← Token.Tag.measure? input with
  | none => pure (r, cs)
  | some (token, length) => do
      let rest ← dropBytes length input
      match token with
      | .tagEnd selfClosing => pure (r.endTag selfClosing, rest)
      | .equals =>
          match r.pending with
          | some ⟨name, .named⟩ => pure ({ r with pending := some ⟨name, .valueDue⟩ }, rest)
          | _ => pure (r, cs)
      | .ellipsis =>
          if hasNext && dropBlanks rest = [] then
            pure ({ r.flushValueless with pending := some ⟨Binding.spreadName, .valueDue⟩ }, rest)
          else pure (r, cs)
      | .name run =>
          pure ({ r.flushValueless with pending := some ⟨String.ofList run, .named⟩ }, rest)

/-- At the end of the tag a value that is due is the empty text, and the end is read. -/
def stepEmptyValue (hasNext : Bool) (r : Reader) (cs input : List Char) :
    Sliced (Reader × List Char) :=
  if ">".toList.isPrefixOf input || "/>".toList.isPrefixOf input then
    (r.commitLiteral "").stepName hasNext cs input
  else pure (r, cs)

/-- A step where a value is due. -/
def stepValue (hasNext : Bool) (r : Reader) (cs input : List Char) :
    Sliced (Reader × List Char) := do
  match ← Token.Value.measure? input with
  | some (.quoted text, length) => do
      let rest ← dropBytes length input
      pure (r.commitLiteral (String.ofList text), rest)
  | some (.unquoted text, length) => do
      let rest ← dropBytes length input
      pure (r.commitLiteral (String.ofList text), rest)
  | some (.openQuote quote, length) =>
      if hasNext then do
        let rest ← dropBytes length input
        pure ({ r with pending := r.pending.map ({ · with stage := .quoteOpen quote }) }, rest)
      else r.stepEmptyValue hasNext cs input
  | none => r.stepEmptyValue hasNext cs input

/-- One token of a run that is not empty, with the slice behind it. -/
def step (hasNext : Bool) (r : Reader) (cs : List Char) : Sliced (Reader × List Char) :=
  if r.inComment then
    match Token.commentStop? cs with
    | some stop => do
        let rest ← dropBytes (stop + 3) cs
        pure ({ r with inComment := false }, rest)
    | none => pure (r, [])
  else if r.inTag then
    let input := dropBlanks cs
    if input = [] then pure (r, [])
    else if r.awaitsValue then r.stepValue hasNext cs input
    else r.stepName hasNext cs input
  else do
    let (token, length) ← Token.Content.measure cs
    let r ← r.takeContent token
    let rest ← dropBytes length cs
    pure (r, rest)

/-! ### What a step gives back is a slice -/

section

variable {hasNext : Bool} {r r' : Reader} {cs input rest next : List Char}

theorem suffix_of_pure (suffix : rest <:+ cs) (h : (pure (r, rest) : Sliced _) = .ok (r', next)) :
    next <:+ cs :=
  (Prod.mk.inj (Except.ok.inj h)).2 ▸ suffix

theorem stepName_suffix (inside : input <:+ cs) (h : r.stepName hasNext cs input = .ok (r', next)) :
    next <:+ cs := by
  obtain ⟨found, -, h⟩ := exists_of_bind_eq_ok h
  split at h
  next => exact suffix_of_pure List.suffix_rfl h
  next token length =>
    obtain ⟨rest, hrest, h⟩ := exists_of_bind_eq_ok h
    have behind : rest <:+ cs := (suffix_of_dropBytes hrest).trans inside
    cases token with
    | tagEnd selfClosing => exact suffix_of_pure behind h
    | equals =>
      simp only at h
      split at h
      next => exact suffix_of_pure behind h
      next => exact suffix_of_pure List.suffix_rfl h
    | ellipsis =>
      simp only at h
      split at h
      next => exact suffix_of_pure behind h
      next => exact suffix_of_pure List.suffix_rfl h
    | name run => exact suffix_of_pure behind h

theorem stepEmptyValue_suffix (inside : input <:+ cs)
    (h : r.stepEmptyValue hasNext cs input = .ok (r', next)) : next <:+ cs := by
  unfold stepEmptyValue at h
  split at h
  next => exact stepName_suffix inside h
  next => exact suffix_of_pure List.suffix_rfl h

theorem stepValue_suffix (inside : input <:+ cs)
    (h : r.stepValue hasNext cs input = .ok (r', next)) : next <:+ cs := by
  have behind : ∀ {length rest}, dropBytes length input = .ok rest → rest <:+ cs :=
    fun hrest => (suffix_of_dropBytes hrest).trans inside
  obtain ⟨found, -, h⟩ := exists_of_bind_eq_ok h
  split at h
  next =>
    obtain ⟨rest, hrest, h⟩ := exists_of_bind_eq_ok h
    exact suffix_of_pure (behind hrest) h
  next =>
    obtain ⟨rest, hrest, h⟩ := exists_of_bind_eq_ok h
    exact suffix_of_pure (behind hrest) h
  next =>
    split at h
    next =>
      obtain ⟨rest, hrest, h⟩ := exists_of_bind_eq_ok h
      exact suffix_of_pure (behind hrest) h
    next => exact stepEmptyValue_suffix inside h
  next => exact stepEmptyValue_suffix inside h

/-- Whatever the state, a step leaves an end of what it was given. -/
theorem step_suffix (h : r.step hasNext cs = .ok (r', next)) : next <:+ cs := by
  unfold step at h
  split at h
  next =>
    split at h
    next =>
      obtain ⟨rest, hrest, h⟩ := exists_of_bind_eq_ok h
      exact suffix_of_pure (suffix_of_dropBytes hrest) h
    next => exact suffix_of_pure List.nil_suffix h
  next =>
    split at h
    next =>
      have inside : dropBlanks cs <:+ cs := List.dropWhile_suffix _
      simp only at h
      split at h
      next => exact suffix_of_pure List.nil_suffix h
      next =>
        split at h
        next => exact stepValue_suffix inside h
        next => exact stepName_suffix inside h
    next =>
      obtain ⟨found, -, h⟩ := exists_of_bind_eq_ok h
      obtain ⟨r₁, -, h⟩ := exists_of_bind_eq_ok h
      obtain ⟨rest, hrest, h⟩ := exists_of_bind_eq_ok h
      exact suffix_of_pure (suffix_of_dropBytes hrest) h

end

/-! ### The whole reading -/

/-- Reads a run to its end. Where a step leaves as much as there was, the state and what is
unread are the error. -/
def readRun (hasNext : Bool) (r : Reader) (cs : List Char) :
    Sliced (Except (Reader × List Char) Reader) :=
  if cs = [] then .ok (.ok r)
  else
    match _hstep : r.step hasNext cs with
    | .error e => .error e
    | .ok (r', next) =>
        if _hnext : utf8Length next = utf8Length cs then .ok (.error (r, cs))
        else readRun hasNext r' next
termination_by utf8Length cs
decreasing_by exact Nat.lt_of_le_of_ne (utf8Length_suffix (step_suffix _hstep)) _hnext

/-- The hole of that index comes next. A quote opened before it is returned. -/
def takeHole (index : Nat) (r : Reader) : Option (Reader × Option Char) :=
  if r.inComment then some (r, none)
  else if r.inTag then
    match r.pending with
    | some ⟨name, .valueDue⟩ => some (r.bindInnermost name (.hole index), none)
    | some ⟨name, .quoteOpen quote⟩ => some (r.bindInnermost name (.hole index), some quote)
    | _ => none
  else some (r.edit (Draft.add (.hole index)), none)

/-- The error where reading stalls, with its offset as a difference of lengths. -/
def stalledError (index : Nat) (fragment : String) (unread : List Char) : Sliced ParseError := do
  let shown := dropBlanks unread
  let offset ← excess fragment.toList shown
  pure (.stalled index offset (String.ofList (shown.take Skeleton.foundLimit)))

/-- An error, with the state in which it was found. -/
abbrev Failure := Reader × ParseError

/-- Reads the fragments from the given index on. -/
def readFragments (index : Nat) (awaited : Option (Nat × Char)) (r : Reader) :
    List String → Sliced (Except Failure Reader)
  | [] => .ok (.ok r)
  | fragment :: rest =>
      match Skeleton.behindQuote awaited fragment with
      | .error e => .ok (.error (r, e))
      | .ok run => do
          match ← r.readRun (!rest.isEmpty) run with
          | .error (r, unread) => do
              let e ← stalledError index fragment unread
              pure (.error (r, e))
          | .ok r =>
              if rest.isEmpty then pure (.ok r)
              else
                match r.takeHole index with
                | none => pure (.error (r, .unboundHole index fragment.utf8ByteSize))
                | some (r, quote) => readFragments (index + 1) (quote.map (index, ·)) r rest

/-- The end of the input finishes everything. -/
def finish (r : Reader) : List Node :=
  let r := if r.inTag then r.flushValueless else r
  (r.edit fun d => d.close d.opened.length).root

def parse (fragments : List String) : Sliced (Except Failure Skeleton) := do
  match ← readFragments 0 none {} fragments with
  | .error failure => pure (.error failure)
  | .ok r => pure (.ok ⟨r.finish, fragments.length - 1⟩)

end Reader

end LiveTemplate
