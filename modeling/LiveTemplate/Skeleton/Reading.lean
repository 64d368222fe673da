import LiveTemplate.Skeleton.Draft
import LiveTemplate.Skeleton.ParseError
import LiveTemplate.Token

/-!
# Reading skeletons

Fragments are read from left to right into a draft, with a hole between any two. A
step takes one token; it fails where no token of the present mode is recognised, and
then the whole reading fails. A hole among content becomes a node, a hole behind an
equals sign a value, and a hole in a comment nothing.
-/
namespace LiveTemplate
open Text

namespace Draft

/-- Inside a start tag, with its attributes so far and one that has no value yet. -/
def inTag (d : Draft) (element : OpenElement) (pending : Option Pending) : Draft :=
  { d with mode := .tag element pending }

/-- What a token among content does. Text is trimmed, and dropped if nothing is left. -/
def takeContent (d : Draft) : Token.Content → Draft
  | .doctype => d
  | .commentStart => { d with mode := .comment }
  | .closeTag name => d.closeNamed (String.ofList name)
  | .openTag name => d.inTag { tag := String.ofList name } none
  | .text run =>
      let data := trimLineBreaks run
      if data = [] then d else d.add (.text (String.ofList data))

/-- A step where a value is due. At the end of the tag it is the empty text. -/
def stepValue (hasNext : Bool) (element : OpenElement) (name : String) (d : Draft)
    (input : List Char) : Option (Draft × List Char) :=
  let bound text := d.inTag (element.bind name (.literal (String.ofList text))) none
  match Token.Value.scan? input with
  | some (.quoted text, rest) => some (bound text, rest)
  | some (.unquoted text, rest) => some (bound text, rest)
  | some (.openQuote quote, rest) =>
      if hasNext then some (d.inTag element (some ⟨name, .quoteOpen quote⟩), rest) else none
  | none =>
      match Token.Tag.scan? input with
      | some (.tagEnd selfClosing, rest) =>
          some (d.endTag (element.bind name (.literal "")) selfClosing, rest)
      | _ => none

/-- A step where a name may stand. The dots of a spread must be followed by a hole,
with nothing but blanks before it. -/
def stepName (hasNext : Bool) (element : OpenElement) (pending : Option Pending) (d : Draft)
    (input : List Char) : Option (Draft × List Char) :=
  match Token.Tag.scan? input with
  | some (.tagEnd selfClosing, rest) => some (d.endTag (settle element pending) selfClosing, rest)
  | some (.equals, rest) =>
      match pending with
      | some ⟨name, .named⟩ => some (d.inTag element (some ⟨name, .valueDue⟩), rest)
      | _ => none
  | some (.ellipsis, rest) =>
      if hasNext && dropBlanks rest = [] then
        some (d.inTag (settle element pending) (some ⟨Binding.spreadName, .valueDue⟩), rest)
      else none
  | some (.name run, rest) =>
      some (d.inTag (settle element pending) (some ⟨String.ofList run, .named⟩), rest)
  | none => none

def stepTag (hasNext : Bool) (element : OpenElement) (pending : Option Pending) (d : Draft)
    (cs : List Char) : Option (Draft × List Char) :=
  let input := dropBlanks cs
  if input = [] then some (d, [])
  else
    match pending with
    | some ⟨name, .valueDue⟩ => stepValue hasNext element name d input
    | _ => stepName hasNext element pending d input

/-- One token of a run that is not empty. A comment that does not end swallows the
rest. `hasNext` says whether another fragment follows. -/
def step (hasNext : Bool) (d : Draft) (cs : List Char) : Option (Draft × List Char) :=
  match d.mode with
  | .comment =>
      match Token.afterComment? cs with
      | some rest => some ({ d with mode := .content }, rest)
      | none => some (d, [])
  | .tag element pending => stepTag hasNext element pending d cs
  | .content =>
      let (token, rest) := Token.Content.scan cs
      some (d.takeContent token, rest)

theorem stepValue_length_lt {hasNext : Bool} {element : OpenElement} {name : String}
    {d d' : Draft} {input rest : List Char}
    (h : stepValue hasNext element name d input = some (d', rest)) :
    rest.length < input.length := by
  unfold stepValue at h
  split at h
  next hs => have := Token.Value.scan?_length_lt hs; simp_all
  next hs => have := Token.Value.scan?_length_lt hs; simp_all
  next hs => have := Token.Value.scan?_length_lt hs; split at h <;> simp_all
  next =>
    split at h <;> try contradiction
    next hs => have := Token.Tag.scan?_length_lt hs; simp_all

theorem stepName_length_lt {hasNext : Bool} {element : OpenElement} {pending : Option Pending}
    {d d' : Draft} {input rest : List Char}
    (h : stepName hasNext element pending d input = some (d', rest)) :
    rest.length < input.length := by
  unfold stepName at h
  split at h <;> try contradiction
  next hs => have := Token.Tag.scan?_length_lt hs; simp_all
  next hs => have := Token.Tag.scan?_length_lt hs; split at h <;> simp_all
  next hs => have := Token.Tag.scan?_length_lt hs; split at h <;> simp_all
  next hs => have := Token.Tag.scan?_length_lt hs; simp_all

theorem stepTag_length_lt {hasNext : Bool} {element : OpenElement} {pending : Option Pending}
    {d d' : Draft} {cs rest : List Char} (hcs : cs ≠ [])
    (h : stepTag hasNext element pending d cs = some (d', rest)) :
    rest.length < cs.length := by
  have hpos := List.length_pos_iff.2 hcs
  have hle := length_dropBlanks_le cs
  simp only [stepTag] at h
  by_cases hinput : dropBlanks cs = []
  · simp_all
  · rw [if_neg hinput] at h
    split at h
    · exact Nat.lt_of_lt_of_le (stepValue_length_lt h) hle
    · exact Nat.lt_of_lt_of_le (stepName_length_lt h) hle

/-- A step that succeeds leaves less to read. -/
theorem step_length_lt {hasNext : Bool} {d d' : Draft} {cs rest : List Char}
    (hcs : cs ≠ []) (h : step hasNext d cs = some (d', rest)) :
    rest.length < cs.length := by
  have hpos := List.length_pos_iff.2 hcs
  unfold step at h
  split at h
  next =>
    split at h
    next hs => have := Token.afterComment?_length_lt hs; simp_all
    next => simp_all
  next => exact stepTag_length_lt hcs h
  next =>
    have := Token.Content.scan_length_lt hcs
    simp_all

/-- Reads a run to its end. Where a step fails, the unread part is the error. -/
def readRun (hasNext : Bool) (d : Draft) (cs : List Char) : Except (List Char) Draft :=
  if _hcs : cs = [] then .ok d
  else
    match _hstep : step hasNext d cs with
    | none => .error cs
    | some (d', rest) => readRun hasNext d' rest
termination_by cs.length
decreasing_by exact step_length_lt _hcs _hstep

/-- The hole of that index comes next. A quote opened before it has to be closed behind
it, and is returned. A hole in a start tag without a value due has no place. -/
def takeHole (index : Nat) (d : Draft) : Option (Draft × Option Char) :=
  match d.mode with
  | .comment => some (d, none)
  | .content => some (d.add (.hole index), none)
  | .tag element (some ⟨name, .valueDue⟩) =>
      some (d.inTag (element.bind name (.hole index)) none, none)
  | .tag element (some ⟨name, .quoteOpen quote⟩) =>
      some (d.inTag (element.bind name (.hole index)) none, some quote)
  | .tag _ _ => none

end Draft

namespace Skeleton

/-- At most so many characters are quoted where reading stalls. -/
def foundLimit : Nat := 16

/-- Blanks in front of what was not recognised are not part of it. -/
def stalledError (index : Nat) (fragment : String) (unread : List Char) : ParseError :=
  let shown := dropBlanks unread
  .stalled index (fragment.utf8ByteSize - utf8Length shown)
    (String.ofList (shown.take foundLimit))

/-- The fragment without the quote that must come first, if one was opened before the
hole in front of it. -/
def behindQuote (awaited : Option (Nat × Char)) (fragment : String) :
    Except ParseError (List Char) :=
  match awaited with
  | none => .ok fragment.toList
  | some (hole, quote) =>
      match fragment.toList with
      | [] => .error (.unclosedQuote hole quote 0)
      | c :: rest => if c = quote then .ok rest else .error (.unclosedQuote hole quote c.utf8Size)

/-- Reads the fragments from the given index on. -/
def readFragments (index : Nat) (awaited : Option (Nat × Char)) (d : Draft) :
    List String → Except ParseError Draft
  | [] => .ok d
  | fragment :: rest => do
      let run ← behindQuote awaited fragment
      let d ← (d.readRun (!rest.isEmpty) run).mapError (stalledError index fragment)
      if rest.isEmpty then .ok d
      else
        match d.takeHole index with
        | none => .error (.unboundHole index fragment.utf8ByteSize)
        | some (d, quote) => readFragments (index + 1) (quote.map (index, ·)) d rest

/-- The skeleton written by fragments with a hole between any two. -/
def parse (fragments : List String) : Except ParseError Skeleton := do
  let d ← readFragments 0 none {} fragments
  pure ⟨d.finish, fragments.length - 1⟩

end Skeleton

end LiveTemplate
