import LiveTemplate.Text.Slice
import LiveTemplate.Token

/-!
# Tokens by their length

The scanners as they work on encoded text. A token comes with the number of bytes that it
spans, put together from the offsets of its parts, and the texts in it are slices.
-/
namespace LiveTemplate.Token
open Text

namespace Content

/-- A document type. The keyword is probed by seven bytes; if these end inside a character,
it is not there. -/
def measureDoctype (cs : List Char) : Sliced (Option (Content × Nat)) :=
  match cs with
  | '<' :: '!' :: keyword =>
      match takeBytes 7 keyword with
      | .error _ => .ok none
      | .ok probe =>
          if probe.map Char.toLower = "doctype".toList then do
            match ← dropBytes 7 keyword with
            | ' ' :: body =>
                match firstOffset? (· = '>') body with
                | none => pure none
                | some stop =>
                    if stop = 0 then pure none
                    else
                      let start ← excess cs body
                      pure (some (.doctype, start + stop + 1))
            | _ => pure none
          else .ok none
  | _ => .ok none

def measureCommentStart (cs : List Char) : Sliced (Option (Content × Nat)) :=
  match cs with
  | '<' :: '!' :: '-' :: '-' :: _ => .ok (some (.commentStart, 4))
  | _ => .ok none

def measureCloseTag (cs : List Char) : Sliced (Option (Content × Nat)) :=
  match cs with
  | '<' :: rest =>
      match dropBlanks rest with
      | '/' :: rest => do
          let body := dropBlanks rest
          let length := runLength isTagNameChar body
          if length = 0 then pure none
          else
            let name ← takeBytes length body
            let behind ← dropBytes length body
            match dropBlanks behind with
            | '>' :: after => do
                let stop ← excess cs after
                pure (some (.closeTag name, stop))
            | _ => pure none
      | _ => .ok none
  | _ => .ok none

def measureOpenTag (cs : List Char) : Sliced (Option (Content × Nat)) :=
  match cs with
  | '<' :: rest => do
      let body := dropBlanks rest
      let length := runLength isTagNameChar body
      if length = 0 then pure none
      else
        let start ← excess cs body
        let name ← takeBytes length body
        pure (some (.openTag name, start + length))
  | _ => .ok none

/-- The second result if the first is that there is none. -/
def orElseFound {α : Type} (first second : Sliced (Option α)) : Sliced (Option α) := do
  match ← first with
  | some a => pure (some a)
  | none => second

/-- Whatever begins with the opening bracket in front. -/
def measureMarkup (cs : List Char) : Sliced (Option (Content × Nat)) :=
  orElseFound (measureDoctype cs)
    (orElseFound (measureCommentStart cs) (orElseFound (measureCloseTag cs) (measureOpenTag cs)))

/-- The token of `scan`, with its length. -/
def measure (cs : List Char) : Sliced (Content × Nat) := do
  let blanks ← excess cs (dropBlanks cs)
  match ← dropBytes blanks cs with
  | rest@('<' :: _) =>
      match ← measureMarkup rest with
      | some (token, length) => pure (token, blanks + length)
      | none => do
          let behind ← dropBytes 1 rest
          let length := blanks + (1 + runLength (· ≠ '<') behind)
          let run ← takeBytes length cs
          pure (.text run, length)
  | _ => do
      let length := runLength (· ≠ '<') cs
      let run ← takeBytes length cs
      pure (.text run, length)

/-- The texts of a token. -/
def slices : Content → List (List Char)
  | .closeTag name => [name]
  | .openTag name => [name]
  | .text run => [run]
  | _ => []

end Content

namespace Tag

def measureName? (cs : List Char) : Sliced (Option (Tag × Nat)) := do
  let sigil := if cs.head?.any isSigil then 1 else 0
  let body ← dropBytes sigil cs
  let length := runLength isAttrNameChar body
  if length = 0 then pure none
  else
    let run ← takeBytes (sigil + length) cs
    pure (some (.name run, sigil + length))

/-- The token of `scan?`, with its length. -/
def measure? (cs : List Char) : Sliced (Option (Tag × Nat)) :=
  match cs with
  | '/' :: '>' :: _ => .ok (some (.tagEnd true, 2))
  | '>' :: _ => .ok (some (.tagEnd false, 1))
  | '=' :: _ => .ok (some (.equals, 1))
  | '.' :: '.' :: '.' :: _ => .ok (some (.ellipsis, 3))
  | _ => measureName? cs

def slices : Tag → List (List Char)
  | .name run => [run]
  | _ => []

end Tag

namespace Value

/-- The text between a quote and the next one like it. -/
def measureQuoted? (quote : Char) (cs : List Char) : Sliced (Option (Value × Nat)) := do
  let behind ← dropBytes 1 cs
  match firstOffset? (· = quote) behind with
  | some stop => do
      let text ← sliceBytes 1 (1 + stop) cs
      pure (some (.quoted text, stop + 2))
  | none => pure (if utf8Length cs = 1 then some (.openQuote quote, 1) else none)

/-- The token of `scan?`, with its length. -/
def measure? (cs : List Char) : Sliced (Option (Value × Nat)) :=
  match cs with
  | [] => .ok none
  | c :: _ =>
      if isQuote c then measureQuoted? c cs
      else
        let length := runLength isUnquotedChar cs
        if length = 0 then .ok none
        else do
          let text ← takeBytes length cs
          pure (some (.unquoted text, length))

def slices : Value → List (List Char)
  | .quoted text => [text]
  | .unquoted text => [text]
  | .openQuote _ => []

end Value

/-- The offset of the first closing sequence of a comment. -/
def commentStop? : List Char → Option Nat
  | '-' :: '-' :: '>' :: _ => some 0
  | c :: rest => (commentStop? rest).map (c.utf8Size + ·)
  | [] => none

end LiveTemplate.Token
