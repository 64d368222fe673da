import LiveTemplate.Text.Measure
import LiveTemplate.Text.Quoted

/-!
# Parse errors

A parse error names a fragment and a span in it. Fragments are shown joined by a mark
for each hole, and there the span moves by the length of what stands before. A report is
drawn by a library, which is handed the joined fragments and the span, and locates the error
by line and column.
-/
namespace LiveTemplate
open Text

inductive ParseError where
  /-- No token was recognised at `offset`; `found` is what stands there. -/
  | stalled (fragment offset : Nat) (found : String)
  /-- A hole at the end of its fragment, `offset` bytes in, has no attribute name. -/
  | unboundHole (hole offset : Nat)
  /-- The fragment behind a hole does not start with the quote in front of the hole;
  its first character has `width` bytes. -/
  | unclosedQuote (hole : Nat) (quote : Char) (width : Nat)
deriving DecidableEq, Repr

/-- The mark that stands for a hole. -/
def holeMark : String := "$\x7b\x7d"

/-- The fragments as one text. -/
def joinFragments (fragments : List String) : String := holeMark.intercalate fragments

/-- The offset at which a fragment starts in the joined text. -/
def offsetOf : List String → Nat → Nat
  | _, 0 => 0
  | [], _ => 0
  | f :: rest, index + 1 => f.utf8ByteSize + holeMark.utf8ByteSize + offsetOf rest index

namespace ParseError

def fragment : ParseError → Nat
  | .stalled fragment _ _ => fragment
  | .unboundHole hole _ => hole
  | .unclosedQuote hole _ _ => hole + 1

/-- The span in the fragment. -/
def span : ParseError → Span
  | .stalled _ offset found => ⟨offset, offset + found.utf8ByteSize⟩
  | .unboundHole _ offset => ⟨offset, offset⟩
  | .unclosedQuote _ _ width => ⟨0, width⟩

/-- The span in the joined fragments. -/
def sourceSpan (fragments : List String) (e : ParseError) : Span :=
  e.span.shift (offsetOf fragments e.fragment)

def message : ParseError → String
  | e@(.stalled fragment _ found) =>
      "parse error in fragment " ++ toString fragment ++ " at " ++ e.span.text ++
        ": cannot make progress on " ++ quoted found
  | .unboundHole hole _ =>
      "placeholder " ++ toString hole ++ " inside a tag is not bound to an attribute"
  | .unclosedQuote hole quote _ =>
      "placeholder " ++ toString hole ++ " must be followed by the closing quote " ++
        quote.toString

/-- What is written next to the marked place. -/
def hint : ParseError → String
  | .stalled .. => "no grammar rule matches here"
  | .unboundHole .. => "expected `name=` before the placeholder"
  | .unclosedQuote .. => "the quote opened before the placeholder"

end ParseError

/-- A place in a text, line and column counted from one. -/
structure Position where
  line : Nat
  column : Nat
deriving DecidableEq, Repr

/-- A place in a file, as it is written. -/
def Position.text (file : String) (p : Position) : String :=
  file ++ ":" ++ toString p.line ++ ":" ++ toString p.column

/-- The library that draws reports. It is given a source, an offset to be located and the span
of a label, and decides what these numbers count and where a line starts. -/
class Drawing where
  /-- The place that is shown for the offset, if the source is shown. -/
  locate (source : String) (offset : Nat) (label : Span) : Option Position
  /-- Whether what belongs to the label is written in the source that is shown. -/
  showsLabel (source : String) (offset : Nat) (label : Span) : Bool

/-- An error as it is reported to someone who wrote the file. -/
structure Report where
  message : String
  /-- File, line and column, where the source can be shown. -/
  location : Option String
  /-- What is written in the source that is shown. -/
  hint : Option String
deriving DecidableEq, Repr

/-- The span of the error is handed over as it is, its start also as the offset. -/
def ParseError.report [Drawing] (fragments : List String) (fileName : String) (e : ParseError) :
    Report :=
  let source := joinFragments fragments
  let span := e.sourceSpan fragments
  { message := "Error: " ++ e.message
    location := (Drawing.locate source span.start span).map (Position.text fileName)
    hint := if Drawing.showsLabel source span.start span then some e.hint else none }

end LiveTemplate
