import LiveTemplate.Skeleton.ParseError
import LiveTemplate.Text.Width

/-!
# Excerpts of a source

The drawing of reports that the command is run with. Reports are built for any `Drawing`, and
what is proved of them is proved for every one that meets the assumptions named there; here is
one that does. An offset counts characters. A line ends after a line feed, vertical tab, form
feed, carriage return, next line, line separator or paragraph separator; a carriage return and
the line feed behind it are one ending, and an ending that closes the text opens no further
line. Where the source is too short for a label, no excerpt is shown.
-/
namespace LiveTemplate.Cli
open Text

def isLineEnd (c : Char) : Bool :=
  c ∈ ['\n', '\x0b', '\x0c', '\r', '\u0085', '\u2028', '\u2029']

/-- The lines of a text that has characters, each with its ending. -/
def splitLines : List Char → List (List Char)
  | [] => []
  | '\r' :: '\n' :: rest => ['\r', '\n'] :: splitLines rest
  | c :: rest =>
      if isLineEnd c then [c] :: splitLines rest
      else
        match splitLines rest with
        | [] => [[c]]
        | line :: lines => (c :: line) :: lines

/-- The lines of a text, at least one. -/
def linesOf (cs : List Char) : List (List Char) := if cs.isEmpty then [[]] else splitLines cs

/-- The place of an offset counted from the start of the given lines, the first of which has a
number. The last line takes every offset that is left. -/
def placeIn (number : Nat) : List (List Char) → Nat → Position
  | line :: next :: lines, offset =>
      if offset < line.length then ⟨number, offset + 1⟩
      else placeIn (number + 1) (next :: lines) (offset - line.length)
  | _, offset => ⟨number, offset + 1⟩

def positionOf (cs : List Char) (offset : Nat) : Position := placeIn 1 (linesOf cs) offset

/-- The source is shown if it has the character to be located and one for the last place of
the label. -/
def position? (cs : List Char) (offset : Nat) (label : Span) : Option Position :=
  if cs.length < offset || cs.length < label.stop - 1 then none
  else some (positionOf cs offset)

/-- Whether there is room for what belongs to a label. It needs characters up to the end of its
span. Under a span within one line it hangs from the character in the middle, which must take a
column if there is one; a span over more lines has a line in the margin from which it hangs. -/
def hasRoom (cs : List Char) (label : Span) : Bool :=
  let last := max label.start (label.stop - 1)
  label.stop ≤ cs.length &&
    ((positionOf cs label.start).line != (positionOf cs last).line ||
      !(cs[(label.start + label.stop) / 2]?).any isZeroWidth)

instance terminal : Drawing where
  locate source offset label := position? source.toList offset label
  showsLabel source _ label := hasRoom source.toList label

end LiveTemplate.Cli
