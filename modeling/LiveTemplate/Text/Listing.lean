/-!
# Listings of structured data

A listing shows a value by its shape: atoms, tuples and records under a name, lists
and maps. It has two layouts. On one line the parts are separated by a comma and a
space. Indented, every part stands on lines of its own, four columns further in, and
ends in a comma; a list or map without parts stays closed up.
-/
namespace LiveTemplate.Text

inductive Listing where
  | atom (text : String)
  | tuple (name : String) (parts : List Listing)
  | record (name : String) (fields : List (String × Listing))
  | list (parts : List Listing)
  | map (entries : List (String × Listing))
deriving Repr

namespace Listing

/-- Parts in one bracket on one line. -/
def bracket (opening closing : String) (parts : List String) : String :=
  opening ++ ", ".intercalate parts ++ closing

mutual
/-- The layout on one line. -/
def line : Listing → String
  | .atom text => text
  | .tuple name parts => bracket (name ++ "(") ")" (lines parts)
  | .record name fields => bracket (name ++ " \x7b ") " \x7d" (entryLines fields)
  | .list parts => bracket "[" "]" (lines parts)
  | .map entries => bracket "\x7b" "\x7d" (entryLines entries)
termination_by structural l => l

def lines : List Listing → List String
  | [] => []
  | part :: rest => part.line :: lines rest
termination_by structural l => l

def entryLines : List (String × Listing) → List String
  | [] => []
  | (name, part) :: rest => (name ++ ": " ++ part.line) :: entryLines rest
termination_by structural l => l
end

/-- The text put before the first line. -/
def before (lead : String) : List String → List String
  | [] => [lead]
  | first :: rest => (lead ++ first) :: rest

/-- The text put after the last line. -/
def after (tail : String) : List String → List String
  | [] => [tail]
  | [last] => [last ++ tail]
  | first :: rest => first :: after tail rest

/-- Parts in one bracket, each on lines of its own. -/
def block (opening closing : String) (parts : List (List String)) : List String :=
  if parts.isEmpty then [opening ++ closing]
  else [opening] ++ parts.flatMap (fun part => (after "," part).map ("    " ++ ·)) ++ [closing]

mutual
/-- The lines of the indented layout. -/
def indentedLines : Listing → List String
  | .atom text => [text]
  | .tuple name parts => block (name ++ "(") ")" (partLines parts)
  | .record name fields => block (name ++ " \x7b") "\x7d" (fieldLines fields)
  | .list parts => block "[" "]" (partLines parts)
  | .map entries => block "\x7b" "\x7d" (fieldLines entries)
termination_by structural l => l

def partLines : List Listing → List (List String)
  | [] => []
  | part :: rest => part.indentedLines :: partLines rest
termination_by structural l => l

def fieldLines : List (String × Listing) → List (List String)
  | [] => []
  | (name, part) :: rest => before (name ++ ": ") part.indentedLines :: fieldLines rest
termination_by structural l => l
end

/-- The indented layout. -/
def indented (l : Listing) : String := "\n".intercalate l.indentedLines

end Listing

end LiveTemplate.Text
