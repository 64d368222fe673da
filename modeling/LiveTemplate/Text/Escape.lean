import LiveTemplate.Entries

/-!
# Character references

Text put between tags or into an attribute must not be read as markup, so a few
characters are written as references. There are two ways to do it. `escape` looks
each character up once in a table; `replaceEach` substitutes one character of the
table after the other in the whole text.
-/
namespace LiveTemplate.Text

/-- Characters with the reference that stands for them. -/
abbrev EscapeTable := List (Char × String)

/-- Between tags, the characters that start a reference or a tag, or end one. -/
def textEscapes : EscapeTable := [('&', "&amp;"), ('<', "&lt;"), ('>', "&gt;")]

/-- Between double quotes, the characters that start a reference or end the value. -/
def attributeEscapes : EscapeTable := [('&', "&amp;"), ('"', "&quot;")]

/-- One pass over the text. -/
def escape (table : EscapeTable) (s : String) : String :=
  String.ofList (s.toList.flatMap fun c => ((Entries.get? c table).map String.toList).getD [c])

/-- Every occurrence of one character replaced. -/
def replaceChar (target : Char) (reference : String) (cs : List Char) : List Char :=
  cs.flatMap fun c => if c = target then reference.toList else [c]

/-- One pass over the text for each row of the table, in order. -/
def replaceEach (table : EscapeTable) (s : String) : String :=
  String.ofList (table.foldl (fun cs (c, reference) => replaceChar c reference cs) s.toList)

end LiveTemplate.Text
