import LiveTemplate.Text.Blank

/-!
# Tokens

What can be recognised at the start of a run of markup depends on where the run
stands: among content, inside a start tag, or behind an equals sign. Each place has
its own kind of token, and its own order in which the kinds are tried. A scan returns
the token with the rest of the run behind it; the rest is always shorter.
-/
namespace LiveTemplate.Token
open Text

/-- Letters, digits and hyphen, all ASCII. -/
def isTagNameChar (c : Char) : Bool := c.isAlphanum || c == '-'

/-- The characters of tag names, underscore and colon. -/
def isAttrNameChar (c : Char) : Bool := c.isAlphanum || c == '-' || c == '_' || c == ':'

/-- A sign in front of an attribute name that says how it binds. -/
def isSigil (c : Char) : Bool := c == '?' || c == '.' || c == '@'

def isQuote (c : Char) : Bool := c == '"' || c == '\x27'

/-- The rest behind the first closing sequence of a comment, if there is one. -/
def afterComment? : List Char → Option (List Char)
  | '-' :: '-' :: '>' :: rest => some rest
  | _ :: rest => afterComment? rest
  | [] => none

/-- What can stand between tags. -/
inductive Content where
  | doctype
  | commentStart
  | closeTag (name : List Char)
  | openTag (name : List Char)
  | text (run : List Char)
deriving DecidableEq, Repr

namespace Content

/-- A document type is known by its keyword in any case, a space, and something in
front of the closing bracket. The input starts behind the opening bracket. -/
def doctype? : List Char → Option (Content × List Char)
  | '!' :: rest =>
      if (rest.take 7).map Char.toLower = "doctype".toList then
        match rest.drop 7 with
        | ' ' :: body =>
            match body.dropWhile (· ≠ '>') with
            | '>' :: after => if body.head? = some '>' then none else some (.doctype, after)
            | _ => none
        | _ => none
      else none
  | _ => none

def commentStart? : List Char → Option (Content × List Char)
  | '!' :: '-' :: '-' :: rest => some (.commentStart, rest)
  | _ => none

/-- Blanks may stand around the slash and in front of the closing bracket. -/
def closeTag? (cs : List Char) : Option (Content × List Char) :=
  match dropBlanks cs with
  | '/' :: rest =>
      let body := dropBlanks rest
      let name := body.takeWhile isTagNameChar
      match dropBlanks (body.dropWhile isTagNameChar) with
      | '>' :: after => if name = [] then none else some (.closeTag name, after)
      | _ => none
  | _ => none

def openTag? (cs : List Char) : Option (Content × List Char) :=
  let body := dropBlanks cs
  let name := body.takeWhile isTagNameChar
  if name = [] then none else some (.openTag name, body.dropWhile isTagNameChar)

/-- Whatever an opening bracket can begin, given what stands behind it. -/
def markup? (cs : List Char) : Option (Content × List Char) :=
  doctype? cs <|> commentStart? cs <|> closeTag? cs <|> openTag? cs

/-- Blanks in front of an opening bracket go with what the bracket begins. If that is
nothing known, the bracket is text, as is everything up to the next one. -/
def scan (cs : List Char) : Content × List Char :=
  match dropBlanks cs with
  | '<' :: rest =>
      (markup? rest).getD
        (.text (cs.takeWhile isBlank ++ '<' :: rest.takeWhile (· ≠ '<')),
          rest.dropWhile (· ≠ '<'))
  | _ => (.text (cs.takeWhile (· ≠ '<')), cs.dropWhile (· ≠ '<'))

end Content

/-- What can stand inside a start tag where no value is due. -/
inductive Tag where
  | tagEnd (selfClosing : Bool)
  | equals
  | ellipsis
  | name (run : List Char)
deriving DecidableEq, Repr

/-- A name is a sigil or nothing, and then at least one character of names. -/
def Tag.name? (cs : List Char) : Option (Tag × List Char) :=
  let sigil := (cs.take 1).filter isSigil
  let body := cs.drop sigil.length
  let bare := body.takeWhile isAttrNameChar
  if bare = [] then none else some (.name (sigil ++ bare), body.dropWhile isAttrNameChar)

/-- The token of a run that does not start with a blank. -/
def Tag.scan? (cs : List Char) : Option (Tag × List Char) :=
  match cs with
  | '/' :: '>' :: rest => some (.tagEnd true, rest)
  | '>' :: rest => some (.tagEnd false, rest)
  | '=' :: rest => some (.equals, rest)
  | '.' :: '.' :: '.' :: rest => some (.ellipsis, rest)
  | _ => Tag.name? cs

/-- What can stand behind an equals sign. -/
inductive Value where
  | quoted (text : List Char)
  | unquoted (text : List Char)
  /-- A quote at the very end of the run, which a hole follows. -/
  | openQuote (quote : Char)
deriving DecidableEq, Repr

/-- The text up to the quote that closes it. -/
def Value.quoted? (quote : Char) (cs : List Char) : Option (Value × List Char) :=
  match cs.dropWhile (· ≠ quote) with
  | _ :: rest => some (.quoted (cs.takeWhile (· ≠ quote)), rest)
  | [] => if cs = [] then some (.openQuote quote, []) else none

def isUnquotedChar (c : Char) : Bool := !isBlank c && c != '>'

/-- The token of a run that does not start with a blank. -/
def Value.scan? (cs : List Char) : Option (Value × List Char) :=
  match cs with
  | [] => none
  | c :: rest =>
      if isQuote c then Value.quoted? c rest
      else if isUnquotedChar c then
        some (.unquoted (cs.takeWhile isUnquotedChar), cs.dropWhile isUnquotedChar)
      else none

/-! ### Every scan shortens the run -/

theorem length_dropWhile_le {α : Type} (p : α → Bool) (l : List α) :
    (l.dropWhile p).length ≤ l.length := (List.dropWhile_sublist p).length_le

theorem length_dropWhile_lt {α : Type} {p : α → Bool} {l : List α}
    (h : l.takeWhile p ≠ []) : (l.dropWhile p).length < l.length := by
  have hpos := List.length_pos_iff.2 h
  have hsum := congrArg List.length (List.takeWhile_append_dropWhile (p := p) (l := l))
  simp only [List.length_append] at hsum
  omega

theorem afterComment?_length_lt {cs rest : List Char} (h : afterComment? cs = some rest) :
    rest.length < cs.length := by
  fun_induction afterComment? cs <;> simp_all <;> omega

namespace Content

theorem doctype?_length_le {cs rest : List Char} {token : Content}
    (h : doctype? cs = some (token, rest)) : rest.length ≤ cs.length := by
  unfold doctype? at h
  split at h <;> try contradiction
  next body =>
    split at h <;> try contradiction
    split at h <;> try contradiction
    next run hrun =>
      split at h <;> try contradiction
      next after hafter =>
        split at h <;> try contradiction
        have h1 := congrArg List.length hrun
        have h2 := congrArg List.length hafter
        have h3 := length_dropWhile_le (fun c => decide (c ≠ '>')) run
        simp only [List.length_drop, List.length_cons, Option.some.injEq, Prod.mk.injEq] at *
        obtain ⟨-, rfl⟩ := h
        omega

theorem commentStart?_length_le {cs rest : List Char} {token : Content}
    (h : commentStart? cs = some (token, rest)) : rest.length ≤ cs.length := by
  unfold commentStart? at h
  split at h <;> simp_all
  omega

theorem closeTag?_length_le {cs rest : List Char} {token : Content}
    (h : closeTag? cs = some (token, rest)) : rest.length ≤ cs.length := by
  unfold closeTag? at h
  split at h <;> try contradiction
  next run hrun =>
    simp only at h
    split at h <;> try contradiction
    next after hafter =>
      split at h <;> try contradiction
      have h1 := congrArg List.length hrun
      have h2 := congrArg List.length hafter
      have h3 := length_dropBlanks_le cs
      have h4 := length_dropBlanks_le run
      have h5 := length_dropWhile_le isTagNameChar (dropBlanks run)
      have h6 := length_dropBlanks_le ((dropBlanks run).dropWhile isTagNameChar)
      simp only [List.length_cons, Option.some.injEq, Prod.mk.injEq] at *
      obtain ⟨-, rfl⟩ := h
      omega

theorem openTag?_length_le {cs rest : List Char} {token : Content}
    (h : openTag? cs = some (token, rest)) : rest.length ≤ cs.length := by
  have h1 := length_dropBlanks_le cs
  have h2 := length_dropWhile_le isTagNameChar (dropBlanks cs)
  simp only [openTag?] at h
  split at h <;> simp_all
  omega

theorem markup?_length_le {cs rest : List Char} {token : Content}
    (h : markup? cs = some (token, rest)) : rest.length ≤ cs.length := by
  simp only [markup?, Option.orElse_eq_orElse, Option.orElse_eq_or,
    Option.or_eq_some_iff] at h
  rcases h with h | ⟨-, h | ⟨-, h | ⟨-, h⟩⟩⟩
  · exact doctype?_length_le h
  · exact commentStart?_length_le h
  · exact closeTag?_length_le h
  · exact openTag?_length_le h

theorem scan_length_lt {cs : List Char} (hcs : cs ≠ []) :
    (scan cs).2.length < cs.length := by
  unfold scan
  split
  next rest hrest =>
    have h1 := congrArg List.length hrest
    have h2 := length_dropBlanks_le cs
    simp only [List.length_cons] at h1
    cases h : markup? rest with
    | none =>
      have h3 := length_dropWhile_le (fun c => decide (c ≠ '<')) rest
      simp only [Option.getD_none]
      omega
    | some found =>
      obtain ⟨token, after⟩ := found
      have h3 := markup?_length_le h
      simp only [Option.getD_some]
      omega
  next hno =>
    apply length_dropWhile_lt
    cases cs with
    | nil => contradiction
    | cons c cs =>
      have hc : c ≠ '<' := by
        rintro rfl
        exact hno cs (by simp [dropBlanks, isBlank])
      simp [hc]

end Content

theorem Tag.scan?_length_lt {cs rest : List Char} {token : Tag}
    (h : Tag.scan? cs = some (token, rest)) : rest.length < cs.length := by
  unfold Tag.scan? at h
  split at h <;> try (simp_all <;> omega)
  simp only [Tag.name?] at h
  split at h <;> try contradiction
  next hbare =>
    have h1 := length_dropWhile_lt hbare
    simp only [List.length_drop, Option.some.injEq, Prod.mk.injEq] at *
    obtain ⟨-, rfl⟩ := h
    omega

theorem Value.scan?_length_lt {cs rest : List Char} {token : Value}
    (h : Value.scan? cs = some (token, rest)) : rest.length < cs.length := by
  unfold Value.scan? at h
  split at h <;> try contradiction
  next c run =>
    split at h
    next =>
      unfold Value.quoted? at h
      split at h
      next after hafter =>
        have h1 := congrArg List.length hafter
        have h2 := length_dropWhile_le (fun d => decide (d ≠ c)) run
        simp only [List.length_cons, Option.some.injEq, Prod.mk.injEq] at *
        obtain ⟨-, rfl⟩ := h
        omega
      next =>
        split at h <;> simp_all
    next =>
      split at h <;> try contradiction
      next hc =>
        have h1 : (c :: run).takeWhile isUnquotedChar ≠ [] := by simp [hc]
        have h2 := length_dropWhile_lt h1
        simp only [Option.some.injEq, Prod.mk.injEq] at h
        obtain ⟨-, rfl⟩ := h
        exact h2

end LiveTemplate.Token
