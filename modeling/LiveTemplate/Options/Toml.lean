import LiveTemplate.Markup

/-!
# Options in TOML

The options of markup as a TOML document. It has two keys, each at most once and each
with a boolean, so of the format only lines with a key and a boolean, blank lines and
comments can occur. Any other line is refused, whether or not it is TOML. A key that is
missing keeps its default.
-/
namespace LiveTemplate.Toml

/-- The first line that is not understood, counted from one. -/
structure Refusal where
  line : Nat
deriving DecidableEq, Repr

def Refusal.message (r : Refusal) : String := "unexpected input in line " ++ toString r.line

def dropSpaces (cs : List Char) : List Char := cs.dropWhile fun c => c == ' ' || c == '\t'

/-- A line end and other controls stand in no line; a tab does. -/
def isLineChar (c : Char) : Bool := c == '\t' || (0x20 ≤ c.toNat && c.toNat ≠ 0x7F)

/-- Nothing but spaces, and perhaps a comment. -/
def isBlankOrComment (cs : List Char) : Bool :=
  match dropSpaces cs with
  | [] => true
  | '#' :: comment => comment.all isLineChar
  | _ => false

def isBareKeyChar (c : Char) : Bool := c.isAlphanum || c == '-' || c == '_'

def hexDigit? (c : Char) : Option Nat :=
  if c.isDigit then some (c.toNat - '0'.toNat)
  else if 'a' ≤ c.toLower && c.toLower ≤ 'f' then some (c.toLower.toNat - 'a'.toNat + 10)
  else none

/-- The character with a code point written in hexadecimal digits. -/
def codePoint? (digits : List Char) : Option Char := do
  let n ← digits.foldlM (fun n d => (hexDigit? d).map (16 * n + ·)) 0
  if n.isValidChar then pure (Char.ofNat n) else none

def simpleEscape? : Char → Option Char
  | 'b' => some '\x08'
  | 't' => some '\t'
  | 'n' => some '\n'
  | 'f' => some '\x0c'
  | 'r' => some '\r'
  | '"' => some '"'
  | '\\' => some '\\'
  | _ => none

/-- The text up to the closing quote, and the rest behind it. -/
def readBasic? : List Char → Option (List Char × List Char)
  | [] => none
  | '"' :: rest => some ([], rest)
  | '\\' :: 'u' :: a :: b :: c :: d :: rest => do
      let (text, after) ← readBasic? rest
      pure ((← codePoint? [a, b, c, d]) :: text, after)
  | '\\' :: 'U' :: a :: b :: c :: d :: e :: f :: g :: h :: rest => do
      let (text, after) ← readBasic? rest
      pure ((← codePoint? [a, b, c, d, e, f, g, h]) :: text, after)
  | '\\' :: c :: rest => do
      let (text, after) ← readBasic? rest
      pure ((← simpleEscape? c) :: text, after)
  | c :: rest => do
      if c = '\\' || !isLineChar c then none
      else
        let (text, after) ← readBasic? rest
        pure (c :: text, after)

/-- A key, bare or in quotes of either kind. -/
def readKey? (cs : List Char) : Option (String × List Char) :=
  match cs with
  | '"' :: rest => (readBasic? rest).map fun (text, after) => (String.ofList text, after)
  | '\x27' :: rest =>
      let text := rest.takeWhile (· ≠ '\x27')
      match rest.dropWhile (· ≠ '\x27') with
      | _ :: after => if text.all isLineChar then some (String.ofList text, after) else none
      | [] => none
  | cs =>
      let text := cs.takeWhile isBareKeyChar
      if text = [] then none else some (String.ofList text, cs.dropWhile isBareKeyChar)

def readBool? (cs : List Char) : Option (Bool × List Char) :=
  match "true".toList.isPrefixOf? cs, "false".toList.isPrefixOf? cs with
  | some rest, _ => some (true, rest)
  | _, some rest => some (false, rest)
  | none, none => none

/-- The key and the boolean of a line that has them. -/
def readSetting? (line : List Char) : Option (String × Bool) := do
  let (key, rest) ← readKey? (dropSpaces line)
  match dropSpaces rest with
  | '=' :: rest =>
      let (value, rest) ← readBool? (dropSpaces rest)
      if isBlankOrComment rest then pure (key, value) else none
  | _ => none

/-- Lines end in a line feed, or in a carriage return and a line feed. -/
def splitLines (cs : List Char) : List (List Char) :=
  match cs with
  | [] => [[]]
  | '\n' :: rest => [] :: splitLines rest
  | '\r' :: '\n' :: rest => [] :: splitLines rest
  | c :: rest =>
      match splitLines rest with
      | [] => [[c]]
      | line :: lines => (c :: line) :: lines

/-- The options with one of them set, and the keys set so far. -/
structure Progress where
  options : MarkupOptions := {}
  keys : List String := []

def set? (key : String) (value : Bool) (p : Progress) : Option Progress :=
  if p.keys.contains key then none
  else if key = "self-close-void" then
    some ⟨{ p.options with selfCloseVoid := value }, key :: p.keys⟩
  else if key = "escape-dynamic" then
    some ⟨{ p.options with escapeDynamic := value }, key :: p.keys⟩
  else none

def readLines (number : Nat) (p : Progress) : List (List Char) → Except Refusal MarkupOptions
  | [] => .ok p.options
  | line :: rest =>
      if isBlankOrComment line then readLines (number + 1) p rest
      else
        match readSetting? line with
        | none => .error ⟨number⟩
        | some (key, value) =>
            match set? key value p with
            | none => .error ⟨number⟩
            | some p => readLines (number + 1) p rest

/-- The options written in a document. A byte order mark in front is skipped. -/
def read (text : String) : Except Refusal MarkupOptions :=
  let cs := text.toList
  readLines 1 {} (splitLines (if cs.head? = some '\ufeff' then cs.drop 1 else cs))

end LiveTemplate.Toml
