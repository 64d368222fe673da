import LiveTemplate.Text.Printable

/-!
# Quoted text

A text between double quotes in which every character is visible. The quote, the
backslash and four controls have a short escape; a character that prints nothing,
or that would attach to its neighbour, is written by its code point.
-/
namespace LiveTemplate.Text

/-- A code point in lower-case hexadecimal between braces. -/
def codePointEscape (c : Char) : List Char :=
  ['\\', 'u', '\x7b'] ++ Nat.toDigits 16 c.toNat ++ ['\x7d']

def quoteChar (c : Char) : List Char :=
  if c = '"' then ['\\', '"']
  else if c = '\\' then ['\\', '\\']
  else if c = '\n' then ['\\', 'n']
  else if c = '\r' then ['\\', 'r']
  else if c = '\t' then ['\\', 't']
  else if c = '\x00' then ['\\', '0']
  else if isAttaching c || !isPrintable c then codePointEscape c
  else [c]

/-- Single quotes need no escape. -/
def quoted (s : String) : String :=
  String.ofList ('"' :: s.toList.flatMap quoteChar ++ ['"'])

end LiveTemplate.Text
