/-!
# Blank characters

The blanks are the characters with the Unicode property White_Space. They part
the attributes of a tag, and a run of them is cut off the ends of a text when the
run breaks a line.
-/
namespace LiveTemplate.Text

/-- The 25 characters with the property White_Space. -/
def isBlank (c : Char) : Bool :=
  let n := c.toNat
  (9 ≤ n && n ≤ 13) || n == 0x20 || n == 0x85 || n == 0xA0 || n == 0x1680 ||
    (0x2000 ≤ n && n ≤ 0x200A) || n == 0x2028 || n == 0x2029 || n == 0x202F ||
    n == 0x205F || n == 0x3000

/-- Every blank of the core library is a blank here. -/
theorem isBlank_of_isWhitespace {c : Char} (h : c.isWhitespace = true) : isBlank c = true := by
  simp only [Char.isWhitespace, Bool.or_eq_true, decide_eq_true_eq] at h
  rcases h with ((rfl | rfl) | rfl) | rfl <;> decide

def dropBlanks (cs : List Char) : List Char := cs.dropWhile isBlank

theorem length_dropBlanks_le (cs : List Char) : (dropBlanks cs).length ≤ cs.length :=
  (List.dropWhile_sublist _).length_le

/-- The leading run of blanks goes when it holds a line feed, and stays whole
otherwise. -/
def dropBrokenLead (cs : List Char) : List Char :=
  if '\n' ∈ cs.takeWhile isBlank then dropBlanks cs else cs

/-- The rule of `dropBrokenLead` at both ends, the start first. -/
def trimLineBreaks (cs : List Char) : List Char :=
  (dropBrokenLead (dropBrokenLead cs).reverse).reverse

end LiveTemplate.Text
