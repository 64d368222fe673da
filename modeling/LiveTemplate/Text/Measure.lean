/-!
# Lengths in encoded bytes

Positions in a text are counted in the bytes of its UTF-8 form. A scanner works on
a list of characters, so the measure is taken there; on a whole text it is the
size of its encoding.
-/
namespace LiveTemplate.Text

/-- Bytes of the UTF-8 form of a run of characters. -/
def utf8Length : List Char → Nat
  | [] => 0
  | c :: cs => c.utf8Size + utf8Length cs

@[simp] theorem utf8Length_nil : utf8Length [] = 0 := rfl

@[simp] theorem utf8Length_cons (c : Char) (cs : List Char) :
    utf8Length (c :: cs) = c.utf8Size + utf8Length cs := rfl

@[simp] theorem utf8Length_append (cs ds : List Char) :
    utf8Length (cs ++ ds) = utf8Length cs + utf8Length ds := by
  induction cs with
  | nil => simp
  | cons c cs ih => simp [ih, Nat.add_assoc]

theorem utf8Length_suffix {cs ds : List Char} (h : cs <:+ ds) : utf8Length cs ≤ utf8Length ds := by
  obtain ⟨before, rfl⟩ := h
  rw [utf8Length_append]
  exact Nat.le_add_left ..

/-- Bytes from `start` up to `stop`, both counted from the same origin. -/
structure Span where
  start : Nat
  stop : Nat
deriving DecidableEq, Repr

namespace Span

/-- The same bytes counted from an origin `base` bytes earlier. -/
def shift (base : Nat) (s : Span) : Span := ⟨base + s.start, base + s.stop⟩

/-- A span is written as its two ends. -/
def text (s : Span) : String := s!"{s.start}..{s.stop}"

end Span

end LiveTemplate.Text
