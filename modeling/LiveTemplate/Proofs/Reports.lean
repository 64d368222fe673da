import LiveTemplate.Cli.Excerpt
import LiveTemplate.Proofs.ErrorSpans
import Mathlib

/-!
# What reports point at

A report hands the byte at which its span starts to a library that counts characters and locates
an offset by the last line that starts at or before it. So it points at the error as long as every
character in front of the error is a single byte, and never behind a longer one. All that is said
here of the library stands in the assumptions of `Drawing.CountsCharacters`, which the drawing of
the command meets.
-/
namespace LiveTemplate
open Text

/-! ### Places in a text -/

namespace Position

/-- The place is in the last line that starts at or before an offset, and columns are counted
from the start of this line. -/
def IsAt (lines : List (List Char)) (offset : Nat) (p : Position) : Prop :=
  ∃ earlier line later, lines = earlier ++ line :: later ∧ earlier.flatten.length ≤ offset ∧
    (later ≠ [] → offset < earlier.flatten.length + line.length) ∧
    p = ⟨earlier.length + 1, offset - earlier.flatten.length + 1⟩

/-- The place is that of the character behind `before`, or of the end of the text: some lines have
passed, and of the next one a part. -/
def Follows (lines : List (List Char)) (before : List Char) (p : Position) : Prop :=
  ∃ earlier part rest later, lines = earlier ++ (part ++ rest) :: later ∧
    before = earlier.flatten ++ part ∧ (rest = [] → later = []) ∧
    p = ⟨earlier.length + 1, part.length + 1⟩

variable {lines : List (List Char)} {p q : Position}

theorem IsAt.offset_inj {i j : Nat} (hi : p.IsAt lines i) (hj : p.IsAt lines j) : i = j := by
  obtain ⟨earlier, _, _, split, le, -, rfl⟩ := hi
  obtain ⟨earlier', _, _, split', le', -, same⟩ := hj
  obtain ⟨line, column⟩ := Position.mk.inj same
  -- the same line of one text, so the same start
  obtain ⟨rfl, -⟩ := List.append_inj (split.symm.trans split') (Nat.succ.inj line)
  omega

/-- An offset that counts characters is located at the character with this number. -/
theorem isAt_length_iff {before behind : List Char} (whole : lines.flatten = before ++ behind) :
    p.IsAt lines before.length ↔ p.Follows lines before := by
  constructor
  · rintro ⟨earlier, line, later, rfl, le, inside, rfl⟩
    rw [List.flatten_append, List.flatten_cons] at whole
    obtain ⟨part, rfl⟩ := List.prefix_of_prefix_length_le ⟨_, whole⟩ ⟨_, rfl⟩ le
    rw [List.append_assoc, List.append_cancel_left_eq] at whole
    have fits : part.length ≤ line.length := by
      cases later with
      | nil =>
        have := congrArg List.length whole
        simp only [List.flatten_nil, List.append_nil, List.length_append] at this
        omega
      | cons next later =>
        have := inside (List.cons_ne_nil _ _)
        rw [List.length_append] at this
        omega
    obtain ⟨rest, rfl⟩ := List.prefix_of_prefix_length_le ⟨_, whole.symm⟩ ⟨_, rfl⟩ fits
    refine ⟨earlier, part, rest, later, rfl, rfl, ?_, by rw [List.length_append, Nat.add_sub_cancel_left]⟩
    rintro rfl
    by_contra more
    have := inside more
    simp at this
  · rintro ⟨earlier, part, rest, later, rfl, rfl, last, rfl⟩
    refine ⟨earlier, part ++ rest, later, rfl, ?_, ?_, ?_⟩
    · rw [List.length_append]
      exact Nat.le_add_right ..
    · intro more
      have : rest ≠ [] := fun h => more (last h)
      have := List.length_pos_of_ne_nil this
      simp only [List.length_append]
      omega
    · rw [List.length_append, Nat.add_sub_cancel_left]

theorem colon_notMem_toString (n : Nat) : ':' ∉ (toString n).toList := by
  intro h
  rw [Nat.toString_eq_repr, Nat.toList_repr] at h
  exact absurd (Nat.isDigit_of_mem_toDigits (by decide) (by decide) h) (by decide)

theorem text_inj {file : String} : p.text file = q.text file ↔ p = q := by
  constructor
  · intro h
    have parts : (toString p.line).toList ++ ':' :: (toString p.column).toList =
        (toString q.line).toList ++ ':' :: (toString q.column).toList := by
      have h := congrArg String.toList h
      simpa [text, String.toList_append, List.append_assoc] using h
    obtain ⟨line, -, column⟩ := (List.append_cons_inj_of_notMem (colon_notMem_toString _)
      (colon_notMem_toString _)).1 parts
    have line := Nat.repr_inj.1 (String.toList_inj.1 line)
    have column := Nat.repr_inj.1 (String.toList_inj.1 column)
    cases p
    cases q
    simp_all
  · exact congrArg _

end Position

/-- A run is as long in bytes as in characters when each of them has one byte, and longer
otherwise. -/
theorem Text.utf8Length_eq_length_iff {cs : List Char} :
    utf8Length cs = cs.length ↔ ∀ c ∈ cs, c.utf8Size = 1 := by
  have longer : ∀ cs : List Char, cs.length ≤ utf8Length cs := by
    intro cs
    induction cs with
    | nil => exact Nat.le_refl 0
    | cons c cs ih =>
      have := c.utf8Size_pos
      rw [utf8Length_cons, List.length_cons]
      omega
  induction cs with
  | nil => simp
  | cons c cs ih =>
    have := c.utf8Size_pos
    have := longer cs
    rw [utf8Length_cons, List.length_cons, List.forall_mem_cons]
    constructor
    · intro h
      exact ⟨by omega, ih.1 (by omega)⟩
    · rintro ⟨one, others⟩
      have := ih.2 others
      omega

/-! ### Drawn reports -/

/-- What is assumed of the library that draws reports: it takes the given lines for those of a
source, and offsets for counts of characters. -/
structure Drawing.CountsCharacters [Drawing] (lines : String → List (List Char)) : Prop where
  whole (source : String) : (lines source).flatten = source.toList
  /-- An offset is located by the last line that starts at or before it. -/
  located {source : String} {offset : Nat} {label : Span} {p : Position} :
    locate source offset label = some p → p.IsAt (lines source) offset
  /-- A source that has the characters is shown. -/
  shown {source : String} {offset : Nat} {label : Span} : offset ≤ source.length →
    label.stop ≤ source.length → (locate source offset label).isSome

namespace Cli

theorem flatten_splitLines (cs : List Char) : (splitLines cs).flatten = cs := by
  fun_induction splitLines cs with
  | case1 => rfl
  | case2 rest ih => rw [List.flatten_cons, ih]; rfl
  | case3 c rest _ _ ih => rw [List.flatten_cons, ih]; rfl
  | case4 c rest _ _ none ih =>
    rw [none] at ih
    rw [← ih]
    rfl
  | case5 c rest _ _ line lines some ih =>
    rw [some] at ih
    rw [← ih]
    rfl

theorem splitLines_ne_nil {cs : List Char} (h : cs ≠ []) : splitLines cs ≠ [] := by
  intro none
  exact h (by rw [← flatten_splitLines cs, none, List.flatten_nil])

theorem flatten_linesOf (cs : List Char) : (linesOf cs).flatten = cs := by
  rw [linesOf]
  split
  next empty => rw [List.isEmpty_iff.1 empty]; rfl
  next => exact flatten_splitLines cs

theorem linesOf_ne_nil (cs : List Char) : linesOf cs ≠ [] := by
  rw [linesOf]
  split
  next => exact List.cons_ne_nil _ _
  next nonempty => exact splitLines_ne_nil fun h => nonempty (List.isEmpty_iff.2 h)

/-- The walk over the lines ends in the last one that starts at or before the offset. -/
theorem placeIn_eq {number offset : Nat} {lines : List (List Char)} (h : lines ≠ []) :
    ∃ earlier line later, lines = earlier ++ line :: later ∧ earlier.flatten.length ≤ offset ∧
      (later ≠ [] → offset < earlier.flatten.length + line.length) ∧
      placeIn number lines offset =
        ⟨number + earlier.length, offset - earlier.flatten.length + 1⟩ := by
  fun_induction placeIn number lines offset with
  | case1 number line next lines offset inside =>
    exact ⟨[], line, next :: lines, rfl, Nat.zero_le _, fun _ => by simpa using inside, rfl⟩
  | case2 number line next lines offset outside ih =>
    obtain ⟨earlier, last, later, split, le, inside, place⟩ := ih (List.cons_ne_nil _ _)
    have length : (line :: earlier).flatten.length = line.length + earlier.flatten.length := by
      rw [List.flatten_cons, List.length_append]
    refine ⟨line :: earlier, last, later, by rw [split]; rfl, by omega, fun more => ?_, ?_⟩
    · have := inside more
      omega
    · rw [place, List.length_cons, length, Nat.sub_add_eq, Nat.add_right_comm, Nat.add_assoc]
  | case3 lines number offset few =>
    match lines with
    | [] => contradiction
    | [line] => exact ⟨[], line, [], rfl, Nat.zero_le _, fun more => absurd rfl more, rfl⟩
    | line :: next :: lines => exact (few line next lines rfl).elim

theorem positionOf_isAt (cs : List Char) (offset : Nat) :
    (positionOf cs offset).IsAt (linesOf cs) offset := by
  obtain ⟨earlier, line, later, split, le, inside, place⟩ := placeIn_eq (linesOf_ne_nil cs)
  exact ⟨earlier, line, later, split, le, inside, by rw [positionOf, place, Nat.add_comm]⟩

/-- The drawing of the command meets the assumptions on the library. -/
theorem terminal_countsCharacters :
    Drawing.CountsCharacters fun source => linesOf source.toList where
  whole source := flatten_linesOf source.toList
  located := by
    intro source offset label p located
    change position? source.toList offset label = some p at located
    rw [position?] at located
    split at located
    · contradiction
    · obtain rfl := Option.some.inj located
      exact positionOf_isAt _ _
  shown := by
    intro source offset label start stop
    change (position? source.toList offset label).isSome
    rw [position?, if_neg]
    · rfl
    · rw [String.length_toList]
      simp only [Bool.or_eq_true, decide_eq_true_eq]
      omega

end Cli

namespace Skeleton

/-- A report of a reading that fails shows the line and column of the first character of the
error, or of the end of the text, only if every character in front is a single byte; and it does
so if every character up to the end of the error is a single byte. -/
theorem report_points_at_error [Drawing] {lines : String → List (List Char)}
    (counts : Drawing.CountsCharacters lines) {fragments : List String} {file : String}
    {e : ParseError} (h : parse fragments = .error e) :
    ∃ before slice behind, (joinFragments fragments).toList = before ++ slice ++ behind ∧
      utf8Length before = (e.sourceSpan fragments).start ∧
      utf8Length (before ++ slice) = (e.sourceSpan fragments).stop ∧
      (∀ p : Position, (e.report fragments file).location = some (p.text file) →
        (p.Follows (lines (joinFragments fragments)) before ↔ ∀ c ∈ before, c.utf8Size = 1)) ∧
      ((∀ c ∈ before ++ slice, c.utf8Size = 1) → ∃ p : Position,
        (e.report fragments file).location = some (p.text file) ∧
          p.Follows (lines (joinFragments fragments)) before) := by
  obtain ⟨fragment, _, slice, _, here, split, start, stop, -⟩ := (parse_fails h).marks
  obtain ⟨before, behind, split, start, stop⟩ :=
    ParseError.sourceSpan_cuts here ⟨_, _, split, start, stop⟩
  have follows {p : Position} := Position.isAt_length_iff (p := p)
    ((counts.whole _).trans (split.trans (List.append_assoc ..)))
  refine ⟨before, slice, behind, split, start, stop, ?_, ?_⟩
  · intro p location
    obtain ⟨q, located, same⟩ := Option.map_eq_some_iff.1 location
    obtain rfl := Position.text_inj.1 same
    have located := counts.located located
    rw [← follows, ← utf8Length_eq_length_iff, start]
    constructor
    · exact located.offset_inj
    · intro single
      rwa [← single]
  · intro single
    have first : utf8Length before = before.length :=
      utf8Length_eq_length_iff.2 fun c hc => single c (List.mem_append_left _ hc)
    have last : utf8Length (before ++ slice) = before.length + slice.length :=
      (utf8Length_eq_length_iff.2 single).trans (List.length_append ..)
    have length : (joinFragments fragments).length =
        before.length + slice.length + behind.length := by
      rw [← String.length_toList, split, List.length_append, List.length_append]
    have shown : (Drawing.locate (joinFragments fragments) (e.sourceSpan fragments).start
        (e.sourceSpan fragments)).isSome := counts.shown (by omega) (by omega)
    obtain ⟨p, located⟩ := Option.isSome_iff_exists.1 shown
    refine ⟨p, Option.map_eq_some_iff.2 ⟨p, located, rfl⟩, ?_⟩
    rw [← follows, ← first, start]
    exact counts.located located

/-- Behind a line that has been read to its end. -/
theorem report_points_at_error_behind_line :
    let fragments := ["a\r\n", "<p !>"]
    let e := ParseError.stalled 1 3 "!>"
    let lines := fun source : String => Cli.linesOf source.toList
    Drawing.CountsCharacters lines ∧ parse fragments = .error e ∧
      (e.report fragments "a.html").location = some "a.html:2:7" ∧
      ∃ before slice behind, (joinFragments fragments).toList = before ++ slice ++ behind ∧
        utf8Length before = (e.sourceSpan fragments).start ∧
        utf8Length (before ++ slice) = (e.sourceSpan fragments).stop ∧
        (∀ p : Position, (e.report fragments "a.html").location = some (p.text "a.html") →
          (p.Follows (lines (joinFragments fragments)) before ↔ ∀ c ∈ before, c.utf8Size = 1)) ∧
        ((∀ c ∈ before ++ slice, c.utf8Size = 1) → ∃ p : Position,
          (e.report fragments "a.html").location = some (p.text "a.html") ∧
            p.Follows (lines (joinFragments fragments)) before) := by
  intro fragments e lines
  have failed : parse fragments = .error e := by decide +kernel
  exact ⟨Cli.terminal_countsCharacters, failed, by decide +kernel,
    report_points_at_error Cli.terminal_countsCharacters failed⟩

/-- Behind one character of two bytes the report points one column too far. -/
theorem report_points_behind_error :
    let fragments := ["é<div !>"]
    let e := ParseError.stalled 0 7 "!>"
    let lines := fun source : String => Cli.linesOf source.toList
    let before := "é<div ".toList
    Drawing.CountsCharacters lines ∧ parse fragments = .error e ∧
      (joinFragments fragments).toList = before ++ "!>".toList ∧
      utf8Length before = (e.sourceSpan fragments).start ∧
      (⟨1, 7⟩ : Position).Follows (lines (joinFragments fragments)) before ∧
      (⟨1, 7⟩ : Position).text "a.html" = "a.html:1:7" ∧
      (e.report fragments "a.html").location = some "a.html:1:8" := by
  refine ⟨Cli.terminal_countsCharacters, by decide +kernel, by decide +kernel, by decide +kernel,
    ⟨[], "é<div ".toList, "!>".toList, [], by decide +kernel, by decide +kernel, by decide +kernel,
      by decide +kernel⟩, by decide +kernel, by decide +kernel⟩

end Skeleton

end LiveTemplate
