import LiveTemplate.Document
import Mathlib

/-!
# Names in lower case

A name that is valid is so in lower case, since neither a tag nor an attribute depends on
the case of its letters for that.
-/
namespace LiveTemplate

namespace Text

/-- What is the same for all letters does not depend on the case of a letter. -/
theorem apply_toLower {α : Type} {p : Char → α} {b : α}
    (h : ∀ c : Char, c.isAlpha = true → p c = b) (c : Char) : p c.toLower = p c := by
  by_cases hc : c.isUpper = true
  · have letter : c.isAlpha = true := by rw [Char.isAlpha, hc, Bool.true_or]
    rw [h c letter, h c.toLower (by rw [Char.isAlpha_toLower_eq_isAlpha, letter])]
  · rw [Char.toLower_eq_of_not_isUpper hc]

theorem range_of_isAlpha {c : Char} (h : c.isAlpha = true) :
    65 ≤ c.toNat ∧ c.toNat ≤ 90 ∨ 97 ≤ c.toNat ∧ c.toNat ≤ 122 := by
  simpa [Char.isAlpha, Char.isUpper, Char.isLower, UInt32.le_iff_toNat_le] using h

theorem toList_lower (s : String) : (lower s).toList = s.toList.map Char.toLower := by
  rw [lower, String.toList_ofList]

theorem lower_lower (s : String) : lower (lower s) = lower s := by
  rw [lower, toList_lower, List.map_map, lower]
  congr 1
  exact List.map_congr_left fun c _ => c.toLower_toLower_eq_toLower

end Text

theorem isValidTag_lower (tag : String) : isValidTag (Text.lower tag) = isValidTag tag := by
  rw [isValidTag, isValidTag, Text.toList_lower]
  cases tag.toList with
  | nil => rfl
  | cons c rest =>
    have others : ∀ c : Char,
        (c.toLower.isAlphanum || c.toLower == '-') = (c.isAlphanum || c == '-') := by
      apply Text.apply_toLower (p := fun c => c.isAlphanum || c == '-') (b := true)
      intro c h
      rw [Char.isAlphanum, h]
      rfl
    simp only [List.map_cons, Char.isAlpha_toLower_eq_isAlpha, List.all_map, Function.comp_def, others]

theorem endsAttributeName_of_isAlpha {c : Char} (h : c.isAlpha = true) :
    endsAttributeName c = false := by
  have range := Text.range_of_isAlpha h
  have blank : Text.isBlank c = false := by
    simp only [Text.isBlank, Bool.or_eq_false_iff, Bool.and_eq_false_iff,
      decide_eq_false_iff_not, beq_eq_false_iff_ne]
    omega
  have sign : c ∉ ['"', '\x27', '>', '/', '=', '<'] := by
    intro hc
    simp only [List.mem_cons, List.not_mem_nil, or_false] at hc
    rcases hc with rfl | rfl | rfl | rfl | rfl | rfl <;> simp at range
  simp [endsAttributeName, blank, sign]

theorem isValidAttributeName_lower (name : String) :
    isValidAttributeName (Text.lower name) = isValidAttributeName name := by
  have ends : ∀ c : Char, endsAttributeName c.toLower = endsAttributeName c :=
    Text.apply_toLower fun _ => endsAttributeName_of_isAlpha
  have empty : Text.lower name = "" ↔ name = "" := by
    rw [← String.toList_inj, Text.toList_lower, ← String.toList_inj]
    simp
  simp only [isValidAttributeName, Text.toList_lower, List.all_map, Function.comp_def, ends]
  congr 1
  simp [bne, beq_eq_decide, empty]

end LiveTemplate
