import LiveTemplate.Text.Blank
import LiveTemplate.Text.Measure

/-!
# Slices by offset

A part of a text can be named by offsets into its UTF-8 form. An offset is good if it is not
beyond the end and does not fall inside a character. Slicing at a bad offset is an error, and
so is a length that would be negative.
-/
namespace LiveTemplate.Text

inductive SliceError where
  | beyondEnd
  | insideCharacter
  | negativeLength
deriving DecidableEq, Repr

abbrev Sliced := Except SliceError

/-- A run parted at an offset. -/
def splitBytes : Nat → List Char → Sliced (List Char × List Char)
  | 0, cs => .ok ([], cs)
  | _ + 1, [] => .error .beyondEnd
  | n + 1, c :: cs =>
      if n + 1 < c.utf8Size then .error .insideCharacter
      else do
        let (before, behind) ← splitBytes (n + 1 - c.utf8Size) cs
        pure (c :: before, behind)

def takeBytes (stop : Nat) (cs : List Char) : Sliced (List Char) := do
  let (before, _) ← splitBytes stop cs
  pure before

def dropBytes (start : Nat) (cs : List Char) : Sliced (List Char) := do
  let (_, behind) ← splitBytes start cs
  pure behind

def sliceBytes (start stop : Nat) (cs : List Char) : Sliced (List Char) :=
  if stop < start then .error .negativeLength
  else do
    let behind ← dropBytes start cs
    takeBytes (stop - start) behind

/-- How much longer a run is than another; it must not be shorter. -/
def excess (cs rest : List Char) : Sliced Nat :=
  if utf8Length cs < utf8Length rest then .error .negativeLength
  else .ok (utf8Length cs - utf8Length rest)

/-- The offset of the first such character. -/
def firstOffset? (p : Char → Bool) : List Char → Option Nat
  | [] => none
  | c :: cs => if p c then some 0 else (firstOffset? p cs).map (c.utf8Size + ·)

/-- How long the run of such characters is at the start. -/
def runLength (p : Char → Bool) (cs : List Char) : Nat :=
  (firstOffset? (fun c => !p c) cs).getD (utf8Length cs)

/-- A text without the blanks at its end. -/
def dropBlanksEnd (cs : List Char) : List Char := (dropBlanks cs.reverse).reverse

/-- The rule of `dropBrokenLead` with slices. -/
def dropLeadSliced (cs : List Char) : Sliced (List Char) := do
  let lead ← excess cs (dropBlanks cs)
  let blanks ← takeBytes lead cs
  if '\n' ∈ blanks then dropBytes lead cs else pure cs

/-- The same rule at the end. -/
def dropTailSliced (cs : List Char) : Sliced (List Char) := do
  let body := dropBlanksEnd cs
  let tail ← dropBytes (utf8Length body) cs
  pure (if '\n' ∈ tail then body else cs)

def trimSliced (cs : List Char) : Sliced (List Char) := do
  let cs ← dropLeadSliced cs
  dropTailSliced cs

/-! ### Where slicing succeeds -/

@[simp] theorem ok_bind {α β : Type} (a : α) (f : α → Sliced β) : (Except.ok a >>= f) = f a := rfl

@[simp] theorem pure_eq_ok {α : Type} (a : α) : (pure a : Sliced α) = .ok a := rfl

theorem exists_of_bind_eq_ok {α β : Type} {x : Sliced α} {f : α → Sliced β} {b : β}
    (h : (x >>= f) = .ok b) : ∃ a, x = .ok a ∧ f a = .ok b := by
  cases x with
  | error e => contradiction
  | ok a => exact ⟨a, rfl, h⟩

theorem splitBytes_append (before behind : List Char) :
    splitBytes (utf8Length before) (before ++ behind) = .ok (before, behind) := by
  induction before with
  | nil => simp [splitBytes]
  | cons c before ih =>
    have hpos := c.utf8Size_pos
    obtain ⟨n, hn⟩ := Nat.exists_eq_add_of_lt hpos
    have length : utf8Length (c :: before) = n + utf8Length before + 1 := by
      rw [utf8Length_cons]
      omega
    have rest : n + utf8Length before + 1 - c.utf8Size = utf8Length before := by omega
    rw [length, List.cons_append, splitBytes, if_neg (by omega), rest, ih]
    rfl

/-- A run is parted only between characters. -/
theorem eq_of_splitBytes {n : Nat} {cs before behind : List Char}
    (h : splitBytes n cs = .ok (before, behind)) :
    cs = before ++ behind ∧ utf8Length before = n := by
  fun_induction splitBytes n cs generalizing before with
  | case1 cs =>
    obtain ⟨rfl, rfl⟩ := Prod.mk.inj (Except.ok.inj h)
    exact ⟨rfl, rfl⟩
  | case2 => contradiction
  | case3 => contradiction
  | case4 n c cs fits ih =>
    cases hs : splitBytes (n + 1 - c.utf8Size) cs with
    | error e =>
      rw [hs] at h
      contradiction
    | ok parts =>
      obtain ⟨first, rest⟩ := parts
      rw [hs] at h
      obtain ⟨rfl, rfl⟩ := Prod.mk.inj (Except.ok.inj h)
      obtain ⟨whole, length⟩ := ih hs
      constructor
      · rw [whole, List.cons_append]
      · rw [utf8Length_cons, length]
        omega

@[simp] theorem takeBytes_append (before behind : List Char) :
    takeBytes (utf8Length before) (before ++ behind) = .ok before := by
  rw [takeBytes, splitBytes_append]
  rfl

theorem eq_of_takeBytes {n : Nat} {cs before : List Char} (h : takeBytes n cs = .ok before) :
    ∃ behind, cs = before ++ behind ∧ utf8Length before = n := by
  obtain ⟨parts, split, h⟩ := exists_of_bind_eq_ok h
  obtain rfl : parts.1 = before := Except.ok.inj h
  exact ⟨parts.2, eq_of_splitBytes split⟩

@[simp] theorem dropBytes_append (before behind : List Char) :
    dropBytes (utf8Length before) (before ++ behind) = .ok behind := by
  rw [dropBytes, splitBytes_append]
  rfl

theorem suffix_of_dropBytes {n : Nat} {cs behind : List Char} (h : dropBytes n cs = .ok behind) :
    behind <:+ cs := by
  obtain ⟨parts, split, h⟩ := exists_of_bind_eq_ok h
  obtain rfl : parts.2 = behind := Except.ok.inj h
  exact ⟨parts.1, (eq_of_splitBytes split).1.symm⟩

theorem sliceBytes_append (before slice behind : List Char) :
    sliceBytes (utf8Length before) (utf8Length before + utf8Length slice)
      (before ++ (slice ++ behind)) = .ok slice := by
  rw [sliceBytes, if_neg (by omega), dropBytes_append, Nat.add_sub_cancel_left]
  exact takeBytes_append slice behind

@[simp] theorem excess_append (before behind : List Char) :
    excess (before ++ behind) behind = .ok (utf8Length before) := by
  rw [excess, utf8Length_append, if_neg (by omega), Nat.add_sub_cancel]

end LiveTemplate.Text
