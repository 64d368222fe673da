import LiveTemplate.Proofs.Grammar
import LiveTemplate.Text.Escape
import Mathlib.Data.List.Induction

/-!
# Escaped text is read back

Looking each character up once comes to the same as substituting one character after the
other, as long as no row of the table touches what an earlier row has written. In an escaped
text an ampersand stands for nothing but the start of a reference. So the references can be
replaced back, all in one pass or the rows one after the other from the last to the first, and
no two texts are escaped to one.
-/
namespace LiveTemplate
open Text

namespace Text

variable {table read : EscapeTable} {cs ds : List Char}

/-! ### One pass and one row after the other -/

/-- What is written for one character. -/
def EscapeTable.written (table : EscapeTable) (c : Char) : List Char :=
  ((Entries.get? c table).map String.toList).getD [c]

/-- All rows, one after the other, on a run of characters. -/
def replaceRows (table : EscapeTable) (cs : List Char) : List Char :=
  table.foldl (fun cs (c, reference) => replaceChar c reference cs) cs

@[simp] theorem replaceRows_cons (row : Char × String) (table : EscapeTable) (cs : List Char) :
    replaceRows (row :: table) cs = replaceRows table (replaceChar row.1 row.2 cs) := rfl

theorem written_of_notMem {c : Char} (h : c ∉ Entries.names table) : table.written c = [c] := by
  rw [EscapeTable.written, Entries.get?_eq_none_iff.2 h]
  rfl

theorem written_append_of_ne {row : Char × String} {c : Char} (h : c ≠ row.1) :
    EscapeTable.written (table ++ [row]) c = table.written c := by
  induction table with
  | nil => simp [EscapeTable.written, Entries.get?, h.symm]
  | cons first table ih =>
    simp only [EscapeTable.written, List.cons_append, Entries.get?] at ih ⊢
    split
    next => rfl
    next => exact ih

theorem replaceChar_of_notMem {target : Char} {reference : String} {cs : List Char}
    (h : target ∉ cs) : replaceChar target reference cs = cs := by
  induction cs with
  | nil => rfl
  | cons c cs ih =>
    rw [List.mem_cons, not_or] at h
    rw [replaceChar, List.flatMap_cons, if_neg (Ne.symm h.1), ← replaceChar, ih h.2]
    rfl

theorem replaceRows_of_notMem (h : ∀ row ∈ table, row.1 ∉ cs) : replaceRows table cs = cs := by
  induction table with
  | nil => rfl
  | cons row table ih =>
    have first : replaceChar row.1 row.2 cs = cs :=
      replaceChar_of_notMem (h row (List.mem_cons_self ..))
    rw [replaceRows_cons, first]
    exact ih fun r hr => h r (List.mem_cons_of_mem _ hr)

/-- Without any of the characters of the table a text stays as it is. -/
theorem replaceEach_of_notMem {table : EscapeTable} {s : String}
    (h : ∀ row ∈ table, row.1 ∉ s.toList) : replaceEach table s = s := by
  show String.ofList (replaceRows table s.toList) = s
  rw [replaceRows_of_notMem h, String.ofList_toList]

theorem replaceRows_append (table : EscapeTable) (cs ds : List Char) :
    replaceRows table (cs ++ ds) = replaceRows table cs ++ replaceRows table ds := by
  induction table generalizing cs ds with
  | nil => rfl
  | cons row table ih =>
    have first : replaceChar row.1 row.2 (cs ++ ds) =
        replaceChar row.1 row.2 cs ++ replaceChar row.1 row.2 ds := List.flatMap_append
    simp only [replaceRows_cons, first]
    exact ih _ _

/-- Every row has a character of its own, which is not in what an earlier row writes. -/
def EscapeTable.InOrder (table : EscapeTable) : Prop :=
  table.Pairwise fun row later => later.1 ≠ row.1 ∧ later.1 ∉ row.2.toList

instance (table : EscapeTable) : Decidable table.InOrder :=
  inferInstanceAs (Decidable (List.Pairwise _ _))

theorem EscapeTable.InOrder.names_nodup (h : table.InOrder) : (Entries.names table).Nodup := by
  rw [Entries.names, List.Nodup, List.pairwise_map]
  exact h.imp fun hrow => hrow.1.symm

/-- The rows write for a single character what its own row says. -/
theorem replaceRows_singleton (h : table.InOrder) (c : Char) :
    replaceRows table [c] = table.written c := by
  induction table with
  | nil => rfl
  | cons row table ih =>
    obtain ⟨target, reference⟩ := row
    obtain ⟨apart, inOrder⟩ := List.pairwise_cons.1 h
    by_cases hc : target = c
    · have first : replaceChar target reference [c] = reference.toList := by
        simp [replaceChar, hc]
      have later : replaceRows table reference.toList = reference.toList :=
        replaceRows_of_notMem fun row hrow => (apart row hrow).2
      rw [replaceRows_cons, first, later]
      simp [EscapeTable.written, Entries.get?, hc]
    · have first : replaceChar target reference [c] = [c] :=
        replaceChar_of_notMem (by simpa using hc)
      rw [replaceRows_cons, first, ih inOrder]
      simp [EscapeTable.written, Entries.get?, hc]

theorem replaceRows_eq (h : table.InOrder) (cs : List Char) :
    replaceRows table cs = cs.flatMap table.written := by
  induction cs with
  | nil => exact replaceRows_of_notMem (by simp)
  | cons c cs ih =>
    rw [← List.singleton_append, replaceRows_append, replaceRows_singleton h, ih,
      List.flatMap_append, List.flatMap_singleton]

/-- One pass writes what the rows write one after the other. -/
theorem escape_eq_replaceEach (h : table.InOrder) (s : String) :
    escape table s = replaceEach table s := by
  show String.ofList (s.toList.flatMap table.written) = String.ofList (replaceRows table s.toList)
  rw [replaceRows_eq h]

/-- No character of the table is left, unless a reference brings it back. -/
theorem notMem_escape {table : EscapeTable} {c : Char} (listed : c ∈ Entries.names table)
    (references : ∀ e ∈ table, c ∉ e.2.toList) (s : String) : c ∉ (escape table s).toList := by
  intro h
  simp only [escape, String.toList_ofList, List.mem_flatMap] at h
  obtain ⟨a, -, h⟩ := h
  cases hget : Entries.get? a table with
  | none =>
    obtain rfl : c = a := by simpa [hget] using h
    exact Entries.get?_eq_none_iff.1 hget listed
  | some reference =>
    simp only [hget, Option.map_some, Option.getD_some] at h
    exact references _ (Entries.mem_of_get? hget) h

/-! ### Replacing back -/

/-- References replaced by their characters from left to right. The first `skip` characters
belong to a reference that has been read. -/
def unescapeFrom (table : EscapeTable) : Nat → List Char → List Char
  | _, [] => []
  | skip + 1, _ :: cs => unescapeFrom table skip cs
  | 0, c :: cs =>
      match table.find? fun row => row.2.toList.isPrefixOf (c :: cs) with
      | some row => row.1 :: unescapeFrom table (row.2.toList.length - 1) cs
      | none => c :: unescapeFrom table 0 cs

/-- All references of a table replaced back in one pass. -/
def unescape (table : EscapeTable) (s : String) : String :=
  String.ofList (unescapeFrom table 0 s.toList)

/-- One pass for each row, from the last row to the first. -/
def unescapeEach (table : EscapeTable) (s : String) : String :=
  table.foldr (fun row s => unescape [row] s) s

/-- References that can be told apart: an ampersand starts each and stands nowhere else, none
is the start of another, and the ampersand itself has the first. -/
structure EscapeTable.Reversible (table : EscapeTable) : Prop where
  inOrder : table.InOrder
  ampersand : ∀ row ∈ table.head?, row.1 = '&'
  marked : ∀ row ∈ table, row.2.toList.head? = some '&' ∧ '&' ∉ row.2.toList.tail
  apart : ∀ row ∈ table, ∀ row' ∈ table, row.2.toList <+: row'.2.toList → row = row'

theorem EscapeTable.Reversible.exists_body (h : table.Reversible) {row : Char × String}
    (hrow : row ∈ table) : ∃ body, row.2.toList = '&' :: body ∧ '&' ∉ body := by
  obtain ⟨head, tail⟩ := h.marked row hrow
  cases hr : row.2.toList with
  | nil => simp [hr] at head
  | cons c body =>
    obtain rfl : c = '&' := by simpa [hr] using head
    exact ⟨body, rfl, by simpa [hr] using tail⟩

/-- The ampersand is in every table with a row at all. -/
theorem EscapeTable.Reversible.mem_names (h : table.Reversible) {row : Char × String}
    (hrow : row ∈ table) : '&' ∈ Entries.names table := by
  cases table with
  | nil => simp at hrow
  | cons first rest =>
    have head : first.1 = '&' := h.ampersand first rfl
    simp [Entries.names, head]

theorem EscapeTable.Reversible.of_append {row : Char × String}
    (h : EscapeTable.Reversible (table ++ [row])) : table.Reversible where
  inOrder := (List.pairwise_append.1 h.inOrder).1
  ampersand first hfirst := h.ampersand first (by
    cases table with
    | nil => simp at hfirst
    | cons => exact hfirst)
  marked r hr := h.marked r (List.mem_append_left _ hr)
  apart r hr r' hr' := h.apart r (List.mem_append_left _ hr) r' (List.mem_append_left _ hr')

theorem unescapeFrom_skip (xs : List Char) :
    unescapeFrom table xs.length (xs ++ cs) = unescapeFrom table 0 cs := by
  induction xs with
  | nil => rfl
  | cons x xs ih => exact ih

/-- A reference of the table is read as its character. -/
theorem unescapeFrom_reference (h : table.Reversible) (sub : read ⊆ table) {row : Char × String}
    (hrow : row ∈ read) :
    unescapeFrom read 0 (row.2.toList ++ cs) = row.1 :: unescapeFrom read 0 cs := by
  obtain ⟨body, hbody, -⟩ := h.exists_body (sub hrow)
  have found : (read.find? fun r => r.2.toList.isPrefixOf ('&' :: (body ++ cs))) = some row := by
    cases hfind : read.find? fun r => r.2.toList.isPrefixOf ('&' :: (body ++ cs)) with
    | none =>
      have := List.find?_eq_none.1 hfind row hrow
      simp [hbody] at this
    | some row' =>
      have mem := sub (List.mem_of_find?_eq_some hfind)
      have starts : row'.2.toList <+: row.2.toList ++ cs := by
        rw [hbody]
        simpa using List.find?_some hfind
      -- both references start the same run, so one of them starts the other
      rcases List.prefix_or_prefix_of_prefix starts (List.prefix_append row.2.toList cs) with hp | hp
      · rw [h.apart row' mem row (sub hrow) hp]
      · rw [h.apart row (sub hrow) row' mem hp]
  rw [hbody, List.cons_append, unescapeFrom, found]
  simp only [hbody, List.length_cons, Nat.add_sub_cancel]
  rw [unescapeFrom_skip]

/-- A character that starts no reference is read as it is. -/
theorem unescapeFrom_cons {c : Char} (h : ∀ row ∈ read, ¬ row.2.toList <+: c :: cs) :
    unescapeFrom read 0 (c :: cs) = c :: unescapeFrom read 0 cs := by
  have none : (read.find? fun row => row.2.toList.isPrefixOf (c :: cs)) = none := by
    rw [List.find?_eq_none]
    intro row hrow
    simpa using h row hrow
  rw [unescapeFrom, none]

/-- So is a run without ampersands. -/
theorem unescapeFrom_append (h : table.Reversible) (sub : read ⊆ table) {xs : List Char}
    (plain : '&' ∉ xs) : unescapeFrom read 0 (xs ++ cs) = xs ++ unescapeFrom read 0 cs := by
  induction xs with
  | nil => rfl
  | cons x xs ih =>
    rw [List.mem_cons, not_or] at plain
    rw [List.cons_append, unescapeFrom_cons, ih plain.2, List.cons_append]
    intro row hrow starts
    obtain ⟨body, hbody, -⟩ := h.exists_body (sub hrow)
    rw [hbody, List.cons_prefix_cons] at starts
    exact plain.1 starts.1

/-- A reference that is not among those to be read back stays, the whole of it. -/
theorem unescapeFrom_other (h : table.Reversible) (sub : read ⊆ table) {row : Char × String}
    (hrow : row ∈ table) (other : row ∉ read) :
    unescapeFrom read 0 (row.2.toList ++ cs) = row.2.toList ++ unescapeFrom read 0 cs := by
  obtain ⟨body, hbody, plain⟩ := h.exists_body hrow
  have first : ∀ r ∈ read, ¬ r.2.toList <+: '&' :: (body ++ cs) := by
    intro r hr starts
    rw [← List.cons_append, ← hbody] at starts
    rcases List.prefix_or_prefix_of_prefix starts (List.prefix_append row.2.toList cs) with hp | hp
    · exact other (h.apart r (sub hr) row hrow hp ▸ hr)
    · exact other (h.apart row hrow r (sub hr) hp ▸ hr)
  rw [hbody, List.cons_append, unescapeFrom_cons first, unescapeFrom_append h sub plain,
    List.cons_append]

/-- Reading some of the rows back leaves a text that was escaped with the others alone. -/
theorem unescapeFrom_written (h : table.Reversible) (sub : read ⊆ table) (cs : List Char) :
    unescapeFrom read 0 (cs.flatMap table.written) =
      cs.flatMap fun c => if c ∈ Entries.names read then [c] else table.written c := by
  induction cs with
  | nil => rfl
  | cons c cs ih =>
    rw [List.flatMap_cons, List.flatMap_cons, ← ih]
    cases hget : Entries.get? c table with
    | none =>
      have unlisted := Entries.get?_eq_none_iff.1 hget
      have unread : c ∉ Entries.names read := fun hc => unlisted (List.map_subset _ sub hc)
      rw [if_neg unread, written_of_notMem unlisted, List.singleton_append, List.singleton_append]
      apply unescapeFrom_cons
      intro row hrow starts
      obtain ⟨body, hbody, -⟩ := h.exists_body (sub hrow)
      rw [hbody, List.cons_prefix_cons] at starts
      exact unlisted (starts.1 ▸ h.mem_names (sub hrow))
    | some reference =>
      have hrow : (c, reference) ∈ table := Entries.mem_of_get? hget
      have hwritten : table.written c = reference.toList := by
        rw [EscapeTable.written, hget]
        rfl
      rw [hwritten]
      by_cases hc : c ∈ Entries.names read
      · obtain ⟨row, hread, rfl⟩ := List.mem_map.1 hc
        have own : row.2 = reference := by
          have := Entries.get?_of_mem h.inOrder.names_nodup (sub hread)
          exact Option.some.inj (this.symm.trans hget)
        rw [if_pos hc, ← own, unescapeFrom_reference h sub hread, List.singleton_append]
      · have other : (c, reference) ∉ read := fun hread => hc (List.mem_map_of_mem hread)
        rw [if_neg hc, unescapeFrom_other h sub hrow other]

/-- Replacing all references back in one pass undoes the escaping. -/
theorem unescape_escape (h : table.Reversible) (s : String) :
    unescape table (escape table s) = s := by
  have back : unescapeFrom table 0 (s.toList.flatMap table.written) = s.toList := by
    rw [unescapeFrom_written h (List.Subset.refl table)]
    have each : ∀ c, (if c ∈ Entries.names table then [c] else table.written c) = [c] := by
      intro c
      split
      next => rfl
      next unlisted => exact written_of_notMem unlisted
    simp only [each]
    exact List.flatMap_singleton' s.toList
  have whole : (escape table s).toList = s.toList.flatMap table.written := String.toList_ofList
  rw [unescape, whole, back, String.ofList_toList]

/-- Replacing the last row back leaves the text as the rows before it have escaped it. -/
theorem unescape_escape_append {row : Char × String}
    (h : EscapeTable.Reversible (table ++ [row])) (s : String) :
    unescape [row] (escape (table ++ [row]) s) = escape table s := by
  have sub : [row] ⊆ table ++ [row] := List.subset_append_right ..
  have each : ∀ c, (if c ∈ Entries.names [row] then [c] else EscapeTable.written (table ++ [row]) c) =
      table.written c := by
    intro c
    have nodup := h.inOrder.names_nodup
    by_cases hc : c = row.1
    · have unlisted : c ∉ Entries.names table := by
        rw [Entries.names, List.map_append, List.nodup_append] at nodup
        intro hmem
        exact nodup.2.2 c hmem row.1 (by simp) hc
      rw [if_pos (by simp [Entries.names, hc]), written_of_notMem unlisted]
    · rw [if_neg (by simpa [Entries.names] using hc), written_append_of_ne hc]
  have back := unescapeFrom_written h sub s.toList
  have whole : (escape (table ++ [row]) s).toList = s.toList.flatMap (EscapeTable.written (table ++ [row])) :=
    String.toList_ofList
  rw [unescape, whole, back]
  simp only [each]
  rfl

/-- The references replaced back row by row, from the last to the first, undo the escaping. -/
theorem unescapeEach_escape (h : table.Reversible) (s : String) :
    unescapeEach table (escape table s) = s := by
  induction table using List.reverseRecOn with
  | nil => simp [unescapeEach, escape, Entries.get?]
  | append_singleton table row ih =>
    rw [unescapeEach, List.foldr_append, List.foldr_cons, List.foldr_nil, unescape_escape_append h]
    exact ih h.of_append

/-- From the first row on, what began as a reference would come back as a bracket. -/
example : unescapeEach textEscapes "&amp;lt;" = "&lt;" ∧
    unescapeEach textEscapes.reverse "&amp;lt;" = "<" := by
  decide +kernel

theorem escape_injective (h : table.Reversible) : Function.Injective (escape table) :=
  Function.LeftInverse.injective (unescape_escape h)

theorem escape_append (table : EscapeTable) (s t : String) :
    escape table (s ++ t) = escape table s ++ escape table t := by
  simp [escape, String.toList_append, List.flatMap_append]

/-- In what is written for one character an ampersand can only come first, and then all of it
is the reference of the character. -/
theorem exists_row_of_written (h : table.Reversible) (listed : '&' ∈ Entries.names table) {c : Char}
    {left right : List Char} (split : table.written c = left ++ '&' :: right) :
    ∃ row ∈ table, row.1 = c ∧ row.2.toList = '&' :: right := by
  cases hget : Entries.get? c table with
  | none =>
    have unlisted := Entries.get?_eq_none_iff.1 hget
    have single : [c] = left ++ '&' :: right := (written_of_notMem unlisted).symm.trans split
    have hc : '&' ∈ [c] := single ▸ List.mem_append_right left (List.mem_cons_self ..)
    exact (unlisted (List.mem_singleton.1 hc ▸ listed)).elim
  | some reference =>
    have hrow : (c, reference) ∈ table := Entries.mem_of_get? hget
    obtain ⟨body, hbody, plain⟩ := h.exists_body hrow
    have whole : '&' :: body = left ++ '&' :: right := by
      rw [← hbody, ← split, EscapeTable.written, hget]
      rfl
    cases left with
    | nil => exact ⟨_, hrow, rfl, hbody.trans whole⟩
    | cons x left =>
      have inside : body = left ++ '&' :: right := (List.cons.inj whole).2
      exact (plain (inside ▸ List.mem_append_right left (List.mem_cons_self ..))).elim

/-- An ampersand in an escaped text starts the reference of a character of the text. -/
theorem ampersand_written (h : table.Reversible) (listed : '&' ∈ Entries.names table)
    (cs : List Char) {left right : List Char}
    (split : cs.flatMap table.written = left ++ '&' :: right) :
    ∃ row ∈ table, row.1 ∈ cs ∧ row.2.toList <+: '&' :: right := by
  induction cs generalizing left with
  | nil => simp at split
  | cons c cs ih =>
    have later : ∀ left, cs.flatMap table.written = left ++ '&' :: right →
        ∃ row ∈ table, row.1 ∈ c :: cs ∧ row.2.toList <+: '&' :: right := by
      intro left split
      obtain ⟨row, hrow, hmem, starts⟩ := ih split
      exact ⟨row, hrow, List.mem_cons_of_mem _ hmem, starts⟩
    rw [List.flatMap_cons, List.append_eq_append_iff] at split
    -- the ampersand is behind what is written for `c`, or in it
    rcases split with ⟨between, -, behind⟩ | ⟨between, here, behind⟩
    · exact later between behind
    · cases between with
      | nil => exact later [] behind.symm
      | cons x more =>
        obtain rfl : '&' = x := (List.cons.inj behind).1
        obtain ⟨row, hrow, hc, hreference⟩ := exists_row_of_written h listed here
        refine ⟨row, hrow, hc ▸ List.mem_cons_self .., ?_⟩
        rw [hreference, behind]
        exact List.prefix_append ..

/-! ### Both tables -/

/-- What a table for one place owes to the texts that are put there. -/
structure EscapeTable.Faithful (table : EscapeTable) : Prop where
  /-- Both ways to escape agree. -/
  replaced : ∀ s, escape table s = replaceEach table s
  /-- Every ampersand starts the reference of a character that was escaped. -/
  ampersands : ∀ s left right, (escape table s).toList = left ++ '&' :: right →
    ∃ row ∈ table, row.1 ∈ s.toList ∧ row.2.toList <+: '&' :: right
  restored : ∀ s, unescape table (escape table s) = s
  restoredEach : ∀ s, unescapeEach table (escape table s) = s
  injective : Function.Injective (escape table)
  append : ∀ s t, escape table (s ++ t) = escape table s ++ escape table t

theorem EscapeTable.Reversible.faithful (h : table.Reversible)
    (listed : '&' ∈ Entries.names table) : table.Faithful where
  replaced := escape_eq_replaceEach h.inOrder
  ampersands s _ _ split := ampersand_written h listed s.toList (by
    rw [← split]
    exact String.toList_ofList.symm)
  restored := unescape_escape h
  restoredEach := unescapeEach_escape h
  injective := escape_injective h
  append := escape_append table

theorem textEscapes_reversible : EscapeTable.Reversible textEscapes :=
  ⟨by decide, by decide, by decide, by decide⟩

theorem attributeEscapes_reversible : EscapeTable.Reversible attributeEscapes :=
  ⟨by decide, by decide, by decide, by decide⟩

/-- Both tables are faithful, and what they escape cannot end the place it is put in: between
tags there is no angle bracket left, and no double quote in the value of an attribute. -/
theorem escapes_faithful : EscapeTable.Faithful textEscapes ∧
    EscapeTable.Faithful attributeEscapes ∧
    (∀ s, '<' ∉ (escape textEscapes s).toList ∧ '>' ∉ (escape textEscapes s).toList) ∧
    ∀ s, '"' ∉ (escape attributeEscapes s).toList := by
  refine ⟨textEscapes_reversible.faithful (by decide),
    attributeEscapes_reversible.faithful (by decide), ?_, ?_⟩
  · intro s
    constructor
    · exact notMem_escape (by decide) (by decide) s
    · exact notMem_escape (by decide) (by decide) s
  · intro s
    exact notMem_escape (by decide) (by decide) s

end Text

end LiveTemplate
