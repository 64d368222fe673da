import LiveTemplate.Proofs.Literals
import LiveTemplate.Proofs.Names
import LiveTemplate.Token.Length

/-!
# Lengths of tokens

The lengths that the scanners put together are those of what they have scanned, and no slice
that they take is bad. So a token spans whole characters, at least one of them, and its texts
are among these.
-/
namespace LiveTemplate
open Text

namespace Text

variable {cs rest : List Char}

/-! ### Offsets -/

/-- The first such character, with what is in front of it and behind. -/
theorem firstOffset?_cases (x : Char) (cs : List Char) :
    (firstOffset? (· = x) cs = none ∧ cs.dropWhile (· ≠ x) = []) ∨
      ∃ before after, cs = before ++ x :: after ∧ x ∉ before ∧
        firstOffset? (· = x) cs = some (utf8Length before) ∧
        cs.takeWhile (· ≠ x) = before ∧ cs.dropWhile (· ≠ x) = x :: after := by
  induction cs with
  | nil => exact .inl ⟨rfl, rfl⟩
  | cons c cs ih =>
    by_cases hc : c = x
    · subst hc
      exact .inr ⟨[], cs, rfl, List.not_mem_nil, by simp [firstOffset?], by simp, by simp⟩
    · have other : decide (c ≠ x) = true := decide_eq_true hc
      rw [firstOffset?, if_neg (by simpa using hc),
        List.takeWhile_cons_of_pos (p := fun c => decide (c ≠ x)) other,
        List.dropWhile_cons_of_pos (p := fun c => decide (c ≠ x)) other]
      cases ih with
      | inl none => exact .inl ⟨by rw [none.1]; rfl, none.2⟩
      | inr some =>
        obtain ⟨before, after, rfl, clean, stop, taken, left⟩ := some
        refine .inr ⟨c :: before, after, rfl, ?_, by rw [stop]; rfl, by rw [taken], left⟩
        simp [clean, Ne.symm hc]

theorem runLength_eq (p : Char → Bool) (cs : List Char) :
    runLength p cs = utf8Length (cs.takeWhile p) := by
  induction cs with
  | nil => rfl
  | cons c cs ih =>
    rw [runLength, firstOffset?, List.takeWhile_cons]
    cases hc : p c with
    | false => rfl
    | true =>
      rw [runLength] at ih
      simp only [Bool.not_true, Bool.false_eq_true, if_false, if_true, utf8Length_cons, ← ih]
      cases firstOffset? (fun c => !p c) cs with
      | none => rfl
      | some offset => rfl

theorem utf8Length_eq_zero : utf8Length cs = 0 ↔ cs = [] := by
  cases cs with
  | nil => simp
  | cons c cs =>
    have := c.utf8Size_pos
    simp only [utf8Length_cons, reduceCtorEq, iff_false]
    omega

theorem takeBytes_takeWhile (p : Char → Bool) (cs : List Char) :
    takeBytes (utf8Length (cs.takeWhile p)) cs = .ok (cs.takeWhile p) := by
  have split := takeBytes_append (cs.takeWhile p) (cs.dropWhile p)
  rwa [List.takeWhile_append_dropWhile] at split

theorem dropBytes_takeWhile (p : Char → Bool) (cs : List Char) :
    dropBytes (utf8Length (cs.takeWhile p)) cs = .ok (cs.dropWhile p) := by
  have split := dropBytes_append (cs.takeWhile p) (cs.dropWhile p)
  rwa [List.takeWhile_append_dropWhile] at split

theorem excess_of_suffix (h : rest <:+ cs) :
    excess cs rest = .ok (utf8Length cs - utf8Length rest) := by
  rw [excess, if_neg (Nat.not_lt.2 (utf8Length_suffix h))]

theorem dropBytes_of_suffix (h : rest <:+ cs) :
    dropBytes (utf8Length cs - utf8Length rest) cs = .ok rest := by
  obtain ⟨before, rfl⟩ := h
  rw [utf8Length_append, Nat.add_sub_cancel]
  exact dropBytes_append before rest

/-- Parting a run succeeds exactly on the boundaries between the characters of its text. -/
theorem exists_splitBytes_iff {n : Nat} :
    (∃ parts, splitBytes n cs = .ok parts) ↔
      (⟨n⟩ : String.Pos.Raw).IsValid (String.ofList cs) := by
  rw [String.Pos.Raw.isValid_ofList]
  constructor
  · intro ⟨⟨before, behind⟩, h⟩
    obtain ⟨rfl, length⟩ := eq_of_splitBytes h
    exact ⟨before.length, by rw [List.take_left, utf8ByteSize_ofList, length]⟩
  · intro ⟨i, hi⟩
    rw [utf8ByteSize_ofList] at hi
    have split := splitBytes_append (cs.take i) (cs.drop i)
    rw [List.take_append_drop] at split
    exact ⟨_, hi ▸ split⟩

theorem dropLeadSliced_eq (cs : List Char) : dropLeadSliced cs = .ok (dropBrokenLead cs) := by
  have lead : excess cs (dropBlanks cs) = .ok (utf8Length (cs.takeWhile isBlank)) := by
    have h := excess_append (cs.takeWhile isBlank) (dropBlanks cs)
    rwa [dropBlanks, List.takeWhile_append_dropWhile] at h
  rw [dropLeadSliced, lead, ok_bind, takeBytes_takeWhile, ok_bind, dropBytes_takeWhile, dropBrokenLead]
  split
  next => rfl
  next => rfl

theorem dropTailSliced_eq (cs : List Char) :
    dropTailSliced cs = .ok (dropBrokenLead cs.reverse).reverse := by
  have whole : dropBlanksEnd cs ++ (cs.reverse.takeWhile isBlank).reverse = cs := by
    rw [dropBlanksEnd, dropBlanks, ← List.reverse_append, List.takeWhile_append_dropWhile,
      List.reverse_reverse]
  have tail := dropBytes_append (dropBlanksEnd cs) (cs.reverse.takeWhile isBlank).reverse
  rw [whole] at tail
  simp only [dropTailSliced, tail, ok_bind, pure_eq_ok, List.mem_reverse, dropBrokenLead]
  split
  next => rfl
  next => rw [List.reverse_reverse]

/-- Trimmed by slices, a text is trimmed. -/
theorem trimSliced_eq (cs : List Char) : trimSliced cs = .ok (trimLineBreaks cs) := by
  rw [trimSliced, dropLeadSliced_eq, ok_bind, dropTailSliced_eq, trimLineBreaks]

end Text

namespace Token

/-- A token that is scanned, with the length of what was scanned. -/
def measured {τ : Type} (cs : List Char) (found : τ × List Char) : τ × Nat :=
  (found.1, utf8Length cs - utf8Length found.2)

variable {cs : List Char}

namespace Content

theorem measureCommentStart_eq (cs : List Char) :
    measureCommentStart ('<' :: cs) = .ok ((commentStart? cs).map (measured ('<' :: cs))) := by
  unfold commentStart?
  split
  next rest =>
    have length : utf8Length ('<' :: '!' :: '-' :: '-' :: rest) = 4 + utf8Length rest :=
      utf8Length_append ['<', '!', '-', '-'] rest
    simp only [measureCommentStart, Option.map_some, measured, length, Nat.add_sub_cancel]
  next no =>
    unfold measureCommentStart
    split
    next rest heq => exact (no _ (List.cons.inj heq).2).elim
    next => rfl

theorem measureOpenTag_eq (cs : List Char) :
    measureOpenTag ('<' :: cs) = .ok ((openTag? cs).map (measured ('<' :: cs))) := by
  have suffix : dropBlanks cs <:+ '<' :: cs := (dropBlanks_suffix cs).trans (List.suffix_cons ..)
  simp only [measureOpenTag, openTag?, runLength_eq, utf8Length_eq_zero]
  split
  next => rfl
  next named =>
    have whole := congrArg utf8Length
      (List.takeWhile_append_dropWhile (p := isTagNameChar) (l := dropBlanks cs))
    rw [utf8Length_append] at whole
    have length := utf8Length_suffix suffix
    rw [excess_of_suffix suffix, takeBytes_takeWhile]
    simp only [ok_bind, pure_eq_ok, Option.map_some, measured]
    congr 3
    omega

theorem measureCloseTag_eq (cs : List Char) :
    measureCloseTag ('<' :: cs) = .ok ((closeTag? cs).map (measured ('<' :: cs))) := by
  -- only the scan is split, since both sides have the same matches
  unfold closeTag?
  split
  next run hrun =>
    have ahead : dropBlanks run <:+ '<' :: cs :=
      (((dropBlanks_suffix run).trans (List.suffix_cons '/' run)).trans
        (hrun ▸ dropBlanks_suffix cs)).trans (List.suffix_cons '<' cs)
    simp only
    split
    next after hafter =>
      have suffix : after <:+ '<' :: cs :=
        (((List.suffix_cons '>' after).trans (hafter ▸ dropBlanks_suffix _)).trans
          (List.dropWhile_suffix _)).trans ahead
      simp only [measureCloseTag, hrun, runLength_eq, utf8Length_eq_zero, takeBytes_takeWhile,
        dropBytes_takeWhile, ok_bind, pure_eq_ok, hafter, excess_of_suffix suffix]
      split
      next => rfl
      next => rfl
    next no =>
      simp only [measureCloseTag, hrun, runLength_eq, utf8Length_eq_zero, takeBytes_takeWhile,
        dropBytes_takeWhile, ok_bind, pure_eq_ok]
      split
      next => rfl
      next => rfl
  next no =>
    simp only [measureCloseTag]
    rfl

theorem utf8Size_toLower (c : Char) : c.toLower.utf8Size = c.utf8Size := by
  apply apply_toLower (b := 1)
  intro c letter
  have range := range_of_isAlpha letter
  have ascii : c.toNat ≤ 127 := by omega
  exact Char.utf8Size_eq_one_iff.2 (UInt32.le_iff_toNat_le.2 ascii)

/-- What is the keyword but for the case of its letters has seven bytes. -/
theorem utf8Length_keyword {probe : List Char} (h : probe.map Char.toLower = "doctype".toList) :
    utf8Length probe = 7 := by
  have same : ∀ cs : List Char, utf8Length (cs.map Char.toLower) = utf8Length cs := by
    intro cs
    induction cs with
    | nil => rfl
    | cons c cs ih => rw [List.map_cons, utf8Length_cons, utf8Length_cons, ih, utf8Size_toLower]
  rw [← same, h]
  rfl

/-- Seven bytes are probed, but a keyword that is found has seven characters. -/
theorem takeBytes_keyword {keyword probe : List Char} (h : takeBytes 7 keyword = .ok probe)
    (hprobe : probe.map Char.toLower = "doctype".toList) : keyword.take 7 = probe := by
  obtain ⟨behind, rfl, -⟩ := eq_of_takeBytes h
  have seven : probe.length = 7 := by
    rw [← List.length_map (f := Char.toLower), hprobe]
    rfl
  rw [← seven, List.take_left]

theorem measureDoctype_eq (cs : List Char) :
    measureDoctype ('<' :: cs) = .ok ((doctype? cs).map (measured ('<' :: cs))) := by
  unfold doctype?
  split
  next keyword =>
    by_cases key : (keyword.take 7).map Char.toLower = "doctype".toList
    · have parts := splitBytes_append (keyword.take 7) (keyword.drop 7)
      rw [utf8Length_keyword key, List.take_append_drop] at parts
      have probe : takeBytes 7 keyword = .ok (keyword.take 7) := by rw [takeBytes, parts]; rfl
      have behind : dropBytes 7 keyword = .ok (keyword.drop 7) := by rw [dropBytes, parts]; rfl
      rw [if_pos key]
      split
      next body hbody =>
        have suffix : body <:+ '<' :: '!' :: keyword :=
          (((List.suffix_cons ' ' body).trans (hbody ▸ List.drop_suffix 7 keyword)).trans
            (List.suffix_cons '!' keyword)).trans (List.suffix_cons '<' _)
        have fits := utf8Length_suffix suffix
        simp only [measureDoctype, probe, behind, key, if_true, ok_bind, hbody]
        rcases firstOffset?_cases '>' body with
          ⟨stop, left⟩ | ⟨before, after, rfl, clean, stop, -, left⟩
        · rw [stop, left]
          rfl
        · simp only [stop, left, utf8Length_eq_zero, excess_of_suffix suffix]
          cases before with
          | nil => rfl
          | cons c before =>
            have head : (c :: before ++ '>' :: after).head? ≠ some '>' := by
              rintro ⟨⟩
              exact clean (List.mem_cons_self ..)
            have wide : ('>' : Char).utf8Size = 1 := rfl
            simp only [utf8Length_append, utf8Length_cons '>', wide] at fits
            rw [if_neg (List.cons_ne_nil c before), if_neg head]
            simp only [ok_bind, pure_eq_ok, Option.map_some, measured, utf8Length_append,
              utf8Length_cons '>', wide]
            congr 3
            omega
      next no =>
        simp only [measureDoctype, probe, behind, key, if_true, ok_bind]
        rfl
    · rw [if_neg key, measureDoctype]
      split
      next => rfl
      next probe hprobe =>
        rw [if_neg fun h => key (takeBytes_keyword hprobe h ▸ h)]
        rfl
  next no =>
    unfold measureDoctype
    split
    next keyword heq => exact (no keyword (List.cons.inj heq).2).elim
    next => rfl

theorem orElseFound_ok {α : Type} (first second : Option α) :
    orElseFound (.ok first) (.ok second) = .ok (first.or second) := by
  cases first with
  | none => rfl
  | some a => rfl

theorem measureMarkup_eq (cs : List Char) :
    measureMarkup ('<' :: cs) = .ok ((markup? cs).map (measured ('<' :: cs))) := by
  rw [measureMarkup, measureDoctype_eq, measureCommentStart_eq, measureCloseTag_eq,
    measureOpenTag_eq]
  simp only [orElseFound_ok, markup?, Option.orElse_eq_orElse, Option.orElse_eq_or, Option.map_or]

/-- A text is cut off by its own length. -/
theorem measure_text {cs run behind : List Char} {length : Nat} (split : run ++ behind = cs)
    (hlength : length = utf8Length run) :
    (do let run ← takeBytes length cs; pure (.text run, length) : Sliced (Content × Nat)) =
      .ok (measured cs (.text run, behind)) := by
  subst split hlength
  rw [takeBytes_append, measured, utf8Length_append, Nat.add_sub_cancel]
  rfl

/-- The token of `scan` is measured. -/
theorem measure_eq (cs : List Char) : measure cs = .ok (measured cs (scan cs)) := by
  have suffix := dropBlanks_suffix cs
  have length := utf8Length_suffix suffix
  rw [measure, scan, excess_of_suffix suffix, ok_bind, dropBytes_of_suffix suffix, ok_bind]
  split
  next rest hrest =>
    rw [hrest] at length
    simp only [hrest, measureMarkup_eq, ok_bind]
    cases hmarkup : markup? rest with
    | some found =>
      have behind := utf8Length_suffix ((markup?_suffix hmarkup).trans (List.suffix_cons '<' rest))
      simp only [Option.map_some, measured, pure_eq_ok, Option.getD_some]
      congr 2
      omega
    | none =>
      have one : dropBytes 1 ('<' :: rest) = .ok rest := dropBytes_append ['<'] rest
      have whole : cs.takeWhile isBlank ++ '<' :: rest = cs := by
        rw [← hrest]
        exact List.takeWhile_append_dropWhile
      have bracket : rest.takeWhile (· ≠ '<') ++ rest.dropWhile (· ≠ '<') = rest :=
        List.takeWhile_append_dropWhile
      have wide : ('<' : Char).utf8Size = 1 := rfl
      have blanks := congrArg utf8Length whole
      simp only [one, ok_bind, Option.map_none, Option.getD_none, runLength_eq]
      apply measure_text
      · rw [List.append_assoc, List.cons_append, bracket, whole]
      · simp only [utf8Length_append, utf8Length_cons, wide] at blanks ⊢
        omega
  next no =>
    split
    next rest hrest => exact (no rest hrest).elim
    next =>
      rw [runLength_eq]
      exact measure_text List.takeWhile_append_dropWhile rfl

/-- The seven bytes that are probed end inside a character. -/
example : measure "<!doctypé>".toList = .ok (.text "<!doctypé>".toList, 11) := by decide +kernel

end Content

namespace Tag

theorem utf8Size_of_isSigil {c : Char} (h : isSigil c = true) : c.utf8Size = 1 := by
  simp only [isSigil, Bool.or_eq_true, beq_iff_eq] at h
  rcases h with (rfl | rfl) | rfl <;> rfl

theorem measureName?_eq (cs : List Char) : measureName? cs = .ok ((name? cs).map (measured cs)) := by
  have bare : ∀ sigil body : List Char, cs = sigil ++ body →
      (if runLength isAttrNameChar body = 0 then pure none
        else do
          let run ← takeBytes (utf8Length sigil + runLength isAttrNameChar body) cs
          pure (some (.name run, utf8Length sigil + runLength isAttrNameChar body))) =
        (.ok ((if body.takeWhile isAttrNameChar = [] then none
          else some (Tag.name (sigil ++ body.takeWhile isAttrNameChar),
            body.dropWhile isAttrNameChar)).map (measured cs)) : Sliced (Option (Tag × Nat))) := by
    intro sigil body split
    rw [runLength_eq]
    simp only [utf8Length_eq_zero]
    split
    next => rfl
    next =>
      have whole : cs = (sigil ++ body.takeWhile isAttrNameChar) ++ body.dropWhile isAttrNameChar := by
        rw [List.append_assoc, List.takeWhile_append_dropWhile, split]
      rw [whole, ← utf8Length_append, takeBytes_append]
      simp only [ok_bind, pure_eq_ok, Option.map_some, measured, utf8Length_append]
      congr 3
      omega
  cases cs with
  | nil => rfl
  | cons c rest =>
    by_cases hc : isSigil c = true
    · have one : dropBytes 1 (c :: rest) = .ok rest := by
        rw [← utf8Size_of_isSigil hc]
        exact dropBytes_append [c] rest
      have signed := bare [c] rest rfl
      rw [utf8Length_cons, utf8Size_of_isSigil hc] at signed
      simpa [measureName?, name?, hc, one] using signed
    · have zero : dropBytes 0 (c :: rest) = .ok (c :: rest) := dropBytes_append [] (c :: rest)
      have plain := bare [] (c :: rest) rfl
      simpa [measureName?, name?, hc, zero] using plain

/-- The token of `scan?` is measured. -/
theorem measure?_eq (cs : List Char) : measure? cs = .ok ((scan? cs).map (measured cs)) := by
  have fixed : ∀ (token : Tag) (before rest : List Char),
      Except.ok (some (token, utf8Length before)) =
        (.ok (some (measured (before ++ rest) (token, rest))) : Sliced (Option (Tag × Nat))) := by
    intro token before rest
    rw [measured, utf8Length_append, Nat.add_sub_cancel]
  unfold scan?
  split
  next rest => exact fixed (.tagEnd true) ['/', '>'] rest
  next rest => exact fixed (.tagEnd false) ['>'] rest
  next rest => exact fixed .equals ['='] rest
  next rest => exact fixed .ellipsis ['.', '.', '.'] rest
  next slash bracket equals dots =>
    unfold measure?
    split
    next rest => exact (slash rest rfl).elim
    next rest => exact (bracket rest rfl).elim
    next rest => exact (equals rest rfl).elim
    next rest => exact (dots rest rfl).elim
    next => exact measureName?_eq cs

end Tag

namespace Value

theorem utf8Size_of_isQuote {c : Char} (h : isQuote c = true) : c.utf8Size = 1 := by
  simp only [isQuote, Bool.or_eq_true, beq_iff_eq] at h
  rcases h with rfl | rfl <;> rfl

theorem measureQuoted?_eq {quote : Char} (wide : quote.utf8Size = 1) (cs : List Char) :
    measureQuoted? quote (quote :: cs) = .ok ((quoted? quote cs).map (measured (quote :: cs))) := by
  have one : dropBytes 1 (quote :: cs) = .ok cs := by
    rw [← wide]
    exact dropBytes_append [quote] cs
  rw [measureQuoted?, one, ok_bind, quoted?]
  rcases firstOffset?_cases quote cs with
    ⟨stop, left⟩ | ⟨before, after, rfl, -, stop, taken, left⟩
  · have alone : utf8Length (quote :: cs) = 1 ↔ cs = [] := by
      rw [utf8Length_cons, wide, ← utf8Length_eq_zero]
      omega
    simp only [stop, left, alone]
    split
    next hcs =>
      rw [Option.map_some, measured, alone.2 hcs]
      rfl
    next => rfl
  · have slice := sliceBytes_append [quote] before (quote :: after)
    simp only [utf8Length_cons, utf8Length_nil, wide, Nat.add_zero, List.singleton_append] at slice
    simp only [stop, taken, left, slice, ok_bind, pure_eq_ok, Option.map_some, measured,
      utf8Length_append, utf8Length_cons, wide]
    congr 3
    omega

/-- The token of `scan?` is measured. -/
theorem measure?_eq (cs : List Char) : measure? cs = .ok ((scan? cs).map (measured cs)) := by
  cases cs with
  | nil => rfl
  | cons c rest =>
    by_cases hquote : isQuote c = true
    · rw [measure?, scan?, if_pos hquote, if_pos hquote]
      exact measureQuoted?_eq (utf8Size_of_isQuote hquote) rest
    · have first : (c :: rest).takeWhile isUnquotedChar = [] ↔ ¬isUnquotedChar c = true := by
        simp [List.takeWhile_cons]
      rw [measure?, scan?, if_neg hquote, if_neg hquote]
      simp only [runLength_eq, utf8Length_eq_zero, first, takeBytes_takeWhile]
      by_cases hc : isUnquotedChar c = true
      · have whole := congrArg utf8Length
          (List.takeWhile_append_dropWhile (p := isUnquotedChar) (l := c :: rest))
        rw [utf8Length_append] at whole
        rw [if_neg (not_not_intro hc), if_pos hc]
        simp only [ok_bind, pure_eq_ok, Option.map_some, measured]
        congr 3
        omega
      · rw [if_pos hc, if_neg hc]
        rfl

end Value

/-- A comment stops where the first closing sequence is. -/
theorem commentStop?_cases (cs : List Char) :
    (commentStop? cs = none ∧ afterComment? cs = none) ∨
      ∃ before rest, cs = before ++ '-' :: '-' :: '>' :: rest ∧
        commentStop? cs = some (utf8Length before) ∧ afterComment? cs = some rest := by
  fun_induction afterComment? cs with
  | case1 rest => exact .inr ⟨[], rest, rfl, rfl, rfl⟩
  | case2 c cs no ih =>
    rw [commentStop?]
    · cases ih with
      | inl none =>
        rw [none.1]
        exact .inl ⟨rfl, none.2⟩
      | inr some =>
        obtain ⟨before, rest, rfl, stop, after⟩ := some
        rw [stop]
        exact .inr ⟨c :: before, rest, rfl, rfl, after⟩
    · exact no
  | case3 => exact .inl ⟨rfl, rfl⟩

/-! ### What a token spans -/

/-- The slice stands in a run, in front of the rest of it. -/
def Within (cs rest slice : List Char) : Prop :=
  ∃ before behind, cs = before ++ (slice ++ (behind ++ rest))

theorem Within.prepend {cs ds rest slice : List Char} (h : Within cs rest slice) (suffix : cs <:+ ds) :
    Within ds rest slice := by
  obtain ⟨ahead, rfl⟩ := suffix
  obtain ⟨before, behind, rfl⟩ := h
  exact ⟨ahead ++ before, behind, by simp only [List.append_assoc]⟩

theorem within_takeWhile (p : Char → Bool) (cs : List Char) :
    Within cs (cs.dropWhile p) (cs.takeWhile p) :=
  ⟨[], [], List.takeWhile_append_dropWhile.symm⟩

/-- A length that a token may have: one byte or more of the input, up to the end of a character
and to the rest, with the texts of the token cut out of them. -/
structure Spans (input : String) (length : Nat) (slices : List (List Char)) (rest : List Char) :
    Prop where
  pos : 1 ≤ length
  le : length ≤ input.utf8ByteSize
  boundary : (⟨length⟩ : String.Pos.Raw).IsValid input
  behind : dropBytes length input.toList = .ok rest
  inside : ∀ slice ∈ slices, ∃ start, start + utf8Length slice ≤ length ∧
    sliceBytes start (start + utf8Length slice) input.toList = .ok slice

/-- What is scanned off the front of an input is spanned. -/
theorem spans_of_suffix {input : String} {rest : List Char} {slices : List (List Char)}
    (suffix : rest <:+ input.toList) (shorter : rest.length < input.toList.length)
    (inside : ∀ slice ∈ slices, Within input.toList rest slice) :
    Spans input (utf8Length input.toList - utf8Length rest) slices rest := by
  have less := utf8Length_suffix_lt suffix shorter
  constructor
  · omega
  · rw [← utf8Length_toList]
    omega
  · rw [← String.ofList_toList (s := input), String.toList_ofList, ← exists_splitBytes_iff]
    obtain ⟨before, hbefore⟩ := suffix
    exact ⟨(before, rest), by rw [← hbefore, utf8Length_append, Nat.add_sub_cancel, splitBytes_append]⟩
  · exact dropBytes_of_suffix suffix
  · intro slice hslice
    obtain ⟨before, behind, whole⟩ := inside slice hslice
    refine ⟨utf8Length before, ?_, ?_⟩
    · rw [whole]
      simp only [utf8Length_append]
      omega
    · rw [whole]
      exact sliceBytes_append before slice (behind ++ rest)

/-- What is scanned is measured, and what is not is not. -/
def Measures {τ : Type} (slices : τ → List (List Char)) (input : String)
    (found : Sliced (Option (τ × Nat))) : Option (τ × List Char) → Prop
  | none => found = .ok none
  | some (token, rest) => ∃ length, found = .ok (some (token, length)) ∧
      Spans input length (slices token) rest

namespace Content

theorem closeTag?_within {cs after : List Char} {token : Content}
    (h : closeTag? cs = some (token, after)) : ∀ slice ∈ token.slices, Within cs after slice := by
  unfold closeTag? at h
  split at h <;> try contradiction
  next run hrun =>
    simp only at h
    split at h <;> try contradiction
    next after' hafter =>
      split at h <;> try contradiction
      obtain ⟨rfl, rfl⟩ := Prod.mk.inj (Option.some.inj h)
      intro slice hslice
      obtain rfl := List.mem_singleton.1 hslice
      have inside : Within (dropBlanks run) after' ((dropBlanks run).takeWhile isTagNameChar) := by
        obtain ⟨blanks, hblanks⟩ := dropBlanks_suffix ((dropBlanks run).dropWhile isTagNameChar)
        rw [hafter] at hblanks
        refine ⟨[], blanks ++ ['>'], ?_⟩
        rw [List.nil_append, List.append_assoc, List.singleton_append, hblanks,
          List.takeWhile_append_dropWhile]
      exact inside.prepend (((dropBlanks_suffix run).trans (List.suffix_cons '/' run)).trans
        (hrun ▸ dropBlanks_suffix cs))

theorem openTag?_within {cs after : List Char} {token : Content}
    (h : openTag? cs = some (token, after)) : ∀ slice ∈ token.slices, Within cs after slice := by
  simp only [openTag?] at h
  split at h <;> try contradiction
  obtain ⟨rfl, rfl⟩ := Prod.mk.inj (Option.some.inj h)
  intro slice hslice
  obtain rfl := List.mem_singleton.1 hslice
  exact (within_takeWhile isTagNameChar (dropBlanks cs)).prepend (dropBlanks_suffix cs)

theorem markup?_within {cs after : List Char} {token : Content}
    (h : markup? cs = some (token, after)) : ∀ slice ∈ token.slices, Within cs after slice := by
  rcases markup?_cases h with h | h | h | h
  · rw [doctype?_fst h]
    simp [slices]
  · rw [commentStart?_fst h]
    simp [slices]
  · exact closeTag?_within h
  · exact openTag?_within h

theorem scan_within (cs : List Char) : ∀ slice ∈ (scan cs).1.slices, Within cs (scan cs).2 slice := by
  have text : ∀ run behind : List Char, run ++ behind = cs →
      ∀ slice ∈ (Content.text run).slices, Within cs behind slice := by
    intro run behind split slice hslice
    obtain rfl := List.mem_singleton.1 hslice
    exact ⟨[], [], split.symm⟩
  unfold scan
  split
  next rest hrest =>
    have suffix : rest <:+ cs := (List.suffix_cons '<' rest).trans (hrest ▸ dropBlanks_suffix cs)
    cases hmarkup : markup? rest with
    | some found =>
      obtain ⟨token, after⟩ := found
      exact fun slice hslice => (markup?_within hmarkup slice hslice).prepend suffix
    | none =>
      apply text
      rw [Option.getD_none, List.append_assoc, List.cons_append, List.takeWhile_append_dropWhile,
        ← hrest]
      exact List.takeWhile_append_dropWhile
  next => exact text _ _ List.takeWhile_append_dropWhile

end Content

theorem Tag.scan?_within {cs rest : List Char} {token : Tag} (h : scan? cs = some (token, rest)) :
    ∀ slice ∈ token.slices, Within cs rest slice := by
  unfold scan? at h
  split at h
  case h_5 =>
    simp only [name?] at h
    split at h <;> try contradiction
    obtain ⟨rfl, rfl⟩ := Prod.mk.inj (Option.some.inj h)
    intro slice hslice
    obtain rfl := List.mem_singleton.1 hslice
    refine ⟨[], [], ?_⟩
    rw [List.nil_append, List.nil_append, List.append_assoc, List.takeWhile_append_dropWhile]
    cases cs with
    | nil => rfl
    | cons c rest =>
      cases hc : isSigil c with
      | true => simp [hc]
      | false => simp [hc]
  all_goals
    obtain ⟨rfl, -⟩ := Prod.mk.inj (Option.some.inj h)
    simp [slices]

theorem Value.scan?_within {cs rest : List Char} {token : Value}
    (h : scan? cs = some (token, rest)) : ∀ slice ∈ token.slices, Within cs rest slice := by
  unfold scan? at h
  split at h <;> try contradiction
  next c run =>
    split at h
    next =>
      unfold quoted? at h
      split at h
      next x after hafter =>
        obtain ⟨rfl, rfl⟩ := Prod.mk.inj (Option.some.inj h)
        intro slice hslice
        obtain rfl := List.mem_singleton.1 hslice
        refine ⟨[c], [x], ?_⟩
        rw [List.singleton_append, List.singleton_append, ← hafter, List.takeWhile_append_dropWhile]
      next =>
        split at h <;> try contradiction
        obtain ⟨rfl, -⟩ := Prod.mk.inj (Option.some.inj h)
        simp [slices]
    next =>
      split at h <;> try contradiction
      obtain ⟨rfl, rfl⟩ := Prod.mk.inj (Option.some.inj h)
      intro slice hslice
      obtain rfl := List.mem_singleton.1 hslice
      exact within_takeWhile isUnquotedChar (c :: run)

/-- Among content something is scanned in whatever is left. -/
theorem Content.measure_spans {input : String} (h : input ≠ "") :
    ∃ length, measure input.toList = .ok ((scan input.toList).1, length) ∧
      Spans input length (scan input.toList).1.slices (scan input.toList).2 := by
  have more : input.toList ≠ [] := by simpa using h
  exact ⟨_, measure_eq _,
    spans_of_suffix (scan_suffix _) (scan_length_lt more) (scan_within input.toList)⟩

theorem Tag.measure?_measures (input : String) :
    Measures slices input (measure? input.toList) (scan? input.toList) := by
  rw [measure?_eq]
  cases hscan : scan? input.toList with
  | none => rfl
  | some found =>
    exact ⟨_, rfl, spans_of_suffix (scan?_suffix hscan) (scan?_length_lt hscan) (scan?_within hscan)⟩

theorem Value.measure?_measures (input : String) :
    Measures slices input (measure? input.toList) (scan? input.toList) := by
  rw [measure?_eq]
  cases hscan : scan? input.toList with
  | none => rfl
  | some found =>
    exact ⟨_, rfl, spans_of_suffix (scan?_suffix hscan).1 (scan?_length_lt hscan) (scan?_within hscan)⟩

end Token

end LiveTemplate
