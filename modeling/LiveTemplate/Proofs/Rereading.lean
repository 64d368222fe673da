import LiveTemplate.Proofs.Canonical
import LiveTemplate.Proofs.Transcripts

/-!
# Skeletons read again

Markup of a skeleton without holes is read again with the same elements, the same attributes
and the same nesting, unless something that is literal in the skeleton means something else where
the markup puts it. There are three such things: a quote in a value, which ends the quotes that
are put around the value; texts that were parted by what is not in the skeleton, and begin markup
together; and the beginning of a document type that nothing ends before the next tag. An opening
bracket that was read as text begins nothing with the text behind it, so it stays text as long
as a tag comes next.
-/
namespace LiveTemplate
open Text

namespace Token

section
variable {p : Char → Bool} {l r : List Char} {c : Char}

/-- A run ends in front of a character that stops it, whatever follows. -/
theorem span_stop (h : p c = false) : (l ++ c :: r).takeWhile p = l.takeWhile p ∧
    (l ++ c :: r).dropWhile p = l.dropWhile p ++ c :: r := by
  induction l with
  | nil => simp [h]
  | cons a l ih =>
    cases ha : p a with
    | true => simpa [ha] using ih
    | false => simp [ha]

/-- A run that has ended goes no further. -/
theorem span_further (h : l.dropWhile p ≠ []) : (l ++ r).takeWhile p = l.takeWhile p ∧
    (l ++ r).dropWhile p = l.dropWhile p ++ r := by
  induction l with
  | nil => simp at h
  | cons a l ih =>
    cases ha : p a with
    | true => simpa [ha] using ih (by simpa [ha] using h)
    | false => simp [ha]

end

namespace Content
variable {t u rest : List Char}

theorem markup?_eq_none : markup? t = none ↔
    doctype? t = none ∧ commentStart? t = none ∧ closeTag? t = none ∧ openTag? t = none := by
  simp [markup?]

/-- A document type begins that has no end yet. -/
def OpensDoctype (t : List Char) : Prop :=
  ∃ run body, t = '!' :: run ∧ (run.take 7).map Char.toLower = "doctype".toList ∧
    run.drop 7 = ' ' :: body ∧ '>' ∉ body

/-! What stands behind a token does not change it. -/

/-- Behind the keyword and the space only a closing bracket matters, and not the first place. -/
theorem doctype?_eq_none {run body : List Char}
    (hkeyword : (run.take 7).map Char.toLower = "doctype".toList) (hbody : run.drop 7 = ' ' :: body) :
    doctype? ('!' :: run) = none ↔ '>' ∉ body ∨ body.head? = some '>' := by
  rw [doctype?, if_pos hkeyword]
  simp only [hbody]
  cases hend : body.dropWhile (fun c => decide (c ≠ '>')) with
  | nil =>
    have habsent : '>' ∉ body := fun hmem => by
      simpa using List.dropWhile_eq_nil_iff.1 hend _ hmem
    simp [habsent]
  | cons c after =>
    obtain rfl : c = '>' := by
      have hc := List.head_dropWhile_not (p := fun c => decide (c ≠ '>')) (l := body)
        (by rw [hend]; exact List.cons_ne_nil _ _)
      simp only [hend, List.head_cons] at hc
      simpa using hc
    have hmem : '>' ∈ body := (List.dropWhile_suffix _).subset (hend ▸ List.mem_cons_self ..)
    simp [hmem]

/-- What a document type is, if there is one. -/
theorem keyword_of_doctype? (h : doctype? t ≠ none) : ∃ run body, t = '!' :: run ∧
    (run.take 7).map Char.toLower = "doctype".toList ∧ run.drop 7 = ' ' :: body := by
  unfold doctype? at h
  split at h <;> try contradiction
  next run =>
    split at h <;> try contradiction
    next hkeyword =>
      split at h <;> try contradiction
      next body hbody => exact ⟨run, body, rfl, hkeyword, hbody⟩

theorem doctype?_further (h : doctype? t ≠ none) : doctype? (t ++ u) ≠ none := by
  obtain ⟨run, body, rfl, hkeyword, hbody⟩ := keyword_of_doctype? h
  have hlength : 7 ≤ run.length := by
    have := congrArg List.length hbody
    simp only [List.length_drop, List.length_cons] at this
    omega
  have hkeyword' : ((run ++ u).take 7).map Char.toLower = "doctype".toList := by
    rwa [List.take_append_of_le_length hlength]
  have hbody' : (run ++ u).drop 7 = ' ' :: (body ++ u) := by
    rw [List.drop_append_of_le_length hlength, hbody]
    rfl
  rw [ne_eq, doctype?_eq_none hkeyword hbody, not_or, not_not] at h
  rw [List.cons_append, ne_eq, doctype?_eq_none hkeyword' hbody', not_or, not_not]
  obtain ⟨c, cs, rfl⟩ := List.exists_cons_of_ne_nil (List.ne_nil_of_mem h.1)
  exact ⟨List.mem_append_left _ h.1, h.2⟩

theorem commentStart?_further (h : commentStart? t ≠ none) : commentStart? (t ++ u) ≠ none := by
  unfold commentStart? at h
  split at h
  · simp [commentStart?]
  · contradiction

theorem closeTag?_further (h : closeTag? t ≠ none) : closeTag? (t ++ u) ≠ none := by
  unfold closeTag? at h
  split at h <;> try contradiction
  next run hslash =>
    simp only at h
    split at h <;> try contradiction
    next after hend =>
      split at h <;> try contradiction
      next hname =>
        have hrest : (dropBlanks run).dropWhile isTagNameChar ≠ [] := by
          intro hnil
          rw [hnil] at hend
          contradiction
        have hbody : dropBlanks run ≠ [] := by
          intro hnil
          simp [hnil] at hrest
        have hslash' : dropBlanks (t ++ u) = '/' :: (run ++ u) := by
          rw [dropBlanks, (span_further (by rw [← dropBlanks, hslash]; exact List.cons_ne_nil _ _)).2,
            ← dropBlanks, hslash]
          rfl
        have hbody' : dropBlanks (run ++ u) = dropBlanks run ++ u := (span_further hbody).2
        have hend' : dropBlanks ((dropBlanks run).dropWhile isTagNameChar ++ u) =
            '>' :: (after ++ u) := by
          rw [dropBlanks, (span_further (by rw [← dropBlanks, hend]; exact List.cons_ne_nil _ _)).2,
            ← dropBlanks, hend]
          rfl
        simp [closeTag?, hslash', hbody', span_further hrest, hend', hname]

theorem openTag?_further (h : openTag? t ≠ none) : openTag? (t ++ u) ≠ none := by
  simp only [openTag?, ne_eq, ite_eq_left_iff, reduceCtorEq, imp_false, not_not] at h ⊢
  have hbody : dropBlanks t ≠ [] := by
    intro hnil
    simp [hnil] at h
  have hbody' : dropBlanks (t ++ u) = dropBlanks t ++ u := (span_further hbody).2
  obtain ⟨c, cs, hcs⟩ := List.exists_cons_of_ne_nil hbody
  rw [hbody', hcs]
  cases hc : isTagNameChar c <;> simp_all

/-- What begins markup does so whatever follows. -/
theorem markup?_further (h : markup? (t ++ u) = none) : markup? t = none := by
  obtain ⟨doctype, comment, close, opening⟩ := markup?_eq_none.1 h
  refine markup?_eq_none.2 ⟨?_, ?_, ?_, ?_⟩ <;> by_contra hne
  · exact doctype?_further hne doctype
  · exact commentStart?_further hne comment
  · exact closeTag?_further hne close
  · exact openTag?_further hne opening

/-! An opening bracket ends whatever is being recognised, except a document type. -/

/-- The keyword of a document type and the space behind it hold no bracket. -/
theorem length_of_keyword {run body : List Char}
    (hkeyword : ((run ++ '<' :: rest).take 7).map Char.toLower = "doctype".toList)
    (hbody : (run ++ '<' :: rest).drop 7 = ' ' :: body) : 7 < run.length := by
  by_contra hle
  rcases Nat.lt_or_eq_of_le (Nat.not_lt.1 hle) with hlt | heq
  · have hmem : '<' ∈ (run ++ '<' :: rest).take 7 := by
      rw [List.take_append, List.mem_append]
      right
      obtain ⟨k, hk⟩ := Nat.exists_eq_succ_of_ne_zero (Nat.sub_ne_zero_of_lt hlt)
      simp [hk]
    have hlower := List.mem_map_of_mem (f := Char.toLower) hmem
    rw [hkeyword] at hlower
    exact absurd hlower (by decide)
  · rw [List.drop_append_of_le_length (by omega), ← heq, List.drop_length] at hbody
    simp at hbody

theorem doctype?_bracket (h : doctype? t = none) (hdoctype : ¬OpensDoctype t) :
    doctype? (t ++ '<' :: rest) = none := by
  by_contra hne
  obtain ⟨run, body, ht, hkeyword, hbody⟩ := keyword_of_doctype? hne
  cases t with
  | nil => simp at ht
  | cons c run' =>
    rw [List.cons_append] at ht
    obtain ⟨rfl, rfl⟩ := List.cons.inj ht
    have hlength := length_of_keyword hkeyword hbody
    have hkeyword' : (run'.take 7).map Char.toLower = "doctype".toList := by
      rwa [List.take_append_of_le_length (by omega)] at hkeyword
    obtain ⟨body', hbody', rfl⟩ : ∃ body', run'.drop 7 = ' ' :: body' ∧
        body' ++ '<' :: rest = body := by
      rw [List.drop_append_of_le_length (by omega)] at hbody
      cases hdrop : run'.drop 7 with
      | nil => simp [hdrop] at hbody
      | cons c body' =>
        rw [hdrop] at hbody
        obtain ⟨rfl, rfl⟩ := List.cons.inj hbody
        exact ⟨body', rfl, rfl⟩
    -- the document type has its end already, so it is its first character that spoils it
    have hend : '>' ∈ body' := by
      by_contra habsent
      exact hdoctype ⟨run', body', rfl, hkeyword', hbody', habsent⟩
    have hhead : body'.head? = some '>' :=
      ((doctype?_eq_none hkeyword' hbody').1 h).resolve_left (not_not.2 hend)
    refine hne ((doctype?_eq_none hkeyword hbody).2 (.inr ?_))
    rw [List.head?_append, hhead]
    rfl

theorem commentStart?_bracket (h : commentStart? t = none) :
    commentStart? (t ++ '<' :: rest) = none := by
  by_contra hne
  unfold commentStart? at hne
  split at hne <;> try contradiction
  next run ht => rcases t with _ | ⟨a, _ | ⟨b, _ | ⟨c, t⟩⟩⟩ <;> simp_all [commentStart?]

theorem closeTag?_bracket (h : closeTag? t = none) : closeTag? (t ++ '<' :: rest) = none := by
  have hblank : ∀ l : List Char, dropBlanks (l ++ '<' :: rest) = dropBlanks l ++ '<' :: rest :=
    fun l => (span_stop rfl).2
  have hname : ∀ l : List Char, (l ++ '<' :: rest).takeWhile isTagNameChar =
      l.takeWhile isTagNameChar := fun l => (span_stop rfl).1
  have hbehind : ∀ l : List Char, (l ++ '<' :: rest).dropWhile isTagNameChar =
      l.dropWhile isTagNameChar ++ '<' :: rest := fun l => (span_stop rfl).2
  rw [closeTag?] at h ⊢
  rw [hblank]
  cases hslash : dropBlanks t with
  | nil => simp
  | cons c run =>
    by_cases hc : c = '/'
    · subst hc
      simp only [hslash, List.cons_append, hblank, hname, hbehind] at h ⊢
      cases hend : dropBlanks ((dropBlanks run).dropWhile isTagNameChar) with
      | nil => simp
      | cons e after =>
        by_cases he : e = '>'
        · subst he
          simpa [hend] using h
        · simp [he]
    · simp [hc]

theorem openTag?_bracket (h : openTag? t = none) : openTag? (t ++ '<' :: rest) = none := by
  have hbody : dropBlanks (t ++ '<' :: rest) = dropBlanks t ++ '<' :: rest := (span_stop rfl).2
  have hname : ∀ l : List Char, (l ++ '<' :: rest).takeWhile isTagNameChar =
      l.takeWhile isTagNameChar := fun l => (span_stop rfl).1
  simp only [openTag?, hbody, hname] at h ⊢
  split at h
  next hnil => rw [if_pos hnil]
  next => contradiction

/-- What begins no markup begins none in front of a tag either, unless it begins a document
type. -/
theorem markup?_atTag (h : markup? t = none) (hdoctype : rest ≠ [] → ¬OpensDoctype t)
    (ends : AtTag rest) : markup? (t ++ rest) = none := by
  cases rest with
  | nil => rwa [List.append_nil]
  | cons c rest =>
    obtain rfl := ends c rfl
    obtain ⟨doctype, comment, close, opening⟩ := markup?_eq_none.1 h
    exact markup?_eq_none.2 ⟨doctype?_bracket doctype (hdoctype (List.cons_ne_nil _ _)),
      commentStart?_bracket comment,
      closeTag?_bracket close, openTag?_bracket opening⟩

/-! ### Texts that stay texts -/

/-- No opening bracket in a text begins markup with the text behind, and none a document type
if a tag comes somewhere. -/
def StaysText (tagged : Prop) (text behind : List Char) : Prop :=
  ∀ t, '<' :: t <:+ text →
    markup? (t ++ behind) = none ∧ (tagged → ¬OpensDoctype (t ++ behind))

variable {tagged : Prop} {text text' behind : List Char}

theorem StaysText.of_notMem (h : '<' ∉ text) : StaysText tagged text behind :=
  fun _ ht => absurd (ht.subset (List.mem_cons_self ..)) h

theorem StaysText.suffix (h : StaysText tagged text behind) (suffix : text' <:+ text) :
    StaysText tagged text' behind := fun t ht => h t (ht.trans suffix)

theorem StaysText.mono {tagged' : Prop} (h : StaysText tagged text behind) (imp : tagged' → tagged) :
    StaysText tagged' text behind := fun t ht => ⟨(h t ht).1, fun h' => (h t ht).2 (imp h')⟩

theorem StaysText.append (h : StaysText tagged text (text' ++ behind))
    (h' : StaysText tagged text' behind) : StaysText tagged (text ++ text') behind := by
  rintro u ⟨front, hu⟩
  rcases List.append_eq_append_iff.1 hu with ⟨as, rfl, hsplit⟩ | ⟨bs, -, rfl⟩
  · cases as with
    | nil => exact h' u ⟨[], hsplit⟩
    | cons a as =>
      rw [List.cons_append] at hsplit
      obtain ⟨rfl, rfl⟩ := List.cons.inj hsplit
      rw [List.append_assoc]
      exact h as ⟨front, rfl⟩
  · exact h' u ⟨bs, rfl⟩

theorem dropWhile_atTag (ends : AtTag rest) :
    (text ++ rest).dropWhile (fun c => decide (c ≠ '<')) =
      text.dropWhile (fun c => decide (c ≠ '<')) ++ rest := by
  cases rest with
  | nil => simp
  | cons c rest =>
    obtain rfl := ends c rfl
    exact (span_stop (by simp)).2

/-- In front of a tag a text is scanned as text, some of it at least. -/
theorem scan_staysText (stays : StaysText (rest ≠ []) text []) (ends : AtTag rest)
    (hblank : ¬∀ c ∈ text, isBlank c = true) : ∃ run text', text' <:+ text ∧
      text'.length < text.length ∧ scan (text ++ rest) = (.text run, text' ++ rest) := by
  have hne : dropBlanks text ≠ [] := fun hnil => hblank (List.dropWhile_eq_nil_iff.1 hnil)
  obtain ⟨c, t, hct⟩ := List.exists_cons_of_ne_nil hne
  have hdrop : dropBlanks (text ++ rest) = c :: (t ++ rest) := by
    rw [dropBlanks, (span_further hne).2, ← dropBlanks, hct]
    rfl
  have hsuffix : c :: t <:+ text := hct ▸ List.dropWhile_suffix _
  have hbracket : c = '<' → scan (text ++ rest) =
      (.text ((text ++ rest).takeWhile isBlank ++ '<' :: (t ++ rest).takeWhile (· ≠ '<')),
        t.dropWhile (· ≠ '<') ++ rest) := by
    rintro rfl
    obtain ⟨none, doctype⟩ := stays t hsuffix
    rw [List.append_nil] at none doctype
    simp only [scan, hdrop, markup?_atTag none doctype ends, Option.getD_none, dropWhile_atTag ends]
  by_cases hc : c = '<'
  · refine ⟨_, _, ?_, ?_, hbracket hc⟩
    · exact (List.dropWhile_suffix _).trans ((List.suffix_cons ..).trans hsuffix)
    · have h1 := length_dropWhile_le (fun c => decide (c ≠ '<')) t
      have h2 := hsuffix.length_le
      simp only [List.length_cons] at h2
      omega
  · have hscan : scan (text ++ rest) =
        (.text ((text ++ rest).takeWhile (· ≠ '<')), text.dropWhile (· ≠ '<') ++ rest) := by
      simp only [scan, hdrop, dropWhile_atTag ends]
      split
      next heq => exact absurd (List.cons.inj heq).1 hc
      next => rfl
    refine ⟨_, _, List.dropWhile_suffix _, ?_, hscan⟩
    apply length_dropWhile_lt
    cases text with
    | nil => simp [dropBlanks] at hne
    | cons a as =>
      have ha : a ≠ '<' := by
        rintro rfl
        simp [dropBlanks, isBlank] at hct
        exact hc hct.1.symm
      simp [ha]

end Content
end Token

namespace Draft

/-- The reader gets past text to the tag behind it, but for blanks that go with the tag. -/
theorem readRun_staysText {d : Draft} (hasNext : Bool) {rest text : List Char}
    (hmode : d.mode = .content) (stays : Token.Content.StaysText (rest ≠ []) text [])
    (ends : AtTag rest) : ∃ (d' : Draft) (blanks : List Char), d'.mode = .content ∧
      (∀ c ∈ blanks, isBlank c = true) ∧ d'.bones = d.bones ∧
      d.readRun hasNext (text ++ rest) = d'.readRun hasNext (blanks ++ rest) := by
  by_cases hblank : ∀ c ∈ text, isBlank c = true
  · exact ⟨d, text, hmode, hblank, rfl, rfl⟩
  · obtain ⟨run, text', suffix, hlength, hscan⟩ :=
      Token.Content.scan_staysText stays ends hblank
    obtain ⟨hmode₁, hbones₁⟩ := takeText_bones hmode run
    obtain ⟨d', blanks, hmode', hblanks, hbones', reads⟩ :=
      readRun_staysText hasNext hmode₁ (stays.suffix suffix) ends
    refine ⟨d', blanks, hmode', hblanks, hbones'.trans hbones₁, ?_⟩
    have hne : text ++ rest ≠ [] := by
      intro hnil
      simp [(List.append_eq_nil_iff.1 hnil).1] at hblank
    rw [readRun_step hne (step_content hmode hscan), reads]
termination_by text.length

end Draft

/-! ### Forests whose markup is read again -/

namespace Node
open Token.Content

/-- The text that stands in front of any tag. -/
def textAhead : List Node → List Char
  | .text data :: rest => data.toList ++ textAhead rest
  | _ => []

/-- A tag stands among the nodes, or behind them. -/
def Tagged (closed : Prop) (ns : List Node) : Prop := (∃ n ∈ ns, n.isText = false) ∨ closed

theorem tagged_text {closed : Prop} {data : String} {ns : List Node} :
    Tagged closed (.text data :: ns) ↔ Tagged closed ns := by
  simp [Tagged, isText]

mutual
/-- A node whose markup has the same bones, if no text in it means anything else there. -/
def Rereadable : Node → Prop
  | .element tag attrs children =>
      IsTagName tag.toList ∧ (Entries.names attrs).Nodup ∧ (∀ a ∈ attrs, CanonicalAttr a) ∧
        (isVoidTag tag = true → children = []) ∧ RereadableAll True children
  | .text _ => True
  | .hole _ => False
termination_by structural n => n

/-- The same of nodes side by side, behind which a tag comes if they are closed. -/
def RereadableAll (closed : Prop) : List Node → Prop
  | [] => True
  | n :: rest =>
      n.Rereadable ∧
        (∀ data, n = .text data → StaysText (Tagged closed rest) data.toList (textAhead rest)) ∧
        RereadableAll closed rest
termination_by structural ns => ns
end

variable {options : MarkupOptions} {contentAt : Nat → String}

mutual
/-- The reader gets past the markup of an element. -/
theorem passes_rereadable : (n : Node) → n.Rereadable → n.isText = false →
    Passes (Markup.node options [] contentAt n).toList n.bones
  | .element tag attrs children, ⟨named, nodup, canonical, void, kids⟩, _ => by
      have confined := confined_literalOutputs canonical
      have hbones : (Node.element tag attrs children).bones =
          [.element tag (writtenAttrs (literalOutputs attrs)) (bonesAll children)] := by
        rw [writtenAttrs_of_canonical nodup canonical]
        rfl
      cases hvoid : isVoidTag tag with
      | true =>
        obtain rfl := void hvoid
        rw [toList_void canonical hvoid, attributes_of_canonical canonical, hbones]
        exact Passes.voidElement rfl named confined hvoid options.selfCloseVoid
      | false =>
        rw [toList_element canonical hvoid, attributes_of_canonical canonical, hbones]
        refine Passes.around rfl named confined hvoid fun d hasNext rest hmode => ?_
        have hclosing : (Markup.closingTag tag).toList ++ rest =
            '<' :: '/' :: (tag.toList ++ '>' :: rest) := by
          simp [Markup.closingTag]
        have ends : AtTag ((Markup.closingTag tag).toList ++ rest) := by
          simp [AtTag, Markup.closingTag]
        obtain ⟨d₁, text, hmode₁, stays, bones₁, reads₁⟩ :=
          readRun_rereadable children kids hasNext hmode (.of_notMem List.not_mem_nil) ends
            fun _ => trivial
        obtain ⟨d₂, blanks, hmode₂, hblanks, bones₂, reads₂⟩ :=
          Draft.readRun_staysText hasNext hmode₁ (stays.mono fun _ => trivial) ends
        refine ⟨d₂, hmode₂, bones₂.trans bones₁, ?_⟩
        rw [List.nil_append] at reads₁
        rw [reads₁, reads₂, hclosing,
          Draft.readRun_blanks hmode₂ hblanks (Token.Content.markup?_closeTag named),
          Draft.takeContent, String.ofList_toList]
termination_by structural n => n

/-- The reader gets past the markup of a forest, and the text in front of it, if a tag comes
next, or nothing. It leaves some text for later. -/
theorem readRun_rereadable {closed : Prop} : (ns : List Node) → RereadableAll closed ns →
    ∀ {d : Draft} (hasNext : Bool) {before rest : List Char}, d.mode = .content →
    StaysText (Tagged closed ns) before (textAhead ns) → AtTag rest → (rest ≠ [] → closed) →
    ∃ (d' : Draft) (before' : List Char), d'.mode = .content ∧ StaysText closed before' [] ∧
      d'.bones = d.bones.addAll (bonesAll ns) ∧
      d.readRun hasNext (before ++ ((Markup.nodes options [] contentAt ns).toList ++ rest)) =
        d'.readRun hasNext (before' ++ rest)
  | [], _, d, hasNext, before, rest, hmode, stays, _, _ =>
      ⟨d, before, hmode, stays.mono .inr, by simp [bonesAll], by simp [Markup.nodes]⟩
  | .text data :: ns, ⟨_, texts, others⟩, d, hasNext, before, rest, hmode, stays, ends, hclosed => by
      have joined := (stays.mono tagged_text.2).append (texts data rfl)
      obtain ⟨d', before', hmode', stays', bones', reads⟩ :=
        readRun_rereadable ns others hasNext hmode joined ends hclosed
      refine ⟨d', before', hmode', stays', bones', ?_⟩
      rw [← reads]
      simp [Markup.nodes, Markup.node]
  | .hole index :: ns, ⟨hn, _, _⟩, _, _, _, _, _, _, _, _ => hn.elim
  | .element tag attrs children :: ns, ⟨hn, _, others⟩, d, hasNext, before, rest, hmode, stays,
      ends, hclosed => by
      have tagNext : AtTag ((Markup.node options [] contentAt (.element tag attrs children)).toList ++
          ((Markup.nodes options [] contentAt ns).toList ++ rest)) := by
        simp [AtTag, Markup.node]
      have tagged : Tagged closed (.element tag attrs children :: ns) :=
        .inl ⟨_, List.mem_cons_self .., rfl⟩
      -- the text in front of the tag is done with, so what is left behind the tag is no bracket
      obtain ⟨d₁, blanks, hmode₁, hblanks, bones₁, reads₁⟩ :=
        Draft.readRun_staysText hasNext hmode (stays.mono fun _ => tagged) tagNext
      have hopen : '<' ∉ blanks := fun h => absurd (hblanks _ h) (by decide)
      obtain ⟨d₂, before₂, hmode₂, hbefore₂, bones₂, reads₂⟩ :=
        passes_rereadable (.element tag attrs children) hn rfl d₁ hasNext blanks
          ((Markup.nodes options [] contentAt ns).toList ++ rest) hmode₁ hopen
      obtain ⟨d₃, before₃, hmode₃, stays₃, bones₃, reads₃⟩ :=
        readRun_rereadable ns others hasNext hmode₂ (.of_notMem hbefore₂) ends hclosed
      refine ⟨d₃, before₃, hmode₃, stays₃, ?_, ?_⟩
      · rw [bones₃, bones₂, bones₁, Draft.addAll_addAll]
        rfl
      · rw [← reads₃, ← reads₂, ← reads₁]
        simp [Markup.nodes]
termination_by structural ns => ns
end

end Node

/-! ### Texts that are read -/

namespace Text

theorem dropBrokenLead_suffix (cs : List Char) : dropBrokenLead cs <:+ cs := by
  unfold dropBrokenLead
  split
  · exact List.dropWhile_suffix _
  · exact List.suffix_rfl

theorem trimLineBreaks_infix (cs : List Char) : trimLineBreaks cs <:+: cs := by
  have front := dropBrokenLead_suffix cs
  have back : trimLineBreaks cs <+: dropBrokenLead cs := by
    have h := dropBrokenLead_suffix (dropBrokenLead cs).reverse
    rwa [← List.reverse_prefix, List.reverse_reverse] at h
  exact back.isInfix.trans front.isInfix

end Text

namespace Token.Content

theorem markup?_ne_text {cs rest run : List Char} : markup? cs ≠ some (.text run, rest) := by
  intro h
  rcases markup?_cases h with h | h | h | h
  · exact absurd (doctype?_fst h) (by simp)
  · exact absurd (commentStart?_fst h) (by simp)
  · obtain ⟨_, heq⟩ := closeTag?_fst h
    contradiction
  · obtain ⟨_, heq, -⟩ := openTag?_fst h
    contradiction

/-- An opening bracket in a text that is scanned has only blanks before it, and begins nothing with
what stands behind it. -/
theorem scan_text_bracket {cs rest run front back : List Char} (h : scan cs = (.text run, rest))
    (hrun : run = front ++ '<' :: back) :
    (∀ c ∈ front, isBlank c = true) ∧ markup? back = none := by
  have bracketless : ∀ l : List Char, '<' ∉ l.takeWhile fun c => decide (c ≠ '<') :=
    fun l hmem => by simpa using mem_takeWhile _ hmem
  unfold scan at h
  split at h
  next input _ =>
    cases hm : markup? input with
    | some found =>
      simp only [hm, Option.getD_some] at h
      exact absurd (h ▸ hm) markup?_ne_text
    | none =>
      simp only [hm, Option.getD_none, Prod.mk.injEq, text.injEq] at h
      have hblank : '<' ∉ cs.takeWhile isBlank := fun hmem =>
        absurd (mem_takeWhile _ hmem) (by decide)
      obtain ⟨hfront, -, hinput⟩ :=
        (List.append_cons_inj_of_notMem hblank (bracketless input)).1 (h.1.trans hrun)
      rw [← List.takeWhile_append_dropWhile (p := fun c => decide (c ≠ '<')) (l := input),
        hinput] at hm
      exact ⟨hfront ▸ mem_takeWhile, markup?_further hm⟩
  next =>
    simp only [Prod.mk.injEq, text.injEq] at h
    refine absurd ?_ (bracketless cs)
    rw [h.1, hrun]
    simp

/-- A text that is scanned begins no markup on its own, nor does what is left of it. -/
theorem scan_text_alone {cs rest run t : List Char} (h : scan cs = (.text run, rest))
    (ht : '<' :: t <:+ trimLineBreaks run) : markup? t = none := by
  obtain ⟨front, back, hrun⟩ := trimLineBreaks_infix run
  obtain ⟨front', htrim⟩ := ht
  have hsplit : run = front ++ front' ++ '<' :: (t ++ back) := by
    rw [← hrun, ← htrim]
    simp
  exact markup?_further (scan_text_bracket h hsplit).2

end Token.Content

/-- A text in which no opening bracket begins markup with what stands behind it in the text. -/
def AloneText (data : String) : Prop :=
  ∀ t, '<' :: t <:+ data.toList → Token.Content.markup? t = none

/-- Every text of a skeleton that is read begins no markup on its own. -/
theorem Skeleton.parse_aloneText {fragments : List String} {s : Skeleton}
    (h : parse fragments = .ok s) {data : String} (hmem : .text data ∈ Node.preorderAll s.nodes) :
    AloneText data := by
  have scanned : OfScannedText AloneText := by
    intro cs run rest hscan _ t ht
    rw [String.toList_ofList] at ht
    exact Token.Content.scan_text_alone hscan ht
  exact parse_texts scanned h hmem

/-! ### The markup of a skeleton that was read -/

/-- A name without a sign in front that is not reserved. -/
def IsPlainName (name : String) : Prop :=
  name ∉ [Binding.keyName, Binding.referenceName, Binding.markupName] ∧
    ∀ c ∈ name.toList.head?, Token.isSigil c = false

instance : DecidablePred IsPlainName := fun name =>
  have : Decidable (∀ c ∈ name.toList.head?, Token.isSigil c = false) :=
    decidable_of_iff (name.toList.head?.all (!Token.isSigil ·) = true) (by
      simp [Option.all_eq_true])
  inferInstanceAs (Decidable (_ ∧ _))

theorem IsBindingName.bare_of_plain {name : String} (h : IsBindingName name) (plain : IsPlainName name) :
    IsBareName name.toList := by
  rcases h with rfl | ⟨sigil, bare, hname, -, hsigil, hbare⟩
  · exact absurd (plain.2 '.' rfl) (by decide)
  · cases sigil with
    | nil => exact hname ▸ hbare
    | cons c cs =>
      have hc := hsigil c (List.mem_cons_self ..)
      rw [plain.2 c (by rw [hname]; rfl)] at hc
      contradiction

/-- No opening bracket in a text begins markup together with the texts that stand right behind
it. None begins a document type that has no end there, if a tag comes somewhere. -/
def KeepsApart (tagged : Prop) (data : String) (behind : List Char) : Prop :=
  ∀ t, '<' :: t <:+ data.toList → (behind ≠ [] → Token.Content.markup? (t ++ behind) = none) ∧
    (tagged → ¬Token.Content.OpensDoctype (t ++ behind))

theorem KeepsApart.of_notMem {tagged : Prop} {data : String} {behind : List Char}
    (h : '<' ∉ data.toList) : KeepsApart tagged data behind :=
  fun _ ht => absurd (ht.subset (List.mem_cons_self ..)) h

theorem KeepsApart.staysText {tagged : Prop} {data : String} {behind : List Char}
    (apart : KeepsApart tagged data behind) (alone : AloneText data) :
    Token.Content.StaysText tagged data.toList behind := by
  intro t ht
  obtain ⟨joined, doctype⟩ := apart t ht
  refine ⟨?_, doctype⟩
  by_cases hbehind : behind = []
  · rw [hbehind, List.append_nil]
    exact alone t ht
  · exact joined hbehind

namespace Node

/-- Of nodes side by side, each text keeps apart from the texts right behind it. The nodes are
closed if a tag comes behind them. -/
def TextsApart (closed : Prop) (ns : List Node) : Prop :=
  ∀ front data rest, ns = front ++ .text data :: rest →
    KeepsApart (Tagged closed rest) data (textAhead rest)

theorem textsApart_nil {closed : Prop} : TextsApart closed [] := by
  intro front data rest h
  simp at h

theorem textsApart_cons {closed : Prop} {n : Node} {rest : List Node} :
    TextsApart closed (n :: rest) ↔
      (∀ data, n = .text data → KeepsApart (Tagged closed rest) data (textAhead rest)) ∧
        TextsApart closed rest := by
  constructor
  · intro h
    constructor
    · rintro data rfl
      exact h [] data rest rfl
    · rintro front data behind rfl
      exact h (n :: front) data behind rfl
  · rintro ⟨first, others⟩ front data behind h
    cases front with
    | nil =>
      obtain ⟨rfl, rfl⟩ := List.cons.inj h
      exact first data rfl
    | cons m front => exact others front data behind (List.cons.inj h).2

/-- What has to hold of an element. Its attributes are plain and have no quote in them, and
its texts keep apart. -/
structure Harmless (attrs : List (String × AttrValue)) (children : List Node) : Prop where
  plain : ∀ name ∈ Entries.names attrs, IsPlainName name
  quotes : ∀ name text, (name, .literal text) ∈ attrs → '"' ∉ text.toList
  texts : TextsApart True children

theorem Harmless.canonical {attrs : List (String × AttrValue)} {children : List Node}
    (h : Harmless attrs children) (names : ∀ name ∈ Entries.names attrs, IsBindingName name)
    (holes : attrHoles attrs = []) : ∀ a ∈ attrs, CanonicalAttr a := by
  rintro ⟨name, value⟩ ha
  have hname : name ∈ Entries.names attrs := List.mem_map_of_mem ha
  have plain := h.plain name hname
  cases value with
  | literal text => exact ⟨(names name hname).bare_of_plain plain, plain.1, h.quotes name text ha⟩
  | hole i =>
    have hi : i ∈ attrHoles attrs := List.mem_filterMap.2 ⟨_, ha, rfl⟩
    simp [holes] at hi

mutual
theorem rereadable_of : (n : Node) → n.Proper →
    (∀ tag attrs children, .element tag attrs children ∈ n.preorder → Harmless attrs children) →
    (∀ data, .text data ∈ n.preorder → AloneText data) → n.holes = [] → n.Rereadable
  | .text data, _, _, _, _ => trivial
  | .hole index, _, _, _, holes => by simp [Node.holes] at holes
  | .element tag attrs children, ⟨named, nodup, names, void, kids⟩, elements, alone, holes => by
      have harmless := elements tag attrs children (List.mem_cons_self ..)
      obtain ⟨hattrs, hchildren⟩ := List.append_eq_nil_iff.1 holes
      refine ⟨named, nodup, harmless.canonical names hattrs, void, ?_⟩
      exact rereadableAll_of children kids harmless.texts
        (fun tag attrs ns h => elements tag attrs ns (List.mem_cons_of_mem _ h))
        (fun data h => alone data (List.mem_cons_of_mem _ h)) hchildren
termination_by structural n => n

/-- A forest is rereadable by what holds of all elements and texts in it. -/
theorem rereadableAll_of {closed : Prop} : (ns : List Node) → ProperAll ns → TextsApart closed ns →
    (∀ tag attrs children, .element tag attrs children ∈ preorderAll ns → Harmless attrs children) →
    (∀ data, .text data ∈ preorderAll ns → AloneText data) → holesAll ns = [] →
    RereadableAll closed ns
  | [], _, _, _, _, _ => trivial
  | n :: rest, ⟨hn, others⟩, apart, elements, alone, holes => by
      obtain ⟨hn', hrest⟩ := List.append_eq_nil_iff.1 holes
      obtain ⟨first, apartRest⟩ := textsApart_cons.1 apart
      refine ⟨?_, ?_, ?_⟩
      · exact rereadable_of n hn
          (fun tag attrs ns h => elements tag attrs ns (List.mem_append_left _ h))
          (fun data h => alone data (List.mem_append_left _ h)) hn'
      · rintro data rfl
        exact (first data rfl).staysText
          (alone data (List.mem_append_left _ (List.mem_singleton_self _)))
      · exact rereadableAll_of rest others apartRest
          (fun tag attrs ns h => elements tag attrs ns (List.mem_append_right _ h))
          (fun data h => alone data (List.mem_append_right _ h)) hrest
termination_by structural ns => ns
end

end Node

namespace Skeleton

/-- The markup of a skeleton that was read from one fragment, with plain names only, is read again
with the same bones, if no value has a quote in it and texts keep apart. -/
theorem parse_rewritten {m : String} {s : Skeleton} (h : parse [m] = .ok s)
    (plain : ∀ tag attrs children, .element tag attrs children ∈ Node.preorderAll s.nodes →
      ∀ name ∈ Entries.names attrs, IsPlainName name)
    (quotes : ∀ tag attrs children, .element tag attrs children ∈ Node.preorderAll s.nodes →
      ∀ name text, (name, .literal text) ∈ attrs → '"' ∉ text.toList)
    (top : Node.TextsApart False s.nodes)
    (inner : ∀ tag attrs children, .element tag attrs children ∈ Node.preorderAll s.nodes →
      Node.TextsApart True children)
    (options : MarkupOptions) :
    ∃ s', parse [Markup.filled options [] s] = .ok s' ∧
      Node.bonesAll s'.nodes = Node.bonesAll s.nodes := by
  have wellFormed := parse_wellFormed h
  have holes : Node.holesAll s.nodes = [] := by
    have hcount : s.holes = 0 := (parse_told h).2.2
    refine List.eq_nil_iff_forall_not_mem.2 fun i hi => ?_
    simpa [hcount] using wellFormed.lt_holes i hi
  have harmless : ∀ tag attrs children, .element tag attrs children ∈ Node.preorderAll s.nodes →
      Node.Harmless attrs children := fun tag attrs children hmem =>
    ⟨plain tag attrs children hmem, quotes tag attrs children hmem, inner tag attrs children hmem⟩
  have rereadable := Node.rereadableAll_of s.nodes wellFormed.proper top harmless
    (fun data => parse_aloneText h) holes
  obtain ⟨d₁, text, hmode₁, stays, bones₁, reads₁⟩ :=
    @Node.readRun_rereadable options (Markup.contentAt options []) False s.nodes rereadable {} false
      [] [] rfl (.of_notMem List.not_mem_nil) (by simp [AtTag]) (fun hne => hne rfl)
  obtain ⟨d₂, blanks, hmode₂, hblanks, bones₂, reads₂⟩ :=
    @Draft.readRun_staysText d₁ false [] text hmode₁ (stays.mono fun hne => hne rfl)
      (by simp [AtTag])
  have hopen : '<' ∉ blanks := fun h => absurd (hblanks _ h) (by decide)
  obtain ⟨d₃, hmode₃, bones₃, reads₃⟩ := @Draft.readRun_text d₂ false blanks hmode₂ hopen
  refine parse_of_readRun hmode₃ (bones₃.trans (bones₂.trans bones₁)) ?_
  simp only [List.nil_append, List.append_nil] at reads₁ reads₂
  exact reads₁.trans (reads₂.trans reads₃)

/-- Texts around comments, a bracket that stays a bracket, values in other quotes, closing tags
that close nothing, and a document type that is never closed. -/
theorem parse_rewritten_paragraph :
    let s : Skeleton := ⟨[.text "1 ", .text "<= 2", .text "d", .element "p"
      [("id", .literal "x"), ("y", .literal "1")] [.text "e", .element "br" [("z", .literal "")] [],
        .text "f"], .text "<!doctype g"], 0⟩
    parse ["1 <= 2<!-- c -->d<p id=x y='1'>e</q><br z>f</p><!doctype g"] = .ok s ∧
      Markup.filled ⟨false, true⟩ [] s =
        "1 <= 2d<p id=\"x\" y=\"1\">e<br z=\"\">f</p><!doctype g" ∧
      ∃ s', parse [Markup.filled ⟨false, true⟩ [] s] = .ok s' ∧
        Node.bonesAll s'.nodes = Node.bonesAll s.nodes := by
  intro s
  have read : parse ["1 <= 2<!-- c -->d<p id=x y='1'>e</q><br z>f</p><!doctype g"] = .ok s := by
    decide +kernel
  have elements : ∀ tag attrs children, .element tag attrs children ∈ Node.preorderAll s.nodes →
      (tag = "p" ∧ attrs = [("id", .literal "x"), ("y", .literal "1")] ∧
        children = [.text "e", .element "br" [("z", .literal "")] [], .text "f"]) ∨
      (tag = "br" ∧ attrs = [("z", .literal "")] ∧ children = []) := by
    simp [s, Node.preorder]
  refine ⟨read, by decide +kernel, parse_rewritten read ?_ ?_ ?_ ?_ _⟩
  · intro tag attrs children h
    rcases elements tag attrs children h with ⟨-, rfl, -⟩ | ⟨-, rfl, -⟩ <;> decide
  · intro tag attrs children h name text htext
    have unquoted : text ∈ ["x", "1", ""] := by
      rcases elements tag attrs children h with ⟨-, rfl, -⟩ | ⟨-, rfl, -⟩ <;> simp at htext <;> grind
    exact (by decide : ∀ text ∈ ["x", "1", ""], '"' ∉ text.toList) text unquoted
  · have bracket : KeepsApart (Node.Tagged False (s.nodes.drop 2)) "<= 2" ['d'] := by
      intro t ht
      have htext : "<= 2".toList = ['<', '=', ' ', '2'] := rfl
      obtain rfl : t = ['=', ' ', '2'] := by simpa [htext, List.suffix_cons_iff] using ht
      refine ⟨fun _ => by decide, ?_⟩
      rintro - ⟨run, body, hrun, -⟩
      simp at hrun
    have last : KeepsApart (Node.Tagged False []) "<!doctype g" [] := fun _ _ =>
      ⟨fun h => absurd rfl h, fun h => by simp [Node.Tagged] at h⟩
    have plainTexts : KeepsApart (Node.Tagged False (s.nodes.drop 1)) "1 " ['<', '=', ' ', '2', 'd'] ∧
        KeepsApart (Node.Tagged False (s.nodes.drop 3)) "d" [] :=
      ⟨.of_notMem (by decide), .of_notMem (by decide)⟩
    refine Node.textsApart_cons.2 ⟨?_, Node.textsApart_cons.2 ⟨?_, Node.textsApart_cons.2 ⟨?_,
      Node.textsApart_cons.2 ⟨by simp, Node.textsApart_cons.2 ⟨?_, Node.textsApart_nil⟩⟩⟩⟩⟩
    · rintro _ ⟨⟩
      exact plainTexts.1
    · rintro _ ⟨⟩
      exact bracket
    · rintro _ ⟨⟩
      exact plainTexts.2
    · rintro _ ⟨⟩
      exact last
  · intro tag attrs children h
    rcases elements tag attrs children h with ⟨-, -, rfl⟩ | ⟨-, -, rfl⟩
    · simp [Node.textsApart_cons, Node.textsApart_nil, KeepsApart.of_notMem]
    · exact Node.textsApart_nil

/-- A skeleton with plain names only is read from the fragment, and its markup is read otherwise. -/
def ReadOtherwise (m : String) (ns : List Node) (rewritten : String) : Prop :=
  parse [m] = .ok ⟨ns, 0⟩ ∧
    (∀ tag attrs children, .element tag attrs children ∈ Node.preorderAll ns →
      ∀ name ∈ Entries.names attrs, IsPlainName name) ∧
    Markup.filled {} [] ⟨ns, 0⟩ = rewritten ∧
    ¬∃ s', parse [rewritten] = .ok s' ∧ Node.bonesAll s'.nodes = Node.bonesAll ns

/-- Three ways to be read otherwise: a quote in a value, a bracket and a text that begin an element
together, and a document type that the next tag closes. -/
theorem rewritten_otherwise :
    ReadOtherwise "<a x='\"'></a>" [.element "a" [("x", .literal "\"")] []] "<a x=\"\"\"></a>" ∧
      ReadOtherwise "<<!-- -->b>" [.text "<", .text "b>"] "<b>" ∧
      ReadOtherwise "<!doctype x<b c=1" [.text "<!doctype x", .element "b" [("c", .literal "1")] []]
        "<!doctype x<b c=\"1\"></b>" := by
  have otherwise : ∀ (m : String) (ns : List Node),
      (parse [m]).toOption.all (fun s' => Node.bonesAll s'.nodes ≠ Node.bonesAll ns) = true →
      ¬∃ s', parse [m] = .ok s' ∧ Node.bonesAll s'.nodes = Node.bonesAll ns := by
    rintro m ns h ⟨s', hs', hbones⟩
    simp [hs', hbones, Except.toOption] at h
  refine ⟨?_, ?_, ?_⟩
  all_goals refine ⟨by decide +kernel, ?_, by decide +kernel, otherwise _ _ (by decide +kernel)⟩
  all_goals
    intro tag attrs children h
    simp only [Node.preorder, Node.preorderAll_cons, Node.preorderAll_nil, List.cons_append,
      List.nil_append, List.mem_cons, List.not_mem_nil, or_false, reduceCtorEq, false_or,
      Node.element.injEq] at h
  · obtain ⟨-, rfl, -⟩ := h
    decide
  · obtain ⟨-, rfl, -⟩ := h
    decide

end Skeleton

end LiveTemplate
